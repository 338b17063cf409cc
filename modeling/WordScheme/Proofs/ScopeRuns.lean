import Mathlib
import WordScheme.Proofs.Acceptance

/-!
# Scopes are restored

`Scope.run` performs a list of operations on a scope. Operations are balanced if they close only
frames that they have opened, and all of these (`Balanced`). Behind a frame that is opened, balanced
operations and the closing of the frame, a scope is what it was before, but for names that have got
another binding while none of the frames opened meanwhile had them. Such a change escapes
(`Scope.escapes`): the innermost of the old frames that has the name takes it, and the last of these
changes stays. This is `Scope.Restores`.

While balanced operations run, the frames are those opened meanwhile on top of the old ones, and the
old ones differ from what they were by the changes that have escaped (`frames_run`). One operation
keeps this up (`frames_perform`). What a list of changes does to frames is then told frame by frame
(`bindingIn?_rebindAll`). The result is `scopes_restored`.
-/

namespace WordScheme

namespace Scope

/-! ### Operations -/

/-- What can be done to a scope. -/
inductive Operation where
  | push
  | pop
  | bind (name : Name) (binding : Binding)
  | rebind (name : Name) (binding : Binding)

def Operation.isPush : Operation → Bool
  | .push => true
  | _ => false

def Operation.isPop : Operation → Bool
  | .pop => true
  | _ => false

/-- The scope after an operation. -/
def perform (s : Scope) : Operation → Scope
  | .push => s.push
  | .pop => s.pop
  | .bind name b => s.bind name b
  | .rebind name b => (s.rebind? name b).2

/-- The scope after a list of operations. -/
def run (s : Scope) (ops : List Operation) : Scope :=
  ops.foldl perform s

/-- The operations close only frames that they have opened, and all of these. -/
structure Balanced (ops : List Operation) : Prop where
  fronts : ∀ front, front <+: ops → front.countP Operation.isPop ≤ front.countP Operation.isPush
  total : ops.countP Operation.isPop = ops.countP Operation.isPush

/-- The number of frames after an operation, for a scope with this many. -/
def depthAfter (depth : Nat) : Operation → Nat
  | .push => depth + 1
  | .pop => max 1 (depth - 1)
  | _ => depth

/-! ### Frames and bindings -/

/-- The index, from the innermost frame outwards, of the first frame that has the name. -/
def ownerIn? (name : Name) (frames : List (Assoc Name Binding)) : Option Nat :=
  frames.findIdx? (·.has name)

/-- The binding of a name in the frame with an index. -/
def bindingIn? (frames : List (Assoc Name Binding)) (i : Nat) (name : Name) : Option Binding :=
  frames[i]?.bind (·.get? name)

/-- The frames opened on top of the outermost `depth` ones. -/
def openedSince (s : Scope) (depth : Nat) : List (Assoc Name Binding) :=
  s.frames.take (s.depth - depth)

/-- The name and its other binding, if the operation changes that of a name that no frame on top of
the outermost `depth` ones has. -/
def escape? (s : Scope) (depth : Nat) : Operation → Option (Name × Binding)
  | .rebind name b =>
    if (s.openedSince depth).any (·.has name) then none else some (name, b)
  | _ => none

/-- The changes that escape in the course of a run, in order. -/
def escapes (depth : Nat) : Scope → List Operation → Assoc Name Binding
  | _, [] => []
  | s, op :: ops => (s.escape? depth op).toList ++ escapes depth (s.perform op) ops

/-- The last binding that the changes give a name. -/
def lastChange? (changes : Assoc Name Binding) (name : Name) : Option Binding :=
  Assoc.get? changes.reverse name

/-- The scope `t` is the scope `s` but for the changes. -/
structure Restores (s : Scope) (changes : Assoc Name Binding) (t : Scope) : Prop where
  depth : t.depth = s.depth
  /-- A frame is the same unless a change is to a name that it is the innermost to have. -/
  frames : ∀ i, (∀ x ∈ changes, ownerIn? x.1 s.frames ≠ some i) → t.frames[i]? = s.frames[i]?
  /-- The innermost frame that has a name has the last binding among the changes of it. -/
  changed : ∀ i name b, ownerIn? name s.frames = some i → lastChange? changes name = some b →
    bindingIn? t.frames i name = some b
  /-- All other bindings are the same. -/
  kept : ∀ i name, ownerIn? name s.frames ≠ some i ∨ lastChange? changes name = none →
    bindingIn? t.frames i name = bindingIn? s.frames i name

/-! ### What a change does to frames -/

section Frames

variable {frames opened old : List (Assoc Name Binding)} {name : Name} {b : Binding}

/-- A change is made in the first frame that has the name, if there is one. -/
private theorem rebindIn_eq_modify (name : Name) (b : Binding)
    (frames : List (Assoc Name Binding)) : rebindIn name b frames =
      match ownerIn? name frames with
      | some i => frames.modify i (·.put name b)
      | none => frames := by
  induction frames with
  | nil => rfl
  | cons frame frames ih =>
    rw [rebindIn_cons, ownerIn?, List.findIdx?_cons]
    split_ifs with hhas
    · rfl
    · rw [ih, ownerIn?]
      cases frames.findIdx? (·.has name) <;> rfl

/-- A change stays within the innermost frames if one of these has the name, and else passes them
by. -/
private theorem rebindIn_append (name : Name) (b : Binding)
    (opened old : List (Assoc Name Binding)) : rebindIn name b (opened ++ old) =
      if opened.any (·.has name) then rebindIn name b opened ++ old
      else opened ++ rebindIn name b old := by
  induction opened with
  | nil => rfl
  | cons frame opened ih =>
    rw [List.cons_append, rebindIn_cons, rebindIn_cons, List.any_cons]
    cases hhas : frame.has name with
    | true => rfl
    | false =>
      rw [ih, Bool.false_or, if_neg Bool.false_ne_true, if_neg Bool.false_ne_true]
      split <;> rfl

/-- A change keeps the number of frames. -/
private theorem length_rebindIn (name : Name) (b : Binding) (frames : List (Assoc Name Binding)) :
    (rebindIn name b frames).length = frames.length := by
  rw [rebindIn_eq_modify]
  split
  · exact List.length_modify ..
  · rfl

/-- A change leaves the frames alone that do not own the name. -/
private theorem getElem?_rebindIn_of_ne {i : Nat} (h : ownerIn? name frames ≠ some i) :
    (rebindIn name b frames)[i]? = frames[i]? := by
  rw [rebindIn_eq_modify]
  split
  · next j hj =>
    have hne : j ≠ i := fun heq => h (heq ▸ hj)
    exact List.getElem?_modify_ne _ _ hne
  · rfl

/-- A change gives the name its new binding in the frame that owns it, and no other. -/
private theorem bindingIn?_rebindIn (frames : List (Assoc Name Binding)) (i : Nat) (other : Name) :
    bindingIn? (rebindIn name b frames) i other =
      if name = other ∧ ownerIn? name frames = some i then some b
      else bindingIn? frames i other := by
  by_cases howner : ownerIn? name frames = some i
  · have hlt : i < frames.length := (List.findIdx?_eq_some_iff_findIdx_eq.mp howner).1
    rw [rebindIn_eq_modify, howner, bindingIn?, bindingIn?]
    simp only [List.getElem?_modify_eq, List.getElem?_eq_getElem hlt, Option.map_eq_map,
      Option.map_some, Option.bind_some, and_true]
    split_ifs with heq
    · rw [heq, Assoc.get?_put_self]
    · rw [Assoc.get?_put_of_ne _ _ (Ne.symm heq)]
  · rw [if_neg fun h => howner h.2, bindingIn?, getElem?_rebindIn_of_ne howner, bindingIn?]

/-- Which frame is the innermost to have a name does not depend on the bindings. -/
private theorem ownerIn?_rebindIn (name : Name) (b : Binding) (other : Name)
    (frames : List (Assoc Name Binding)) :
    ownerIn? other (rebindIn name b frames) = ownerIn? other frames := by
  induction frames with
  | nil => rfl
  | cons frame frames ih =>
    rw [rebindIn_cons, ownerIn?, ownerIn?, List.findIdx?_cons]
    split_ifs with hname hother
    · rw [List.findIdx?_cons, if_pos]
      rw [Assoc.has] at hother ⊢
      by_cases heq : other = name
      · rw [heq, Assoc.get?_put_self]
        rfl
      · rwa [Assoc.get?_put_of_ne _ _ heq]
    · have hne : other ≠ name := by
        rintro rfl
        exact hother hname
      rw [List.findIdx?_cons, Assoc.has, Assoc.get?_put_of_ne _ _ hne, ← Assoc.has, if_neg hother]
    · rw [List.findIdx?_cons, if_pos ‹_›]
    · rw [List.findIdx?_cons, if_neg ‹_›]
      exact congrArg _ ih

/-! ### What several changes do to frames -/

/-- The frames after several changes, one after the other. -/
def rebindAll (changes : Assoc Name Binding) (frames : List (Assoc Name Binding)) :
    List (Assoc Name Binding) :=
  changes.foldl (fun frames x => rebindIn x.1 x.2 frames) frames

/-- Changes keep the number of frames. -/
private theorem length_rebindAll (changes : Assoc Name Binding)
    (frames : List (Assoc Name Binding)) : (rebindAll changes frames).length = frames.length := by
  induction changes generalizing frames with
  | nil => rfl
  | cons x changes ih => exact (ih _).trans (length_rebindIn x.1 x.2 frames)

/-- Changes leave the frames alone that own none of the names. -/
private theorem getElem?_rebindAll {changes : Assoc Name Binding} {i : Nat}
    (h : ∀ x ∈ changes, ownerIn? x.1 frames ≠ some i) :
    (rebindAll changes frames)[i]? = frames[i]? := by
  induction changes generalizing frames with
  | nil => rfl
  | cons x changes ih =>
    obtain ⟨hx, hchanges⟩ := List.forall_mem_cons.mp h
    refine (ih fun y hy => ?_).trans (getElem?_rebindIn_of_ne hx)
    rw [ownerIn?_rebindIn]
    exact hchanges y hy

private theorem lastChange?_cons (x : Name × Binding) (changes : Assoc Name Binding) (name : Name) :
    lastChange? (x :: changes) name =
      (lastChange? changes name).or (if x.1 = name then some x.2 else none) := by
  rw [lastChange?, lastChange?, List.reverse_cons]
  induction changes.reverse with
  | nil => rfl
  | cons y ys ih =>
    rw [List.cons_append, Assoc.get?, Assoc.get?]
    split
    · rfl
    · exact ih

/-- **What changes do to a binding**: in the innermost frame that has the name the last one stays,
and nothing happens to others. -/
theorem bindingIn?_rebindAll (changes : Assoc Name Binding) (frames : List (Assoc Name Binding))
    (i : Nat) (name : Name) :
    bindingIn? (rebindAll changes frames) i name =
      if ownerIn? name frames = some i then
        (lastChange? changes name).or (bindingIn? frames i name)
      else bindingIn? frames i name := by
  induction changes generalizing frames with
  | nil => exact (ite_self _).symm
  | cons x changes ih =>
    change bindingIn? (rebindAll changes (rebindIn x.1 x.2 frames)) i name = _
    rw [ih, ownerIn?_rebindIn, bindingIn?_rebindIn, lastChange?_cons, Option.or_assoc]
    by_cases hx : x.1 = name
    · subst hx
      by_cases howner : ownerIn? x.1 frames = some i
      · simp only [howner, and_self, if_true, Option.some_or]
      · simp only [howner, and_false, if_false]
    · simp only [hx, false_and, if_false, Option.none_or]

end Frames

/-! ### Runs -/

variable {s t : Scope} {opened old : List (Assoc Name Binding)}

/-- The frames opened since are those in front of the old ones. -/
private theorem openedSince_eq (h : t.frames = opened ++ old) :
    t.openedSince old.length = opened := by
  rw [openedSince, depth, h, List.length_append, Nat.add_sub_cancel, List.take_left]

/-- **One operation**: the frames on top are opened, closed or changed, and what escapes from them
changes the old ones. -/
theorem frames_perform (op : Operation) (h : t.frames = opened ++ old)
    (hopened : op.isPop.toNat < opened.length) :
    ∃ opened', (t.perform op).frames = opened' ++ rebindAll (t.escape? old.length op).toList old ∧
      opened'.length + op.isPop.toNat = opened.length + op.isPush.toNat := by
  obtain ⟨inner, outer⟩ := t
  change inner :: outer = opened ++ old at h
  cases op with
  | push => exact ⟨[] :: opened, congrArg (List.cons []) h, rfl⟩
  | pop =>
    -- at least two frames have been opened
    obtain _ | ⟨first, _ | ⟨second, opened⟩⟩ := opened
    · cases hopened
    · exact absurd hopened (Nat.lt_irrefl 1)
    · cases h
      exact ⟨second :: opened, rfl, rfl⟩
  | bind name b =>
    obtain _ | ⟨first, opened⟩ := opened
    · cases hopened
    · cases h
      exact ⟨inner.put name b :: opened, rfl, rfl⟩
  | rebind name b =>
    have hsince : openedSince ⟨inner, outer⟩ old.length = opened := openedSince_eq h
    have hframes : (perform ⟨inner, outer⟩ (.rebind name b)).frames =
        rebindIn name b (opened ++ old) := by
      rw [← h]
      exact frames_rebind ⟨inner, outer⟩ name b
    rw [hframes, rebindIn_append, escape?, hsince]
    split_ifs with hany
    · exact ⟨rebindIn name b opened, rfl, length_rebindIn name b opened⟩
    · exact ⟨opened, rfl, rfl⟩

/-- **Runs keep the old frames**, up to the changes that escape, as long as only frames are closed
that have been opened on top of them. -/
theorem frames_run {ops : List Operation} (h : t.frames = opened ++ old)
    (hfronts : ∀ front, front <+: ops → front.countP Operation.isPop <
      opened.length + front.countP Operation.isPush) :
    ∃ opened', (t.run ops).frames = opened' ++ rebindAll (t.escapes old.length ops) old ∧
      opened'.length + ops.countP Operation.isPop =
        opened.length + ops.countP Operation.isPush := by
  induction ops generalizing t opened old with
  | nil => exact ⟨opened, h, rfl⟩
  | cons op ops ih =>
    have hop : op.isPop.toNat < opened.length := by
      cases op with
      | pop => exact hfronts [.pop] (List.cons_prefix_cons.mpr ⟨rfl, List.nil_prefix⟩)
      | _ => exact hfronts [] List.nil_prefix
    obtain ⟨opened₁, hframes, hlength⟩ := frames_perform op h hop
    have hcount : ∀ (p : Operation → Bool) front,
        (op :: front).countP p = front.countP p + (p op).toNat := by
      intro p front
      rw [List.countP_cons]
      cases p op <;> rfl
    obtain ⟨opened₂, hrun, hrest⟩ := ih hframes fun front hfront => by
      have hlonger := hfronts (op :: front) (List.cons_prefix_cons.mpr ⟨rfl, hfront⟩)
      rw [hcount, hcount] at hlonger
      omega
    refine ⟨opened₂, ?_, ?_⟩
    · rw [length_rebindAll] at hrun
      rw [escapes, rebindAll, List.foldl_append]
      exact hrun
    · rw [hcount, hcount]
      omega

/-- Closing the one frame that was opened gives the old ones. -/
private theorem frames_pop {frame : Assoc Name Binding} (h : t.frames = [frame] ++ old)
    (hold : 0 < old.length) : t.pop.frames = old := by
  obtain ⟨inner, outer⟩ := t
  cases h
  cases old with
  | nil => cases hold
  | cons first old => rfl

private theorem run_cons (s : Scope) (op : Operation) (ops : List Operation) :
    s.run (op :: ops) = (s.perform op).run ops := rfl

private theorem run_append (s : Scope) (ops ops' : List Operation) :
    s.run (ops ++ ops') = (s.run ops).run ops' :=
  List.foldl_append

/-- Balanced operations in a frame of their own leave the old frames with what has escaped. -/
private theorem frames_run_framed {ops : List Operation} (h : Balanced ops) (s : Scope) :
    (s.run (.push :: ops ++ [.pop])).frames = rebindAll (s.push.escapes s.depth ops) s.frames := by
  have hpush : s.push.frames = [[]] ++ s.frames := rfl
  obtain ⟨opened, hrun, hlength⟩ := frames_run hpush
    fun front hfront => Nat.lt_one_add_iff.mpr (h.fronts front hfront)
  have hone : opened.length = 1 := by
    have htotal := h.total
    rw [List.length_singleton] at hlength
    omega
  obtain ⟨frame, rfl⟩ := List.length_eq_one_iff.mp hone
  rw [List.cons_append, run_cons, run_append]
  have hpos : 0 < (rebindAll (s.push.escapes s.depth ops) s.frames).length := by
    rw [length_rebindAll]
    exact s.one_le_depth
  exact frames_pop hrun hpos

/-- Frames that differ by changes only are restored up to these. -/
private theorem restores_of_frames {changes : Assoc Name Binding}
    (h : t.frames = rebindAll changes s.frames) : s.Restores changes t where
  depth := by rw [Scope.depth, h, length_rebindAll, Scope.depth]
  frames i hi := by rw [h, getElem?_rebindAll hi]
  changed i name b howner hlast := by
    rw [h, bindingIn?_rebindAll, if_pos howner, hlast, Option.some_or]
  kept i name hother := by
    rw [h, bindingIn?_rebindAll]
    rcases hother with hother | hlast
    · rw [if_neg hother]
    · rw [hlast, Option.none_or, ite_self]

/-! ### Single operations -/

/-- A name has no binding exactly when no frame owns it. -/
private theorem lookupIn?_eq_none_iff {name : Name} {frames : List (Assoc Name Binding)} :
    lookupIn? name frames = none ↔ ownerIn? name frames = none := by
  induction frames with
  | nil => exact iff_of_true rfl rfl
  | cons frame frames ih =>
    rw [lookupIn?, Option.or_eq_none_iff, ih, ownerIn?, ownerIn?, List.findIdx?_cons, Assoc.has]
    cases frame.get? name <;> simp

/-- The search for the frame to change finds none exactly if no frame has the name. -/
private theorem rebindIn?_eq_false_iff {name : Name} {b : Binding}
    {frames : List (Assoc Name Binding)} :
    (rebindIn? name b frames).1 = false ↔ lookupIn? name frames = none := by
  induction frames with
  | nil => exact iff_of_true rfl rfl
  | cons frame frames ih =>
    rw [rebindIn?, lookupIn?, Option.or_eq_none_iff, ← ih, Assoc.has]
    cases frame.get? name <;> simp

/-- A change says that it has found the name exactly if the name is bound. -/
private theorem rebind?_eq_false_iff {name : Name} {b : Binding} :
    (s.rebind? name b).1 = false ↔ s.lookup? name = none := by
  have hframes : (s.rebind? name b).1 = (rebindIn? name b s.frames).1 := by
    rw [rebind?, frames, rebindIn?]
    split <;> rfl
  rw [hframes, rebindIn?_eq_false_iff, lookup?]

/-- Changing a name without a binding changes nothing. -/
private theorem rebind_of_lookup?_eq_none {name : Name} (h : s.lookup? name = none) (b : Binding) :
    s.rebind name b = s := by
  have hframes := frames_rebind s name b
  rw [rebindIn_eq_modify, lookupIn?_eq_none_iff.mp h] at hframes
  obtain ⟨hinner, houter⟩ := List.cons_eq_cons.mp hframes
  exact congrArg₂ Scope.mk hinner houter

private theorem depth_perform (s : Scope) (op : Operation) :
    (s.perform op).depth = depthAfter s.depth op := by
  cases op with
  | push => rfl
  | pop =>
    obtain ⟨inner, _ | ⟨frame, outer⟩⟩ := s
    · rfl
    · change outer.length + 1 = max 1 (outer.length + 2 - 1)
      omega
  | bind name b => rfl
  | rebind name b =>
    change (s.rebind name b).frames.length = s.frames.length
    rw [frames_rebind, length_rebindIn]

/-- The number of frames after a run depends on the operations alone. -/
private theorem depth_run (s : Scope) (ops : List Operation) :
    (s.run ops).depth = ops.foldl depthAfter s.depth := by
  induction ops generalizing s with
  | nil => rfl
  | cons op ops ih => rw [run_cons, ih, depth_perform, List.foldl_cons]

/-! ### The result -/

/-- **Scopes are restored.** Balanced operations between the opening and the closing of a frame
leave a scope as it was, but for the changes that have escaped. A name gets another binding exactly
if it has one, where it is bound first from the innermost frame outwards, and else nothing changes.
And whatever is done, in any order, every closing takes one frame off except the outermost one. -/
theorem scopes_restored (s : Scope) :
    (∀ ops, Balanced ops →
      s.Restores (escapes s.depth s.push ops) (s.run (.push :: ops ++ [.pop]))) ∧
    (∀ name b, ((s.rebind? name b).1 = false ↔ s.lookup? name = none) ∧
      (s.lookup? name = none → (s.rebind? name b).2 = s) ∧
      s.Restores [(name, b)] (s.rebind? name b).2) ∧
    ∀ ops, (s.run ops).depth = ops.foldl depthAfter s.depth ∧ 1 ≤ (s.run ops).depth := by
  refine ⟨fun ops h => restores_of_frames (frames_run_framed h s), fun name b => ⟨?_, ?_, ?_⟩,
    fun ops => ⟨s.depth_run ops, (s.run ops).one_le_depth⟩⟩
  · exact rebind?_eq_false_iff
  · exact fun hnone => rebind_of_lookup?_eq_none hnone b
  · exact restores_of_frames (frames_rebind s name b)

/-- A scope with `x` in both of its frames and `y` in the outer one. -/
def shadowing : Scope :=
  ⟨[("x", .value (.word 1))], [[("x", .value (.word 2)), ("y", .value (.word 3))]]⟩

/-- Changes of `x` and `y`, before and while another `x` and another `y` stand in front of them. -/
def shadowingOperations : List Operation :=
  [.rebind "x" (.value (.word 4)), .rebind "y" (.value (.word 5)), .push,
    .bind "x" (.value (.word 6)), .rebind "x" (.value (.word 7)), .rebind "y" (.slot (.word 8)),
    .pop, .bind "y" (.value (.word 9)), .rebind "y" (.value (.word 10)),
    .rebind "z" (.value (.word 11))]

theorem scopes_restored_shadowing :
    Balanced shadowingOperations ∧
    escapes 2 shadowing.push shadowingOperations =
      [("x", .value (.word 4)), ("y", .value (.word 5)), ("y", .slot (.word 8)),
        ("z", .value (.word 11))] ∧
    shadowing.Restores (escapes 2 shadowing.push shadowingOperations)
      (shadowing.run (.push :: shadowingOperations ++ [.pop])) ∧
    bindingIn? (shadowing.run (.push :: shadowingOperations ++ [.pop])).frames 1 "y" =
      some (.slot (.word 8)) := by
  have hbalanced : Balanced shadowingOperations := by
    refine ⟨?_, by decide⟩
    have hall : ∀ front ∈ shadowingOperations.inits, front.countP Operation.isPop ≤
        front.countP Operation.isPush := by
      decide
    exact fun front hfront => hall front ((List.mem_inits _ _).mpr hfront)
  have hrestores := (scopes_restored shadowing).1 shadowingOperations hbalanced
  exact ⟨hbalanced, rfl, hrestores, hrestores.changed 1 "y" _ (by decide) rfl⟩

end Scope

end WordScheme
