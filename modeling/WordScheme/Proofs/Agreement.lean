import Mathlib
import WordScheme.Proofs.DraftBlocks
import WordScheme.Proofs.Machine

/-!
# Scopes and configurations that agree

Lowering knows a local variable by a binding, evaluation by its value, and the machine has the value
in a register, in a cell or as a parameter. `Machine.Matches` relates the three: frame by frame, and
name by name in the same order, each binding denotes the value of the variable.

A register is written once and keeps its value, so whatever has been read stays readable
(`Reads.keep`). Cells are stored to; `Matches.assign` shows that this changes one variable only,
since no two variables share a register for their cells and no two registers hold the address of one
cell.
-/

namespace WordScheme

/-- Where names are distinct, looking for the name of a member finds the member. -/
theorem find?_of_nodup_map {α β : Type} [BEq β] [LawfulBEq β] {key : α → β} {xs : List α} {x : α}
    (h : (xs.map key).Nodup) (hx : x ∈ xs) : xs.find? (fun y => key y == key x) = some x := by
  refine List.find?_eq_some_iff_append.mpr ⟨beq_self_eq_true (key x), ?_⟩
  obtain ⟨before, after, rfl⟩ := List.append_of_mem hx
  refine ⟨before, after, rfl, fun y hy => ?_⟩
  rw [List.map_append, List.nodup_append] at h
  have hne : key y ≠ key x :=
    h.2.2 _ (List.mem_map_of_mem hy) _ (List.mem_map_of_mem List.mem_cons_self)
  simpa using hne

/-- An operand whose register, if it is one, is among the first `n`. -/
def Operand.Below (n : Nat) : Operand → Prop
  | .register number _ => number ≤ n
  | _ => True

/-- An operand among the first registers is among more of them. -/
private theorem Operand.Below.mono {n n' : Nat} {o : Operand} (h : o.Below n) (hn : n ≤ n') :
    o.Below n' := by
  cases o with
  | register r ty => exact le_trans h hn
  | _ => trivial

/-- The register that holds the address of the cell of a variable, if it lives in a cell. -/
def Binding.slot? : Binding → Option Nat
  | .slot (.register number _) => some number
  | _ => none

/-- The registers that hold the addresses of the cells of a frame. -/
def frameSlots (frame : Assoc Name Binding) : List Nat :=
  frame.filterMap fun x => x.2.slot?

private theorem frameSlots_cons (x : Name × Binding) (frame : Assoc Name Binding) :
    frameSlots (x :: frame) = x.2.slot?.toList ++ frameSlots frame := by
  rw [frameSlots, List.filterMap_cons]
  cases x.2.slot? <;> rfl

/-- The registers that hold the addresses of the cells of all frames. -/
def slots (frames : List (Assoc Name Binding)) : List Nat :=
  frames.flatMap frameSlots

namespace Machine

/-! ### Operands and bindings -/

/-- An operand is a word that the machine can read, from one of the first `n` registers if from a
register. -/
structure Reads (m : Machine) (c : Config) (n : Nat) (o : Operand) (w : Int64) : Prop where
  ty : o.ty = .word
  below : o.Below n
  word : m.read c o = some (.word w)

/-- The first `n` registers keep what they hold. -/
def Keeps (n : Nat) (c c' : Config) : Prop :=
  ∀ r ≤ n, c'.registers r = c.registers r

/-- A binding denotes a value: it is an operand that reads it, or the address of a cell that holds
it. -/
def Denotes (m : Machine) (c : Config) (n : Nat) : Binding → Int64 → Prop
  | .value o, w => m.Reads c n o w
  | .slot (.register number _), w =>
    number ≤ n ∧ ∃ k, c.registers number = some (.cell k) ∧ c.cells[k]? = some (some w)
  | .slot _, _ => False

/-- No two registers hold the address of one cell, and all addresses are those of cells. -/
structure Config.Separate (c : Config) : Prop where
  lt : ∀ {r k}, c.registers r = some (.cell k) → k < c.cells.length
  inj : ∀ {r r' k}, c.registers r = some (.cell k) → c.registers r' = some (.cell k) → r = r'

variable {m : Machine} {c c' : Config} {n n' : Nat}

theorem Keeps.refl (n : Nat) (c : Config) : Keeps n c c :=
  fun _ _ => rfl

/-- Registers that are kept twice are kept. -/
theorem Keeps.trans {c'' : Config} (h : Keeps n c c') (h' : Keeps n' c' c'') (hn : n ≤ n') :
    Keeps n c c'' :=
  fun r hr => (h' r (hr.trans hn)).trans (h r hr)

theorem reads_word (m : Machine) (c : Config) (n : Nat) (w : Int64) : m.Reads c n (.word w) w :=
  ⟨rfl, trivial, rfl⟩

/-- What an operand reads depends on registers only. -/
private theorem read_keep {o : Operand} (h : o.Below n) (hk : Keeps n c c') :
    m.read c' o = m.read c o := by
  cases o with
  | register r ty => exact hk r h
  | const value =>
    cases value with
    | int width value => cases width <;> rfl
    | double value => rfl
  | global name ty => rfl
  | param name ty => rfl

/-- **What has been read stays readable.** -/
theorem Reads.keep {o : Operand} {w : Int64} (h : m.Reads c n o w) (hk : Keeps n c c')
    (hn : n ≤ n') : m.Reads c' n' o w :=
  ⟨h.ty, h.below.mono hn, (read_keep h.below hk).trans h.word⟩

/-- An operand that reads a word has it. -/
theorem Reads.readWord {o : Operand} {w : Int64} (h : m.Reads c n o w) :
    m.readWord c o = some w := by
  rw [Machine.readWord, h.word]

/-- A binding keeps what it denotes while the registers it may use are kept and no cell changes. -/
private theorem Denotes.keep {b : Binding} {w : Int64} (h : m.Denotes c n b w) (hk : Keeps n c c')
    (hcells : ∀ {k : Nat} {w : Int64},
      c.cells[k]? = some (some w) → c'.cells[k]? = some (some w)) (hn : n ≤ n') :
    m.Denotes c' n' b w := by
  cases b with
  | value o => exact Reads.keep h hk hn
  | slot o =>
    cases o with
    | register r ty =>
      obtain ⟨hr, k, hcell, hvalue⟩ := h
      exact ⟨hr.trans hn, k, (hk r hr).trans hcell, hcells hvalue⟩
    | _ => cases h

/-- The register of a cell is among those given out. -/
private theorem Denotes.slot_le {b : Binding} {w : Int64} (h : m.Denotes c n b w) {r : Nat}
    (hr : b.slot? = some r) : r ≤ n := by
  cases b with
  | value o => cases hr
  | slot o =>
    cases o with
    | register number ty =>
      obtain rfl := Option.some.inj hr
      exact h.1
    | _ => cases h

/-- Storing to the cell of one register changes nothing that is bound elsewhere. -/
private theorem Denotes.set {b : Binding} {w v : Int64} (h : m.Denotes c n b w) (hsep : c.Separate)
    {r k : Nat} (hcell : c.registers r = some (.cell k)) (hb : b.slot? ≠ some r) :
    m.Denotes { c with cells := c.cells.set k (some v) } n b w := by
  cases b with
  | value o =>
    have hread : m.Reads c n o w := h
    exact ⟨hread.ty, hread.below, (read_keep hread.below fun _ _ => rfl).trans hread.word⟩
  | slot o =>
    cases o with
    | register r' ty =>
      obtain ⟨hr', k', hcell', hvalue⟩ := h
      refine ⟨hr', k', hcell', ?_⟩
      have hne : k ≠ k' := by
        rintro rfl
        exact hb (congrArg some (hsep.inj hcell' hcell))
      change (c.cells.set k (some v))[k']? = _
      rw [List.getElem?_set_ne hne]
      exact hvalue
    | _ => cases h

/-! ### Frames -/

/-- A variable and a binding of one name, of which the binding denotes the value. -/
def EntryAgrees (m : Machine) (c : Config) (n : Nat) (x : Name × Int64) (y : Name × Binding) :
    Prop :=
  x.1 = y.1 ∧ m.Denotes c n y.2 x.2

/-- The variables of a frame and their bindings, in the same order. -/
def FrameAgrees (m : Machine) (c : Config) (n : Nat) (values : Assoc Name Int64)
    (frame : Assoc Name Binding) : Prop :=
  List.Forall₂ (m.EntryAgrees c n) values frame

/-- All frames, from the innermost outwards. -/
def FramesAgree (m : Machine) (c : Config) (n : Nat) (locals : List (Assoc Name Int64))
    (frames : List (Assoc Name Binding)) : Prop :=
  List.Forall₂ (m.FrameAgrees c n) locals frames

section Frames

variable {values : Assoc Name Int64} {frame : Assoc Name Binding} {locals : List (Assoc Name Int64)}
  {frames : List (Assoc Name Binding)} {b : Binding} {w : Int64} {name : Name}

/-- A frame goes on to agree if its bindings denote what they did. -/
private theorem FrameAgrees.imp (h : m.FrameAgrees c n values frame)
    (hb : ∀ {b w}, b ∈ frame.map Prod.snd → m.Denotes c n b w → m.Denotes c' n' b w) :
    m.FrameAgrees c' n' values frame := by
  induction h with
  | nil => exact .nil
  | @cons x y values frame hxy _ ih =>
    rw [List.map_cons] at hb
    refine .cons ⟨hxy.1, hb List.mem_cons_self hxy.2⟩ (ih fun hmem => ?_)
    exact hb (List.mem_cons_of_mem _ hmem)

/-- Frames go on to agree if bindings denote what they did. -/
private theorem FramesAgree.imp (h : m.FramesAgree c n locals frames)
    (hb : ∀ {b w}, m.Denotes c n b w → m.Denotes c' n' b w) :
    m.FramesAgree c' n' locals frames :=
  List.Forall₂.imp (fun _ _ hframe => FrameAgrees.imp hframe fun _ => hb) h

/-- A name is found on both sides or on neither. -/
theorem FrameAgrees.get? (h : m.FrameAgrees c n values frame) (name : Name) :
    (frame.get? name = none ∧ values.get? name = none) ∨
      ∃ b w, frame.get? name = some b ∧ values.get? name = some w ∧ m.Denotes c n b w := by
  induction h with
  | nil => exact .inl ⟨rfl, rfl⟩
  | @cons x y values frame hxy _ ih =>
    rw [Assoc.get?, Assoc.get?, hxy.1]
    by_cases hname : y.1 = name
    · rw [if_pos hname, if_pos hname]
      exact .inr ⟨y.2, x.2, rfl, rfl, hxy.2⟩
    · rw [if_neg hname, if_neg hname]
      exact ih

/-- A frame goes on to agree as a variable and its binding are put in. -/
private theorem FrameAgrees.put (h : m.FrameAgrees c n values frame) (hb : m.Denotes c n b w)
    (name : Name) : m.FrameAgrees c n (values.put name w) (frame.put name b) := by
  induction h with
  | nil => exact .cons ⟨rfl, hb⟩ .nil
  | @cons x y values frame hxy htail ih =>
    rw [Assoc.put, Assoc.put, hxy.1]
    by_cases hname : y.1 = name
    · rw [if_pos hname, if_pos hname]
      exact .cons ⟨rfl, hb⟩ htail
    · rw [if_neg hname, if_neg hname]
      exact .cons ⟨rfl, hxy.2⟩ ih

/-- Frames that agree have the same names, and each binding denotes the value of its variable. -/
private theorem FramesAgree.lookupIn? (h : m.FramesAgree c n locals frames) (name : Name) :
    (Scope.lookupIn? name frames = none ∧ Eval.lookupIn? name locals = none) ∨
      ∃ b w, Scope.lookupIn? name frames = some b ∧ Eval.lookupIn? name locals = some w ∧
        m.Denotes c n b w := by
  induction h with
  | nil => exact .inl ⟨rfl, rfl⟩
  | @cons values frame locals frames hframe _ ih =>
    rw [Scope.lookupIn?, Eval.lookupIn?]
    rcases hframe.get? name with ⟨hb, hw⟩ | ⟨b, w, hb, hw, hdenotes⟩
    · rw [hb, hw]
      exact ih
    · rw [hb, hw]
      exact .inr ⟨b, w, rfl, rfl, hdenotes⟩

/-! ### Assignment -/

/-- The register of a binding in a frame is among those of the frame. -/
private theorem mem_frameSlots {r : Nat} (hb : b ∈ frame.map Prod.snd) (hr : b.slot? = some r) :
    r ∈ frameSlots frame := by
  obtain ⟨x, hx, rfl⟩ := List.mem_map.mp hb
  exact List.mem_filterMap.mpr ⟨x, hx, hr⟩

/-- The register of a name's binding is among those of the frame. -/
private theorem mem_frameSlots_of_get? {r : Nat} (hb : frame.get? name = some b)
    (hr : b.slot? = some r) : r ∈ frameSlots frame :=
  mem_frameSlots (List.mem_map_of_mem (f := Prod.snd) (Assoc.mem_of_get? hb)) hr

/-- The register of a name's binding is among those of the frames. -/
private theorem mem_slots_of_lookupIn? {r : Nat} (hb : Scope.lookupIn? name frames = some b)
    (hr : b.slot? = some r) : r ∈ slots frames := by
  induction frames with
  | nil => cases hb
  | cons frame frames ih =>
    rw [Scope.lookupIn?, Option.or_eq_some_iff] at hb
    rw [slots, List.flatMap_cons, List.mem_append]
    rcases hb with hb | ⟨-, hb⟩
    · exact .inl (mem_frameSlots_of_get? hb hr)
    · exact .inr (ih hb)

/-- Storing to a cell that belongs to none of the bindings of a frame. -/
private theorem FrameAgrees.set_other (h : m.FrameAgrees c n values frame) (hsep : c.Separate)
    {r k : Nat} (hcell : c.registers r = some (.cell k)) (hr : r ∉ frameSlots frame) (v : Int64) :
    m.FrameAgrees { c with cells := c.cells.set k (some v) } n values frame :=
  h.imp fun hb hdenotes => hdenotes.set hsep hcell fun hslot => hr (mem_frameSlots hb hslot)

/-- Storing to a cell that belongs to no variable. -/
private theorem FramesAgree.set_other (h : m.FramesAgree c n locals frames) (hsep : c.Separate)
    {r k : Nat} (hcell : c.registers r = some (.cell k)) (hr : r ∉ slots frames) (v : Int64) :
    m.FramesAgree { c with cells := c.cells.set k (some v) } n locals frames := by
  refine List.forall₂_iff_get.mpr ⟨h.length_eq, fun i hi hj => ?_⟩
  refine FrameAgrees.set_other (h.get hi hj) hsep hcell (fun hmem => ?_) v
  exact hr (List.mem_flatMap.mpr ⟨_, List.get_mem _ _, hmem⟩)

/-- Storing to the cell of a variable of the frame. -/
private theorem FrameAgrees.assign (h : m.FrameAgrees c n values frame) (hsep : c.Separate)
    {r k : Nat} {ty : Ty} (hcell : c.registers r = some (.cell k)) (hn : r ≤ n)
    (hnodup : (frameSlots frame).Nodup) (hb : frame.get? name = some (.slot (.register r ty)))
    (v : Int64) :
    m.FrameAgrees { c with cells := c.cells.set k (some v) } n (values.put name v) frame := by
  induction h with
  | nil => cases hb
  | @cons x y values frame hxy htail ih =>
    rw [Assoc.get?] at hb
    rw [Assoc.put, hxy.1]
    split_ifs at hb ⊢ with hname
    · -- this is the variable, and no other of the frame has its register
      have hslot : y.2.slot? = some r := by rw [Option.some.inj hb]; rfl
      rw [frameSlots_cons, hslot] at hnodup
      refine .cons ⟨hname.symm, ?_⟩
        (FrameAgrees.set_other htail hsep hcell (List.nodup_cons.mp hnodup).1 v)
      rw [Option.some.inj hb]
      exact ⟨hn, k, hcell, List.getElem?_set_self (hsep.lt hcell)⟩
    · have hmem : r ∈ frameSlots frame := mem_frameSlots_of_get? hb rfl
      have hother : y.2.slot? ≠ some r := by
        intro hslot
        rw [frameSlots_cons, hslot] at hnodup
        exact (List.nodup_cons.mp hnodup).1 hmem
      rw [frameSlots_cons] at hnodup
      exact .cons ⟨rfl, hxy.2.set hsep hcell hother⟩ (ih hnodup.of_append_right hb)

/-- Storing to the cell of a variable changes that variable and no other. -/
private theorem FramesAgree.assign (h : m.FramesAgree c n locals frames) (hsep : c.Separate)
    {r k : Nat}
    {ty : Ty} (hcell : c.registers r = some (.cell k)) (hn : r ≤ n) (hnodup : (slots frames).Nodup)
    (hb : Scope.lookupIn? name frames = some (.slot (.register r ty))) (v : Int64) :
    m.FramesAgree { c with cells := c.cells.set k (some v) } n (Eval.assignIn name v locals)
      frames := by
  induction h with
  | nil => cases hb
  | @cons values frame locals frames hframe htail ih =>
    rw [slots, List.flatMap_cons, List.nodup_append] at hnodup
    obtain ⟨hinner, houter, hdisjoint⟩ := hnodup
    rw [Scope.lookupIn?, Option.or_eq_some_iff] at hb
    rw [Eval.assignIn, Assoc.has]
    rcases hframe.get? name with ⟨hnone, hnone'⟩ | ⟨b', w, hsome, hsome', -⟩
    · -- the name is bound further out, so its cell belongs to none of these bindings
      obtain ⟨-, hb⟩ := hb.resolve_left (by simp [hnone])
      rw [hnone']
      have hr : r ∉ frameSlots frame :=
        fun hmem => hdisjoint r hmem r (mem_slots_of_lookupIn? hb rfl) rfl
      exact .cons (hframe.set_other hsep hcell hr v) (ih houter hb)
    · have hb' := hb.resolve_right (by simp [hsome])
      rw [hsome']
      have hr : r ∈ frameSlots frame := mem_frameSlots_of_get? hb' rfl
      refine .cons (hframe.assign hsep hcell hn hinner hb' v) ?_
      exact FramesAgree.set_other htail hsep hcell (fun hmem => hdisjoint r hr r hmem rfl) v

/-! ### Registers of cells -/

/-- The registers of a frame after a change are old ones or that of the new binding. -/
private theorem mem_frameSlots_put {r : Nat} (h : r ∈ frameSlots (frame.put name b)) :
    r ∈ frameSlots frame ∨ b.slot? = some r := by
  obtain ⟨x, hx, hr⟩ := List.mem_filterMap.mp h
  rcases Assoc.mem_put hx with hx | rfl
  · exact .inl (List.mem_filterMap.mpr ⟨x, hx, hr⟩)
  · exact .inr hr

/-- No two variables share a register if a new binding brings a new one. -/
private theorem nodup_frameSlots_put (h : (frameSlots frame).Nodup)
    (hb : ∀ r, b.slot? = some r → r ∉ frameSlots frame) :
    (frameSlots (frame.put name b)).Nodup := by
  induction frame with
  | nil =>
    rw [Assoc.put, frameSlots_cons]
    cases b.slot? <;> simp [frameSlots]
  | cons x frame ih =>
    rw [frameSlots_cons, List.nodup_append] at h
    obtain ⟨-, hframe, hdisjoint⟩ := h
    have hb' : ∀ r, b.slot? = some r → r ∉ frameSlots frame := by
      intro r hr hmem
      refine hb r hr ?_
      rw [frameSlots_cons]
      exact List.mem_append_right _ hmem
    rw [Assoc.put]
    split
    · rw [frameSlots_cons, List.nodup_append]
      refine ⟨by cases b.slot? <;> simp, hframe, fun r hr r' hr' heq => ?_⟩
      exact hb' r (Option.mem_toList.mp hr) (heq ▸ hr')
    · rw [frameSlots_cons, List.nodup_append]
      refine ⟨by cases x.2.slot? <;> simp, ih hframe hb', fun r hr r' hr' heq => ?_⟩
      subst heq
      rcases mem_frameSlots_put hr' with hmem | hslot
      · exact hdisjoint r hr r hmem rfl
      · refine hb r hslot ?_
        rw [frameSlots_cons]
        exact List.mem_append_left _ hr

/-- The registers of a frame that agrees are among the first `n`. -/
private theorem FrameAgrees.slots_le (h : m.FrameAgrees c n values frame) :
    ∀ r ∈ frameSlots frame, r ≤ n := by
  induction h with
  | nil => exact fun r hr => nomatch hr
  | @cons x y values frame hxy _ ih =>
    intro r hr
    rw [frameSlots_cons, List.mem_append] at hr
    exact hr.elim (fun hr => hxy.2.slot_le (Option.mem_toList.mp hr)) (ih r)

/-- The registers of cells are among those given out. -/
theorem FramesAgree.slots_le (h : m.FramesAgree c n locals frames) : ∀ r ∈ slots frames, r ≤ n := by
  induction h with
  | nil => exact fun r hr => nomatch hr
  | @cons values frame locals frames hhead _ ih =>
    intro r hr
    rw [slots, List.flatMap_cons, List.mem_append] at hr
    exact hr.elim (FrameAgrees.slots_le hhead r) (ih r)

end Frames

/-! ### States -/

/-- A scope, the state of evaluation and a configuration agree, when the first `n` registers have
been given out. The outermost frame of a scope has no counterpart in evaluation, since nothing is
ever bound there. -/
structure Matches (m : Machine) (scope : Scope) (n : Nat) (a : Activation) (c : Config) : Prop where
  store : c.store = a.store
  trace : c.trace = a.trace
  frames : m.FramesAgree c n (a.locals ++ [[]]) scope.frames
  outer : scope.outer ≠ []
  slots : (slots scope.frames).Nodup
  separate : c.Separate

section States

variable {scope : Scope} {a : Activation} {name : Name}

/-- An empty frame behind the others has no variable. -/
private theorem lookupIn?_append_nil (name : Name) (locals : List (Assoc Name Int64)) :
    Eval.lookupIn? name (locals ++ [[]]) = Eval.lookupIn? name locals := by
  induction locals with
  | nil => rfl
  | cons frame locals ih => rw [List.cons_append, Eval.lookupIn?, Eval.lookupIn?, ih]

/-- An empty frame behind the others is not assigned to. -/
private theorem assignIn_append_nil (name : Name) (v : Int64) (locals : List (Assoc Name Int64)) :
    Eval.assignIn name v (locals ++ [[]]) = Eval.assignIn name v locals ++ [[]] := by
  induction locals with
  | nil => rfl
  | cons frame locals ih =>
    rw [List.cons_append, Eval.assignIn, Eval.assignIn]
    split
    · rfl
    · rw [ih, List.cons_append]

/-- A local name is bound on both sides or on neither. -/
private theorem Matches.lookup? (h : m.Matches scope n a c) (name : Name) :
    (scope.lookup? name = none ∧ Eval.lookupIn? name a.locals = none) ∨
      ∃ b w, scope.lookup? name = some b ∧ Eval.lookupIn? name a.locals = some w ∧
        m.Denotes c n b w := by
  have hlookup := h.frames.lookupIn? name
  rwa [lookupIn?_append_nil] at hlookup

/-- A name with a binding is a variable with the value that it denotes. -/
theorem Matches.of_lookup? (h : m.Matches scope n a c) {b : Binding}
    (hb : scope.lookup? name = some b) :
    ∃ w, Eval.lookupIn? name a.locals = some w ∧ m.Denotes c n b w := by
  rcases h.lookup? name with ⟨hnone, -⟩ | ⟨b', w, hb', hw, hdenotes⟩
  · rw [hb] at hnone
    cases hnone
  · rw [hb] at hb'
    cases hb'
    exact ⟨w, hw, hdenotes⟩

/-- A name without a binding is no local variable. -/
theorem Matches.of_lookup?_none (h : m.Matches scope n a c) (hb : scope.lookup? name = none) :
    Eval.lookupIn? name a.locals = none := by
  rcases h.lookup? name with ⟨-, hnone⟩ | ⟨b', w, hb', -, -⟩
  · exact hnone
  · rw [hb] at hb'
    cases hb'

/-- Only registers, memory and trace matter. -/
theorem Matches.congr (h : m.Matches scope n a c) (hregisters : c'.registers = c.registers)
    (hcells : c'.cells = c.cells) (hstore : c'.store = c.store) (htrace : c'.trace = c.trace)
    (hn : n ≤ n') : m.Matches scope n' a c' where
  store := hstore.trans h.store
  trace := htrace.trans h.trace
  frames := h.frames.imp fun hb =>
    hb.keep (fun r _ => congrFun hregisters r) (by rw [hcells]; exact id) hn
  outer := h.outer
  slots := h.slots
  separate := by
    refine ⟨?_, ?_⟩
    · rw [hregisters, hcells]
      exact h.separate.lt
    · rw [hregisters]
      exact h.separate.inj

/-- A new register gets a value that is not the address of a cell. -/
theorem Matches.write (h : m.Matches scope n a c) {value : Value} (hvalue : ∀ k, value ≠ .cell k) :
    m.Matches scope (n + 1) a
      { c with registers := Function.update c.registers (n + 1) (some value) } := by
  have hother : ∀ {r k}, Function.update c.registers (n + 1) (some value) r = some (.cell k) →
      c.registers r = some (.cell k) := by
    intro r k hr
    by_cases heq : r = n + 1
    · rw [heq, Function.update_self] at hr
      exact absurd (Option.some.inj hr) (hvalue k)
    · rwa [Function.update_of_ne heq] at hr
  have hkeeps : Keeps n c
      { c with registers := Function.update c.registers (n + 1) (some value) } :=
    fun r hr => Function.update_of_ne (by omega) _ _
  exact ⟨h.store, h.trace, h.frames.imp fun hb => hb.keep hkeeps id (Nat.le_succ n), h.outer,
    h.slots, fun hr => h.separate.lt (hother hr),
    fun hr hr' => h.separate.inj (hother hr) (hother hr')⟩

/-- A new register gets the address of a new cell. -/
theorem Matches.alloc (h : m.Matches scope n a c) :
    m.Matches scope (n + 1) a
      { c with
        registers := Function.update c.registers (n + 1) (some (.cell c.cells.length))
        cells := c.cells ++ [none] } := by
  have hcases : ∀ {r k}, Function.update c.registers (n + 1) (some (.cell c.cells.length)) r =
      some (Value.cell k) →
      (r = n + 1 ∧ k = c.cells.length) ∨ (k < c.cells.length ∧ c.registers r = some (.cell k)) := by
    intro r k hr
    by_cases heq : r = n + 1
    · rw [heq, Function.update_self] at hr
      exact .inl ⟨heq, (Value.cell.inj (Option.some.inj hr)).symm⟩
    · rw [Function.update_of_ne heq] at hr
      exact .inr ⟨h.separate.lt hr, hr⟩
  refine ⟨h.store, h.trace, h.frames.imp fun hb => hb.keep (fun r hr => ?_) (fun hk => ?_)
    (Nat.le_succ n), h.outer, h.slots, fun hr => ?_, fun hr hr' => ?_⟩
  · exact Function.update_of_ne (by omega) _ _
  · exact (List.getElem?_append_left (List.getElem?_eq_some_iff.mp hk).1).trans hk
  · rw [List.length_append, List.length_singleton]
    rcases hcases hr with ⟨-, rfl⟩ | ⟨hk, -⟩
    · exact Nat.lt_succ_self _
    · exact Nat.lt_succ_of_lt hk
  · -- the new address is above those of all other cells
    rcases hcases hr with ⟨rfl, rfl⟩ | ⟨hk, hr⟩ <;>
      rcases hcases hr' with ⟨rfl, hk'⟩ | ⟨hk', hr'⟩
    · rfl
    · omega
    · omega
    · exact h.separate.inj hr hr'

/-- The top level variables and the record of calls change on both sides. -/
theorem Matches.outside (h : m.Matches scope n a c) {store store' : Store}
    {trace trace' : List Event} (hstore : store' = store) (htrace : trace' = trace) :
    m.Matches scope n { a with store := store, trace := trace }
      { c with store := store', trace := trace' } where
  store := hstore
  trace := htrace
  frames := h.frames.imp fun hb => hb.keep (Keeps.refl n c) id (le_refl n)
  outer := h.outer
  slots := h.slots
  separate := ⟨h.separate.lt, h.separate.inj⟩

/-- A store leaves cells separate. -/
private theorem Config.Separate.set (h : c.Separate) (k : Nat) (v : Int64) :
    Config.Separate { c with cells := c.cells.set k (some v) } := by
  refine ⟨fun hr => ?_, h.inj⟩
  rw [List.length_set]
  exact h.lt hr

/-- A local variable that lives in a cell gets a new value. -/
theorem Matches.assign (h : m.Matches scope n a c) {r k : Nat} {ty : Ty}
    (hb : scope.lookup? name = some (.slot (.register r ty)))
    (hcell : c.registers r = some (.cell k)) (hn : r ≤ n) (v : Int64) :
    m.Matches scope n { a with locals := Eval.assignIn name v a.locals }
      { c with cells := c.cells.set k (some v) } where
  store := h.store
  trace := h.trace
  frames := by
    have hframes := h.frames.assign h.separate hcell hn h.slots hb v
    rwa [assignIn_append_nil] at hframes
  outer := h.outer
  slots := h.slots
  separate := h.separate.set k v

/-- A cell that belongs to no variable is filled. -/
theorem Matches.set_other (h : m.Matches scope n a c) {r k : Nat}
    (hcell : c.registers r = some (.cell k)) (hr : r ∉ WordScheme.slots scope.frames) (v : Int64) :
    m.Matches scope n a { c with cells := c.cells.set k (some v) } where
  store := h.store
  trace := h.trace
  frames := h.frames.set_other h.separate hcell hr v
  outer := h.outer
  slots := h.slots
  separate := h.separate.set k v

/-- There is a frame for every frame of the scope but the outermost. -/
theorem Matches.exists_cons (h : m.Matches scope n a c) :
    ∃ values locals, a.locals = values :: locals ∧ m.FrameAgrees c n values scope.inner ∧
      m.FramesAgree c n (locals ++ [[]]) scope.outer := by
  have hframes := h.frames
  cases hlocals : a.locals with
  | nil =>
    -- one frame would be left for a scope of two frames at least
    rw [hlocals] at hframes
    cases hframes with
    | cons _ htail => exact absurd (List.forall₂_nil_left_iff.mp htail) h.outer
  | cons values locals =>
    rw [hlocals] at hframes
    cases hframes with
    | cons hhead htail => exact ⟨values, locals, rfl, hhead, htail⟩

/-- A local variable is bound, in a cell of its own if in a cell. -/
theorem Matches.bind (h : m.Matches scope n a c) {b : Binding} {w : Int64}
    (hb : m.Denotes c n b w) (hslot : ∀ r, b.slot? = some r → r ∉ WordScheme.slots scope.frames)
    (name : Name) :
    m.Matches (scope.bind name b) n { a with locals := Eval.bindIn name w a.locals } c := by
  obtain ⟨values, locals, hlocals, hinner, houter⟩ := h.exists_cons
  have hnodup := h.slots
  rw [WordScheme.slots, Scope.frames, List.flatMap_cons, List.nodup_append] at hnodup
  obtain ⟨hnodupInner, hnodupOuter, hdisjoint⟩ := hnodup
  refine ⟨h.store, h.trace, ?_, h.outer, ?_, h.separate⟩
  · rw [hlocals]
    exact .cons (hinner.put hb name) houter
  · rw [WordScheme.slots, Scope.frames, List.flatMap_cons, List.nodup_append]
    refine ⟨nodup_frameSlots_put hnodupInner fun r hr hmem => ?_, hnodupOuter,
      fun r hr r' hr' heq => ?_⟩
    · exact hslot r hr (List.mem_append_left _ hmem)
    · subst heq
      rcases mem_frameSlots_put hr with hmem | hr
      · exact hdisjoint r hmem r hr' rfl
      · exact hslot r hr (List.mem_append_right _ hr')

/-- A frame is opened on both sides. -/
theorem Matches.push (h : m.Matches scope n a c) :
    m.Matches scope.push n { a with locals := [] :: a.locals } c where
  store := h.store
  trace := h.trace
  frames := .cons .nil h.frames
  outer := List.cons_ne_nil _ _
  slots := h.slots
  separate := h.separate

/-- A frame that was opened over a scope is closed on both sides. -/
theorem Matches.pop {inside : Scope} (h : m.Matches inside n a c)
    (hscope : inside.outer = scope.frames) (houter : scope.outer ≠ []) :
    m.Matches scope n { a with locals := a.locals.tail } c := by
  obtain ⟨values, locals, hlocals, -, htail⟩ := h.exists_cons
  rw [hscope] at htail
  have hnodup := h.slots
  rw [WordScheme.slots, Scope.frames, List.flatMap_cons, List.nodup_append, hscope] at hnodup
  refine ⟨h.store, h.trace, ?_, houter, hnodup.2.1, h.separate⟩
  rw [hlocals]
  exact htail

end States

end Machine

end WordScheme
