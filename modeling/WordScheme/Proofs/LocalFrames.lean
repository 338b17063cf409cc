import Mathlib
import WordScheme.Proofs.LoweringPoints

/-!
# Local names in their frames

A function keeps the names that it assigns to in cells and all others as values. The names are
collected before its body is lowered; here it is shown that this is enough. At every point of the
lowering, in every frame, exactly the collected names stand for cells (`Scope.Slotted`), so an
assignment always stores and never binds a name anew. It follows that only the innermost frame
changes while an expression is lowered (`Composed.outer`), and that the arms of a conditional leave
no trace in the local names (`scope_lowerBranches`). `assigned_names_in_cells` is the result.
-/

namespace WordScheme

open Lower LowerState NameSupply FunctionDraft

/-- In every frame the given names stand for cells, and all others for values. -/
def Scope.Slotted (cells : List Name) (s : Scope) : Prop :=
  ∀ frame ∈ s.frames, ∀ x ∈ frame, x.2.isSlot = cells.contains x.1

private theorem Scope.Slotted.lookup? {cells : List Name} {s : Scope} (h : s.Slotted cells)
    {name : Name}
    {b : Binding} (hb : s.lookup? name = some b) : b.isSlot = cells.contains name := by
  obtain ⟨frame, hf, hx⟩ := mem_of_lookupIn? hb
  exact h frame hf _ hx

/-- A name that is kept in a cell does not stand for a value. -/
private theorem Scope.Slotted.lookup?_ne {cells : List Name} {s : Scope} (h : s.Slotted cells)
    {name : Name} (hname : name ∈ cells) (o : Operand) : s.lookup? name ≠ some (.value o) := by
  intro hlookup
  have hslot := h.lookup? hlookup
  rw [List.contains_iff_mem.mpr hname] at hslot
  cases hslot

private theorem Scope.Slotted.push {cells : List Name} {s : Scope} (h : s.Slotted cells) :
    s.push.Slotted cells := by
  intro frame hf x hx
  obtain ⟨old, hold, hx⟩ := mem_push hf hx
  exact h old hold x hx

/-! ### Changes -/

/-- All bindings of all frames satisfy a condition. -/
def LowerState.Binds (P : Name × Binding → Prop) (s : LowerState) : Prop :=
  ∀ frame ∈ s.draft.scope.frames, ∀ x ∈ frame, P x

variable {V : Vocabulary} {P : Name × Binding → Prop} {s t : LowerState}

/-- A condition on bindings is kept that holds of names that are bound as they should be, and that
does not depend on the value that a name stands for. -/
theorem LowerState.Binds.change (hs : s.Binds P) (h : Change V s t)
    (hbound : ∀ name b, b.isSlot = V.cells.contains name → P (name, b))
    (hvalue : ∀ name old new, P (name, .value old) → P (name, .value new)) : t.Binds P := by
  have hscope : t.draft.scope = s.draft.scope → t.Binds P := by
    intro heq
    rwa [Binds, heq]
  cases h with
  | emit h => exact hscope (emit_scope _ _)
  | address h => exact hscope (emit_scope _ _)
  | phi incoming => exact hscope (emit_scope _ _)
  | store value pointer => exact hscope (append_scope _ _)
  | push =>
    intro frame hf x hx
    obtain ⟨old, hold, hx⟩ := Scope.mem_push hf hx
    exact hs old hold x hx
  | pop =>
    intro frame hf x hx
    obtain ⟨old, hold, hx⟩ := Scope.mem_pop hf hx
    exact hs old hold x hx
  | declare name b hb =>
    intro frame hf x hx
    rcases Scope.mem_bind hf hx with ⟨old, hold, hx⟩ | rfl
    · exact hs old hold x hx
    · exact hbound name b hb
  | @rebind name old value _ hlookup =>
    intro frame hf x hx
    rcases Scope.mem_rebind hf hx with ⟨old, hold, hx⟩ | rfl
    · exact hs old hold x hx
    · obtain ⟨f, hf', hx'⟩ := Scope.mem_of_lookupIn? hlookup
      exact hvalue name old value (hs f hf' _ hx')
  | @spill name pointer hname =>
    intro frame hf x hx
    rcases Scope.mem_rebind hf hx with ⟨old, hold, hx⟩ | rfl
    · exact hs old hold x hx
    · exact hbound name _ (List.contains_iff_mem.mpr hname).symm
  | _ => exact hscope rfl

private theorem LowerState.Binds.changes (hs : s.Binds P) (h : Changes V s t)
    (hbound : ∀ name b, b.isSlot = V.cells.contains name → P (name, b))
    (hvalue : ∀ name old new, P (name, .value old) → P (name, .value new)) : t.Binds P := by
  induction h with
  | refl => exact hs
  | tail _ hchange ih => exact ih.change hchange hbound hvalue

/-- Names that stand for cells as they should go on to do so. -/
private theorem Scope.Slotted.changes (hs : s.draft.scope.Slotted V.cells) (h : Changes V s t) :
    t.draft.scope.Slotted V.cells :=
  LowerState.Binds.changes hs h (fun _ _ hb => hb) fun _ _ _ hold => hold

/-! ### Frames -/

section Arms

variable {positive negative arm : Lower Operand} {stem : String} {condition value : Operand}
  {block merge : BlockRef} {incoming : List (Operand × Name)}

/-- If a lowering succeeds where names stand for cells as they should, it changes the innermost
frame at most. -/
def Lower.KeepsOuter {α : Type} (V : Vocabulary) (m : Lower α) : Prop :=
  ∀ s a t, s.draft.scope.Slotted V.cells → m s = .ok a t →
    t.draft.scope.outer = s.draft.scope.outer

private theorem scope_leaveArm (h : leaveArm merge value s = .ok incoming t) :
    t.draft.scope = s.draft.scope.pop := by
  rcases cases_of_leaveArm h with ⟨-, -, rfl⟩ | ⟨-, -, rfl⟩ <;> rfl

private theorem scope_join (h : join merge incoming s = .ok value t) :
    t.draft.scope = s.draft.scope := by
  obtain ⟨hlt, ⟨-, -, -, rfl⟩ | ⟨-, -, rfl⟩⟩ := cases_of_join h
  · rfl
  · exact emit_scope _ _

/-- An arm leaves the local names as they were. -/
private theorem scope_lowerArm (harm : KeepsOuter V arm) (hs : s.draft.scope.Slotted V.cells)
    (h : lowerArm block merge arm s = .ok incoming t) : t.draft.scope = s.draft.scope := by
  obtain ⟨hlt, value, r, hrun, hleave⟩ := exists_of_lowerArm h
  have hentered : (s.entered block.index hlt).draft.scope.Slotted V.cells := hs.push
  rw [scope_leaveArm hleave]
  exact Site.pop_of_outer_eq (harm _ _ _ hentered hrun)

/-- **Conditionals leave no trace in the local names.** -/
theorem scope_lowerBranches (hpos : KeepsOuter V positive) (hneg : KeepsOuter V negative)
    (hs : s.draft.scope.Slotted V.cells)
    (h : lowerBranches stem condition positive negative s = .ok value t) :
    t.draft.scope = s.draft.scope := by
  rcases cases_of_lowerBranches h with ⟨-, -, rfl⟩ | ⟨-, thenBlock, elseBlock, merge, forked,
    fromThen, mid, fromElse, last, -, hforked, hthen, helse, hjoin⟩
  · rfl
  · have hforked := hforked.names.scope
    have hmid : mid.draft.scope = s.draft.scope :=
      (scope_lowerArm hpos (hforked ▸ hs) hthen).trans hforked
    have hlast : last.draft.scope = s.draft.scope :=
      (scope_lowerArm hneg (hmid ▸ hs) helse).trans hmid
    exact (scope_join hjoin).trans hlast

end Arms

/-- **Only the innermost frame changes** while assigned names are kept in cells. -/
theorem Lower.Composed.outer {ε : Effect} {α : Type} {m : Lower α} (h : Composed V ε m)
    (hcells : ∀ name, V.assigns name → name ∈ V.cells) : KeepsOuter V m := by
  induction h with
  | bind hm _ ihm ihf =>
    intro s b u hs hrun
    obtain ⟨a, t, hm', hf⟩ := exists_of_bind hrun
    exact (ihf a s t hm' t b u (hs.changes (hm.goesBy.ok hm')) hf).trans (ihm s a t hs hm')
  | unlessLeft a _ ih =>
    intro s b t hs hrun
    rcases cases_of_unlessLeft hrun with ⟨-, -, rfl⟩ | ⟨-, hrun⟩
    · rfl
    · exact ih s b t hs hrun
  | emit h =>
    intro s a t _ hrun
    cases hrun
    exact congrArg Scope.outer (emit_scope _ _)
  | store value pointer =>
    intro s a t _ hrun
    cases hrun
    exact congrArg Scope.outer (append_scope _ _)
  | @assign name value hname =>
    intro s a t hs hrun
    rcases cases_of_assignment hrun with ⟨pointer, rfl⟩ | ⟨old, hlookup, rfl⟩
    · exact congrArg Scope.outer (append_scope _ _)
    · exact absurd hlookup (hs.lookup?_ne (hcells name hname) old)
  | @string value h =>
    intro s a t _ hrun
    obtain ⟨name, -, heq⟩ := lowerLiteral_string_eq value s
    rw [heq] at hrun
    cases hrun
    exact congrArg Scope.outer ((emit_scope _ _).trans (emit_scope _ _))
  | returning value =>
    intro s a t _ hrun
    rcases cases_of_returning hrun with rfl | ⟨-, rfl⟩ <;> rfl
  | branches hstem condition _ _ ihpos ihneg =>
    intro s a t hs hrun
    exact congrArg Scope.outer (scope_lowerBranches ihpos ihneg hs hrun)
  | throw e =>
    intro s a t _ hrun
    cases hrun
  | _ =>
    -- the other operations leave the scope alone, or bind a name in the innermost frame
    intro s a t _ hrun
    cases hrun
    rfl

/-! ### Conditionals -/

namespace Expr

/-- The first condition or operand of a conditional. -/
def firstOperand? : Expr → Option Expr
  | .ifElse c _ _ => some c
  | .cond (.test q _ :: _) => some q
  | .and (e :: _) => some e
  | .or (e :: _) => some e
  | .not e => some e
  | _ => none

/-- Whether an expression is an `if`, `cond`, `and`, `or` or `not`. -/
def isConditional : Expr → Bool
  | .ifElse _ _ _ => true
  | .cond _ => true
  | .and _ => true
  | .or _ => true
  | .not _ => true
  | _ => false

variable {e : Expr} {v : Operand}

/-- An arm of a conditional changes the innermost frame only. -/
private theorem keepsOuter_arm {p : Arm} (h : V.CoversArm p)
    (hcells : ∀ name, V.assigns name → name ∈ V.cells) : KeepsOuter V (p.lowered V.cells) := by
  cases p with
  | expr e => exact (lower_composed e h).outer hcells
  | value o => exact (Composed.pure o).outer hcells

/-- Where a conditional branches, its local names are those that it ends with. -/
private theorem Forks.scope_eq {stem : String} {w : Operand} {p n : Arm} {r : LowerState}
    (h : Forks V.cells e s stem w p n r) (hcovers : V.CoversExpr e)
    (hcells : ∀ name, V.assigns name → name ∈ V.cells) (hs : s.draft.scope.Slotted V.cells)
    (hrun : lower V.cells e s = .ok v t) : t.draft.scope = r.draft.scope := by
  obtain ⟨hchanges, hp, hn⟩ := h.changes hcovers
  rw [h.lower_eq] at hrun
  exact scope_lowerBranches (keepsOuter_arm hp hcells) (keepsOuter_arm hn hcells)
    (hs.changes hchanges) hrun

/-- What a conditional does that succeeds: it branches on its first operand, or that is all of it;
without an operand it branches right away, or does nothing. -/
private theorem cases_of_conditional {assigned : List Name} (he : e.isConditional = true)
    (hrun : lower assigned e s = .ok v t) :
    (∃ c w r, e.firstOperand? = some c ∧ lower assigned c s = .ok w r ∧
      (t = r ∨ ∃ stem p n, Forks assigned e s stem w p n r)) ∨
    (e.firstOperand? = none ∧ (t = s ∨ ∃ stem w p n, Forks assigned e s stem w p n s)) := by
  cases e with
  | ifElse c p n =>
    rw [lower] at hrun
    obtain ⟨w, r, hc, -⟩ := exists_of_bind hrun
    exact .inl ⟨c, w, r, rfl, hc, .inr ⟨_, _, _, .ifElse hc⟩⟩
  | not c =>
    rw [lower] at hrun
    obtain ⟨w, r, hc, -⟩ := exists_of_bind hrun
    exact .inl ⟨c, w, r, rfl, hc, .inr ⟨_, _, _, .not hc⟩⟩
  | cond clauses =>
    rw [lower] at hrun
    rcases clauses with _ | ⟨⟨c, b⟩ | b, cs⟩
    · cases hrun
      exact .inr ⟨rfl, .inl rfl⟩
    · rw [lowerClauses] at hrun
      obtain ⟨w, r, hc, -⟩ := exists_of_bind hrun
      exact .inl ⟨c, w, r, rfl, hc, .inr ⟨_, _, _, .test hc⟩⟩
    · exact .inr ⟨rfl, .inr ⟨_, _, _, _, .otherwise⟩⟩
  | and es =>
    rw [lower] at hrun
    rcases es with _ | ⟨c, _ | ⟨d, es⟩⟩
    · cases hrun
      exact .inr ⟨rfl, .inl rfl⟩
    · exact .inl ⟨c, v, t, rfl, hrun, .inl rfl⟩
    · rw [lowerAnd_cons_cons] at hrun
      obtain ⟨w, r, hc, -⟩ := exists_of_bind hrun
      exact .inl ⟨c, w, r, rfl, hc, .inr ⟨_, _, _, .and hc⟩⟩
  | or es =>
    rw [lower] at hrun
    rcases es with _ | ⟨c, _ | ⟨d, es⟩⟩
    · cases hrun
      exact .inr ⟨rfl, .inl rfl⟩
    · exact .inl ⟨c, v, t, rfl, hrun, .inl rfl⟩
    · rw [lowerOr_cons_cons] at hrun
      obtain ⟨w, r, hc, -⟩ := exists_of_bind hrun
      exact .inl ⟨c, w, r, rfl, hc, .inr ⟨_, _, _, .or hc⟩⟩
  | _ => cases he

/-- The local names once the first condition or operand of a conditional has been lowered. -/
def firstScope (assigned : List Name) (e : Expr) (s : LowerState) : Scope :=
  match e.firstOperand? with
  | some c => (endState (lower assigned c) s).draft.scope
  | none => s.draft.scope

/-- **A conditional leaves the local names as its first condition or operand did.** -/
theorem scope_conditional (he : e.isConditional = true) (hcovers : V.CoversExpr e)
    (hcells : ∀ name, V.assigns name → name ∈ V.cells) (hs : s.draft.scope.Slotted V.cells)
    (hrun : lower V.cells e s = .ok v t) : t.draft.scope = e.firstScope V.cells s := by
  rcases cases_of_conditional he hrun with ⟨c, w, r, hfirst, hc, hr⟩ | ⟨hfirst, hr⟩
  · rw [firstScope, hfirst]
    change t.draft.scope = (endState (lower V.cells c) s).draft.scope
    rw [endState_of_ok hc]
    rcases hr with rfl | ⟨stem, p, n, hforks⟩
    · rfl
    · exact hforks.scope_eq hcovers hcells hs hrun
  · rw [firstScope, hfirst]
    rcases hr with rfl | ⟨stem, w, p, n, hforks⟩
    · rfl
    · exact hforks.scope_eq hcovers hcells hs hrun

end Expr

/-! ### Functions -/

namespace Attempt

variable {u : CompileUnit} {a : Attempt} {e : Expr}

/-- At the start of a function no name stands for a cell. -/
private theorem binds_start (u : CompileUnit) (name : Name) (params : List Name)
    (globals : Globals) :
    (start u name params globals).Binds fun x => x.2.isSlot = true → x.1 ∈ a.assigned := by
  obtain ⟨houter, -, hmem⟩ := Scope.foldl_bind_params params Scope.empty.push List.nodup_nil
  intro frame hf x hx
  rcases List.mem_cons.mp hf with rfl | hf
  · obtain ⟨p, -, rfl⟩ := (hmem x hx).resolve_left List.not_mem_nil
    intro hslot
    cases hslot
  · -- around the frame of the parameters there is the empty one of the top level
    have hf : frame ∈ Scope.empty.push.outer := houter ▸ hf
    rw [List.mem_singleton.mp hf] at hx
    cases hx

/-- Once the parameters have been moved, names stand for cells as they should. -/
private theorem slotted_spillParams {f : PendingFunction}
    (h : spillParams (assignedAll f.lambda.body) f.lambda.params
      ((Attempt.function f).begin u) = .ok () s) :
    s.draft.scope.Slotted (assignedAll f.lambda.body) := by
  let V := (Attempt.function f).vocabulary fun _ => True
  have hcells : s.Binds fun x => x.2.isSlot = true → x.1 ∈ (Attempt.function f).assigned := by
    refine (binds_start u f.name f.lambda.params f.globals).changes (V := V)
      ((goesBy_spillParams _).ok h) (fun name b hb hslot => ?_) fun name old new _ hslot => ?_
    · exact List.contains_iff_mem.mp (hb.symm.trans hslot)
    · cases hslot
  have hleads := spillParams_leads (Site.spilling_start (assignedAll f.lambda.body) f.name
    f.lambda.params f.globals) ((Attempt.function f).begin u) rfl
  rw [h] at hleads
  obtain ⟨q, hq, -, hspilled⟩ := hleads
  intro frame hf x hx
  by_cases hname : x.1 ∈ assignedAll f.lambda.body
  · obtain ⟨pointer, hslot⟩ := hspilled.ready.slots frame (hq ▸ hf) x hx hname
    rw [hslot, List.contains_iff_mem.mpr hname]
    rfl
  · have hvalue : x.2.isSlot = false :=
      Bool.eq_false_iff.mpr fun hslot => hname (hcells frame hf x hx hslot)
    rw [hvalue, List.contains_eq_mem, decide_eq_false hname]

/-- The entry function starts without local names. -/
private theorem slotted_entry {pre post : List Expr} {skipped : List Nat} {globals : Globals}
    {v : Operand} (h : lowerForms (assignedAll (pre ++ post)) skipped 0 (.word 0) pre
      ((Attempt.entry (pre ++ post) skipped globals).begin u) = .ok v s) :
    s.draft.scope.Slotted (assignedAll (pre ++ post)) := by
  have hbegin : ((Attempt.entry (pre ++ post) skipped globals).begin u).draft.scope.Slotted
      (assignedAll (pre ++ post)) := by
    intro frame hf x hx
    have hframe : frame ∈ ([[], []] : List (Assoc Name Binding)) := hf
    rw [List.eq_of_mem_replicate (n := 2) hframe] at hx
    cases hx
  have hcovers : ((Attempt.entry (pre ++ post) skipped globals).vocabulary fun _ => True).CoversAll
      (pre ++ post) := covers_forms fun _ _ => trivial
  exact hbegin.changes
    ((lowerForms_composed skipped 0 _ pre (Vocabulary.coversAll_append.mp hcovers).1).goesBy.ok h)

private theorem Enters.slotted (h : a.Enters u e s) : s.draft.scope.Slotted a.assigned := by
  cases h with
  | @body f s h =>
    obtain ⟨⟨⟩, r, hspill, hpush⟩ := exists_of_bind h
    cases hpush
    exact (slotted_spillParams hspill).push
  | form hskipped hdefine h hlive => exact slotted_entry h
  | defined hskipped h hlive => exact slotted_entry h

/-- **At every point of a function exactly its assigned names stand for cells.** -/
theorem Comes.slotted (h : a.Comes u e s) : s.draft.scope.Slotted a.assigned := by
  induction h with
  | enter h => exact h.slotted
  | next hcomes hnext ih =>
    exact ih.changes (Expr.Next.comesTo (V := Attempt.vocabulary _ _) hnext hcomes.covers).1.changes

end Attempt

/-- What lowering an expression does to the local names of a function that keeps the given ones in
cells. -/
structure Expr.KeepsLocals (cells : List Name) (e : Expr) (s : LowerState) : Prop where
  /-- Before, exactly these names stand for cells, in every frame. -/
  before : s.draft.scope.Slotted cells
  /-- So they do afterwards, also if lowering fails. -/
  after : (endState (lower cells e) s).draft.scope.Slotted cells
  /-- The name of an assignment does not stand for a value. -/
  assigned : ∀ name value v t, e = .assign name value → lower cells value s = .ok v t →
    ∀ o, t.draft.scope.lookup? name ≠ some (.value o)
  depth : ∀ v t, lower cells e s = .ok v t → t.draft.scope.depth = s.draft.scope.depth
  /-- All frames but the innermost stay as they are. -/
  outer : ∀ v t, lower cells e s = .ok v t → t.draft.scope.outer = s.draft.scope.outer
  /-- A conditional leaves the local names as its first condition or operand did. -/
  conditional : e.isConditional = true → ∀ v t, lower cells e s = .ok v t →
    t.draft.scope = e.firstScope cells s

/-- **Assigned names live in cells, and nothing else does.** At every point of every function, local
names are kept so. -/
theorem assigned_names_in_cells (u : CompileUnit) (a : Attempt) (e : Expr) (s : LowerState)
    (h : a.Comes u e s) : e.KeepsLocals a.assigned s := by
  let V := a.vocabulary fun _ => True
  have hcells : ∀ name, V.assigns name → name ∈ V.cells := fun _ hname => hname
  have hcomposed : Composed V e.effect (lower a.assigned e) := lower_composed e h.covers
  have houter : ∀ v t, lower a.assigned e s = .ok v t →
      t.draft.scope.outer = s.draft.scope.outer :=
    fun v t hrun => hcomposed.outer hcells s v t h.slotted hrun
  refine ⟨h.slotted, h.slotted.changes (hcomposed.goesBy s), ?_, ?_, houter, ?_⟩
  · -- its value is lowered before, and a name that is assigned to is one that is kept in a cell
    rintro name value v t rfl hvalue o
    have hnext : a.Comes u value s := h.next .assigned
    have hslotted : t.draft.scope.Slotted V.cells :=
      h.slotted.changes ((lower_composed value hnext.covers).goesBy.ok hvalue)
    exact hslotted.lookup?_ne (h.covers.assigned name List.mem_cons_self) o
  · intro v t hrun
    simp only [Scope.depth, Scope.frames, List.length_cons, houter v t hrun]
  · exact fun he v t hrun => Expr.scope_conditional he h.covers hcells h.slotted hrun

/-- Of the parameters `x` and `y` one is assigned to by the body, the other only by an arm that
shadows it. -/
theorem assigned_names_in_cells_of_shadowed_parameter :
    let e : Expr := .ifElse (.var "y")
      (.sequence [.define "y" (.var "x"), .assign "y" (.integer 1)]) (.ret (.var "x"))
    let a := Attempt.function ⟨"f", ⟨["x", "y"], [.assign "x" e]⟩, []⟩
    ∃ s, a.Comes (.start "module" "main") e s ∧ e.KeepsLocals ["x", "y"] s := by
  intro e a
  have hbody : a.Comes (.start "module" "main") (.sequence [.assign "x" e]) _ := .enter (.body rfl)
  have hform : a.Comes (.start "module" "main") (.assign "x" e) _ :=
    hbody.next (@Expr.Next.form _ _ [] _ _ _ _ rfl (.inl rfl))
  have hvalue : a.Comes (.start "module" "main") e _ := hform.next .assigned
  exact ⟨_, hvalue, assigned_names_in_cells _ _ _ _ hvalue⟩

end WordScheme
