import Mathlib
import WordScheme.Proofs.LoweringChanges

/-!
# What code demands of its module

The code of a function asks for more than it contains: for declarations of library functions, for
constants that hold its strings, and for the functions that its lambdas become. `Expr.demands` lists
this without lowering anything.

`Lower.Logs` is a triple that compares such a list with a lowering: if it succeeds, the state
provides what it did before and what is in the list, and nothing else; if it fails, it provides no
more than that. By `Composed.logs` a composed lowering brings what its effect demands; for whole
bodies these are `lowerBody_logs` and `lowerForms_logs`.
-/

namespace WordScheme

open Lower LowerState FunctionDraft

/-! ### What a unit provides -/

namespace CompileUnit

variable {u : CompileUnit} {x : Demand}

/-- The library function is declared, or the string has a constant. -/
def Provides (u : CompileUnit) : Demand → Prop
  | .library f => f.declaration ∈ u.module.definitions
  | .string value => (u.strings.get? value).isSome = true
  | .function _ => False

/-- Definitions that are no declarations do not count. -/
theorem provides_ensure {d : Definition} (hd : d.kind ≠ .external) :
    (u.ensure d).Provides x ↔ u.Provides x := by
  cases x with
  | library f =>
    refine ⟨fun h => ?_, fun h => (u.module.prefix_ensure d).subset h⟩
    refine (ModuleDraft.mem_or_eq_of_mem_ensure h).resolve_right ?_
    rintro rfl
    exact hd rfl
  | string value => exact Iff.rfl
  | function l => exact Iff.rfl

/-- A library function that is asked for is provided, and nothing else comes with it. -/
private theorem provides_libraryFunction (f : LibraryFunction) :
    (u.libraryFunction f).2.Provides x ↔ u.Provides x ∨ x = .library f := by
  cases x with
  | library g =>
    constructor
    · intro h
      refine (ModuleDraft.mem_or_eq_of_mem_ensure h).imp_right fun heq => ?_
      rw [LibraryFunction.symbol_inj (congrArg Definition.name heq)]
    · rintro (h | heq)
      · exact (u.module.prefix_ensure f.declaration).subset h
      · cases heq
        exact ModuleDraft.mem_ensure (d := f.declaration) rfl
  | string value => exact (or_iff_left (by simp)).symm
  | function l => exact (or_iff_left (by simp)).symm

/-- A string that is asked for is provided, and nothing else comes with it. -/
private theorem provides_stringConstant (value : String) :
    (u.stringConstant value).2.Provides x ↔ u.Provides x ∨ x = .string value := by
  rw [stringConstant]
  cases hv : u.strings.get? value with
  | some name =>
    refine (or_iff_left_of_imp ?_).symm
    rintro rfl
    exact Option.isSome_of_eq_some hv
  | none =>
    cases x with
    | library f =>
      refine Iff.trans ?_ (or_iff_left (by simp)).symm
      exact provides_ensure (x := .library f) (d := .stringConstant _ _) (by simp [Definition.kind])
    | string other =>
      change ((u.strings.put value _).get? other).isSome = true ↔
        (u.strings.get? other).isSome = true ∨ Demand.string other = .string value
      by_cases heq : other = value
      · subst heq
        simp [Assoc.get?_put_self]
      · simp [Assoc.get?_put_of_ne _ _ heq, heq]
    | function l => exact (or_iff_left (by simp)).symm

end CompileUnit

namespace LowerState

variable {s t u : LowerState} {ds es : List Demand}

/-- The unit provides it, or it is a function that waits. -/
def Provides (s : LowerState) (x : Demand) : Prop :=
  s.unit.Provides x ∨ ∃ g ∈ s.draft.pending, x = .function g.lambda

/-- What has come is exactly this. -/
def Brings (ds : List Demand) (s t : LowerState) : Prop :=
  ∀ x, t.Provides x ↔ s.Provides x ∨ x ∈ ds

/-- What two runs bring adds up. -/
private theorem Brings.trans (h : Brings ds s t) (h' : Brings es t u) : Brings (ds ++ es) s u := by
  intro x
  rw [h' x, h x, List.mem_append, or_assoc]

/-- Nothing has come if units and functions that wait are the same. -/
private theorem brings_nil (hunit : t.unit = s.unit)
    (hpending : t.draft.pending = s.draft.pending) : Brings [] s t := by
  intro x
  rw [Provides, Provides, hunit, hpending]
  simp

/-- What the unit provides is provided in its state. -/
private theorem brings_unit {u : CompileUnit}
    (h : ∀ x, u.Provides x ↔ s.unit.Provides x ∨ x ∈ ds) : Brings ds s { s with unit := u } := by
  intro x
  change u.Provides x ∨ _ ↔ (s.unit.Provides x ∨ _) ∨ x ∈ ds
  rw [h x, or_right_comm]

/-- A lifted lambda is a function that waits. -/
private theorem brings_lift (s : LowerState) (l : Lambda) : Brings [.function l] s (s.lift l) := by
  intro x
  have hunit : (s.lift l).unit.Provides x ↔ s.unit.Provides x := by
    refine CompileUnit.provides_ensure (u := (s.unit.freshLambdaName s.draft.globals).2) ?_
    simp [ModuleDraft.placeholder, Definition.kind]
  have hpending : (∃ g ∈ (s.lift l).draft.pending, x = .function g.lambda) ↔
      (∃ g ∈ s.draft.pending, x = .function g.lambda) ∨ x = .function l := by
    change (∃ g ∈ s.draft.pending ++ [_], x = .function g.lambda) ↔ _
    simp [or_and_right, exists_or]
  rw [Provides, hunit, hpending, List.mem_singleton, ← or_assoc]
  rfl

end LowerState

/-! ### The triple -/

namespace Lower

variable {α β : Type}

/-- From a state `s` the steps bring what is in the list and nothing else, and `Q` holds of their
outcome; if they fail, they bring no more than that. -/
def Tells (ds : List Demand) (s : LowerState) (m : Lower α) (Q : α → LowerState → Prop) : Prop :=
  match m s with
  | .ok a t => Q a t ∧ Brings ds s t
  | .error _ t => ∀ x, t.Provides x → s.Provides x ∨ x ∈ ds

section Tells

variable {ds es : List Demand} {s t : LowerState} {m : Lower α} {f : α → Lower β}
  {Q : α → LowerState → Prop} {R : β → LowerState → Prop}

private theorem tells_ok {a : α} (hm : m s = .ok a t) (hQ : Q a t) (h : Brings ds s t) :
    Tells ds s m Q := by
  rw [Tells, hm]
  exact ⟨hQ, h⟩

private theorem tells_pure {a : α} (h : Q a s) : Tells [] s (pure a) Q :=
  tells_ok rfl h (brings_nil rfl rfl)

/-- What two steps bring adds up. -/
private theorem Tells.bind (h : Tells ds s m Q) (hf : ∀ a t, Q a t → Tells es t (f a) R) :
    Tells (ds ++ es) s (m >>= f) R := by
  rw [Tells, run_bind]
  rw [Tells] at h
  cases hm : m s with
  | error e t =>
    rw [hm] at h
    exact fun x hx => (h x hx).imp_right (List.mem_append_left es)
  | ok a t =>
    rw [hm] at h
    obtain ⟨hQ, hst⟩ := h
    have hrest := hf a t hQ
    rw [Tells] at hrest
    dsimp only
    cases hfa : f a t with
    | ok b u =>
      rw [hfa] at hrest
      exact ⟨hrest.1, hst.trans hrest.2⟩
    | error e u =>
      rw [hfa] at hrest
      intro x hx
      have hbefore := hrest x hx
      rw [hst x, or_assoc] at hbefore
      rwa [List.mem_append]

/-- What comes after a step of which everything is known and that brings nothing. -/
private theorem Tells.after {a : α} (hm : m s = .ok a t) (hst : Brings [] s t)
    (h : Tells ds t (f a) R) : Tells ds s (m >>= f) R :=
  (tells_ok (Q := fun a' t' => a' = a ∧ t' = t) hm ⟨rfl, rfl⟩ hst).bind fun a' t' heq => by
    obtain ⟨rfl, rfl⟩ := heq
    exact h

/-- What comes after a step brings nothing. -/
private theorem Tells.bind_nil (h : Tells ds s m Q) (hf : ∀ a t, Q a t → Tells [] t (f a) R) :
    Tells ds s (m >>= f) R :=
  List.append_nil ds ▸ h.bind hf

/-- The outcome is one of the run. -/
private theorem Tells.of_run (h : Tells ds s m Q) :
    Tells ds s m fun a t => m s = .ok a t ∧ Q a t := by
  rw [Tells] at h ⊢
  cases hm : m s with
  | ok a t =>
    rw [hm] at h
    exact ⟨⟨rfl, h.1⟩, h.2⟩
  | error e t =>
    rw [hm] at h
    exact h

end Tells

/-- The steps bring what is in the list, from states in which the function has been left as `left`
says to states in which it has as `left'` says. -/
def Logs (left left' : Bool) (ds : List Demand) (m : Lower α) : Prop :=
  ∀ s : LowerState, s.draft.terminated = left →
    Tells ds s m fun _ t => t.draft.terminated = left'

section Logs

variable {left left' left'' : Bool} {ds es : List Demand} {m : Lower α} {f : α → Lower β}

/-- One step after another. -/
private theorem Logs.bind (h : Logs left left' ds m)
    (hf : ∀ a s t, m s = .ok a t → Logs left' left'' es (f a)) :
    Logs left left'' (ds ++ es) (m >>= f) :=
  fun s hs => (h s hs).of_run.bind fun a t ht => hf a s t ht.1 t ht.2

/-- A step that brings nothing, and what comes after it. -/
private theorem Logs.andThen (h : Logs left left' [] m) (hf : ∀ a, Logs left' left'' ds (f a)) :
    Logs left left'' ds (m >>= f) :=
  h.bind fun a _ _ _ => hf a

/-- A step, and what comes after it if that brings nothing. -/
theorem Logs.bind_nil (h : Logs left left' ds m) (hf : ∀ a, Logs left' left'' [] (f a)) :
    Logs left left'' ds (m >>= f) :=
  List.append_nil ds ▸ h.bind fun a _ _ _ => hf a

private theorem logs_pure (a : α) : Logs left left [] (pure a) :=
  fun _ hs => tells_pure hs

private theorem logs_throw (e : CompileError) : Logs left left' ds (throw e : Lower α) :=
  fun _ _ _ hx => .inl hx

private theorem logs_ofDraft (g : FunctionDraft → α) : Logs left left [] (ofDraft g) :=
  fun _ hs => tells_ok rfl hs (brings_nil rfl rfl)

private theorem logs_onScope (g : Scope → Scope) : Logs left left [] (onScope g) :=
  fun _ hs => tells_ok rfl hs (brings_nil rfl rfl)

private theorem logs_emit (i : Instruction) : Logs left left [] (emit i) := by
  intro s hs
  exact tells_ok rfl ((terminated_append _ _).trans hs) (brings_nil rfl (append_pending _ _))

private theorem logs_store (value pointer : Operand) : Logs left left [] (store value pointer) := by
  intro s hs
  exact tells_ok rfl ((terminated_append _ _).trans hs) (brings_nil rfl (append_pending _ _))

private theorem logs_addBlock (base : Name) : Logs left left [] (addBlock base) := by
  intro s hs
  exact tells_ok rfl ((terminated_addBlock _ _).trans hs) (brings_nil rfl rfl)

/-- A terminator brings nothing, and the function has been left behind it. -/
private theorem logs_terminate (t : Terminator) : Logs false true [] (terminate t) := by
  intro s hs
  exact tells_ok (terminate_eq hs t) (terminated_endWith _ _) (brings_nil rfl rfl)

/-- A lifted lambda brings a function. -/
private theorem logs_liftLambda (l : Lambda) : Logs left left [.function l] (liftLambda l) :=
  fun s hs => tells_ok (Likeness.liftLambda_eq l s) hs (brings_lift s l)

/-- What is asked of the unit brings what the unit provides from then on. -/
private theorem logs_onUnit {g : CompileUnit → α × CompileUnit}
    (h : ∀ u x, (g u).2.Provides x ↔ u.Provides x ∨ x ∈ ds) : Logs left left ds (onUnit g) :=
  fun s hs => tells_ok rfl hs (brings_unit (h s.unit))

/-- Which way to go on depends on whether the function has been left. -/
private theorem Logs.terminated {f : Bool → Lower α} (h : Logs left left' ds (f left)) :
    Logs left left' ds (Lower.terminated >>= f) :=
  fun s hs => .after (terminated_eq hs) (brings_nil rfl rfl) (h s hs)

/-- Behind a return the function has been left. -/
theorem logs_returning (value : Operand) : Logs left true [] (returning value) := by
  refine .terminated ?_
  cases left with
  | true => exact logs_pure _
  | false => exact logs_terminate _

/-! ### Strings, arrays and names -/

/-- A string literal brings its constant. -/
private theorem logs_string (value : String) :
    Logs left left [.string value] (lowerLiteral (.string value)) := by
  have hconstant : Logs left left [.string value] (onUnit (·.stringConstant value)) :=
    logs_onUnit fun u x => by rw [CompileUnit.provides_stringConstant, List.mem_singleton]
  exact hconstant.bind_nil fun _ => (logs_emit _).andThen fun _ => logs_emit _

private theorem logs_arrayType (length : Nat) :
    Logs left left [] (onUnit (·.arrayType length)) := by
  refine logs_onUnit fun u x => ?_
  refine (CompileUnit.provides_ensure (d := arrayAlias length) ?_).trans (by simp)
  simp [arrayAlias, Definition.kind]

/-- A library function brings its declaration. -/
private theorem logs_libraryFunction (f : LibraryFunction) :
    Logs left left [.library f] (onUnit (·.libraryFunction f)) :=
  logs_onUnit fun u x => by rw [CompileUnit.provides_libraryFunction, List.mem_singleton]

private theorem assignGlobal_logs (name : Name) (value : Operand) :
    Logs left left [] (assignGlobal name value) := by
  refine (logs_ofDraft _).andThen fun kind => ?_
  split
  · exact logs_store _ _
  · exact logs_throw _
  · exact logs_throw _

/-- An assignment brings nothing. -/
private theorem lowerAssignment_logs (name : Name) (value : Operand) :
    Logs left left [] (lowerAssignment name value) := by
  refine (logs_ofDraft _).andThen fun binding => ?_
  split
  · exact logs_store _ _
  · exact logs_onScope _
  · exact assignGlobal_logs name value

/-! ### Conditionals -/

/-- An arm brings what is in its list, and has a value for the merge unless it leaves the function.
-/
private theorem lowerArm_tells {s : LowerState} {block : BlockRef}
    (hopen : s.draft.IsOpen block.index)
    (merge : BlockRef) {arm : Lower Operand} (harm : Logs false left ds arm) :
    Tells ds s (lowerArm block merge arm) fun incoming _ => incoming.isEmpty = left := by
  have hlt : block.index < s.draft.blocks.size := hopen.lt
  have hlive : (s.entered block.index hlt).draft.terminated = false :=
    terminated_eq_false_of_isOpen (d := s.draft.goTo block.index hlt) hopen
  rw [lowerArm_eq]
  refine .after (enterArm_eq hlt) (brings_nil rfl rfl) ?_
  refine (harm _ hlive).bind_nil fun value t ht => ?_
  have hleft : t.left.draft.terminated = left := ht
  refine .after (t := t.left) rfl (brings_nil rfl rfl) ?_
  refine .after (terminated_eq hleft) (brings_nil rfl rfl) ?_
  cases left with
  | true => exact tells_pure rfl
  | false =>
    refine .after (t := t.left) rfl (brings_nil rfl rfl) ?_
    exact .after (terminate_eq hleft _) (brings_nil rfl rfl) (tells_pure rfl)

/-- The fork of a conditional brings nothing, and ends its block. -/
private theorem fork_logs (stem : String) (condition : Operand) :
    Logs false true [] (fork stem condition) := by
  refine (logs_emit _).andThen fun flag => (logs_addBlock _).andThen fun thenBlock => ?_
  refine (logs_addBlock _).andThen fun elseBlock => (logs_addBlock _).andThen fun merge => ?_
  exact (logs_terminate _).andThen fun _ => logs_pure _

/-- Where the arms meet the function has been left if no arm leads there. -/
private theorem join_tells {s : LowerState} {merge : BlockRef} (hopen : s.draft.IsOpen merge.index)
    (incoming : List (Operand × Name)) :
    Tells [] s (join merge incoming) fun _ t => t.draft.terminated = incoming.isEmpty := by
  have hlt : merge.index < s.draft.blocks.size := hopen.lt
  have hlive : (s.draft.goTo merge.index hlt).terminated = false :=
    terminated_eq_false_of_isOpen (d := s.draft.goTo merge.index hlt) hopen
  refine .after (moveTo_eq hlt) (brings_nil rfl rfl) ?_
  cases incoming with
  | nil =>
    have hends : Logs false true [] (terminate .unreachable >>= fun _ => pure (Operand.word 0)) :=
      (logs_terminate _).andThen fun _ => logs_pure _
    exact hends _ hlive
  | cons x xs => exact logs_emit _ _ hlive

/-- **A conditional brings what its arms bring**, and the function has been left behind it if both
arms leave it. -/
theorem lowerBranches_logs (left : Bool) (stem : String) (condition : Operand)
    {positive negative : Lower Operand} (hpos : Logs false left' ds positive)
    (hneg : Logs false left'' es negative) (honward : GoesOnward positive)
    (honward' : GoesOnward negative) :
    Logs left (left || (left' && left'')) (if left then [] else ds ++ es)
      (lowerBranches stem condition positive negative) := by
  rw [lowerBranches_eq]
  refine .terminated ?_
  cases left with
  | true => exact logs_pure _
  | false =>
    intro s hs
    obtain ⟨thenBlock, elseBlock, merge, t, hfork, ht⟩ := exists_forked hs stem condition
    have hthenlt := ht.then_lt
    have helselt := ht.else_lt
    have hbrings : Brings [] s t := by
      have htells := fork_logs stem condition s hs
      rw [Tells, hfork] at htells
      exact htells.2
    refine .after hfork hbrings ?_
    rw [joinArms_eq]
    -- the blocks of the other arm and of the join stay open while an arm is lowered
    refine (lowerArm_tells ht.thenOpen merge hpos).of_run.bind fun fromThen u hu => ?_
    obtain ⟨hrun, hthen⟩ := hu
    have hkept := keepsBut_lowerArm honward hrun
    refine (lowerArm_tells (hkept.isOpen ht.elseOpen (by omega)) merge hneg).of_run.bind_nil
      fun fromElse v hv => ?_
    obtain ⟨hrun', helse⟩ := hv
    have hkept' := keepsBut_lowerArm honward' hrun'
    have hmerge : v.draft.IsOpen merge.index :=
      hkept'.isOpen (hkept.isOpen ht.mergeOpen (by omega)) (by omega)
    have hempty : (fromThen ++ fromElse).isEmpty = (left' && left'') := by
      rw [← hthen, ← helse]
      cases fromThen <;> rfl
    rw [Bool.false_or, ← hempty]
    exact join_tells hmerge _

/-- **A composed lowering brings what its effect demands**, and leaves the function as it says. -/
theorem Composed.logs {V : Vocabulary} {ε : Effect} (h : Composed V ε m) (left : Bool) :
    Logs left (left || ε.leaves) (ε.demands left) m := by
  have hstays : ∀ {α : Type} {ds : List Demand} {m : Lower α} {left : Bool},
      Logs left left ds m → Logs left (left || false) ds m :=
    fun h => (Bool.or_false _).symm ▸ h
  induction h generalizing left with
  | pure a => exact hstays (logs_pure a)
  | throw e => exact logs_throw e
  | bind _ _ ihm ihf =>
    rw [Effect.seq, ← Bool.or_assoc]
    exact (ihm left).bind fun a s t hrun => ihf a s t hrun _
  | unlessLeft a _ ih =>
    refine .terminated ?_
    cases left with
    | true => exact logs_pure a
    | false => exact ih false
  | local? name => exact hstays (logs_ofDraft _)
  | global? name => exact hstays (logs_ofDraft _)
  | emit h => exact hstays (logs_emit _)
  | store value pointer => exact hstays (logs_store value pointer)
  | declare name b h => exact hstays (logs_onScope _)
  | assign value h => exact hstays (lowerAssignment_logs _ value)
  | lift h => exact hstays (logs_liftLambda _)
  | string h => exact hstays (logs_string _)
  | array length => exact hstays (logs_arrayType length)
  | library f => exact hstays (logs_libraryFunction f)
  | returning value =>
    rw [Effect.leaving, Bool.or_true]
    exact logs_returning value
  | branches hstem condition hpos hneg ihpos ihneg =>
    exact lowerBranches_logs left _ condition (ihpos false) (ihneg false) hpos.onward hneg.onward

end Logs

end Lower

/-! ### Bodies -/

section Bodies

open Lower Vocabulary

variable {assigned : List Name}

/-- **The top level forms bring what those of them demand that are not skipped.** -/
theorem lowerForms_logs (skipped : List Nat) (index : Nat) (value : Operand) (forms : List Expr)
    (left : Bool) : Logs left (left || leavesAny (unskipped skipped index forms))
      (demandsChain left (unskipped skipped index forms))
      (lowerForms assigned skipped index value forms) :=
  (lowerForms_composed (V := all assigned) skipped index value forms covers_all).logs left

private theorem spillParams_logs (names : List Name) (left : Bool) :
    Logs left left [] (spillParams assigned names) := by
  induction names with
  | nil => exact logs_pure ()
  | cons name names ih =>
    rw [spillParams]
    split
    · refine (logs_emit _).andThen fun pointer => (logs_store _ _).andThen fun _ => ?_
      exact (logs_onScope _).andThen fun _ => ih
    · exact ih

/-- **The body of a function brings what it demands.** -/
theorem lowerBody_logs (l : Lambda) :
    Logs false (leavesAny l.body) l.demands (lowerBody assigned l) := by
  refine (spillParams_logs l.params false).andThen fun _ => (logs_onScope _).andThen fun _ => ?_
  have hbody :=
    (lowerSequence_composed (V := all assigned) l.body (.word 0) covers_all).logs false
  refine Logs.bind_nil hbody fun value => ?_
  exact (logs_onScope _).andThen fun _ => logs_pure value

end Bodies

end WordScheme
