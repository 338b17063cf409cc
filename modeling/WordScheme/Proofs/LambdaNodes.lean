import Mathlib
import WordScheme.Proofs.MoveRun

/-!
# The lambdas that a lowering finds

Each lambda and each `let` of an expression stands for a function, which `Expr.lambdas` lists: from
the outside in and from left to right, with those inside of other functions or without. The second
list is what lowering the expression may find. `Lower.Finds ls m` says that the functions which `m`
finds, if it succeeds, come from the lambdas `ls`, each from another one and in their order. A
composed lowering finds those of its effect (`Composed.finds`), which for whole functions gives
`lowerFunction_finds` and `lowerEntry_finds`. Code that control cannot reach may be left out, so not
all need be found.

Taken together, the functions that are found while a list of functions is worked off are those of
the first list: `lambdas_perm`.
-/

namespace WordScheme

open Lower LowerState

/-- A function and those inside of its body. -/
def Lambda.withInner (l : Lambda) : List Lambda :=
  l :: lambdasAll true l.body

/-- All functions of a `let`: its own with those of its body, and those of its values. -/
private theorem perm_letIn (l : Lambda) {vs ws bs : List Lambda} (h : vs.Perm ws) :
    (l :: (vs ++ bs)).Perm (l :: bs ++ ws) := by
  refine List.Perm.cons l ?_
  exact (h.append_right bs).trans List.perm_append_comm

mutual

/-- **All functions are found in the end**: they are the outermost ones, each with those inside of
it. -/
theorem lambdas_perm : (e : Expr) →
    (e.lambdas true).Perm ((e.lambdas false).flatMap Lambda.withInner)
  | .literal _ => by simp [Expr.lambdas]
  | .var _ => by simp [Expr.lambdas]
  | .binary _ lhs rhs => by
    simp only [Expr.lambdas, List.flatMap_append]
    exact (lambdas_perm lhs).append (lambdas_perm rhs)
  | .primitive _ args => by
    simp only [Expr.lambdas]
    exact lambdasAll_perm args
  | .ifElse c p n => by
    simp only [Expr.lambdas, List.flatMap_append]
    exact (lambdas_perm c).append ((lambdas_perm p).append (lambdas_perm n))
  | .cond clauses => by
    simp only [Expr.lambdas]
    exact clauseLambdas_perm clauses
  | .and operands => by
    simp only [Expr.lambdas]
    exact lambdasAll_perm operands
  | .or operands => by
    simp only [Expr.lambdas]
    exact lambdasAll_perm operands
  | .not operand => by
    simp only [Expr.lambdas]
    exact lambdas_perm operand
  | .letIn bindings body => by
    simp only [Expr.lambdas, List.flatMap_cons, Lambda.withInner, ↓reduceIte, Bool.false_eq_true,
      List.append_nil]
    exact perm_letIn _ (bindingLambdas_perm bindings)
  | .define _ value => by
    simp only [Expr.lambdas]
    exact lambdas_perm value
  | .lambda params body => by
    simp [Expr.lambdas, Lambda.withInner]
  | .call target args => by
    simp only [Expr.lambdas, List.flatMap_append]
    exact (lambdas_perm target).append (lambdasAll_perm args)
  | .array elements => by
    simp only [Expr.lambdas]
    exact lambdasAll_perm elements
  | .assign _ value => by
    simp only [Expr.lambdas]
    exact lambdas_perm value
  | .sequence forms => by
    simp only [Expr.lambdas]
    exact lambdasAll_perm forms
  | .ret value => by
    simp only [Expr.lambdas]
    exact lambdas_perm value

/-- All functions of a list of expressions are the outer ones with those inside of each. -/
theorem lambdasAll_perm : (es : List Expr) →
    (lambdasAll true es).Perm ((lambdasAll false es).flatMap Lambda.withInner)
  | [] => by simp [lambdasAll]
  | e :: es => by
    simp only [lambdasAll, List.flatMap_append]
    exact (lambdas_perm e).append (lambdasAll_perm es)

private theorem clauseLambdas_perm : (cs : List Clause) →
    (clauseLambdas true cs).Perm ((clauseLambdas false cs).flatMap Lambda.withInner)
  | [] => by simp [clauseLambdas]
  | .test p b :: cs => by
    simp only [clauseLambdas, List.flatMap_append]
    exact (lambdas_perm p).append ((lambdas_perm b).append (clauseLambdas_perm cs))
  | .otherwise b :: cs => by
    simp only [clauseLambdas, List.flatMap_append]
    exact (lambdas_perm b).append (clauseLambdas_perm cs)

private theorem bindingLambdas_perm : (bs : List (Name × Expr)) →
    (bindingLambdas true bs).Perm ((bindingLambdas false bs).flatMap Lambda.withInner)
  | [] => by simp [bindingLambdas]
  | (_, e) :: bs => by
    simp only [bindingLambdas, List.flatMap_append]
    exact (lambdas_perm e).append (bindingLambdas_perm bs)

end

/-! ### What is found -/

namespace LowerState

/-- Between two states functions were found, each from another one of the lambdas `ls` and in their
order. -/
def Found (ls : List Lambda) (s t : LowerState) : Prop :=
  ∃ added, t.draft.pending = s.draft.pending ++ added ∧
    (added.map PendingFunction.lambda).Sublist ls

variable {ls ks : List Lambda} {s t u : LowerState}

private theorem found_of_eq (h : t.draft.pending = s.draft.pending) : Found [] s t :=
  ⟨[], by simp [h], List.Sublist.refl _⟩

/-- What two runs find comes one after the other. -/
private theorem Found.trans (h : Found ls s t) (h' : Found ks t u) : Found (ls ++ ks) s u := by
  obtain ⟨added, hadded, hsub⟩ := h
  obtain ⟨more, hmore, hsub'⟩ := h'
  refine ⟨added ++ more, ?_, ?_⟩
  · rw [hmore, hadded, List.append_assoc]
  · rw [List.map_append]
    exact hsub.append hsub'

end LowerState

namespace Lower

/-- If `m` succeeds, the functions that it finds come from the lambdas `ls`. -/
def Finds {α : Type} (ls : List Lambda) (m : Lower α) : Prop :=
  ∀ s a t, m s = .ok a t → LowerState.Found ls s t

section Rules

variable {α β : Type} {ls ks : List Lambda} {m : Lower α}

/-- One step after another. -/
private theorem Finds.bind {f : α → Lower β} (h : Finds ls m)
    (hf : ∀ a s t, m s = .ok a t → Finds ks (f a)) : Finds (ls ++ ks) (m >>= f) := by
  intro s b u hrun
  obtain ⟨a, t, hm, hfa⟩ := exists_of_bind hrun
  exact (h s a t hm).trans (hf a s t hm t b u hfa)

/-- A step that finds nothing, and what comes after it. -/
private theorem Finds.andThen {f : α → Lower β} (h : Finds [] m) (hf : ∀ a, Finds ls (f a)) :
    Finds ls (m >>= f) :=
  h.bind fun a _ _ _ => hf a

/-- A step, and what comes after it if that finds nothing. -/
private theorem Finds.bind_nil {f : α → Lower β} (h : Finds ls m) (hf : ∀ a, Finds [] (f a)) :
    Finds ls (m >>= f) :=
  List.append_nil ls ▸ h.bind fun a _ _ _ => hf a

private theorem finds_pure (a : α) : Finds ls (pure a) := by
  intro s b t hrun
  cases hrun
  exact ⟨[], (List.append_nil _).symm, List.nil_sublist ls⟩

private theorem finds_throw (e : CompileError) : Finds ls (throw e : Lower α) := by
  intro s a t hrun
  cases hrun

private theorem finds_ofDraft (f : FunctionDraft → α) : Finds [] (ofDraft f) := by
  intro s a t hrun
  cases hrun
  exact LowerState.found_of_eq rfl

private theorem finds_onUnit (f : CompileUnit → α × CompileUnit) : Finds [] (onUnit f) := by
  intro s a t hrun
  cases hrun
  exact LowerState.found_of_eq rfl

/-- An operation that leaves the functions found alone finds nothing. -/
private theorem finds_onDraft {f : FunctionDraft → α × FunctionDraft}
    (hf : ∀ d, (f d).2.pending = d.pending) : Finds [] (onDraft f) := by
  intro s a t hrun
  cases hrun
  exact LowerState.found_of_eq (hf s.draft)

/-- An operation that may fail finds nothing if it leaves the functions found alone. -/
private theorem finds_tryDraft {f : FunctionDraft → EStateM.Result CompileError FunctionDraft Unit}
    (hf : ∀ d d', f d = .ok () d' → d'.pending = d.pending) : Finds [] (tryDraft f) := by
  intro s a t hrun
  rw [tryDraft_eq] at hrun
  cases hd : f s.draft with
  | error e d =>
    rw [hd] at hrun
    cases hrun
  | ok a d =>
    rw [hd] at hrun
    cases hrun
    exact LowerState.found_of_eq (hf _ _ hd)

private theorem finds_emit (i : Instruction) : Finds [] (emit i) :=
  finds_onDraft fun _ => FunctionDraft.append_pending _ _

private theorem finds_store (value pointer : Operand) : Finds [] (store value pointer) :=
  finds_onDraft fun _ => FunctionDraft.append_pending _ _

private theorem finds_addBlock (base : Name) : Finds [] (addBlock base) :=
  finds_onDraft fun _ => rfl

private theorem finds_onScope (f : Scope → Scope) : Finds [] (onScope f) :=
  finds_onDraft fun _ => rfl

private theorem finds_terminate (t : Terminator) : Finds [] (terminate t) := by
  refine finds_tryDraft fun d d' hd => ?_
  obtain ⟨-, rfl⟩ := FunctionDraft.of_terminate_ok hd
  rfl

private theorem finds_moveTo (block : BlockRef) : Finds [] (moveTo block) := by
  refine finds_tryDraft fun d d' hd => ?_
  obtain ⟨-, rfl⟩ := FunctionDraft.of_moveTo_ok hd
  rfl

/-- The one step that finds a function. -/
private theorem liftLambda_finds (lambda : Lambda) : Finds [lambda] (liftLambda lambda) := by
  intro s a t hrun
  cases hrun
  exact ⟨[_], rfl, List.Sublist.refl _⟩

end Rules

/-! ### Steps that find nothing -/

private theorem assignGlobal_finds (name : Name) (value : Operand) :
    Finds [] (assignGlobal name value) := by
  refine (finds_ofDraft _).andThen fun kind => ?_
  split
  · exact finds_store _ _
  · exact finds_throw _
  · exact finds_throw _

/-- An assignment finds nothing. -/
private theorem lowerAssignment_finds (name : Name) (value : Operand) :
    Finds [] (lowerAssignment name value) := by
  refine (finds_ofDraft _).andThen fun binding => ?_
  split
  · exact finds_store _ _
  · exact finds_onScope _
  · exact assignGlobal_finds name value

private theorem spillParams_finds (assigned params : List Name) :
    Finds [] (spillParams assigned params) := by
  induction params with
  | nil => exact finds_pure ()
  | cons name names ih =>
    rw [spillParams]
    split
    · refine (finds_emit _).andThen fun _ => ?_
      refine (finds_store _ _).andThen fun _ => ?_
      exact (finds_onScope _).andThen fun _ => ih
    · exact ih

/-! ### Conditionals -/

section Parts

variable {ls ks : List Lambda}

/-- An arm of a conditional finds what its lowering does. -/
private theorem lowerArm_finds (block merge : BlockRef) {arm : Lower Operand} (h : Finds ls arm) :
    Finds ls (lowerArm block merge arm) := by
  refine (finds_moveTo block).andThen fun _ => (finds_onScope _).andThen fun _ => ?_
  refine h.bind_nil fun value => (finds_onScope _).andThen fun _ => ?_
  refine (finds_ofDraft _).andThen fun done => ?_
  split
  · exact finds_pure _
  · refine (finds_ofDraft _).andThen fun last => ?_
    exact (finds_terminate _).andThen fun _ => finds_pure _

/-- A conditional finds what its arms do, the positive one first. -/
private theorem lowerBranches_finds (stem : String) (condition : Operand)
    {positive negative : Lower Operand} (hpos : Finds ls positive) (hneg : Finds ks negative) :
    Finds (ls ++ ks) (lowerBranches stem condition positive negative) := by
  refine (finds_ofDraft _).andThen fun done => ?_
  split
  · exact finds_pure _
  · refine (finds_emit _).andThen fun flag => (finds_addBlock _).andThen fun thenBlock => ?_
    refine (finds_addBlock _).andThen fun elseBlock => (finds_addBlock _).andThen fun merge => ?_
    refine (finds_terminate _).andThen fun _ => ?_
    refine (lowerArm_finds thenBlock merge hpos).bind fun fromThen _ _ _ => ?_
    refine (lowerArm_finds elseBlock merge hneg).bind_nil fun fromElse => ?_
    refine (finds_moveTo merge).andThen fun _ => ?_
    split
    · exact (finds_terminate _).andThen fun _ => finds_pure _
    · exact finds_emit _

end Parts

/-! ### Composed lowerings -/

/-- **A composed lowering finds the functions of its effect at most.** -/
theorem Composed.finds {V : Vocabulary} {ε : Effect} {α : Type} {m : Lower α}
    (h : Composed V ε m) : Finds ε.lambdas m := by
  induction h with
  | pure a => exact finds_pure a
  | throw e => exact finds_throw e
  | bind _ _ ihm ihf => exact ihm.bind ihf
  | unlessLeft a _ ih =>
    refine (finds_ofDraft _).andThen fun done => ?_
    split
    · exact finds_pure a
    · exact ih
  | local? name => exact finds_ofDraft _
  | global? name => exact finds_ofDraft _
  | emit h => exact finds_emit _
  | store value pointer => exact finds_store value pointer
  | declare name b h => exact finds_onScope _
  | assign value h => exact lowerAssignment_finds _ value
  | lift h => exact liftLambda_finds _
  | string h =>
    refine (finds_onUnit _).andThen fun r => ?_
    exact (finds_emit _).andThen fun _ => finds_emit _
  | array length => exact finds_onUnit _
  | library f => exact finds_onUnit _
  | returning value =>
    refine (finds_ofDraft _).andThen fun done => ?_
    cases done with
    | true => exact finds_pure _
    | false => exact finds_terminate _
  | branches hstem condition _ _ ihpos ihneg => exact lowerBranches_finds _ condition ihpos ihneg

end Lower

/-! ### Whole functions -/

open Vocabulary

variable {assigned : List Name}

/-- The body of a function finds the outer functions of its forms. -/
private theorem lowerBody_finds (lambda : Lambda) :
    Finds (lambdasAll false lambda.body) (lowerBody assigned lambda) := by
  refine (spillParams_finds assigned lambda.params).andThen fun _ => ?_
  refine (finds_onScope _).andThen fun _ => ?_
  have hbody := (lowerSequence_composed (V := all assigned) lambda.body (.word 0) covers_all).finds
  refine hbody.bind_nil fun v => ?_
  exact (finds_onScope _).andThen fun _ => finds_pure v

/-- The top level forms find the outer functions of those that are not skipped. -/
private theorem lowerForms_finds (skipped : List Nat) (index : Nat) (value : Operand)
    (forms : List Expr) :
    Finds (lambdasAll false (unskipped skipped index forms))
      (lowerForms assigned skipped index value forms) :=
  (lowerForms_composed (V := all assigned) skipped index value forms covers_all).finds

/-- The end of a function changes nothing. -/
private theorem eq_of_finish {s t : LowerState} {f : FinishedFunction}
    (h : (do match (← get).draft.finish with
      | .ok finished => return finished
      | .error e => throw e : Lower FinishedFunction) s = .ok f t) :
    t = s ∧ t.draft.finish = .ok f := by
  rw [get_bind] at h
  cases hok : s.draft.finish with
  | error e =>
    rw [hok] at h
    cases h
  | ok finished =>
    rw [hok] at h
    cases h
    exact ⟨rfl, hok⟩

/-- What is found while a function is built is what it is finished with. -/
private theorem lowerWhole_finds {steps : Lower Operand} {ls : List Lambda}
    (hsteps : Finds ls steps)
    {s t : LowerState} {f : FinishedFunction} (hrun : lowerWhole steps s = .ok f t) :
    Found ls s t ∧ t.draft.finish = .ok f := by
  obtain ⟨value, r, hr, hrun⟩ := exists_of_bind hrun
  obtain ⟨done, r', hr', hrun⟩ := exists_of_bind hrun
  have hfound := (hsteps s value r hr).trans (finds_ofDraft _ r done r' hr')
  rw [List.append_nil] at hfound
  split at hrun
  · obtain ⟨rfl, hok⟩ := eq_of_finish hrun
    exact ⟨hfound, hok⟩
  · obtain ⟨_, u, hu, hrun⟩ := exists_of_bind hrun
    obtain ⟨rfl, hok⟩ := eq_of_finish hrun
    have hended := hfound.trans (finds_terminate _ r' _ t hu)
    rw [List.append_nil] at hended
    exact ⟨hended, hok⟩

/-- A function that is built is left with those that its steps find. -/
private theorem buildFunction_finds {unit v : CompileUnit} {name : Name} {params : List Name}
    {globals : Globals} {steps : Lower Operand} {ls : List Lambda} {f : FinishedFunction}
    (hsteps : Finds ls steps)
    (h : buildFunction unit (.start name params globals) steps = (.ok f, v)) :
    (f.pending.map PendingFunction.lambda).Sublist ls := by
  rw [buildFunction, EStateM.run] at h
  cases hrun : lowerWhole steps ⟨{ unit with lifted := [] }, .start name params globals⟩ with
  | error e t =>
    rw [hrun] at h
    cases h
  | ok g t =>
    rw [hrun] at h
    cases h
    obtain ⟨⟨added, hadded, hsub⟩, hfinish⟩ := lowerWhole_finds hsteps hrun
    obtain ⟨blocks, rfl, -⟩ := FunctionDraft.of_finish hfinish
    -- nothing had been found at the start
    change (t.draft.pending.map PendingFunction.lambda).Sublist ls
    rw [hadded]
    exact hsub

/-- **Building a function finds the outer functions of its body.** -/
theorem lowerFunction_finds {unit v : CompileUnit} {g : PendingFunction} {f : FinishedFunction}
    (h : lowerFunction unit g = (.ok f, v)) :
    (f.pending.map PendingFunction.lambda).Sublist (lambdasAll false g.lambda.body) :=
  buildFunction_finds (lowerBody_finds g.lambda) h

/-- **Building the entry function finds the outer functions of the forms that are not skipped.** -/
theorem lowerEntry_finds {unit v : CompileUnit} {forms : List Expr} {skipped : List Nat}
    {globals : Globals} {f : FinishedFunction}
    (h : lowerEntry unit forms skipped globals = (.ok f, v)) :
    (f.pending.map PendingFunction.lambda).Sublist
      (lambdasAll false (unskipped skipped 0 forms)) :=
  buildFunction_finds (lowerForms_finds skipped 0 _ forms) h

end WordScheme
