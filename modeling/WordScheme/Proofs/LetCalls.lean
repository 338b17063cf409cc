import Mathlib
import WordScheme.Proofs.ErrorPolicies
import WordScheme.Proofs.Lockstep

/-!
# A `let` is the call of a lambda

`Expr.unlet` writes every `let` of an expression, those inside of lambdas and of other `let`s
included, as the call of a lambda: the bound names are its parameters and the bound values its
arguments. An expression and the one without `let` assign to the same names, give rise to the same
number of functions, and are lowered in step (`unletting`). So a program and the one without `let`
compile to the same: `compileProgram_unlet`.
-/

namespace WordScheme

open Likeness

/-! ### Expressions without `let` -/

mutual

/-- The expression with each `let` written as the call of a lambda. -/
def Expr.unlet : Expr → Expr
  | .literal value => .literal value
  | .var name => .var name
  | .binary op lhs rhs => .binary op lhs.unlet rhs.unlet
  | .primitive p args => .primitive p (unletAll args)
  | .ifElse c p n => .ifElse c.unlet p.unlet n.unlet
  | .cond clauses => .cond (unletClauses clauses)
  | .and operands => .and (unletAll operands)
  | .or operands => .or (unletAll operands)
  | .not operand => .not operand.unlet
  | .letIn bindings body =>
    .call (.lambda (bindings.map Prod.fst) (unletAll body)) (unletValues bindings)
  | .define name value => .define name value.unlet
  | .lambda params body => .lambda params (unletAll body)
  | .call target args => .call target.unlet (unletAll args)
  | .array elements => .array (unletAll elements)
  | .assign name value => .assign name value.unlet
  | .sequence forms => .sequence (unletAll forms)
  | .ret value => .ret value.unlet

/-- A list of expressions without `let`. -/
def unletAll : List Expr → List Expr
  | [] => []
  | e :: es => e.unlet :: unletAll es

/-- A list of clauses without `let`. -/
def unletClauses : List Clause → List Clause
  | [] => []
  | .test p b :: cs => .test p.unlet b.unlet :: unletClauses cs
  | .otherwise b :: cs => .otherwise b.unlet :: unletClauses cs

/-- The values of a list of bindings without `let`. -/
def unletValues : List (Name × Expr) → List Expr
  | [] => []
  | (_, e) :: bs => e.unlet :: unletValues bs

end

private theorem unletAll_eq_map (es : List Expr) : unletAll es = es.map Expr.unlet := by
  induction es with
  | nil => rfl
  | cons e es ih => rw [unletAll, List.map_cons, ih]

private theorem unletValues_eq_map (bs : List (Name × Expr)) :
    unletValues bs = (bs.map Prod.snd).map Expr.unlet := by
  induction bs with
  | nil => rfl
  | cons b bs ih => rw [unletValues, List.map_cons, List.map_cons, ih]

mutual

/-- Writing `let` as a call assigns to the same names. -/
@[simp]
theorem assigned_unlet : (e : Expr) → e.unlet.assigned = e.assigned
  | .literal _ => rfl
  | .var _ => rfl
  | .binary _ lhs rhs => by simp [Expr.unlet, Expr.assigned, assigned_unlet lhs, assigned_unlet rhs]
  | .primitive _ args => by simp [Expr.unlet, Expr.assigned, assignedAll_unletAll args]
  | .ifElse c p n => by
    simp [Expr.unlet, Expr.assigned, assigned_unlet c, assigned_unlet p, assigned_unlet n]
  | .cond clauses => by simp [Expr.unlet, Expr.assigned, assignedClauses_unletClauses clauses]
  | .and operands => by simp [Expr.unlet, Expr.assigned, assignedAll_unletAll operands]
  | .or operands => by simp [Expr.unlet, Expr.assigned, assignedAll_unletAll operands]
  | .not operand => by simp [Expr.unlet, Expr.assigned, assigned_unlet operand]
  | .letIn bindings _ => by simp [Expr.unlet, Expr.assigned, assignedAll_unletValues bindings]
  | .define _ value => by simp [Expr.unlet, Expr.assigned, assigned_unlet value]
  | .lambda _ _ => rfl
  | .call target args => by
    simp [Expr.unlet, Expr.assigned, assigned_unlet target, assignedAll_unletAll args]
  | .array elements => by simp [Expr.unlet, Expr.assigned, assignedAll_unletAll elements]
  | .assign _ value => by simp [Expr.unlet, Expr.assigned, assigned_unlet value]
  | .sequence forms => by simp [Expr.unlet, Expr.assigned, assignedAll_unletAll forms]
  | .ret value => by simp [Expr.unlet, Expr.assigned, assigned_unlet value]

private theorem assignedAll_unletAll : (es : List Expr) → assignedAll (unletAll es) = assignedAll es
  | [] => rfl
  | e :: es => by simp [unletAll, assignedAll, assigned_unlet e, assignedAll_unletAll es]

private theorem assignedClauses_unletClauses : (cs : List Clause) →
    assignedClauses (unletClauses cs) = assignedClauses cs
  | [] => rfl
  | .test p b :: cs => by
    simp [unletClauses, assignedClauses, assigned_unlet p, assigned_unlet b,
      assignedClauses_unletClauses cs]
  | .otherwise b :: cs => by
    simp [unletClauses, assignedClauses, assigned_unlet b, assignedClauses_unletClauses cs]

private theorem assignedAll_unletValues : (bs : List (Name × Expr)) →
    assignedAll (unletValues bs) = assignedBindings bs
  | [] => rfl
  | (_, e) :: bs => by
    simp [unletValues, assignedAll, assignedBindings, assigned_unlet e, assignedAll_unletValues bs]

end

mutual

/-- A `let` gives rise to one function, and so does the lambda that takes its place. -/
private theorem functionCount_unlet : (e : Expr) → e.unlet.functionCount = e.functionCount
  | .literal _ => rfl
  | .var _ => rfl
  | .binary _ lhs rhs => by
    simp [Expr.unlet, Expr.functionCount, functionCount_unlet lhs, functionCount_unlet rhs]
  | .primitive _ args => by simp [Expr.unlet, Expr.functionCount, functionCounts_unletAll args]
  | .ifElse c p n => by
    simp [Expr.unlet, Expr.functionCount, functionCount_unlet c, functionCount_unlet p,
      functionCount_unlet n]
  | .cond clauses => by
    simp [Expr.unlet, Expr.functionCount, clauseFunctionCounts_unletClauses clauses]
  | .and operands => by simp [Expr.unlet, Expr.functionCount, functionCounts_unletAll operands]
  | .or operands => by simp [Expr.unlet, Expr.functionCount, functionCounts_unletAll operands]
  | .not operand => by simp [Expr.unlet, Expr.functionCount, functionCount_unlet operand]
  | .letIn bindings body => by
    simp only [Expr.unlet, Expr.functionCount, functionCounts_unletAll body,
      functionCounts_unletValues bindings]
    omega
  | .define _ value => by simp [Expr.unlet, Expr.functionCount, functionCount_unlet value]
  | .lambda _ body => by simp [Expr.unlet, Expr.functionCount, functionCounts_unletAll body]
  | .call target args => by
    simp [Expr.unlet, Expr.functionCount, functionCount_unlet target, functionCounts_unletAll args]
  | .array elements => by simp [Expr.unlet, Expr.functionCount, functionCounts_unletAll elements]
  | .assign _ value => by simp [Expr.unlet, Expr.functionCount, functionCount_unlet value]
  | .sequence forms => by simp [Expr.unlet, Expr.functionCount, functionCounts_unletAll forms]
  | .ret value => by simp [Expr.unlet, Expr.functionCount, functionCount_unlet value]

/-- Writing `let` as a call in a list gives as many functions. -/
private theorem functionCounts_unletAll : (es : List Expr) →
    functionCounts (unletAll es) = functionCounts es
  | [] => rfl
  | e :: es => by simp [unletAll, functionCounts, functionCount_unlet e, functionCounts_unletAll es]

private theorem clauseFunctionCounts_unletClauses : (cs : List Clause) →
    clauseFunctionCounts (unletClauses cs) = clauseFunctionCounts cs
  | [] => rfl
  | .test p b :: cs => by
    simp [unletClauses, clauseFunctionCounts, functionCount_unlet p, functionCount_unlet b,
      clauseFunctionCounts_unletClauses cs]
  | .otherwise b :: cs => by
    simp [unletClauses, clauseFunctionCounts, functionCount_unlet b,
      clauseFunctionCounts_unletClauses cs]

private theorem functionCounts_unletValues : (bs : List (Name × Expr)) →
    functionCounts (unletValues bs) = bindingFunctionCounts bs
  | [] => rfl
  | (_, e) :: bs => by
    simp [unletValues, functionCounts, bindingFunctionCounts, functionCount_unlet e,
      functionCounts_unletValues bs]

end

/-! ### Lowering without `let` -/

private theorem forall₂_unlet (es : List Expr) :
    List.Forall₂ (fun e e' => e' = Expr.unlet e) es (es.map Expr.unlet) := by
  rw [List.forall₂_map_right_iff]
  exact List.forall₂_same.mpr fun _ _ => rfl

/-- Clauses are built like those without `let`. -/
private theorem like_unletClauses : (cs : List Clause) →
    List.Forall₂ (Clause.Like fun e e' => e' = e.unlet) cs (unletClauses cs)
  | [] => .nil
  | .test _ _ :: cs => .cons (.test rfl rfl) (like_unletClauses cs)
  | .otherwise _ :: cs => .cons (.otherwise rfl) (like_unletClauses cs)

/-- An expression and the one without `let` are built alike. -/
private theorem like_unlet (e : Expr) : Expr.Like (fun e e' => e' = e.unlet) e e.unlet := by
  cases e with
  | literal value => exact .literal value
  | var name => exact .var name
  | binary op lhs rhs => exact .binary op rfl rfl
  | primitive p args => exact .primitive p (unletAll_eq_map args ▸ forall₂_unlet args)
  | ifElse c p n => exact .ifElse rfl rfl rfl
  | cond clauses => exact .cond (like_unletClauses clauses)
  | and operands => exact .and (unletAll_eq_map operands ▸ forall₂_unlet operands)
  | or operands => exact .or (unletAll_eq_map operands ▸ forall₂_unlet operands)
  | not operand => exact .not rfl
  | letIn bindings body =>
    exact .letCall (unletValues_eq_map bindings ▸ forall₂_unlet _)
      (unletAll_eq_map body ▸ forall₂_unlet body)
  | define name value => exact .define name rfl
  | lambda params body => exact .lambda params (unletAll_eq_map body ▸ forall₂_unlet body)
  | call target args => exact .call rfl (unletAll_eq_map args ▸ forall₂_unlet args)
  | array elements => exact .array (unletAll_eq_map elements ▸ forall₂_unlet elements)
  | assign name value => exact .assign name rfl
  | sequence forms => exact .sequence (unletAll_eq_map forms ▸ forall₂_unlet forms)
  | ret value => exact .ret rfl

/-- Side by side with an expression the one without `let` is lowered, into the same module. -/
def unletting : Likeness where
  modules := Eq
  exprs := fun e e' => e' = e.unlet
  ensure := by
    rintro m _ d rfl _
    rfl
  like := by
    rintro e _ rfl
    exact like_unlet e
  assigned := by
    intro es es' h
    induction h with
    | nil => rfl
    | cons he _ ih => rw [assignedAll, assignedAll, he, assigned_unlet, ih]

private theorem units_refl (u : CompileUnit) : unletting.Units u u :=
  ⟨u.module, rfl, rfl⟩

/-- In the same module the units are the same. -/
private theorem eq_of_units {u u' : CompileUnit} (h : unletting.Units u u') : u' = u := by
  obtain ⟨_, rfl, rfl⟩ := h
  rfl

/-! ### The top level -/

/-- The lambda without `let`. -/
def Lambda.unlet (l : Lambda) : Lambda :=
  ⟨l.params, l.body.map Expr.unlet⟩

namespace TopLevel

/-- The top level with functions without `let`. -/
def unlet (t : TopLevel) : TopLevel :=
  { t with functions := t.functions.map fun x => (x.1, x.2.unlet) }

/-- A definition without `let` is taken in as the definition is. -/
private theorem define_unlet (t : TopLevel) (index : Nat) (name : Name) (value : Expr) :
    t.unlet.define index name value.unlet = (t.define index name value).unlet := by
  cases value with
  | lambda params body =>
    rw [Expr.unlet, unletAll_eq_map]
    simp [define, unlet, Lambda.unlet]
  | _ => rfl

/-- The same names are defined without `let`, in the same way. -/
private theorem collect_unlet (t : TopLevel) (index : Nat) (forms : List Expr) :
    t.unlet.collect index (forms.map Expr.unlet) = (t.collect index forms).map unlet := by
  induction forms generalizing t index with
  | nil => rfl
  | cons form forms ih =>
    rw [List.map_cons]
    cases form with
    | define name value =>
      rw [Expr.unlet, collect, collect, define_unlet, ih, ih]
      change (if isReserved t.unit.entry name then _ else if t.globals.has name then _ else _) = _
      split_ifs <;> rfl
    | _ => exact ih t (index + 1)

end TopLevel

/-! ### The queue -/

/-- Functions that are built alike are taken in alike. -/
private theorem record_unlet {p p' : Progress} (h : unletting.Progresses p p')
    (policy : ErrorPolicy) (name : Name) {r r' : Except CompileError FinishedFunction × CompileUnit}
    (hr : unletting.Built r r') :
    unletting.GoOn (p.record policy name r) (p'.record policy name r') := by
  have hunit : r'.2 = r.2 := by
    cases hr with
    | ok _ _ hunit => exact eq_of_units hunit
    | error _ hunit => exact eq_of_units hunit
  refine h.record name hr (fun f _ => ?_) fun _ => ?_
  · rw [hunit]
    exact units_refl _
  · rw [hunit]
    exact units_refl _

/-- Queues of functions that are alike are worked off alike. -/
private theorem drain_unlet {p p' : Progress} (h : unletting.Progresses p p') (policy : ErrorPolicy)
    (limit : Nat) : unletting.GoOn (p.drain policy limit) (p'.drain policy limit) := by
  induction limit generalizing p p' with
  | zero => exact .ok h
  | succ limit ih =>
    obtain ⟨unit, diagnostics, queue⟩ := p
    obtain ⟨unit', diagnostics', queue'⟩ := p'
    obtain ⟨hunit, hdiagnostics, hqueue⟩ := h
    cases hqueue with
    | nil => exact .ok ⟨hunit, hdiagnostics, .nil⟩
    | @cons f f' queue queue' hf hqueue =>
      have hrest : unletting.Progresses ⟨unit, diagnostics, queue⟩ ⟨unit', diagnostics', queue'⟩ :=
        ⟨hunit, hdiagnostics, hqueue⟩
      have hrecord := record_unlet hrest policy f.name (lowerFunction_built hunit hf)
      rw [Progress.drain, Progress.drain]
      dsimp only
      rw [hf.name]
      exact hrecord.bind fun _ _ hp => ih hp

/-! ### Programs -/

/-- The forms that are not skipped are chosen by their places alone. -/
private theorem unskipped_map (f : Expr → Expr) (skipped : List Nat) (index : Nat)
    (forms : List Expr) :
    unskipped skipped index (forms.map f) = (unskipped skipped index forms).map f := by
  induction forms generalizing index with
  | nil => rfl
  | cons form forms ih =>
    rw [List.map_cons, unskipped, unskipped, ih]
    split <;> rfl

private theorem alike_refl (G : Globals) : G.Alike G :=
  ⟨fun _ => rfl, rfl⟩

/-- The functions of the top level wait under the same names. -/
private theorem TopLevel.pending_unlet (t : TopLevel) :
    List.Forall₂ unletting.Pending t.pending t.unlet.pending := by
  rw [pending, pending, unlet, List.map_map, List.forall₂_map_left_iff, List.forall₂_map_right_iff]
  refine List.forall₂_same.mpr fun x _ => ⟨rfl, ⟨rfl, ?_⟩, alike_refl t.globals⟩
  exact forall₂_unlet x.2.body

/-- Once the top level has been noted, both compilations go on alike. -/
private theorem TopLevel.completed_unlet (t : TopLevel) (forms : List Expr)
    (options : CompileOptions) : unletting.GoOn (t.completed forms options)
      (t.unlet.completed (forms.map Expr.unlet) options) := by
  have hforms := forall₂_unlet (unskipped t.functionForms 0 forms)
  rw [← unskipped_map] at hforms
  have hentry := lowerEntry_built (K := unletting) (units_refl t.unit) (alike_refl t.globals)
    (unletting.assigned (forall₂_unlet forms)) hforms
  have hbegun : unletting.Progresses ⟨t.unit, [], t.pending⟩ ⟨t.unlet.unit, [], t.unlet.pending⟩ :=
    ⟨units_refl t.unit, rfl, t.pending_unlet⟩
  have hrecord := record_unlet hbegun options.policy options.entry hentry
  rw [completed, completed, ← unletAll_eq_map, functionCounts_unletAll, unletAll_eq_map]
  exact hrecord.bind fun _ _ hp => drain_unlet hp _ _

/-- **A `let` is exactly the call of a lambda**: writing every `let` of a program as the call of a
lambda, at any depth, changes neither the module nor the diagnostics. -/
theorem compileProgram_unlet (forms : List Expr) (options : CompileOptions) :
    compileProgram (forms.map Expr.unlet) options = compileProgram forms options := by
  have htop : topLevel (forms.map Expr.unlet) options = (topLevel forms options).map .unlet :=
    TopLevel.collect_unlet ⟨_, [], [], []⟩ 0 forms
  rw [compileProgram_eq, compileProgram_eq, htop]
  cases topLevel forms options with
  | error e => rfl
  | ok top =>
    have hcompleted := top.completed_unlet forms options
    change (do
      let done ← top.unlet.completed (forms.map Expr.unlet) options
      return (⟨done.unit.module.finish, done.diagnostics⟩ : CompileOutput)) = do
      let done ← top.completed forms options
      return (⟨done.unit.module.finish, done.diagnostics⟩ : CompileOutput)
    generalize top.unlet.completed (forms.map Expr.unlet) options = r' at hcompleted ⊢
    generalize top.completed forms options = r at hcompleted ⊢
    cases hcompleted with
    | error d => rfl
    | @ok p p' hp =>
      change Except.ok (⟨p'.unit.module.finish, p'.diagnostics⟩ : CompileOutput) =
        .ok ⟨p.unit.module.finish, p.diagnostics⟩
      rw [eq_of_units hp.unit, hp.diagnostics]

end WordScheme
