import Mathlib
import WordScheme.Proofs.References

/-!
# The calls of a compilation

A compilation builds one function after the other: first the entry function, then those of the
queue. `Call` is one of these, with the function that was to be built and what that came to.
`Progress.Works` and `CompilesBy` are runs without a limit, as `Progress.Drains` and `Compiles` are,
that list their calls; every compilation has its list (`exists_compilesBy`).

The queue is worked off first in, first out, so the functions that were built are those that waited
at first and then those found, in the order of the calls that found them: `CompilesBy.functions`.
The functions that wait at first are the names whose first definition is a lambda
(`mem_functions_of_firstDefinition?`).
-/

namespace WordScheme

/-! ### Calls -/

/-- A function that is built, and what that comes to. -/
structure Call where
  function : PendingFunction
  result : Except CompileError FinishedFunction × CompileUnit

namespace Call

/-- The functions found in the body, if the function was built. -/
def found (c : Call) : List PendingFunction :=
  match c.result.1 with
  | .ok f => f.pending
  | .error _ => []

/-- The names of the lambdas lifted from the body, whether the function was built or not. -/
def lifted (c : Call) : List Name :=
  c.result.2.lifted

/-- What is reported of a function that was not built. -/
def diagnostic? (c : Call) : Option Diagnostic :=
  match c.result.1 with
  | .ok _ => none
  | .error e => some ⟨c.function.name, e⟩

end Call

namespace Progress

variable {policy : ErrorPolicy} {p q : Progress}

/-- What taking in the result of a function can do. -/
theorem record_cases {name : Name} {result : Except CompileError FinishedFunction × CompileUnit}
    (h : p.record policy name result = .ok q) :
    (∃ f, result.1 = .ok f ∧
      q = { p with unit := result.2.install f.function, queue := p.queue ++ f.pending }) ∨
    (∃ e, result.1 = .error e ∧ policy = .keepGoing ∧
      q = { p with
        unit := result.2.discardLifted.2
        diagnostics := p.diagnostics ++ [⟨name, e⟩] }) := by
  obtain ⟨outcome, unit⟩ := result
  cases outcome with
  | ok f =>
    cases h
    exact .inl ⟨f, rfl, rfl⟩
  | error e =>
    cases policy with
    | abort => cases h
    | keepGoing =>
      cases h
      exact .inr ⟨e, rfl, rfl, rfl⟩

/-- Afterwards the functions that were found wait behind the others. -/
theorem queue_record {c : Call} (h : p.record policy c.function.name c.result = .ok q) :
    q.queue = p.queue ++ c.found := by
  rw [Call.found]
  obtain ⟨f, hf, rfl⟩ | ⟨e, he, -, rfl⟩ := record_cases h
  · rw [hf]
  · rw [he, List.append_nil]

theorem diagnostics_record {c : Call} (h : p.record policy c.function.name c.result = .ok q) :
    q.diagnostics = p.diagnostics ++ c.diagnostic?.toList := by
  rw [Call.diagnostic?]
  obtain ⟨f, hf, rfl⟩ | ⟨e, he, -, rfl⟩ := record_cases h
  · rw [hf, Option.toList_none, List.append_nil]
  · rw [he, Option.toList_some]

/-- The supply of names is that which the function has left. -/
theorem lambdaNames_record {name : Name}
    {result : Except CompileError FinishedFunction × CompileUnit}
    (h : p.record policy name result = .ok q) :
    q.unit.lambdaNames = result.2.lambdaNames := by
  obtain ⟨f, -, rfl⟩ | ⟨e, -, -, rfl⟩ := record_cases h
  · rfl
  · rfl

/-- The function that comes next is declared and goes by moves, and the others wait. -/
theorem Sound.next {G : Globals} (hp : p.Sound G) {f : PendingFunction}
    {queue : List PendingFunction} (hqueue : p.queue = f :: queue) :
    Sound G { p with queue } ∧ f.globals = G ∧
      Declared p.unit.module.definitions f.name f.lambda.params ∧
      ∃ t, (LowerState.start p.unit f.name f.lambda.params G).Builds
        (functionCounts f.lambda.body) (lowerFunction p.unit f) t := by
  obtain ⟨hG, hdeclared⟩ := hp.queue f (hqueue ▸ List.mem_cons_self)
  have hrest : ∀ g ∈ queue, g.globals = G ∧
      Declared p.unit.module.definitions g.name g.lambda.params :=
    fun g hg => hp.queue g (hqueue ▸ List.mem_cons_of_mem _ hg)
  exact ⟨⟨hp.unit, hp.globals, hp.bodies, hrest⟩, hG, hdeclared, hG ▸ lowerFunction_builds p.unit f⟩

/-! ### Runs that list their calls -/

/-- The queue is worked off by the given calls, or until one of them fails and stops the
compilation. -/
inductive Works (policy : ErrorPolicy) : Progress → List Call → Except Diagnostic Progress → Prop
  | done {p : Progress} (h : p.queue = []) : Works policy p [] (.ok p)
  | stop {p : Progress} {f : PendingFunction} {queue : List PendingFunction} {d : Diagnostic}
      (hqueue : p.queue = f :: queue)
      (hrecord : Progress.record { p with queue } policy f.name (lowerFunction p.unit f) =
        .error d) : Works policy p [⟨f, lowerFunction p.unit f⟩] (.error d)
  | next {p q : Progress} {f : PendingFunction} {queue : List PendingFunction} {calls : List Call}
      {result : Except Diagnostic Progress} (hqueue : p.queue = f :: queue)
      (hrecord : Progress.record { p with queue } policy f.name (lowerFunction p.unit f) = .ok q)
      (hrest : Works policy q calls result) :
      Works policy p (⟨f, lowerFunction p.unit f⟩ :: calls) result

private theorem Drains.exists_works {result : Except Diagnostic Progress}
    (h : p.Drains policy result) : ∃ calls, p.Works policy calls result := by
  induction h with
  | done hqueue => exact ⟨[], .done hqueue⟩
  | stop hqueue hrecord => exact ⟨_, .stop hqueue hrecord⟩
  | next hqueue hrecord _ ih =>
    obtain ⟨calls, hcalls⟩ := ih
    exact ⟨_, .next hqueue hrecord hcalls⟩

/-- **First in, first out**: built are those that wait, and then those that are found. -/
theorem Works.functions {calls : List Call} (h : p.Works policy calls (.ok q)) :
    calls.map Call.function = p.queue ++ calls.flatMap Call.found := by
  generalize hresult : (Except.ok q : Except Diagnostic Progress) = result at h
  induction h with
  | done hqueue => simp [hqueue]
  | stop => cases hresult
  | @next p q f queue calls result hqueue hrecord _ ih =>
    have hq := queue_record (p := { p with queue }) (c := ⟨f, lowerFunction p.unit f⟩) hrecord
    rw [List.map_cons, ih hresult, hq, hqueue, List.flatMap_cons, List.cons_append,
      List.append_assoc]

theorem Works.diagnostics {calls : List Call} (h : p.Works policy calls (.ok q)) :
    q.diagnostics = p.diagnostics ++ calls.filterMap Call.diagnostic? := by
  generalize hresult : (Except.ok q : Except Diagnostic Progress) = result at h
  induction h with
  | done =>
    cases hresult
    simp
  | stop => cases hresult
  | @next p q f queue calls result hqueue hrecord _ ih =>
    have hq := diagnostics_record (p := { p with queue }) (c := ⟨f, lowerFunction p.unit f⟩)
      hrecord
    rw [ih hresult, hq, List.append_assoc, List.filterMap_cons]
    cases Call.diagnostic? ⟨f, lowerFunction p.unit f⟩ <;> rfl

end Progress

/-- The call that builds the entry function, which has no parameters and the forms as its body. -/
def TopLevel.entryCall (top : TopLevel) (forms : List Expr) (options : CompileOptions) : Call :=
  ⟨⟨options.entry, ⟨[], forms⟩, top.globals⟩,
    lowerEntry top.unit forms top.functionForms top.globals⟩

/-- What compiling a program comes to, and the calls that it makes: the first builds the entry
function, the others those of the queue. -/
inductive CompilesBy (forms : List Expr) (options : CompileOptions) :
    List Call → Except Diagnostic CompileOutput → Prop
  | reserved {e : CompileError} (h : topLevel forms options = .error e) :
      CompilesBy forms options [] (.error ⟨options.entry, e⟩)
  | entryFails {top : TopLevel} {d : Diagnostic} (htop : topLevel forms options = .ok top)
      (h : top.started forms options = .error d) :
      CompilesBy forms options [top.entryCall forms options] (.error d)
  | stops {top : TopLevel} {begun : Progress} {calls : List Call} {d : Diagnostic}
      (htop : topLevel forms options = .ok top) (hbegun : top.started forms options = .ok begun)
      (h : begun.Works options.policy calls (.error d)) :
      CompilesBy forms options (top.entryCall forms options :: calls) (.error d)
  | finishes {top : TopLevel} {begun done : Progress} {calls : List Call}
      (htop : topLevel forms options = .ok top) (hbegun : top.started forms options = .ok begun)
      (h : begun.Works options.policy calls (.ok done)) :
      CompilesBy forms options (top.entryCall forms options :: calls)
        (.ok ⟨done.unit.module.finish, done.diagnostics⟩)

theorem exists_compilesBy (forms : List Expr) (options : CompileOptions) :
    ∃ calls, CompilesBy forms options calls (compileProgram forms options) := by
  have hcompiles := compileProgram_compiles forms options
  generalize compileProgram forms options = result at hcompiles ⊢
  cases hcompiles with
  | reserved h => exact ⟨_, .reserved h⟩
  | entryFails htop h => exact ⟨_, .entryFails htop h⟩
  | stops htop hbegun h =>
    obtain ⟨calls, hcalls⟩ := h.exists_works
    exact ⟨_, .stops htop hbegun hcalls⟩
  | finishes htop hbegun h =>
    obtain ⟨calls, hcalls⟩ := h.exists_works
    exact ⟨_, .finishes htop hbegun hcalls⟩

/-! ### First definitions -/

/-- The value that a form defines a name as. -/
def Expr.definition? (name : Name) : Expr → Option Expr
  | .define other value => if other = name then some value else none
  | _ => none

/-- The first value that the forms of a program define a name as. -/
def firstDefinition? (name : Name) (forms : List Expr) : Option Expr :=
  forms.findSome? (Expr.definition? name)

namespace TopLevel

variable {t top : TopLevel} {index : Nat} {name : Name}

/-- What has been noted stays. -/
private theorem collect_mono {forms : List Expr} (h : t.collect index forms = .ok top) :
    (∀ name, t.globals.has name = true → top.globals.has name = true) ∧
      t.functions ⊆ top.functions := by
  induction forms generalizing t index with
  | nil =>
    cases h
    exact ⟨fun _ => id, List.Subset.refl _⟩
  | cons form forms ih =>
    obtain ⟨u, hnotes, hrest⟩ := collect_cons h
    obtain ⟨hhas, hsub⟩ := ih hrest
    have hput : ∀ {other kind} name, t.globals.has name = true →
        (t.globals.put other kind).has name = true := by
      intro other kind name hname
      rw [Assoc.has] at hname ⊢
      by_cases heq : name = other
      · rw [heq, Assoc.get?_put_self]
        rfl
      · rwa [Assoc.get?_put_of_ne _ _ heq]
    cases hnotes with
    | skip => exact ⟨hhas, hsub⟩
    | function =>
      exact ⟨fun name hname => hhas name (hput name hname), fun x hx => hsub (by simp [hx])⟩
    | var => exact ⟨fun name hname => hhas name (hput name hname), hsub⟩

/-- The top level can be noted exactly if no form defines a reserved name. -/
theorem collect_ok_iff {forms : List Expr} : (∃ top, t.collect index forms = .ok top) ↔
    ∀ name value, .define name value ∈ forms → isReserved t.unit.entry name = false := by
  induction forms generalizing t index with
  | nil => exact iff_of_true ⟨t, rfl⟩ (fun _ _ h => nomatch h)
  | cons form forms ih =>
    by_cases hform : ∃ name value, form = .define name value
    · obtain ⟨name, value, rfl⟩ := hform
      have hentry : (t.define index name value).unit.entry = t.unit.entry := by
        rw [define.eq_def]
        split <;> rfl
      have hrest : ∀ {P : Name → Expr → Prop}, (∀ other value', .define other value' ∈
          Expr.define name value :: forms → P other value') ↔
          P name value ∧ ∀ other value', .define other value' ∈ forms → P other value' := by
        simp only [List.mem_cons, Expr.define.injEq]
        grind
      rw [collect, hrest]
      split_ifs with hreserved hold
      · simp [hreserved]
      · rw [ih, Bool.eq_false_iff.mpr hreserved]
        simp
      · rw [ih, hentry, Bool.eq_false_iff.mpr hreserved]
        simp
    · have hother : ∀ name value, form = .define name value → False :=
        fun name value heq => hform ⟨name, value, heq⟩
      rw [collect, ih]
      · refine forall_congr' fun name => forall_congr' fun value => ?_
        rw [List.mem_cons, or_iff_right fun heq => hother name value heq.symm]
      · exact hother

/-- What becomes of a name that has not been noted at a form: its definition is, if that is what the
form gives. -/
private theorem collect_cons_of_new {form : Expr} {forms : List Expr}
    (h : t.collect index (form :: forms) = .ok top) (hnew : t.globals.has name = false) :
    (∃ value, form.definition? name = some value ∧
      (t.define index name value).collect (index + 1) forms = .ok top) ∨
    (form.definition? name = none ∧ ∃ u : TopLevel, u.globals.has name = false ∧
      u.collect (index + 1) forms = .ok top) := by
  by_cases hform : ∃ other value, form = .define other value
  · obtain ⟨other, value, rfl⟩ := hform
    rw [collect] at h
    rw [Expr.definition?]
    split_ifs at h with _ hold
    · -- the definition of another name, which is not the first
      have hother : other ≠ name := by
        rintro rfl
        rw [hnew] at hold
        cases hold
      exact .inr ⟨if_neg hother, t, hnew, h⟩
    · by_cases hother : other = name
      · subst hother
        exact .inl ⟨value, if_pos rfl, h⟩
      · refine .inr ⟨if_neg hother, _, ?_, h⟩
        have hput : ∀ kind, (t.globals.put other kind).has name = false := by
          intro kind
          rwa [Assoc.has, Assoc.get?_put_of_ne _ _ (Ne.symm hother)]
        rw [define.eq_def]
        split
        · exact hput _
        · exact hput _
  · have hother : ∀ other value, form = .define other value → False :=
      fun other value heq => hform ⟨other, value, heq⟩
    rw [collect] at h
    · refine .inr ⟨?_, t, hnew, h⟩
      rw [Expr.definition?]
      exact hother
    · exact hother

/-- The first definition of a name is noted on the way. -/
private theorem exists_define_of_firstDefinition? {forms : List Expr} {value : Expr}
    (h : t.collect index forms = .ok top) (hnew : t.globals.has name = false)
    (hvalue : firstDefinition? name forms = some value) :
    ∃ (u : TopLevel) (i : Nat) (rest : List Expr),
      (u.define i name value).collect (i + 1) rest = .ok top := by
  induction forms generalizing t index with
  | nil => cases hvalue
  | cons form forms ih =>
    rw [firstDefinition?, List.findSome?_cons] at hvalue
    obtain ⟨first, hfirst, hrest⟩ | ⟨hnone, u, hu, hrest⟩ := collect_cons_of_new h hnew
    · rw [hfirst] at hvalue
      cases hvalue
      exact ⟨t, index, forms, hrest⟩
    · rw [hnone] at hvalue
      exact ih hrest hu hvalue

end TopLevel

section TopLevelNames

variable {forms : List Expr} {options : CompileOptions} {top : TopLevel} {name : Name}

/-- A name that is defined is noted as such. -/
theorem has_of_firstDefinition? {value : Expr} (htop : topLevel forms options = .ok top)
    (hvalue : firstDefinition? name forms = some value) : top.globals.has name = true := by
  obtain ⟨u, i, rest, hrest⟩ := TopLevel.exists_define_of_firstDefinition? htop rfl hvalue
  have hself : (u.define i name value).globals.has name = true := by
    rw [TopLevel.define.eq_def]
    split <;> simp [Assoc.has]
  exact (TopLevel.collect_mono hrest).1 name hself

/-- A name whose first definition is a lambda is a function. -/
theorem mem_functions_of_firstDefinition? {params : List Name} {body : List Expr}
    (htop : topLevel forms options = .ok top)
    (hvalue : firstDefinition? name forms = some (.lambda params body)) :
    (name, ⟨params, body⟩) ∈ top.functions := by
  obtain ⟨u, i, rest, hrest⟩ := TopLevel.exists_define_of_firstDefinition? htop rfl hvalue
  exact (TopLevel.collect_mono hrest).2 (by simp [TopLevel.define])

end TopLevelNames

/-! ### The functions of a whole compilation -/

namespace CompilesBy

variable {forms : List Expr} {options : CompileOptions} {calls : List Call}
  {output : CompileOutput}

/-- **The functions that a compilation builds**: the entry function, those of the top level, and
those found in functions that were built, in the order in which they were found. -/
theorem functions (h : CompilesBy forms options calls (.ok output)) :
    ∃ top, topLevel forms options = .ok top ∧
      calls.map Call.function =
        ⟨options.entry, ⟨[], forms⟩, top.globals⟩ :: (top.pending ++ calls.flatMap Call.found) := by
  cases h with
  | @finishes top begun done calls htop hbegun hworks =>
    refine ⟨top, htop, ?_⟩
    have hqueue := Progress.queue_record (p := ⟨top.unit, [], top.pending⟩)
      (c := top.entryCall forms options) hbegun
    rw [List.map_cons, hworks.functions, hqueue, List.flatMap_cons, List.append_assoc]
    rfl

/-- **The diagnostics of a compilation** are those of the functions that failed. -/
theorem diagnostics (h : CompilesBy forms options calls (.ok output)) :
    output.diagnostics = calls.filterMap Call.diagnostic? := by
  cases h with
  | @finishes top begun done calls htop hbegun hworks =>
    have hbegan := Progress.diagnostics_record (p := ⟨top.unit, [], top.pending⟩)
      (c := top.entryCall forms options) hbegun
    rw [hworks.diagnostics, hbegan, List.nil_append, List.filterMap_cons]
    cases (top.entryCall forms options).diagnostic? <;> rfl

end CompilesBy

end WordScheme
