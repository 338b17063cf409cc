import Mathlib
import WordScheme.Proofs.Acceptance
import WordScheme.Proofs.Demands
import WordScheme.Proofs.StringConstants

/-!
# Entry functions that clash

A program may not define a reserved name, but the name of its entry function is a choice of the
caller that nothing checks. If it is the symbol of a library function or the name of a string
constant, the module may have two definitions of it. Whether it has depends on what the program
makes the compiler generate, wherever in its functions that stands.

`Demanded` is what a program demands: the least set that has the demands of its entry function
(`entryForms`), the functions of its top level, and the demands of the functions in it. A
compilation provides nothing else, and all of it unless a function is skipped
(`exists_unit_of_compiles`). Both follow from what a step brings (`Progress.provides_record`), the
one for any set with the demands of its functions, the other as the calls of a compilation make such
a set. String constants are numbered in the order in which their strings are found, so their names
are the first ones, as many as there are strings (`CompileUnit.Numbered`). The entry function
clashes exactly with these: `entry_clashes_iff`.
-/

namespace WordScheme

open Lower LowerState NameSupply

/-! ### Functions -/

namespace Attempt

/-- What the function demands. -/
def demands : Attempt → List Demand
  | .entry forms skipped _ => demandsChain false (unskipped skipped 0 forms)
  | .function f => f.lambda.demands

/-- Building a function up to its return brings what it demands. -/
private theorem logs_leaving (a : Attempt) : Logs false true a.demands (leaving a.steps) := by
  cases a with
  | entry forms skipped globals =>
    exact (lowerForms_logs skipped 0 (.word 0) forms false).bind_nil logs_returning
  | function f => exact (lowerBody_logs f.lambda).bind_nil logs_returning

/-- A function begins with what the unit provides. -/
private theorem provides_begin (a : Attempt) (u : CompileUnit) (x : Demand) :
    (a.begin u).Provides x ↔ u.Provides x := by
  have hunit : (a.begin u).unit.Provides x ↔ u.Provides x := by
    rw [a.begin_unit]
    cases x <;> exact Iff.rfl
  have hpending : (a.begin u).draft.pending = [] := by cases a <;> rfl
  rw [LowerState.Provides, hunit, hpending]
  simp

/-- A function begins in an open block. -/
private theorem live_begin (a : Attempt) (u : CompileUnit) :
    (a.begin u).draft.terminated = false := by
  cases a <;> rfl

/-- **Building a function brings what it demands**: the unit provides it, or it is a function that
was found. If building fails, the unit provides nothing that is not demanded. -/
theorem provides_run (a : Attempt) (u : CompileUnit) :
    (∀ x, (a.run u).2.Provides x → u.Provides x ∨ x ∈ a.demands) ∧
      ∀ f, (a.run u).1 = .ok f → ∀ x,
        ((a.run u).2.Provides x ∨ ∃ g ∈ f.pending, x = .function g.lambda) ↔
          u.Provides x ∨ x ∈ a.demands := by
  have htells := a.logs_leaving (a.begin u) (a.live_begin u)
  rw [Tells] at htells
  rw [run_eq_leaving]
  cases hrun : leaving a.steps (a.begin u) with
  | ok _ s =>
    rw [hrun] at htells
    obtain ⟨-, hbrings⟩ := htells
    simp only [Brings, provides_begin] at hbrings
    refine ⟨fun x hx => (hbrings x).mp (.inl hx), fun f hf x => ?_⟩
    obtain ⟨blocks, rfl, -⟩ := FunctionDraft.of_finish hf
    exact hbrings x
  | error e s =>
    rw [hrun] at htells
    simp only [provides_begin] at htells
    exact ⟨fun x hx => htells x (.inl hx), fun f hf => by cases hf⟩

end Attempt

/-! ### Units -/

/-- Only functions are dropped. -/
private theorem ModuleDraft.mem_dropFunction {m : ModuleDraft} {d : Definition} (name : Name)
    (hd : d.function? = none) : d ∈ (m.dropFunction name).definitions ↔ d ∈ m.definitions := by
  rw [dropFunction, removeFunction]
  cases hfound : (m.defining name).findSome? fun x => x.2.function?.map fun f => (x.1, f) with
  | none => exact Iff.rfl
  | some x =>
    obtain ⟨⟨i, e⟩, hmem, hsome⟩ := List.exists_of_findSome?_eq_some hfound
    obtain ⟨f, hf, rfl⟩ := Option.map_eq_some_iff.mp hsome
    obtain ⟨_, -, hposition⟩ := List.mem_filterMap.mp hmem
    obtain ⟨_, hi, heq⟩ := Option.map_eq_some_iff.mp hposition
    cases heq
    change d ∈ m.definitions.eraseIdx i ↔ _
    rw [List.mem_eraseIdx_iff_getElem?, List.mem_iff_getElem?]
    constructor
    · rintro ⟨j, -, hj⟩
      exact ⟨j, hj⟩
    · rintro ⟨j, hj⟩
      refine ⟨j, ?_, hj⟩
      -- what goes is a function
      rintro rfl
      cases hi.symm.trans hj
      rw [hd] at hf
      cases hf

namespace CompileUnit

variable {u v : CompileUnit} {x : Demand}

/-- What a unit provides depends on its strings and on the definitions that are no functions. -/
private theorem provides_of_eq (hstrings : v.strings = u.strings)
    (hmodule : ∀ d : Definition, d.function? = none →
      (d ∈ v.module.definitions ↔ d ∈ u.module.definitions)) : v.Provides x ↔ u.Provides x := by
  cases x with
  | library f => exact hmodule f.declaration rfl
  | string value => rw [Provides, Provides, hstrings]
  | function l => exact Iff.rfl

/-- Installing a function provides nothing new. -/
private theorem provides_install (f : Function) : (u.install f).Provides x ↔ u.Provides x := by
  let dropped : CompileUnit := { u with module := u.module.dropFunction f.name }
  have hensure : (dropped.ensure (.function f)).Provides x ↔ dropped.Provides x :=
    provides_ensure (by simp [Definition.kind])
  exact hensure.trans (provides_of_eq rfl fun d hd => ModuleDraft.mem_dropFunction f.name hd)

/-- Dropping lambdas takes away nothing that is provided. -/
private theorem provides_discardLifted : u.discardLifted.2.Provides x ↔ u.Provides x := by
  refine provides_of_eq rfl fun d hd => ?_
  change d ∈ (u.lifted.foldl ModuleDraft.dropFunction u.module).definitions ↔ _
  generalize u.module = m
  induction u.lifted generalizing m with
  | nil => exact Iff.rfl
  | cons name names ih => exact (ih _).trans (ModuleDraft.mem_dropFunction name hd)

/-! ### The numbers of strings -/

/-- The constants are named by their numbers, one for each string. -/
structure Numbered (u : CompileUnit) : Prop where
  values : (u.strings.map Prod.fst).Nodup
  names : u.strings.map Prod.snd = (List.range (u.stringNames.count ".str")).map (nth ".str")
  positive : u.stringNames.Positive

private theorem Numbered.of_eq (h : u.Numbered) (hstrings : v.strings = u.strings)
    (hnames : v.stringNames = u.stringNames) : v.Numbered :=
  ⟨hstrings ▸ h.values, hnames ▸ hstrings ▸ h.names, hnames ▸ h.positive⟩

/-- A new string gets the next number. -/
private theorem Numbered.stringConstant (h : u.Numbered) (value : String) :
    (u.stringConstant value).2.Numbered := by
  rw [CompileUnit.stringConstant]
  cases hv : u.strings.get? value with
  | some name => exact h
  | none =>
    have hnew : value ∉ u.strings.map Prod.fst := by
      rw [← Assoc.isSome_get?_iff, hv]
      exact Bool.false_ne_true
    have hput := Assoc.put_of_notMem hnew (u.stringNames.fresh ".str").1
    refine ⟨?_, ?_, h.positive.fresh ".str"⟩
    · change ((u.strings.put value _).map Prod.fst).Nodup
      rw [hput, List.map_append]
      exact h.values.append (List.nodup_singleton value) (List.disjoint_singleton.mpr hnew)
    · change (u.strings.put value _).map Prod.snd =
        (List.range ((u.stringNames.fresh ".str").2.count ".str")).map _
      rw [hput, List.map_append, h.names, count_fresh_self, List.range_succ, List.map_append,
        fresh_name h.positive]
      rfl

/-- There are as many constants as strings. -/
private theorem Numbered.length_eq (h : u.Numbered) :
    (u.strings.map Prod.fst).length = u.stringNames.count ".str" := by
  have hlength := congrArg List.length h.names
  simpa using hlength

/-- Every number that was given out is that of a string. -/
private theorem Numbered.exists_get? (h : u.Numbered) {n : Nat}
    (hn : n < u.stringNames.count ".str") :
    ∃ value, u.strings.get? value = some (nth ".str" n) := by
  have hmem : nth ".str" n ∈ u.strings.map Prod.snd := by
    rw [h.names]
    exact List.mem_map_of_mem (List.mem_range.mpr hn)
  obtain ⟨⟨value, name⟩, hvalue, rfl⟩ := List.mem_map.mp hmem
  exact ⟨value, Assoc.get?_of_mem h.values hvalue⟩

end CompileUnit

/-- A change of a lowering keeps strings numbered. -/
private theorem LowerState.Change.numbered {V : Vocabulary} {s t : LowerState} (h : Change V s t)
    (hs : s.unit.Numbered) : t.unit.Numbered := by
  cases h with
  | string _ => exact hs.stringConstant _
  | array length => exact hs.of_eq rfl rfl
  | library f => exact hs.of_eq rfl rfl
  | lift _ => exact hs.of_eq rfl rfl
  | _ => exact hs

/-- Building a function keeps strings numbered, also if it fails. -/
private theorem Attempt.numbered_run {u : CompileUnit} (hu : u.Numbered) (a : Attempt) :
    (a.run u).2.Numbered := by
  have hchanges : Changes (a.vocabulary fun _ => True) (a.begin u) (a.left u) :=
    changes_left u fun _ _ => trivial
  have hbegin : (a.begin u).unit.Numbered := by
    rw [a.begin_unit]
    exact hu.of_eq rfl rfl
  rw [(a.run_eq_left u).1]
  generalize a.left u = s at hchanges ⊢
  induction hchanges with
  | refl => exact hbegin
  | tail _ hchange ih => exact hchange.numbered ih

/-! ### The top level -/

/-- The forms that the entry function is built from: all but the first definitions of functions,
where `defined` are the names that have been defined before. -/
def entryForms : (defined : List Name) → List Expr → List Expr
  | _, [] => []
  | defined, .define name value :: forms =>
    if value.arity?.isSome && !defined.contains name then entryForms (name :: defined) forms
    else .define name value :: entryForms (name :: defined) forms
  | defined, form :: forms => form :: entryForms defined forms

namespace TopLevel

variable {t u top : TopLevel} {index : Nat} {form : Expr} {forms : List Expr}

/-- A definition is skipped by the entry function exactly when it is the first of its name and a
function. -/
private theorem Reads.skipped_eq {skipped : Bool} {defined : List Name} {name : Name} {value : Expr}
    (h : t.Reads index (.define name value) skipped u)
    (hdefined : ∀ other, t.globals.has other = defined.contains other) :
    skipped = (value.arity?.isSome && !defined.contains name) := by
  rw [← hdefined]
  cases h with
  | first hnew => rw [hnew, Bool.not_false, Bool.and_true]
  | again hold => rw [hold, Bool.not_true, Bool.and_false]
  | other hform => exact absurd rfl (hform name value)

/-- What is skipped is told from the forms alone. -/
private theorem Ahead.unskipped_eq {defined : List Name} (h : t.Ahead index forms top)
    (hdefined : ∀ other, t.globals.has other = defined.contains other) :
    unskipped top.functionForms index forms = entryForms defined forms := by
  induction forms generalizing t index defined with
  | nil => rfl
  | cons form forms ih =>
    obtain ⟨u, hreads, hrest⟩ := h.cons
    rw [unskipped]
    by_cases hform : ∃ name value, form = .define name value
    · obtain ⟨name, value, rfl⟩ := hform
      rw [entryForms, ih hrest (hreads.has_globals hdefined), hreads.skipped_eq hdefined]
    · have hother : ∀ name value, form = .define name value → False :=
        fun name value heq => hform ⟨name, value, heq⟩
      generalize top.functionForms.contains index = skipped at hreads
      cases hreads with
      | other =>
        rw [entryForms, ← ih hrest hdefined]
        · rfl
        · exact hother
      | _ => exact absurd rfl (hother _ _)

/-- A function of the top level is one that was found before, or the one that a form defines first.
-/
private theorem Reads.mem_functions {skipped : Bool} (h : t.Reads index form skipped u)
    {x : Name × Lambda} (hx : x ∈ u.functions) :
    x ∈ t.functions ∨ t.globals.has x.1 = false ∧
      form.definition? x.1 = some (.lambda x.2.params x.2.body) := by
  cases h with
  | @first name value hnew =>
    cases value with
    | lambda params body =>
      rcases List.mem_append.mp hx with hx | hx
      · exact .inl hx
      · cases List.mem_singleton.mp hx
        exact .inr ⟨hnew, if_pos rfl⟩
    | _ => exact .inl hx
  | again => exact .inl hx
  | other => exact .inl hx

/-- The functions of the top level are the names whose first definitions are lambdas. -/
private theorem firstDefinition?_of_mem (h : t.collect index forms = .ok top) {x : Name × Lambda}
    (hx : x ∈ top.functions) :
    x ∈ t.functions ∨ t.globals.has x.1 = false ∧
      firstDefinition? x.1 forms = some (.lambda x.2.params x.2.body) := by
  induction forms generalizing t index with
  | nil =>
    cases h
    exact .inl hx
  | cons form forms ih =>
    obtain ⟨skipped, u, hreads, hrest⟩ := exists_reads h
    rw [firstDefinition?, List.findSome?_cons]
    rcases ih hrest with hmem | ⟨hnew, hfirst⟩
    · rcases hreads.mem_functions hmem with hmem | ⟨hnew, hform⟩
      · exact .inl hmem
      · rw [hform]
        exact .inr ⟨hnew, rfl⟩
    · -- the form does not define the name either
      have hget := hreads.get?_globals x.1
      rw [Assoc.has, Option.isSome_eq_false_iff, Option.isNone_iff_eq_none] at hnew
      rw [hnew, eq_comm, Option.or_eq_none_iff, Option.map_eq_none_iff] at hget
      rw [Assoc.has, hget.1, hget.2]
      exact .inr ⟨rfl, hfirst⟩

end TopLevel

/-! ### What a program demands -/

/-- What a program demands: what is demanded by the forms of the entry function, the functions of
the top level, and what functions demand that are demanded themselves. -/
inductive Demanded (forms : List Expr) : Demand → Prop
  | entry {x : Demand} (h : x ∈ demandsChain false (entryForms [] forms)) : Demanded forms x
  | defined {name : Name} {params : List Name} {body : List Expr}
      (h : firstDefinition? name forms = some (.lambda params body)) :
      Demanded forms (.function ⟨params, body⟩)
  | inner {l : Lambda} {x : Demand} (hl : Demanded forms (.function l)) (hx : x ∈ l.demands) :
      Demanded forms x

namespace Progress

variable {policy : ErrorPolicy} {p q : Progress} {x : Demand}

/-- A compilation under way provides what its unit does, and the functions that wait. -/
def Provides (p : Progress) (x : Demand) : Prop :=
  p.unit.Provides x ∨ ∃ g ∈ p.queue, x = .function g.lambda

/-- **A step brings what its function demands**, or less if the function fails. -/
theorem provides_record {name : Name} {a : Attempt}
    (h : p.record policy name (a.run p.unit) = .ok q) :
    (∀ x, q.Provides x → p.Provides x ∨ x ∈ a.demands) ∧
      (q.diagnostics = p.diagnostics → ∀ x, p.Provides x ∨ x ∈ a.demands → q.Provides x) := by
  obtain ⟨hbound, hexact⟩ := a.provides_run p.unit
  obtain ⟨f, hf, rfl⟩ | ⟨e, -, -, rfl⟩ := record_cases h
  · have hprovides : ∀ x, Provides { p with
        unit := (a.run p.unit).2.install f.function, queue := p.queue ++ f.pending } x ↔
        p.Provides x ∨ x ∈ a.demands := by
      intro x
      rw [Provides, Provides, CompileUnit.provides_install, or_right_comm, ← hexact f hf x]
      simp only [List.mem_append, or_and_right, exists_or]
      exact or_assoc.symm.trans or_right_comm
    exact ⟨fun x => (hprovides x).mp, fun _ x => (hprovides x).mpr⟩
  · refine ⟨fun x hx => ?_, fun hsame => ?_⟩
    · rw [Provides, CompileUnit.provides_discardLifted] at hx
      rw [Provides, or_right_comm]
      exact hx.imp_left (hbound x)
    · exact absurd hsame (by simp)

/-- Taking in a function keeps strings numbered. -/
private theorem numbered_record {name : Name} {a : Attempt} (hp : p.unit.Numbered)
    (h : p.record policy name (a.run p.unit) = .ok q) : q.unit.Numbered := by
  have hrun := a.numbered_run hp
  obtain ⟨f, -, rfl⟩ | ⟨e, -, -, rfl⟩ := record_cases h
  · exact hrun.of_eq rfl rfl
  · exact hrun.of_eq rfl rfl

/-- What is provided stays within any set that has the demands of its functions. -/
private theorem provides_of_advances {D : Demand → Prop}
    (hclosed : ∀ l x, D (.function l) → x ∈ l.demands → D x)
    (h : Relation.ReflTransGen (Advances policy) p q) (hp : ∀ x, p.Provides x → D x) :
    ∀ x, q.Provides x → D x := by
  induction h with
  | refl => exact hp
  | @tail p q _ hstep ih =>
    cases hstep with
    | @next f queue hqueue hrecord =>
      intro x hx
      have hqueued : ∀ g ∈ p.queue, D (.function g.lambda) := fun g hg => ih _ (.inr ⟨g, hg, rfl⟩)
      rcases (provides_record (p := { p with queue }) (a := .function f) hrecord).1 x hx with
        (hunit | ⟨g, hg, rfl⟩) | hdemand
      · exact ih x (.inl hunit)
      · exact hqueued g (hqueue ▸ List.mem_cons_of_mem _ hg)
      · exact hclosed _ x (hqueued f (hqueue ▸ List.mem_cons_self)) hdemand

/-- A run of steps keeps strings numbered. -/
private theorem numbered_of_advances (h : Relation.ReflTransGen (Advances policy) p q)
    (hp : p.unit.Numbered) : q.unit.Numbered := by
  induction h with
  | refl => exact hp
  | @tail p q _ hstep ih =>
    cases hstep with
    | @next f queue hqueue hrecord =>
      exact numbered_record (p := { p with queue }) (a := .function f) ih hrecord

/-- **Nothing is forgotten**: if no function fails, what is provided at first and what the functions
demand is provided in the end, or is a function that has been built. -/
theorem Works.provides {calls : List Call} (h : p.Works policy calls (.ok q))
    (hok : calls.filterMap Call.diagnostic? = []) {D : Demand → Prop}
    (hunit : ∀ x, q.unit.Provides x → D x)
    (hcalls : ∀ c ∈ calls, D (.function c.function.lambda)) :
    (∀ x, p.Provides x → D x) ∧ ∀ c ∈ calls, ∀ x ∈ c.function.lambda.demands, D x := by
  generalize hresult : (Except.ok q : Except Diagnostic Progress) = result at h
  induction h with
  | done hqueue =>
    cases hresult
    refine ⟨fun x hx => ?_, fun c hc => by cases hc⟩
    rw [Provides, hqueue] at hx
    simpa using hx.imp_left (hunit x)
  | stop => cases hresult
  | @next p p' f queue calls result hqueue hrecord _ ih =>
    obtain ⟨hf, hcalls⟩ := List.forall_mem_cons.mp hcalls
    have hnone : Call.diagnostic? ⟨f, lowerFunction p.unit f⟩ = none := by
      simpa using List.filterMap_eq_nil_iff.mp hok _ List.mem_cons_self
    have hsame := diagnostics_record (p := { p with queue }) (c := ⟨f, lowerFunction p.unit f⟩)
      hrecord
    rw [hnone, Option.toList_none, List.append_nil] at hsame
    rw [List.filterMap_cons_none hnone] at hok
    obtain ⟨hbefore, hafter⟩ := ih hok hcalls hresult
    have hstep := (provides_record (p := { p with queue }) (a := .function f) hrecord).2 hsame
    refine ⟨fun x hx => ?_, List.forall_mem_cons.mpr
      ⟨fun x hx => hbefore x (hstep x (.inr hx)), hafter⟩⟩
    obtain hx | ⟨g, hg, rfl⟩ := hx
    · exact hbefore x (hstep x (.inl (.inl hx)))
    · rcases List.mem_cons.mp (hqueue ▸ hg) with rfl | hg
      · exact hf
      · exact hbefore _ (hstep _ (.inl (.inr ⟨g, hg, rfl⟩)))

end Progress

/-! ### Programs -/

/-- Top level definitions bring neither declarations nor strings. -/
private theorem TopLevel.provides_collect {t top : TopLevel} {index : Nat} {forms : List Expr}
    (h : t.collect index forms = .ok top) (ht : t.unit.Numbered) :
    top.unit.Numbered ∧ ∀ x, top.unit.Provides x ↔ t.unit.Provides x := by
  induction forms generalizing t index with
  | nil =>
    cases h
    exact ⟨ht, fun _ => Iff.rfl⟩
  | cons form forms ih =>
    obtain ⟨u, hnotes, hrest⟩ := collect_cons h
    have hensure : ∀ d : Definition, d.kind ≠ .external →
        u.unit = t.unit.ensure d → top.unit.Numbered ∧
          ∀ x, top.unit.Provides x ↔ t.unit.Provides x := by
      intro d hd hunit
      obtain ⟨hnumbered, hprovides⟩ := ih hrest (hunit ▸ ht.of_eq rfl rfl)
      refine ⟨hnumbered, fun x => (hprovides x).trans ?_⟩
      rw [hunit]
      exact CompileUnit.provides_ensure hd
    cases hnotes with
    | skip => exact ih hrest ht
    | function => exact hensure _ (by simp [ModuleDraft.placeholder, Definition.kind]) rfl
    | var => exact hensure _ (by simp [ModuleDraft.wordVariable, Definition.kind]) rfl

section Programs

variable {forms : List Expr} {options : CompileOptions} {top : TopLevel} {begun done : Progress}

/-- Before anything is built nothing is provided. -/
private theorem provides_topLevel (htop : topLevel forms options = .ok top) :
    top.unit.Numbered ∧ ∀ x, ¬ top.unit.Provides x := by
  have hstart : (CompileUnit.start options.moduleName options.entry).Numbered :=
    ⟨List.nodup_nil, rfl, positive_empty⟩
  obtain ⟨hnumbered, hprovides⟩ := TopLevel.provides_collect htop (hstart.of_eq rfl rfl)
  refine ⟨hnumbered, fun x hx => ?_⟩
  rw [hprovides, CompileUnit.provides_ensure
    (by simp [ModuleDraft.placeholder, Definition.kind])] at hx
  cases x with
  | library f => cases hx
  | string value => cases hx
  | function l => exact hx

/-- The functions that wait at first are those of the top level. -/
private theorem provides_pending_iff (htop : topLevel forms options = .ok top) {x : Demand} :
    Progress.Provides ⟨top.unit, [], top.pending⟩ x ↔ ∃ name params body,
      firstDefinition? name forms = some (.lambda params body) ∧ x = .function ⟨params, body⟩ := by
  rw [Progress.Provides, or_iff_right ((provides_topLevel htop).2 x)]
  constructor
  · rintro ⟨g, hg, rfl⟩
    obtain ⟨y, hy, rfl⟩ := List.mem_map.mp hg
    rcases TopLevel.firstDefinition?_of_mem htop hy with hnil | ⟨-, hfirst⟩
    · cases hnil
    · exact ⟨_, _, _, hfirst, rfl⟩
  · rintro ⟨name, params, body, hfirst, rfl⟩
    exact ⟨_, List.mem_map_of_mem (mem_functions_of_firstDefinition? htop hfirst), rfl⟩

/-- The entry function demands what the forms do that it is built from. -/
private theorem demands_entry (htop : topLevel forms options = .ok top) :
    (Attempt.entry forms top.functionForms top.globals).demands =
      demandsChain false (entryForms [] forms) :=
  congrArg _ ((topLevel_ahead htop).unskipped_eq fun _ => rfl)

/-- **Nothing is provided that is not demanded**, whichever functions are skipped. -/
theorem demanded_of_provides (htop : topLevel forms options = .ok top)
    (hbegun : top.started forms options = .ok begun)
    (hadvances : Relation.ReflTransGen (Progress.Advances options.policy) begun done) :
    ∀ x, done.Provides x → Demanded forms x := by
  obtain ⟨hbound, -⟩ := Progress.provides_record (p := ⟨top.unit, [], top.pending⟩)
    (a := .entry forms top.functionForms top.globals) hbegun
  rw [demands_entry htop] at hbound
  refine Progress.provides_of_advances (fun _ _ => .inner) hadvances fun x hx => ?_
  rcases hbound x hx with hx | hx
  · obtain ⟨name, params, body, hfirst, rfl⟩ := (provides_pending_iff htop).mp hx
    exact .defined hfirst
  · exact .entry hx

/-- **What is demanded is provided**, or is a function that has been built, if none is skipped. -/
theorem provides_of_demanded {calls : List Call} (htop : topLevel forms options = .ok top)
    (hbegun : top.started forms options = .ok begun)
    (hworks : begun.Works options.policy calls (.ok done)) (hnone : done.diagnostics = [])
    {x : Demand} (hx : Demanded forms x) :
    done.unit.Provides x ∨ ∃ c ∈ calls, x = .function c.function.lambda := by
  rw [hworks.diagnostics, List.append_eq_nil_iff] at hnone
  obtain ⟨-, hexact⟩ := Progress.provides_record (p := ⟨top.unit, [], top.pending⟩)
    (a := .entry forms top.functionForms top.globals) hbegun
  have hbegan := hexact hnone.1
  rw [demands_entry htop] at hbegan
  obtain ⟨hfirst, hcalls⟩ := hworks.provides hnone.2
    (D := fun x => done.unit.Provides x ∨ ∃ c ∈ calls, x = .function c.function.lambda)
    (fun x => .inl) fun c hc => .inr ⟨c, hc, rfl⟩
  induction hx with
  | entry hx => exact hfirst _ (hbegan _ (.inr hx))
  | defined hdefinition =>
    have hpending := (provides_pending_iff htop).mpr ⟨_, _, _, hdefinition, rfl⟩
    exact hfirst _ (hbegan _ (.inl hpending))
  | inner _ hx ih =>
    -- units provide no functions, so it is one that has been built
    obtain hfalse | ⟨c, hc, heq⟩ := ih
    · exact hfalse.elim
    · cases heq
      exact hcalls c hc _ hx

/-- **What a compilation provides**: only what the program demands, and all of that if no function
is skipped. -/
theorem exists_unit_of_compiles {output : CompileOutput}
    (h : compileProgram forms options = .ok output) :
    ∃ G u, CompileUnit.Sound G u ∧ u.Numbered ∧ output.module = u.module.finish ∧
      (∀ x, u.Provides x → Demanded forms x) ∧
      (output.diagnostics = [] → ∀ x, Demanded forms x → u.Provides x ∨ ∃ l, x = .function l) := by
  obtain ⟨calls, hcompiles⟩ := exists_compilesBy forms options
  rw [h] at hcompiles
  cases hcompiles with
  | @finishes top begun done calls htop hbegun hworks =>
    obtain ⟨htopSound, -⟩ := TopLevel.sound_topLevel htop
    have hsound : done.unit.Sound top.globals :=
      ((htopSound.started hbegun).1.advances hworks.advances).unit
    have hnumbered := Progress.numbered_record (p := ⟨top.unit, [], top.pending⟩)
      (a := .entry forms top.functionForms top.globals) (provides_topLevel htop).1 hbegun
    refine ⟨top.globals, done.unit, hsound,
      Progress.numbered_of_advances hworks.advances hnumbered, rfl, fun x hx => ?_,
      fun hnone x hx => ?_⟩
    · exact demanded_of_provides htop hbegun hworks.advances x (.inl hx)
    · rcases provides_of_demanded htop hbegun hworks hnone hx with hx | ⟨c, -, heq⟩
      · exact .inl hx
      · exact .inr ⟨_, heq⟩

end Programs

/-! ### Clashes -/

/-- A function of the module shares its name with a declaration or a string constant. -/
def Module.Clashes (m : Module) (name : Name) : Prop :=
  (∃ f ∈ m.functions, f.name = name) ∧
    ∃ d ∈ m.definitions, d.name = name ∧ (d.kind = .external ∨ d.kind = .stringConstant)

instance (m : Module) (name : Name) : Decidable (m.Clashes name) :=
  inferInstanceAs (Decidable (_ ∧ _))

/-- The names of generated definitions: the symbols of library functions that are demanded, and the
first names of string constants, as many as strings are demanded. -/
inductive Demand.Generates (D : Demand → Prop) : Name → Prop
  | symbol {f : LibraryFunction} (h : D (.library f)) : Generates D f.symbol
  | constant {n : Nat} {values : List String} (hnodup : values.Nodup) (hlt : n < values.length)
      (hvalues : ∀ value ∈ values, D (.string value)) : Generates D (nth ".str" n)

/-- More demands generate more names. -/
private theorem Demand.Generates.mono {D E : Demand → Prop} {name : Name} (h : Generates D name)
    (hlibrary : ∀ f, D (.library f) → E (.library f))
    (hstring : ∀ value, D (.string value) → E (.string value)) : Generates E name := by
  cases h with
  | symbol hf => exact .symbol (hlibrary _ hf)
  | constant hnodup hlt hvalues =>
    exact .constant hnodup hlt fun value hvalue => hstring value (hvalues value hvalue)

namespace CompileUnit

variable {u : CompileUnit} {G : Globals} {name : Name}

/-- As many names are given out as there are strings. -/
private theorem Numbered.lt_count_iff (h : u.Numbered) {n : Nat} :
    n < u.stringNames.count ".str" ↔ ∃ values : List String, values.Nodup ∧ n < values.length ∧
      ∀ value ∈ values, u.Provides (.string value) := by
  constructor
  · intro hn
    exact ⟨u.strings.map Prod.fst, h.values, h.length_eq ▸ hn,
      fun value hvalue => Assoc.isSome_get?_iff.mpr hvalue⟩
  · rintro ⟨values, hnodup, hn, hvalues⟩
    have hsub : values ⊆ u.strings.map Prod.fst :=
      fun value hvalue => Assoc.isSome_get?_iff.mp (hvalues value hvalue)
    exact hn.trans_le ((hnodup.subperm hsub).length_le.trans_eq h.length_eq)

/-- The declarations and the string constants of a module are those that were generated. -/
private theorem Sound.generates_iff (h : u.Sound G) (hnumbered : u.Numbered) :
    (∃ d ∈ u.module.definitions,
      d.name = name ∧ (d.kind = .external ∨ d.kind = .stringConstant)) ↔
        Demand.Generates u.Provides name := by
  constructor
  · rintro ⟨d, hd, rfl, hkind⟩
    cases h.issued d hd with
    | library f => exact .symbol hd
    | string hn bytes =>
      obtain ⟨values, hnodup, hlt, hvalues⟩ := hnumbered.lt_count_iff.mp hn
      exact .constant hnodup hlt hvalues
    | _ => simp [Definition.kind, ModuleDraft.wordVariable, arrayAlias] at hkind
  · intro hgenerates
    cases hgenerates with
    | symbol hf => exact ⟨_, hf, rfl, .inl rfl⟩
    | @constant n values hnodup hlt hvalues =>
      have hn := hnumbered.lt_count_iff.mpr ⟨values, hnodup, hlt, hvalues⟩
      obtain ⟨value, hvalue⟩ := hnumbered.exists_get? hn
      exact ⟨_, h.strings hvalue, rfl, .inr rfl⟩

end CompileUnit

/-- **When the entry function clashes**: only if its name is that of a declaration or a constant
that the program demands, and always then, unless a function was skipped. -/
theorem entry_clashes_iff (forms : List Expr) (options : CompileOptions) (output : CompileOutput)
    (h : compileProgram forms options = .ok output) :
    (output.module.Clashes options.entry → Demand.Generates (Demanded forms) options.entry) ∧
      (output.diagnostics = [] →
        (output.module.Clashes options.entry ↔
          Demand.Generates (Demanded forms) options.entry)) := by
  obtain ⟨calls, hcompiles⟩ := exists_compilesBy forms options
  rw [h] at hcompiles
  obtain ⟨top, -, hfunctions⟩ := hcompiles.functions
  obtain ⟨f, hf, hname, -⟩ := hcompiles.exists_function (hfunctions ▸ List.mem_cons_self)
  obtain ⟨G, u, hsound, hnumbered, hmodule, honly, hall⟩ := exists_unit_of_compiles h
  have hclashes : output.module.Clashes options.entry ↔
      Demand.Generates u.Provides options.entry := by
    rw [Module.Clashes, and_iff_right ⟨f, hf, hname⟩, hmodule]
    exact hsound.generates_iff hnumbered
  rw [hclashes]
  have hmp : Demand.Generates u.Provides options.entry →
      Demand.Generates (Demanded forms) options.entry :=
    fun hgenerates => hgenerates.mono (fun f => honly _) fun value => honly _
  refine ⟨hmp, fun hnone => ⟨hmp, fun hgenerates => ?_⟩⟩
  refine hgenerates.mono (fun f hf => ?_) fun value hvalue => ?_
  · simpa using hall hnone _ hf
  · simpa using hall hnone _ hvalue

/-- A program with a string at the top level, one in a function and one in a lambda of it. Another
one comes too late. -/
def scatteredStrings : List Expr :=
  [.define "f" (.lambda [] [.literal (.string "a"), .lambda [] [.literal (.string "b")]]),
    .ret (.literal (.string "c")), .literal (.string "d")]

theorem entry_clashes_iff_scattered : ∃ a b,
    compileProgram scatteredStrings ⟨"m", ".str2", .abort⟩ = .ok a ∧
      compileProgram scatteredStrings ⟨"m", ".str3", .abort⟩ = .ok b ∧
      a.module.Clashes ".str2" ∧ Demand.Generates (Demanded scatteredStrings) ".str2" ∧
      ¬ b.module.Clashes ".str3" ∧ ¬ Demand.Generates (Demanded scatteredStrings) ".str3" := by
  have hlast : (compileProgram scatteredStrings ⟨"m", ".str2", .abort⟩).toOption.map
      (fun output => (output.diagnostics, decide (output.module.Clashes ".str2"))) =
      some ([], true) := by
    decide +kernel
  have hnext : (compileProgram scatteredStrings ⟨"m", ".str3", .abort⟩).toOption.map
      (fun output => (output.diagnostics, decide (output.module.Clashes ".str3"))) =
      some ([], false) := by
    decide +kernel
  obtain ⟨a, ha, hpair⟩ := exists_ok_of_toOption hlast
  obtain ⟨hdiagnostics, hclash⟩ := Prod.mk.inj hpair
  obtain ⟨b, hb, hpair'⟩ := exists_ok_of_toOption hnext
  obtain ⟨hdiagnostics', hclash'⟩ := Prod.mk.inj hpair'
  have hclash := of_decide_eq_true hclash
  have hclash' := of_decide_eq_false hclash'
  exact ⟨a, b, ha, hb, hclash, (entry_clashes_iff _ _ a ha).1 hclash, hclash',
    fun hgenerates => hclash' (((entry_clashes_iff _ _ b hb).2 hdiagnostics').mpr hgenerates)⟩

/-- Reserved names are accepted for the entry function, and then there are two definitions of
them. -/
theorem reserved_entries_clash : ∃ a b,
    isLibrarySymbol "scm_cons" = true ∧ ".str".toList.head? = some '.' ∧
      compileProgram [.primitive (.library .cons) [.integer 1, .integer 2]]
        ⟨"module", "scm_cons", .abort⟩ = .ok a ∧ a.module.Clashes "scm_cons" ∧
      compileProgram [.literal (.string "a")] ⟨"module", ".str", .abort⟩ = .ok b ∧
        b.module.Clashes ".str" := by
  have hsymbol : (compileProgram [.primitive (.library .cons) [.integer 1, .integer 2]]
      ⟨"module", "scm_cons", .abort⟩).toOption.map
      (fun output => decide (output.module.Clashes "scm_cons")) = some true := by
    decide +kernel
  have hconstant : (compileProgram [.literal (.string "a")]
      ⟨"module", ".str", .abort⟩).toOption.map
      (fun output => decide (output.module.Clashes ".str")) = some true := by
    decide +kernel
  obtain ⟨a, ha, hclash⟩ := exists_ok_of_toOption hsymbol
  obtain ⟨b, hb, hclash'⟩ := exists_ok_of_toOption hconstant
  exact ⟨a, b, by decide, by decide, ha, of_decide_eq_true hclash, hb, of_decide_eq_true hclash'⟩

end WordScheme
