import Mathlib
import WordScheme.Proofs.Acceptance
import WordScheme.Proofs.FunctionAccount

/-!
# Functions come first in, first out

While a compilation is under way its module holds placeholders between the functions that have been
built: those of the top level come first, those of lambdas come in while the functions around them
are built, and each goes when its own function is done. The functions with a body are not affected
by this. Each call puts one more behind the others, or none if it fails (`built_record`), so in the
end they stand in the order of the calls: `CompilesBy.built`.

A program that compiles under `abort` leaves no placeholders. Together with the order of the calls
(`CompilesBy.functions`) and the names of lambdas (`CompilesBy.lifted_eq`) this gives the order of
all functions in the module: `functions_firstInFirstOut`.
-/

namespace WordScheme

open LowerState NameSupply

/-! ### Functions of the top level -/

/-- The lambda that an expression is. -/
def Expr.lambda? : Expr → Option Lambda
  | .lambda params body => some ⟨params, body⟩
  | _ => none

/-- The functions of the top level, in the order of their definitions. Only the first definition of
a name counts, and it need not be that of a function. -/
def firstFunctions : List Expr → List (Name × Lambda)
  | [] => []
  | .define name value :: forms =>
    (value.lambda?.map (name, ·)).toList ++ (firstFunctions forms).filter fun x => x.1 != name
  | _ :: forms => firstFunctions forms

namespace TopLevel

private theorem functions_define (t : TopLevel) (index : Nat) (name : Name) (value : Expr) :
    (t.define index name value).functions =
      t.functions ++ (value.lambda?.map (name, ·)).toList := by
  cases value with
  | lambda params body => rfl
  | _ => exact (List.append_nil _).symm

private theorem has_define (t : TopLevel) (index : Nat) (name : Name) (value : Expr)
    (other : Name) :
    (t.define index name value).globals.has other = (other == name || t.globals.has other) := by
  have hput : ∀ kind,
      (t.globals.put name kind).has other = (other == name || t.globals.has other) := by
    intro kind
    by_cases h : other = name
    · simp [Assoc.has, h]
    · rw [Assoc.has, Assoc.get?_put_of_ne _ _ h, beq_eq_false_iff_ne.mpr h]
      rfl
  rw [define.eq_def]
  split
  · exact hput _
  · exact hput _

/-- What is noted are the functions of the forms, without names that were defined before. -/
private theorem functions_collect {t top : TopLevel} {index : Nat} {forms : List Expr}
    (h : t.collect index forms = .ok top) :
    top.functions = t.functions ++ (firstFunctions forms).filter fun x => !t.globals.has x.1 := by
  induction forms generalizing t index with
  | nil =>
    cases h
    exact (List.append_nil _).symm
  | cons form forms ih =>
    by_cases hform : ∃ name value, form = .define name value
    · obtain ⟨name, value, rfl⟩ := hform
      rw [collect] at h
      rw [firstFunctions, List.filter_append, List.filter_filter]
      split_ifs at h with _ hold
      · -- the name is known, so neither this definition nor a later one counts
        rw [ih h]
        congr 1
        have hthis : ((value.lambda?.map (name, ·)).toList.filter
            fun x => !t.globals.has x.1) = [] := by
          cases value.lambda? <;> simp [hold]
        rw [hthis, List.nil_append]
        refine List.filter_congr fun x _ => ?_
        by_cases hx : x.1 = name
        · simp [hx, hold]
        · simp [hx]
      · rw [ih h, functions_define, List.append_assoc]
        congr 1
        rw [Bool.not_eq_true] at hold
        have hthis : ((value.lambda?.map (name, ·)).toList.filter
            fun x => !t.globals.has x.1) = (value.lambda?.map (name, ·)).toList := by
          cases value.lambda? <;> simp [hold]
        rw [hthis]
        congr 1
        refine List.filter_congr fun x _ => ?_
        rw [has_define, Bool.not_or, Bool.and_comm]
        rfl
    · have hother : ∀ name value, form = .define name value → False :=
        fun name value heq => hform ⟨name, value, heq⟩
      rw [collect] at h
      · rw [firstFunctions]
        · exact ih h
        · exact hother
      · exact hother

end TopLevel

/-- The functions that wait at first are those of the top level. -/
private theorem functions_topLevel {forms : List Expr} {options : CompileOptions} {top : TopLevel}
    (htop : topLevel forms options = .ok top) : top.functions = firstFunctions forms := by
  rw [TopLevel.functions_collect htop]
  exact (List.nil_append _).trans (List.filter_eq_self.mpr fun _ _ => rfl)

/-! ### Functions with a body -/

/-- The functions of a module that have a body. -/
def Module.built (m : Module) : List Function :=
  m.functions.filter fun f => !f.isPlaceholder

/-- The function that a call has built, if it has not failed. -/
def Call.built? (c : Call) : Option Function :=
  c.result.1.toOption.map FinishedFunction.function

/-- A finished function takes the place of a placeholder, at the end. -/
private theorem CompileUnit.Sound.built_install {G : Globals} {u : CompileUnit} (h : u.Sound G)
    {f g : Function} (hg : g ∈ u.module.finish.functions) (hname : g.name = f.name)
    (hplaceholder : g.isPlaceholder = true) (hbody : f.isPlaceholder = false) :
    (u.install f).module.finish.built = u.module.finish.built ++ [f] := by
  obtain ⟨d, hd, hfunction⟩ := List.mem_filterMap.mp hg
  rw [Definition.eq_function hfunction] at hd
  obtain ⟨before, after, hsplit, hinstall⟩ := h.definitions_install hd hname
  change ((u.install f).module.definitions.filterMap _).filter _ =
    (u.module.definitions.filterMap _).filter _ ++ [f]
  rw [hsplit, hinstall]
  simp [Definition.function?, hplaceholder, hbody]

/-- Placeholders add no function with a body. -/
private theorem built_of_functions {m m' : Module} (pending : List PendingFunction)
    (h : m'.functions = m.functions ++ pending.map PendingFunction.declared) :
    m'.built = m.built := by
  have hnone : (pending.map PendingFunction.declared).filter (fun f => !f.isPlaceholder) = [] := by
    rw [List.filter_eq_nil_iff]
    intro f hf
    obtain ⟨g, -, rfl⟩ := List.mem_map.mp hf
    simp [PendingFunction.declared, Function.isPlaceholder]
  rw [Module.built, h, List.filter_append, hnone, List.append_nil]
  rfl

section Record

variable {G : Globals} {p q : Progress} {policy : ErrorPolicy}

/-- **One call** puts its function behind those that have a body, or changes nothing about them. -/
theorem built_record {c : Call} {n : Nat} {t : LowerState} (hp : p.Sound G)
    (hbuilds : (start p.unit c.function.name c.function.lambda.params G).Builds n c.result t)
    (hdeclared : c.function.declared ∈ p.unit.module.finish.functions)
    (h : p.record policy c.function.name c.result = .ok q) :
    q.unit.module.finish.built = p.unit.module.finish.built ++ c.built?.toList := by
  have haccounted := (accounted_start hp.unit c.function.name c.function.lambda.params).moves
    hbuilds.moves
  have hlisted := listed_moves hp.unit.clear hbuilds.moves
  have hfits := Call.fits_of_builds hp.unit hbuilds
  obtain ⟨function, outcome, v⟩ := c
  obtain rfl : v = t.unit := hbuilds.unit
  obtain ⟨f, hf, rfl⟩ | ⟨e, he, -, rfl⟩ := Progress.record_cases h
  · cases hf
    have hbody : f.function.isPlaceholder = false :=
      List.isEmpty_eq_false_iff.mpr
        (FunctionDraft.blocks_ne_nil_of_finish (hbuilds.finish f rfl))
    have hmem : function.declared ∈ t.unit.module.finish.functions := by
      rw [hlisted.functions]
      exact List.mem_append_left _ hdeclared
    have hname : function.declared.name = f.function.name := hfits.name.symm
    change (t.unit.install f.function).module.finish.built = _
    rw [haccounted.sound.built_install hmem hname rfl hbody, built_of_functions _ hlisted.functions]
    rfl
  · cases he
    obtain ⟨-, kept, hdefinitions, hkept⟩ := haccounted.definitions_discard
    have hnone : kept.filterMap Definition.function? = [] :=
      List.filterMap_eq_nil_iff.mpr hkept
    change t.unit.discardLifted.2.module.finish.built = _
    rw [Module.built, ModuleDraft.functions_of_append hdefinitions, hnone, List.append_nil]
    exact (List.append_nil _).symm

/-- **The queue**: the functions that it builds stand in the order of its calls. -/
theorem Progress.Works.built {calls : List Call} (h : p.Works policy calls (.ok q))
    (hp : p.Sound G) {done : List Function} (hfunctions : p.unit.module.finish.functions.Perm
      (done ++ p.queue.map PendingFunction.declared)) :
    q.unit.module.finish.built = p.unit.module.finish.built ++ calls.filterMap Call.built? := by
  generalize hresult : (Except.ok q : Except Diagnostic Progress) = result at h
  induction h generalizing done with
  | done =>
    cases hresult
    exact (List.append_nil _).symm
  | stop => cases hresult
  | @next p p' f queue calls result hqueue hrecord _ ih =>
    obtain ⟨hrest, -, hdeclared, t, hbuilds⟩ := hp.next hqueue
    rw [hqueue, List.map_cons] at hfunctions
    have hstep := functions_record (c := ⟨f, lowerFunction p.unit f⟩) hrest hbuilds hfunctions
      hrecord
    rw [List.append_cons] at hstep
    have hbuilt := built_record (c := ⟨f, lowerFunction p.unit f⟩) hrest hbuilds
      (hfunctions.mem_iff.mpr (List.mem_append_right _ List.mem_cons_self)) hrecord
    rw [ih (hrest.record hbuilds hdeclared hrecord).1 hstep hresult, hbuilt, List.append_assoc]
    congr 1
    cases hcall : Call.built? ⟨f, lowerFunction p.unit f⟩ <;> simp [hcall]

end Record

/-! ### Whole compilations -/

namespace CompilesBy

variable {forms : List Expr} {options : CompileOptions} {calls : List Call}
  {output : CompileOutput}

/-- **The functions with a body stand in the order of the calls**, under either policy. -/
theorem built (h : CompilesBy forms options calls (.ok output)) :
    output.module.built = calls.filterMap Call.built? := by
  cases h with
  | @finishes top begun done calls htop hbegun hworks =>
    obtain ⟨hsound, hentry⟩ := TopLevel.sound_topLevel htop
    obtain ⟨t, hbuilds⟩ := lowerEntry_builds top.unit forms top.functionForms top.globals
    have hfirst := TopLevel.functions_topLevel htop
    rw [hentry] at hbuilds
    have hbuilt := built_record (c := top.entryCall forms options) hsound.progress hbuilds
      (hfirst ▸ List.mem_cons_self) hbegun
    have hnone : top.unit.module.finish.built = [] :=
      built_of_functions (m := ⟨"", []⟩) ((top.entryCall forms options).function :: top.pending)
        hfirst
    rw [hnone, List.nil_append] at hbuilt
    change done.unit.module.finish.built = _
    rw [hworks.built (hsound.started hbegun).1 (TopLevel.functions_started htop hbegun), hbuilt]
    cases hcall : (top.entryCall forms options).built? <;> simp [hcall]

/-- If nothing is reported, every call has built its function. -/
private theorem functions_eq (h : CompilesBy forms options calls (.ok output))
    (hnone : output.diagnostics = []) :
    output.module.functions = calls.map Call.outcome ∧
      calls.flatMap Call.lifted = calls.flatMap fun c => c.found.map PendingFunction.name := by
  obtain ⟨hperm, hfits⟩ := h.functions_perm
  have hcalls : ∀ c ∈ calls, c.diagnostic? = none := by
    rw [h.diagnostics] at hnone
    exact List.filterMap_eq_nil_iff.mp hnone
  refine ⟨?_, ?_⟩
  · -- every function has a body, so none is left out of those that have
    have hall : output.module.built = output.module.functions := by
      refine List.filter_eq_self.mpr fun f hf => ?_
      obtain ⟨c, hc, rfl⟩ := List.mem_map.mp (hperm.mem_iff.mp hf)
      have hblocks : c.outcome.blocks ≠ [] := by
        rw [Ne, (hfits c hc).blocks, hcalls c hc]
        exact Bool.false_ne_true
      rw [Function.isPlaceholder, List.isEmpty_eq_false_iff.mpr hblocks]
      rfl
    have hbuilt : ∀ c ∈ calls, c.built? = some c.outcome := by
      intro c hc
      have hnone := hcalls c hc
      rw [Call.diagnostic?] at hnone
      rw [Call.built?, Call.outcome]
      cases hresult : c.result.1 with
      | ok f => rfl
      | error e =>
        rw [hresult] at hnone
        cases hnone
    rw [← hall, h.built, List.filterMap_congr hbuilt]
    exact congrFun List.filterMap_eq_map calls
  · exact List.flatMap_congr fun c hc => (hfits c hc).lifted (hcalls c hc)

end CompilesBy

/-- **Functions come first in, first out.** In the module of a program that compiles under `abort`
the functions stand in the order in which they were built. First is the entry function; then come
those of the top level, in the order of their first definitions; then all lambdas, in the order in
which they got their names. These names are the first of `lambda`, `lambda1`, `lambda2`, … without
that of the entry function and those of the top level. -/
theorem functions_firstInFirstOut (forms : List Expr) (options : CompileOptions)
    (output : CompileOutput) (hpolicy : options.policy = .abort)
    (h : compileProgram forms options = .ok output) :
    ∃ calls, CompilesBy forms options calls (.ok output) ∧
      output.module.functions = calls.map Call.outcome ∧
      (calls.map fun c => (c.function.name, c.function.lambda)) =
        (options.entry, ⟨[], forms⟩) ::
          (firstFunctions forms ++ calls.flatMap fun c => c.found.map fun g => (g.name, g.lambda)) ∧
      output.module.functions.map Function.name =
        options.entry :: ((firstFunctions forms).map Prod.fst ++ calls.flatMap Call.lifted) ∧
      ∃ n, calls.flatMap Call.lifted =
        untaken (fun name => name == options.entry || (firstDefinition? name forms).isSome)
          "lambda" n := by
  obtain ⟨calls, hcalls⟩ := exists_compilesBy forms options
  rw [h] at hcalls
  obtain ⟨hfunctions, hlifted⟩ :=
    hcalls.functions_eq (diagnostics_eq_nil_of_abort hpolicy h)
  obtain ⟨top, htop, horder⟩ := hcalls.functions
  have hpairs : (calls.map fun c => (c.function.name, c.function.lambda)) =
      (options.entry, ⟨[], forms⟩) ::
        (firstFunctions forms ++
          calls.flatMap fun c => c.found.map fun g => (g.name, g.lambda)) := by
    have hmap := congrArg (List.map fun g : PendingFunction => (g.name, g.lambda)) horder
    rw [List.map_map, List.map_cons, List.map_append, TopLevel.pending, List.map_map,
      functions_topLevel htop, List.map_flatMap] at hmap
    rw [← List.map_id (firstFunctions forms)]
    exact hmap
  refine ⟨calls, hcalls, hfunctions, hpairs, ?_, ?_⟩
  · have hnames : calls.map (fun c => c.outcome.name) = calls.map fun c => c.function.name :=
      List.map_congr_left fun c hc => (hcalls.functions_perm.2 c hc).name
    have hfirst := congrArg (List.map Prod.fst) hpairs
    rw [List.map_map, List.map_cons, List.map_append, List.map_flatMap] at hfirst
    rw [hfunctions, List.map_map, hlifted]
    refine hnames.trans (hfirst.trans ?_)
    simp only [List.map_map]
    rfl
  · obtain ⟨n, hn⟩ := hcalls.lifted_eq htop
    have htaken : isTaken options.entry top.globals =
        fun name => name == options.entry || (firstDefinition? name forms).isSome := by
      funext name
      rw [isTaken, Assoc.has, get?_topLevel htop, topKind?, Option.isSome_map]
    exact ⟨n, htaken ▸ hn⟩

/-- Two functions with lambdas inside, of which the second has one within another. The lambda of the
entry function is named first. One name is taken by a variable, and one may be by the entry
function. -/
def nestedLambdas : List Expr :=
  [.call (.lambda ["z"] [.var "z"]) [.integer 1],
    .define "f" (.lambda ["x"] [.lambda ["y"] [.var "y"]]),
    .define "lambda" (.integer 2),
    .define "g" (.lambda [] [.letIn [("a", .integer 3)] [.lambda ["b"] [.var "b"]]])]

theorem functions_firstInFirstOut_nested : ∃ output,
    compileProgram nestedLambdas ⟨"m", "lambda2", .abort⟩ = .ok output ∧
      output.module.functions.map Function.name =
        ["lambda2", "f", "g", "lambda1", "lambda3", "lambda4", "lambda5"] ∧
      ∃ calls, CompilesBy nestedLambdas ⟨"m", "lambda2", .abort⟩ calls (.ok output) ∧
        output.module.functions = calls.map Call.outcome ∧
        ["lambda2", "f", "g", "lambda1", "lambda3", "lambda4", "lambda5"] =
          "lambda2" :: ((firstFunctions nestedLambdas).map Prod.fst ++
            calls.flatMap Call.lifted) := by
  have houtput : (compileProgram nestedLambdas ⟨"m", "lambda2", .abort⟩).toOption.map
      (fun output => output.module.functions.map Function.name) =
      some ["lambda2", "f", "g", "lambda1", "lambda3", "lambda4", "lambda5"] := by
    decide +kernel
  obtain ⟨output, hok, hnames⟩ := exists_ok_of_toOption houtput
  obtain ⟨calls, hcalls, hfunctions, -, horder, -⟩ :=
    functions_firstInFirstOut nestedLambdas ⟨"m", "lambda2", .abort⟩ output rfl hok
  exact ⟨output, hok, hnames, calls, hcalls, hfunctions, hnames ▸ horder⟩

end WordScheme
