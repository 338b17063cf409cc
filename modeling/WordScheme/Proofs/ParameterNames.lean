import Mathlib
import WordScheme.Proofs.Dominance
import WordScheme.Proofs.EntryClashes
import WordScheme.Proofs.UniquePrinting

/-!
# Parameters that share a name

Blocks, registers and definitions are given names that nothing else has. Parameters keep the names
that the program gives them, and neither reading nor lowering compares these with each other. If a
lambda or a `let` repeats a name, its function has two parameters of that name, which are printed
alike, and code that reads one of them may as well mean the other.

What a function needs so that its parameters can be told apart is `Function.DistinctParams`. Code
reads no parameters but those of its function, so this depends on the names alone
(`Function.distinctParams_iff`). The functions of a module have the parameters of the lambdas that
its program demands (`exists_lambda_of_mem`), and unless functions were skipped each of these
lambdas has its function (`exists_function_of_demanded`). So the parameters are distinct exactly if
no demanded lambda repeats a name: `parameters_distinct_iff`.
-/

namespace WordScheme

/-! ### Functions -/

namespace Function

variable {f : Function}

/-- The names of the parameters. -/
def paramNames (f : Function) : List Name :=
  f.params.map Param.name

/-- The parameters can be told apart: by their names, by the names that are printed, and where code
reads one of them. -/
structure DistinctParams (f : Function) : Prop where
  names : f.paramNames.Nodup
  printed : ∀ colours, (f.paramNames.map fun name => (paramText name).shown colours).Nodup
  references : ∀ b ∈ f.blocks, ∀ name ty, .param name ty ∈ b.operands →
    ∃! i : Nat, f.paramNames[i]? = some name

/-- Code reads only parameters that the function has. -/
def ReadsOwnParams (f : Function) : Prop :=
  ∀ b ∈ f.blocks, ∀ name ty, .param name ty ∈ b.operands → name ∈ f.paramNames

private theorem paramNames_of_wordParams {params : List Name} (h : f.params = wordParams params) :
    f.paramNames = params := by
  rw [paramNames, h, wordParams, List.map_map]
  exact List.map_id params

/-- Parameters are printed differently. -/
private theorem paramText_injective (colours : Bool) :
    Function.Injective fun name => (paramText name).shown colours := by
  intro a b h
  have hname := shown_sigilName_injective .yellow (by decide) colours h
  rwa [String.append_right_inj] at hname

/-- The parameters of a function are distinct in its text exactly when their names are. -/
private theorem distinctParams_iff (h : f.ReadsOwnParams) :
    f.DistinctParams ↔ f.paramNames.Nodup := by
  refine ⟨DistinctParams.names, fun hnodup => ⟨hnodup, fun colours => ?_, ?_⟩⟩
  · exact hnodup.map (paramText_injective colours)
  · intro b hb name ty ho
    obtain ⟨i, hi⟩ := List.mem_iff_getElem?.mp (h b hb name ty ho)
    refine ⟨i, hi, fun j hj => ?_⟩
    have hlt := (List.getElem?_eq_some_iff.mp hj).1
    exact (List.getElem?_inj hlt hnodup).mp (hj.trans hi.symm)

end Function

/-! ### Calls -/

namespace Progress

variable {policy : ErrorPolicy} {p q : Progress}

/-- Every call builds a function that waited, with the unit of that time. -/
private theorem Works.reached {calls : List Call} (h : p.Works policy calls (.ok q)) :
    ∀ c ∈ calls, ∃ r : Progress, Relation.ReflTransGen (Advances policy) p r ∧
      c.function ∈ r.queue ∧ c.result = lowerFunction r.unit c.function := by
  generalize hresult : (Except.ok q : Except Diagnostic Progress) = result at h
  induction h with
  | done => exact fun c hc => absurd hc List.not_mem_nil
  | stop => cases hresult
  | @next p p' f queue calls result hqueue hrecord _ ih =>
    refine List.forall_mem_cons.mpr ⟨⟨p, .refl, ?_, rfl⟩, fun c hc => ?_⟩
    · rw [hqueue]
      exact List.mem_cons_self
    · obtain ⟨r, hr, hc⟩ := ih hresult c hc
      exact ⟨r, .head (.next hqueue hrecord) hr, hc⟩

end Progress

/-- A finished function reads no parameters but its own. -/
private theorem Site.Finishes.readsOwnParams {name : Name} {params : List Name} {globals : Globals}
    {done : FinishedFunction} {q : Site} (h : (Site.start name params globals).Finishes done q) :
    done.function.ReadsOwnParams := by
  obtain ⟨avail, ha⟩ := (Site.available_start name params globals).steps
    (Site.sound_start name params globals) h.steps
  exact (h.singleAssignment ha).params

/-- What a call leaves reads only its own parameters, if what it has built does. -/
private theorem Call.readsOwnParams {c : Call}
    (h : ∀ done, c.result.1 = .ok done → done.function.ReadsOwnParams) :
    c.outcome.ReadsOwnParams := by
  rw [outcome]
  split
  · next done hdone => exact h done hdone
  · -- a placeholder reads nothing
    intro b hb
    cases hb

/-! ### Programs -/

section Programs

variable {forms : List Expr} {options : CompileOptions} {output : CompileOutput}

/-- **The functions of a module have the parameters of lambdas that are demanded**, but for the
entry function, which has none. -/
theorem exists_lambda_of_mem (h : compileProgram forms options = .ok output) {f : Function}
    (hf : f ∈ output.module.functions) : f.ReadsOwnParams ∧
      (f.paramNames = [] ∨ ∃ l, Demanded forms (.function l) ∧ f.paramNames = l.params) := by
  obtain ⟨calls, hcompiles⟩ := exists_compilesBy forms options
  rw [h] at hcompiles
  obtain ⟨hperm, hfits⟩ := hcompiles.functions_perm
  obtain ⟨c, hc, rfl⟩ := List.mem_map.mp (hperm.mem_iff.mp hf)
  rw [Function.paramNames_of_wordParams (hfits c hc).params]
  cases hcompiles with
  | @finishes top begun done calls htop hbegun hworks =>
    rcases List.mem_cons.mp hc with rfl | hc
    · refine ⟨Call.readsOwnParams fun finished hok => ?_, .inl rfl⟩
      have houtcome := lowerEntry_outcome top.unit forms top.functionForms top.globals
      rw [show (lowerEntry top.unit forms top.functionForms top.globals).1 = _ from hok] at houtcome
      obtain ⟨q, hq⟩ := houtcome
      exact hq.readsOwnParams
    · obtain ⟨r, hr, hqueue, hresult⟩ := hworks.reached c hc
      refine ⟨Call.readsOwnParams fun finished hok => ?_, .inr ⟨_, ?_, rfl⟩⟩
      · have houtcome := lowerFunction_outcome r.unit c.function
        rw [← hresult, hok] at houtcome
        obtain ⟨q, hq⟩ := houtcome
        exact hq.readsOwnParams
      · exact demanded_of_provides htop hbegun hr _ (.inr ⟨_, hqueue, rfl⟩)

/-- **Every lambda that is demanded has its function**, unless functions were skipped. -/
theorem exists_function_of_demanded (h : compileProgram forms options = .ok output)
    (hnone : output.diagnostics = []) {l : Lambda} (hl : Demanded forms (.function l)) :
    ∃ f ∈ output.module.functions, f.paramNames = l.params := by
  obtain ⟨calls, hcompiles⟩ := exists_compilesBy forms options
  rw [h] at hcompiles
  have hnames := fun g hg => hcompiles.exists_function (g := g) hg
  cases hcompiles with
  | @finishes top begun done calls htop hbegun hworks =>
    obtain hfalse | ⟨c, hc, heq⟩ := provides_of_demanded htop hbegun hworks hnone hl
    · exact hfalse.elim
    · cases heq
      obtain ⟨f, hf, -, hparams⟩ :=
        hnames c.function (List.mem_map_of_mem (List.mem_cons_of_mem _ hc))
      exact ⟨f, hf, Function.paramNames_of_wordParams hparams⟩

end Programs

/-- A text that is compiled is read as a program that is. -/
private theorem exists_program_of_compileText {text : String} {options : CompileOptions}
    {output : CompileOutput} (h : compileText text options = .ok output) :
    ∃ forms, readProgram text = .ok forms ∧ compileProgram forms options = .ok output := by
  rw [compileText] at h
  cases hread : readProgram text with
  | error e =>
    rw [hread] at h
    cases h
  | ok forms =>
    rw [hread] at h
    change (compileProgram forms options).mapError SourceError.compile = .ok output at h
    refine ⟨forms, rfl, ?_⟩
    cases hcompile : compileProgram forms options with
    | error d =>
      rw [hcompile] at h
      cases h
    | ok output' =>
      rw [hcompile] at h
      cases h
      rfl

/-- **When the parameters of all functions can be told apart.** Those of one function can be exactly
if their names are distinct, and the names are those of a lambda that is demanded. The functions of
the top level are always there, and unless a function was skipped, so are the others: then a lambda
that repeats a name, wherever it stands, makes a function whose parameters cannot be told apart. -/
theorem parameters_distinct_iff (text : String) (options : CompileOptions) (output : CompileOutput)
    (h : compileText text options = .ok output) :
    ∃ forms, readProgram text = .ok forms ∧
      (∀ f ∈ output.module.functions, (f.DistinctParams ↔ f.paramNames.Nodup) ∧
        (f.paramNames = [] ∨ ∃ l, Demanded forms (.function l) ∧ f.paramNames = l.params)) ∧
      (∀ name params body, firstDefinition? name forms = some (.lambda params body) →
        ∃ f ∈ output.module.functions, f.name = name ∧ f.paramNames = params) ∧
      (options.policy = .abort ∨ output.diagnostics = [] →
        ((∀ f ∈ output.module.functions, f.DistinctParams) ↔
          ∀ l, Demanded forms (.function l) → l.params.Nodup)) := by
  obtain ⟨forms, hread, hcompile⟩ := exists_program_of_compileText h
  have hdistinct : ∀ f ∈ output.module.functions, (f.DistinctParams ↔ f.paramNames.Nodup) :=
    fun f hf => Function.distinctParams_iff (exists_lambda_of_mem hcompile hf).1
  refine ⟨forms, hread, fun f hf => ⟨hdistinct f hf, (exists_lambda_of_mem hcompile hf).2⟩, ?_, ?_⟩
  · intro name params body hfirst
    obtain ⟨calls, hcompiles⟩ := exists_compilesBy forms options
    rw [hcompile] at hcompiles
    obtain ⟨f, hf, hname, hparams⟩ := hcompiles.exists_function_of_firstDefinition? hfirst
    exact ⟨f, hf, hname, Function.paramNames_of_wordParams hparams⟩
  · intro hnone
    have hnone : output.diagnostics = [] :=
      hnone.elim (fun hpolicy => diagnostics_eq_nil_of_abort hpolicy hcompile) id
    refine ⟨fun hall l hl => ?_, fun hall f hf => (hdistinct f hf).mpr ?_⟩
    · obtain ⟨f, hf, hnames⟩ := exists_function_of_demanded hcompile hnone hl
      rw [← hnames]
      exact (hall f hf).names
    · rcases (exists_lambda_of_mem hcompile hf).2 with hnil | ⟨l, hl, hnames⟩
      · rw [hnil]
        exact List.nodup_nil
      · rw [hnames]
        exact hall l hl

/-- A `let` within a function that repeats a name. -/
def repeatingLet : String :=
  "(define (f x) (let ((y x) (y 1)) y))"

theorem parameters_distinct_iff_let : ∃ output,
    compileText repeatingLet ⟨"m", "main", .abort⟩ = .ok output ∧
      output.module.functions.map (fun f => (f.name, f.paramNames)) =
        [("main", []), ("f", ["x"]), ("lambda", ["y", "y"])] ∧
      ¬∀ f ∈ output.module.functions, f.DistinctParams := by
  have hforms : readProgram repeatingLet = .ok [.define "f" (.lambda ["x"]
      [.letIn [("y", .var "x"), ("y", .integer 1)] [.var "y"]])] := by
    cbv
  have houtput : (compileText repeatingLet ⟨"m", "main", .abort⟩).toOption.map
      (fun output => output.module.functions.map fun f => (f.name, f.paramNames)) =
      some [("main", []), ("f", ["x"]), ("lambda", ["y", "y"])] := by
    cbv
  obtain ⟨output, hok, hfunctions⟩ := exists_ok_of_toOption houtput
  obtain ⟨forms, hread, -, -, hiff⟩ := parameters_distinct_iff _ _ output hok
  cases hforms.symm.trans hread
  refine ⟨output, hok, hfunctions, fun hall => ?_⟩
  have hfirst : firstDefinition? "f" [.define "f" (.lambda ["x"]
      [.letIn [("y", .var "x"), ("y", .integer 1)] [.var "y"]])] = some (.lambda ["x"]
        [.letIn [("y", .var "x"), ("y", .integer 1)] [.var "y"]]) := rfl
  exact absurd ((hiff (.inl rfl)).mp hall ⟨["y", "y"], [.var "y"]⟩
    (.inner (.defined hfirst) (by simp [Lambda.demands, demandsChain, Expr.demands]))) (by decide)

/-- Two parameters of one name are accepted and printed alike. -/
theorem repeated_parameter_printed : ∃ output,
    compileText "(define (f x x) x)" ⟨"m", "main", .abort⟩ = .ok output ∧
      output.module.functions.map (fun f => (f.paramNames, f.text.shown false)) =
        [([], "define i64 @main() \x7b\nentry:\n  ret i64 0\n\x7d\n"),
          (["x", "x"],
            "define i64 @f(i64 %arg.x, i64 %arg.x) \x7b\nentry:\n  ret i64 %arg.x\n\x7d\n")] := by
  refine exists_ok_of_toOption ?_
  cbv

end WordScheme
