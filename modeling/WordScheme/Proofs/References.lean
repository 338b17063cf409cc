import Mathlib
import WordScheme.Proofs.CompileRun
import WordScheme.Proofs.Resolution

/-!
# No reference dangles

In the module of every compilation, with functions skipped on the way or not, all that function
bodies refer to is there: `Module.Resolves`. The invariant is `Progress.Sound`. It holds once the
top level has been noted (`TopLevel.Sound`), and taking in the result of a function keeps it: one
that was built takes the place of its placeholder, with which it shares its header, and one that
failed leaves no trace that could be missed.
-/

namespace WordScheme

open NameSupply LowerState

/-! ### The top level -/

namespace TopLevel

/-- What has been noted of the top level is in the module. -/
structure Sound (t : TopLevel) : Prop where
  unit : t.unit.Sound t.globals
  lambdaNames : t.unit.lambdaNames.count "lambda" = 0
  unreserved : ∀ {name}, t.globals.has name = true → isReserved t.unit.entry name = false
  globals : t.globals.Resolve t.unit.module.definitions
  functions : ∀ x ∈ t.functions, Declared t.unit.module.definitions x.1 x.2.params
  entry : Declared t.unit.module.definitions t.unit.entry []
  plain : ∀ d ∈ t.unit.module.definitions, d.isPlain = true

variable {t u : TopLevel} {name : Name}

/-- A name that is neither reserved nor noted is that of no function and no variable. -/
theorem Sound.name_ne (h : t.Sound) (hreserved : isReserved t.unit.entry name = false)
    (hnew : t.globals.has name = false) {d : Definition} (hd : d ∈ t.unit.module.definitions)
    (hkind : d.kind = .function ∨ d.kind = .globalVariable) : d.name ≠ name := by
  rintro rfl
  rw [Assoc.has] at hnew
  cases h.unit.issued d hd with
  | entry heq =>
    rw [Definition.name, heq] at hreserved
    simp [isReserved] at hreserved
  | globalFunction hget =>
    rw [Definition.name, hget] at hnew
    cases hnew
  | globalVar hget =>
    rw [ModuleDraft.wordVariable, Definition.name, hget] at hnew
    cases hnew
  | lambda _ hn =>
    rw [h.lambdaNames] at hn
    cases hn
  | _ => rcases hkind with hkind | hkind <;> cases hkind

/-- A unit that has no lambdas yet may get another top level name. -/
private theorem sound_put {G : Globals} {v : CompileUnit} (h : v.Sound G)
    (hlambdas : v.lambdaNames.count "lambda" = 0) (kind : GlobalKind) (hnew : G.has name = false) :
    v.Sound (G.put name kind) := by
  have hput : ∀ {other kind'}, G.get? other = some kind' →
      (G.put name kind).get? other = some kind' := by
    intro other kind' hget
    rw [Assoc.get?_put_of_ne, hget]
    rintro rfl
    rw [Assoc.has, hget] at hnew
    cases hnew
  refine { h with issued := fun d hd => ?_ }
  cases h.issued d hd with
  | entry heq => exact .entry heq
  | globalFunction hget => exact .globalFunction (hput hget)
  | lambda _ hn =>
    rw [hlambdas] at hn
    cases hn
  | globalVar hget => exact .globalVar (hput hget)
  | library f => exact .library f
  | array length => exact .array length
  | string hn bytes => exact .string hn bytes

/-- The definition that comes with a new top level name. -/
inductive Introduces (name : Name) : GlobalKind → Definition → Prop
  | function (params : List Name) :
      Introduces name (.function params.length) (ModuleDraft.placeholder name params)
  | var : Introduces name .var (ModuleDraft.wordVariable name)

variable {kind : GlobalKind} {d : Definition}

/-- What a form introduces has no code yet. -/
theorem Introduces.isPlain (h : Introduces name kind d) : d.isPlain = true := by
  cases h <;> rfl

theorem Introduces.name_eq (h : Introduces name kind d) : d.name = name := by
  cases h <;> rfl

theorem Introduces.kind_eq (h : Introduces name kind d) :
    d.kind = .function ∨ d.kind = .globalVariable := by
  cases h with
  | function => exact .inl rfl
  | var => exact .inr rfl

/-- What a form introduces has an origin at the top level. -/
private theorem Introduces.issued (h : Introduces name kind d) (G : Globals) (v : CompileUnit) :
    v.Issued (G.put name kind) d := by
  cases h with
  | function => exact .globalFunction (Assoc.get?_put_self _ _ _)
  | var => exact .globalVar (Assoc.get?_put_self _ _ _)

/-- Top level names are still defined when another one is introduced. -/
private theorem Introduces.resolve (h : Introduces name kind d) {G : Globals} {ds : List Definition}
    (hG : G.Resolve ds) (hd : d ∈ ds) : Globals.Resolve (G.put name kind) ds := by
  have hget : ∀ {other kind'}, (G.put name kind).get? other = some kind' →
      (other = name ∧ kind = kind') ∨ G.get? other = some kind' := by
    intro other kind' hput
    by_cases hother : other = name
    · subst hother
      rw [Assoc.get?_put_self] at hput
      exact .inl ⟨rfl, Option.some.inj hput⟩
    · rw [Assoc.get?_put_of_ne _ _ hother] at hput
      exact .inr hput
  refine ⟨fun hvar => ?_, fun hfunction => ?_⟩
  · rcases hget hvar with ⟨rfl, rfl⟩ | hold
    · cases h
      exact hd
    · exact hG.vars hold
  · rcases hget hfunction with ⟨rfl, rfl⟩ | hold
    · cases h
      exact Declared.declares ⟨_, hd, rfl⟩
    · exact hG.functions hold

/-- The definition of a new name is noted. -/
private theorem Sound.introduce (h : t.Sound) (hreserved : isReserved t.unit.entry name = false)
    (hnew : t.globals.has name = false) (hd : Introduces name kind d)
    {functions : List (Name × Lambda)} {functionForms : List Nat}
    (hfunctions : ∀ x ∈ functions,
      x ∈ t.functions ∨ Declared (t.unit.module.ensure d).definitions x.1 x.2.params) :
    Sound ⟨t.unit.ensure d, t.globals.put name kind, functions, functionForms⟩ := by
  have hold : Covers t.unit.module.definitions (t.unit.module.ensure d).definitions :=
    covers_of_subset (t.unit.module.prefix_ensure d).subset
  refine ⟨?_, h.lambdaNames, fun {other} hhas => ?_, ?_, fun x hx => ?_, h.entry.covers hold,
    fun e he => ?_⟩
  · have hsound := sound_put h.unit h.lambdaNames kind hnew
    refine hsound.ensure (hd.issued _ _) hd.isPlain fun e he hkey => ?_
    refine absurd ((congrArg Prod.snd hkey).trans hd.name_eq) (h.name_ne hreserved hnew he ?_)
    rw [show e.kind = d.kind from congrArg Prod.fst hkey]
    exact hd.kind_eq
  · by_cases hother : other = name
    · exact hother ▸ hreserved
    · rw [Assoc.has, Assoc.get?_put_of_ne _ _ hother] at hhas
      exact h.unreserved hhas
  · exact hd.resolve (h.globals.covers hold) (ModuleDraft.mem_ensure hd.isPlain)
  · rcases hfunctions x hx with hx | hx
    · exact (h.functions x hx).covers hold
    · exact hx
  · rcases ModuleDraft.mem_or_eq_of_mem_ensure he with he | rfl
    · exact h.plain e he
    · exact hd.isPlain

/-- A form keeps the top level in order. -/
theorem Sound.notes (h : t.Sound) {index : Nat} {form : Expr} (hnotes : t.Notes index form u) :
    u.Sound ∧ u.unit.entry = t.unit.entry := by
  cases hnotes with
  | skip => exact ⟨h, rfl⟩
  | @function name params body hreserved hnew =>
    refine ⟨h.introduce hreserved hnew (.function params) fun x hx => ?_, rfl⟩
    rcases List.mem_append.mp hx with hx | hx
    · exact .inl hx
    · obtain rfl := List.mem_singleton.mp hx
      exact .inr ⟨_, ModuleDraft.mem_ensure rfl, rfl⟩
  | var hreserved hnew =>
    exact ⟨h.introduce hreserved hnew .var fun x hx => .inl hx, rfl⟩

/-- The forms of a program keep the top level in order. -/
private theorem Sound.collect (h : t.Sound) {index : Nat} {forms : List Expr}
    (hcollect : t.collect index forms = .ok u) : u.Sound ∧ u.unit.entry = t.unit.entry := by
  induction forms generalizing t index with
  | nil =>
    cases hcollect
    exact ⟨h, rfl⟩
  | cons form forms ih =>
    obtain ⟨v, hnotes, hrest⟩ := collect_cons hcollect
    obtain ⟨hv, hentry⟩ := h.notes hnotes
    obtain ⟨hu, hentry'⟩ := ih hv hrest
    exact ⟨hu, hentry'.trans hentry⟩

/-- Before the first form there is the entry function, still without code. -/
theorem sound_start (moduleName : String) (entry : Name) :
    Sound ⟨(CompileUnit.start moduleName entry).ensure (ModuleDraft.placeholder entry []),
      [], [], []⟩ where
  unit := by
    have hstart : (CompileUnit.start moduleName entry).Sound [] :=
      ⟨ModuleDraft.indexed_empty moduleName, positive_empty, positive_empty,
        fun _ hd => (nomatch hd), List.nodup_nil, fun hv => (nomatch hv)⟩
    exact hstart.ensure (.entry rfl) rfl fun _ he => nomatch he
  lambdaNames := rfl
  unreserved := fun h => nomatch h
  globals := ⟨fun h => (nomatch h), fun h => (nomatch h)⟩
  functions := fun _ hx => nomatch hx
  entry := ⟨_, ModuleDraft.mem_ensure rfl, rfl⟩
  plain := by
    intro d hd
    rcases ModuleDraft.mem_or_eq_of_mem_ensure hd with hd | rfl
    · cases hd
    · rfl

/-- The top level of a program is in order. -/
theorem sound_topLevel {forms : List Expr} {options : CompileOptions} {top : TopLevel}
    (h : topLevel forms options = .ok top) : top.Sound ∧ top.unit.entry = options.entry :=
  (sound_start options.moduleName options.entry).collect h

end TopLevel

/-! ### The queue -/

namespace Progress

/-- A compilation with the given top level names is in order: all references resolve, and each
function that waits is declared. -/
structure Sound (G : Globals) (p : Progress) : Prop where
  unit : p.unit.Sound G
  globals : G.Resolve p.unit.module.definitions
  bodies : ∀ {f}, .function f ∈ p.unit.module.definitions → f.Resolves p.unit.module.definitions
  queue : ∀ g ∈ p.queue, g.globals = G ∧ Declared p.unit.module.definitions g.name g.lambda.params

variable {G : Globals} {p q : Progress} {name : Name} {params : List Name} {n : Nat}
  {t : LowerState}

/-- A function that was built takes the place of its placeholder. -/
private theorem Sound.install (hp : p.Sound G) {f : FinishedFunction} {v : CompileUnit}
    (hbuilds : (start p.unit name params G).Builds n (.ok f, v) t)
    (hdeclared : Declared p.unit.module.definitions name params) :
    Sound G { p with unit := v.install f.function, queue := p.queue ++ f.pending } := by
  obtain rfl : v = t.unit := hbuilds.unit
  obtain ⟨hunit, ⟨added, hdefinitions, -, hplain⟩, hpending⟩ :=
    (accounted_start hp.unit name params).moves hbuilds.moves
  rw [show t.draft.globals = G from hbuilds.moves.grows.globals] at hunit hpending
  have hold : Covers p.unit.module.definitions t.unit.module.definitions :=
    covers_of_subset (hdefinitions ▸ List.subset_append_left _ _)
  have hglobals := hp.globals.covers hold
  have hbody := hbuilds.resolves rfl hunit hglobals
  have hheader := hbuilds.header_eq rfl
  obtain ⟨d, hd, hd'⟩ := hdeclared.covers hold
  obtain ⟨g, rfl, hname, -, -⟩ := Definition.exists_function_of_header (hd'.trans hheader.symm)
  obtain ⟨before, after, hsplit, hinstall⟩ := hunit.definitions_install hd hname
  have hrest : before ++ after ⊆ t.unit.module.definitions := by
    rw [hsplit]
    exact ((List.sublist_cons_self _ _).append_left before).subset
  have hcovers : Covers t.unit.module.definitions
      (t.unit.install f.function).module.definitions := by
    rw [hsplit, hinstall]
    exact covers_replace (hheader.trans hd'.symm)
  refine ⟨hunit.install hd hname, hglobals.covers hcovers, fun {h} hh => ?_, fun g' hg' => ?_⟩
  · change Definition.function h ∈ (t.unit.install f.function).module.definitions at hh
    rw [hinstall] at hh
    rcases List.mem_append.mp hh with hh | hh
    · have hh := hrest hh
      rw [hdefinitions] at hh
      rcases List.mem_append.mp hh with hh | hh
      · exact (hp.bodies hh).covers (hold.trans hcovers)
      · exact Function.resolves_of_isPlaceholder (hplain _ hh)
    · cases List.mem_singleton.mp hh
      exact hbody.covers hcovers
  · rcases List.mem_append.mp hg' with hg' | hg'
    · exact ⟨(hp.queue g' hg').1, (hp.queue g' hg').2.covers (hold.trans hcovers)⟩
    · obtain ⟨blocks, rfl, -⟩ := FunctionDraft.of_finish (hbuilds.finish f rfl)
      obtain ⟨hG, hmem⟩ := hpending g' hg'
      exact ⟨hG, Declared.covers ⟨_, hmem, rfl⟩ hcovers⟩

/-- A function that failed leaves what was there as it was. -/
private theorem Sound.discard (hp : p.Sound G) {e : CompileError} {v : CompileUnit}
    (hbuilds : (start p.unit name params G).Builds n (.error e, v) t)
    (diagnostics : List Diagnostic) :
    Sound G { p with unit := v.discardLifted.2, diagnostics } := by
  obtain rfl : v = t.unit := hbuilds.unit
  obtain ⟨hunit, kept, hdefinitions, hkept⟩ :=
    ((accounted_start hp.unit name params).moves hbuilds.moves).definitions_discard
  rw [show t.draft.globals = G from hbuilds.moves.grows.globals] at hunit
  have hold : Covers p.unit.module.definitions t.unit.discardLifted.2.module.definitions :=
    covers_of_subset (hdefinitions ▸ List.subset_append_left _ _)
  refine ⟨hunit, hp.globals.covers hold, fun {f} hf => ?_, fun g hg => ?_⟩
  · change Definition.function f ∈ t.unit.discardLifted.2.module.definitions at hf
    rw [hdefinitions] at hf
    rcases List.mem_append.mp hf with hf | hf
    · exact (hp.bodies hf).covers hold
    · cases hkept _ hf
  · exact ⟨(hp.queue g hg).1, (hp.queue g hg).2.covers hold⟩

/-- A function that is taken in keeps a compilation in order. -/
theorem Sound.record (hp : p.Sound G) {policy : ErrorPolicy}
    {result : Except CompileError FinishedFunction × CompileUnit}
    (hbuilds : (start p.unit name params G).Builds n result t)
    (hdeclared : Declared p.unit.module.definitions name params) {label : Name}
    (h : p.record policy label result = .ok q) : q.Sound G ∧ q.unit.entry = p.unit.entry := by
  obtain ⟨outcome, v⟩ := result
  have hentry : v.entry = p.unit.entry := by
    rw [show v = t.unit from hbuilds.unit]
    exact hbuilds.moves.grows.entry
  cases outcome with
  | ok f =>
    cases h
    exact ⟨hp.install hbuilds hdeclared, hentry⟩
  | error e =>
    cases policy with
    | abort => cases h
    | keepGoing =>
      cases h
      exact ⟨hp.discard hbuilds _, hentry⟩

/-- **The queue keeps the compilation in order.** -/
theorem Sound.drains (hp : p.Sound G) {policy : ErrorPolicy} (h : p.Drains policy (.ok q)) :
    q.Sound G ∧ q.unit.entry = p.unit.entry := by
  generalize hresult : (Except.ok q : Except Diagnostic Progress) = result at h
  induction h with
  | done =>
    cases hresult
    exact ⟨hp, rfl⟩
  | stop => cases hresult
  | @next p p' f queue _ hqueue hrecord _ ih =>
    obtain ⟨hG, hdeclared⟩ := hp.queue f (hqueue ▸ List.mem_cons_self)
    have hrest : Sound G { p with queue } :=
      ⟨hp.unit, hp.globals, hp.bodies, fun g hg => hp.queue g (hqueue ▸ List.mem_cons_of_mem _ hg)⟩
    obtain ⟨t, hbuilds⟩ := lowerFunction_builds p.unit f
    rw [hG] at hbuilds
    obtain ⟨hp', hentry⟩ := hrest.record hbuilds hdeclared hrecord
    obtain ⟨hq, hentry'⟩ := ih hp' hresult
    exact ⟨hq, hentry'.trans hentry⟩

end Progress

/-! ### Modules -/

/-- All that the function bodies of a module refer to is there. -/
def Module.Resolves (m : Module) : Prop :=
  ∀ f ∈ m.functions, f.Resolves m.definitions

/-- A compilation begins in order. -/
theorem TopLevel.Sound.progress {top : TopLevel} (h : top.Sound) :
    Progress.Sound top.globals ⟨top.unit, [], top.pending⟩ := by
  refine ⟨h.unit, h.globals, fun hf => Function.resolves_of_isPlaceholder (h.plain _ hf),
    fun g hg => ?_⟩
  obtain ⟨x, hx, rfl⟩ := List.mem_map.mp hg
  exact ⟨rfl, h.functions x hx⟩

/-- A compilation whose entry function has been built, or skipped, is in order. -/
theorem TopLevel.Sound.started {top : TopLevel} (h : top.Sound) {forms : List Expr}
    {options : CompileOptions} {begun : Progress}
    (hbegun : top.started forms options = .ok begun) :
    begun.Sound top.globals ∧ begun.unit.entry = top.unit.entry := by
  obtain ⟨t, hbuilds⟩ := lowerEntry_builds top.unit forms top.functionForms top.globals
  exact h.progress.record hbuilds h.entry hbegun

/-- A compilation that succeeds ends in order, with top level names that are not reserved. -/
theorem exists_sound_of_compiles {forms : List Expr} {options : CompileOptions}
    {output : CompileOutput} (h : Compiles forms options (.ok output)) :
    ∃ G p, Progress.Sound G p ∧ output.module = p.unit.module.finish ∧
      p.unit.entry = options.entry ∧
      ∀ {name}, G.has name = true → TopLevel.isReserved options.entry name = false := by
  cases h with
  | @finishes top begun done htop hbegun hdrains =>
    obtain ⟨hsound, hentry⟩ := TopLevel.sound_topLevel htop
    obtain ⟨hbegun', hentry'⟩ := hsound.started hbegun
    obtain ⟨hdone, hentry''⟩ := hbegun'.drains hdrains
    refine ⟨top.globals, done, hdone, rfl, (hentry''.trans hentry').trans hentry, fun hhas => ?_⟩
    exact hentry ▸ hsound.unreserved hhas

/-- **No reference dangles**: in the module of every program, whatever its entry function is called
and whichever functions were skipped, all that function bodies refer to is there. -/
theorem compiled_module_resolves (forms : List Expr) (options : CompileOptions)
    (output : CompileOutput) (h : compileProgram forms options = .ok output) :
    output.module.Resolves := by
  obtain ⟨G, p, hsound, hmodule, -, -⟩ :=
    exists_sound_of_compiles (h ▸ compileProgram_compiles forms options)
  intro f hf
  obtain ⟨d, hd, hfunction⟩ := List.mem_filterMap.mp hf
  cases d with
  | function g =>
    cases hfunction
    rw [hmodule] at hd ⊢
    exact hsound.bodies hd
  | _ => cases hfunction

/-- A program that shows a string and calls a function with an array. The function is skipped, since
a name in it means nothing, and its lambda with it. -/
def halfCompiled : List Expr :=
  [.define "f" (.lambda ["x"] [.call (.lambda ["y"] [.var "y"]) [.var "x"], .var "missing"]),
    .define "v" (.integer 1),
    .primitive (.library .display) [.literal (.string "hi")],
    .letIn [("z", .var "v")] [.call (.var "f") [.array [.var "z"]]]]

theorem compiled_module_resolves_skipped : ∃ output,
    compileProgram halfCompiled ⟨"m", "main", .keepGoing⟩ = .ok output ∧
      output.diagnostics = [⟨"f", .unresolved "missing"⟩] ∧
      output.module.definitions.map Definition.name =
        ["f", "v", ".str", "scm_display", "main", "array.1", "lambda"] ∧
      output.module.Resolves := by
  have houtput : (compileProgram halfCompiled ⟨"m", "main", .keepGoing⟩).toOption.map
      (fun output => (output.diagnostics, output.module.definitions.map Definition.name)) =
      some ([⟨"f", .unresolved "missing"⟩],
        ["f", "v", ".str", "scm_display", "main", "array.1", "lambda"]) := by
    decide +kernel
  obtain ⟨output, hok, hpair⟩ := exists_ok_of_toOption houtput
  obtain ⟨hdiagnostics, hnames⟩ := Prod.mk.inj hpair
  exact ⟨output, hok, hdiagnostics, hnames, compiled_module_resolves _ _ output hok⟩

end WordScheme
