import Mathlib
import WordScheme.Proofs.ErrorPolicies
import WordScheme.Proofs.Termination

/-!
# No function is lost

Every function of a module is there because a call was to build it, and every call leaves one
function: the one that it has built, or its placeholder (`Call.outcome`). While a compilation is
under way the module has in addition the placeholders of those that wait. One call turns one of
these into its outcome and adds those of the lambdas that it has found, or, if it fails, adds none
(`functions_record`); so in the end the functions are the outcomes of the calls, up to their order:
`CompilesBy.functions_perm`.

What a module has and what it has not then follows from the calls: `CompileOutput.Complete`.
-/

namespace WordScheme

open LowerState NameSupply

/-- An element whose key no other one has is found alone. -/
private theorem filter_of_nodup_map {α β : Type} [BEq β] [LawfulBEq β] {key : α → β} {xs : List α}
    {x : α} (h : (xs.map key).Nodup) (hx : x ∈ xs) : xs.filter (fun y => key y == key x) = [x] := by
  obtain ⟨before, after, rfl⟩ := List.append_of_mem hx
  rw [List.map_append, List.map_cons, List.nodup_middle, List.nodup_cons, ← List.map_append] at h
  have hother : (before ++ after).filter (fun y => key y == key x) = [] := by
    refine List.filter_eq_nil_iff.mpr fun y hy heq => h.1 ?_
    exact beq_iff_eq.mp heq ▸ List.mem_map_of_mem hy
  rw [List.filter_append, List.append_eq_nil_iff] at hother
  rw [List.filter_append, List.filter_cons, if_pos (beq_self_eq_true (key x)), hother.1, hother.2]
  rfl

/-! ### What a call leaves -/

/-- The placeholder of a function that waits. -/
def PendingFunction.declared (g : PendingFunction) : Function :=
  ⟨g.name, .word, wordParams g.lambda.params, []⟩

/-- The function that a call leaves in the module. -/
def Call.outcome (c : Call) : Function :=
  match c.result.1 with
  | .ok f => f.function
  | .error _ => c.function.declared

private theorem Call.function_of_diagnostic? {c : Call} {d : Diagnostic}
    (h : c.diagnostic? = some d) : d.function = c.function.name := by
  rw [diagnostic?] at h
  split at h
  · cases h
  · cases h
    rfl

/-- Only a call that has built its function finds others. -/
private theorem Call.exists_of_mem_found {c : Call} {g : PendingFunction} (h : g ∈ c.found) :
    ∃ f, c.result.1 = .ok f ∧ g ∈ f.pending := by
  rw [found] at h
  split at h
  · next f hf => exact ⟨f, hf, h⟩
  · cases h

/-- A call leaves a function like its placeholder, with a body unless it has failed, and has found
the lambdas that it has lifted. -/
structure Call.Fits (c : Call) : Prop where
  name : c.outcome.name = c.function.name
  params : c.outcome.params = wordParams c.function.lambda.params
  blocks : c.outcome.blocks = [] ↔ c.diagnostic?.isSome = true
  lifted : c.diagnostic? = none → c.lifted = c.found.map PendingFunction.name

/-! ### The functions of a module in the making -/

theorem Definition.eq_function {d : Definition} {f : Function} (h : d.function? = some f) :
    d = .function f := by
  cases d with
  | function g =>
    cases h
    rfl
  | _ => cases h

namespace ModuleDraft

/-- A definition that is no function adds none. -/
private theorem functions_ensure (m : ModuleDraft) {d : Definition} (hd : d.function? = none) :
    (m.ensure d).finish.functions = m.finish.functions := by
  change (m.ensure d).definitions.filterMap _ = m.definitions.filterMap _
  rw [ensure_definitions]
  split
  · rfl
  · simp [hd]

theorem functions_of_append {m m' : ModuleDraft} {ds : List Definition}
    (h : m'.definitions = m.definitions ++ ds) :
    m'.finish.functions = m.finish.functions ++ ds.filterMap Definition.function? := by
  change m'.definitions.filterMap _ = m.definitions.filterMap _ ++ _
  rw [h, List.filterMap_append]

end ModuleDraft

namespace CompileUnit

variable {G : Globals} {u : CompileUnit}

/-- No two functions share their name. -/
private theorem Sound.nodup_functions (h : u.Sound G) :
    (u.module.finish.functions.map Function.name).Nodup := by
  have hnames := nodup_functionNames h.distinct
  rwa [functionNames, ← List.map_filterMap] at hnames

/-- A finished function takes the place of its placeholder. -/
private theorem Sound.functions_install (h : u.Sound G) {f g : Function}
    (hg : g ∈ u.module.finish.functions) (hname : g.name = f.name) :
    (g :: (u.install f).module.finish.functions).Perm (f :: u.module.finish.functions) := by
  obtain ⟨d, hd, hfunction⟩ := List.mem_filterMap.mp hg
  rw [Definition.eq_function hfunction] at hd
  obtain ⟨before, after, hsplit, hinstall⟩ := h.definitions_install hd hname
  change (g :: (u.install f).module.definitions.filterMap Definition.function?).Perm
    (f :: u.module.definitions.filterMap Definition.function?)
  rw [hsplit, hinstall]
  simp only [List.filterMap_append, List.filterMap_cons, List.filterMap_nil, Definition.function?]
  exact ((List.perm_append_singleton f _).cons g).trans
    ((List.Perm.swap f g _).trans (List.perm_middle.symm.cons f))

end CompileUnit

namespace LowerState

/-- On the way from the start of a function, at which the module had the functions `base`, it gets
the placeholders of those that are found, and these are the lambdas that have been lifted. -/
structure Listed (base : List Function) (s : LowerState) : Prop where
  functions : s.unit.module.finish.functions =
    base ++ s.draft.pending.map PendingFunction.declared
  lifted : s.unit.lifted = s.draft.pending.map PendingFunction.name

variable {base : List Function} {s t : LowerState}

/-- Nothing changes that has to do with functions. -/
private theorem Listed.of_eq (h : s.Listed base)
    (hfunctions : t.unit.module.finish.functions = s.unit.module.finish.functions)
    (hlifted : t.unit.lifted = s.unit.lifted) (hpending : t.draft.pending = s.draft.pending) :
    t.Listed base := by
  obtain ⟨hold, hnames⟩ := h
  refine ⟨?_, ?_⟩
  · rw [hfunctions, hpending, hold]
  · rw [hlifted, hpending, hnames]

private theorem Listed.lift (h : s.Listed base) (hclear : s.unit.Clear s.draft.globals)
    (lambda : Lambda) : (s.lift lambda).Listed base := by
  obtain ⟨hfunctions, hnames⟩ := h
  refine ⟨?_, ?_⟩
  · rw [ModuleDraft.functions_of_append (definitions_lift hclear lambda), hfunctions]
    change _ = base ++ List.map _ (s.draft.pending ++ [_])
    rw [List.map_append, ← List.append_assoc]
    rfl
  · change s.unit.lifted ++ [_] = List.map _ (s.draft.pending ++ [_])
    rw [hnames, List.map_append]
    rfl

private theorem Listed.move (h : s.Listed base) (hclear : s.unit.Clear s.draft.globals)
    (hmove : s.Move t) : t.Listed base := by
  cases hmove.effect with
  | code _ hpending => exact h.of_eq rfl rfl hpending
  | lift lambda => exact h.lift hclear lambda
  | @share v d hd hmodule _ _ hlifted =>
    refine h.of_eq ?_ hlifted rfl
    change v.module.finish.functions = _
    rw [hmodule, ModuleDraft.functions_ensure _ (Definition.function?_of_isShared hd)]

/-- **Building a function lists what it finds**, whether it succeeds or fails. -/
theorem listed_moves {unit : CompileUnit} {name : Name} {params : List Name} {G : Globals}
    (hclear : unit.Clear G) (hmoves : (start unit name params G).Moves t) :
    t.Listed unit.module.finish.functions := by
  induction hmoves with
  | refl => exact ⟨(List.append_nil _).symm, rfl⟩
  | tail hmoves hmove ih =>
    exact ih.move (clear_moves hmoves (hclear.setLifted []) (hclear.setLifted [])).1 hmove

end LowerState

/-- A function that is finished has a block, in which it starts. -/
theorem FunctionDraft.blocks_ne_nil_of_finish {d : FunctionDraft} {f : FinishedFunction}
    (h : d.finish = .ok f) : f.function.blocks ≠ [] := by
  obtain ⟨blocks, rfl, hrows⟩ := of_finish h
  have hlt := d.current_lt
  rintro rfl
  rw [Table.size, hrows] at hlt
  cases hlt

/-! ### One call -/

section Record

variable {G : Globals} {p q : Progress} {c : Call} {n : Nat} {t : LowerState}
  {policy : ErrorPolicy}

theorem Call.fits_of_builds {u : CompileUnit} (hsound : u.Sound G)
    (hbuilds : (start u c.function.name c.function.lambda.params G).Builds n c.result t) :
    c.Fits := by
  have hlisted := listed_moves hsound.clear hbuilds.moves
  obtain ⟨function, outcome, v⟩ := c
  obtain rfl : v = t.unit := hbuilds.unit
  cases outcome with
  | error e =>
    refine ⟨rfl, rfl, by simp [outcome, diagnostic?, PendingFunction.declared], ?_⟩
    intro h
    cases h
  | ok f =>
    have hfinish := hbuilds.finish f rfl
    have hblocks := FunctionDraft.blocks_ne_nil_of_finish hfinish
    obtain ⟨blocks, rfl, -⟩ := FunctionDraft.of_finish hfinish
    refine ⟨hbuilds.moves.grows.name, congrArg wordParams hbuilds.moves.grows.params, ?_, ?_⟩
    · exact iff_of_false hblocks (by simp [diagnostic?])
    · exact fun _ => hlisted.lifted

/-- **One call**: the placeholder of its function becomes its outcome, and what it has found waits
behind the others. -/
theorem functions_record (hp : p.Sound G)
    (hbuilds : (start p.unit c.function.name c.function.lambda.params G).Builds n c.result t)
    {done : List Function}
    (hfunctions : p.unit.module.finish.functions.Perm
      (done ++ c.function.declared :: p.queue.map PendingFunction.declared))
    (h : p.record policy c.function.name c.result = .ok q) :
    q.unit.module.finish.functions.Perm
      (done ++ c.outcome :: q.queue.map PendingFunction.declared) := by
  have haccounted := (accounted_start hp.unit c.function.name c.function.lambda.params).moves
    hbuilds.moves
  have hlisted := listed_moves hp.unit.clear hbuilds.moves
  obtain ⟨function, outcome, v⟩ := c
  obtain rfl : v = t.unit := hbuilds.unit
  obtain ⟨f, hf, rfl⟩ | ⟨e, he, -, rfl⟩ := Progress.record_cases h
  · cases hf
    have hfinish := hbuilds.finish f rfl
    have hname : function.name = f.function.name :=
      (Call.fits_of_builds (c := ⟨function, .ok f, t.unit⟩) hp.unit hbuilds).name.symm
    have hpending : f.pending = t.draft.pending := by
      obtain ⟨blocks, rfl, -⟩ := FunctionDraft.of_finish hfinish
      rfl
    have hbefore : t.unit.module.finish.functions.Perm (function.declared ::
        (done ++ (p.queue ++ f.pending).map PendingFunction.declared)) := by
      rw [hlisted.functions, hpending, List.map_append, ← List.append_assoc]
      exact (hfunctions.append_right _).trans (by simp)
    have hmem : function.declared ∈ t.unit.module.finish.functions :=
      hbefore.mem_iff.mpr List.mem_cons_self
    have hinstall := haccounted.sound.functions_install hmem hname
    -- the placeholder goes from both sides
    have hafter := hinstall.trans ((hbefore.cons _).trans (List.Perm.swap _ _ _))
    exact hafter.cons_inv.trans List.perm_middle.symm
  · cases he
    obtain ⟨-, kept, hdefinitions, hkept⟩ := haccounted.definitions_discard
    have hnone : kept.filterMap Definition.function? = [] :=
      List.filterMap_eq_nil_iff.mpr hkept
    change t.unit.discardLifted.2.module.finish.functions.Perm _
    rw [ModuleDraft.functions_of_append hdefinitions, hnone, List.append_nil]
    exact hfunctions

end Record

/-! ### Whole compilations -/

/-- A function of the top level has a name that no lambda gets. -/
private theorem TopLevel.Sound.isTaken_of_mem_pending {top : TopLevel} (h : top.Sound)
    {g : PendingFunction} (hg : g ∈ top.pending) :
    isTaken top.unit.entry top.globals g.name = true := by
  obtain ⟨x, hx, rfl⟩ := List.mem_map.mp hg
  obtain ⟨d, hd, hheader⟩ := h.functions x hx
  obtain ⟨f, rfl, hname, -⟩ := Definition.exists_function_of_header
    (f := ⟨x.1, .word, wordParams x.2.params, []⟩) hheader
  change f.name = x.1 at hname
  change isTaken top.unit.entry top.globals x.1 = true
  rw [isTaken, ← hname]
  cases h.unit.issued _ hd with
  | entry heq => simp [heq]
  | globalFunction hget => simp [Assoc.has, hget]
  | lambda _ hn =>
    rw [h.lambdaNames] at hn
    cases hn

/-- **The queue loses nothing**: in the end the module has the outcomes of all calls. -/
theorem Progress.Works.functions_perm {policy : ErrorPolicy} {G : Globals} {p q : Progress}
    {calls : List Call} (h : p.Works policy calls (.ok q)) (hp : p.Sound G)
    {done : List Function} (hfunctions : p.unit.module.finish.functions.Perm
      (done ++ p.queue.map PendingFunction.declared)) :
    q.unit.module.finish.functions.Perm (done ++ calls.map Call.outcome) ∧
      ∀ c ∈ calls, c.Fits := by
  generalize hresult : (Except.ok q : Except Diagnostic Progress) = result at h
  induction h generalizing done with
  | done hqueue =>
    cases hresult
    rw [hqueue] at hfunctions
    exact ⟨hfunctions, fun _ hc => nomatch hc⟩
  | stop => cases hresult
  | @next p p' f queue calls result hqueue hrecord _ ih =>
    obtain ⟨hrest, -, hdeclared, t, hbuilds⟩ := hp.next hqueue
    rw [hqueue, List.map_cons] at hfunctions
    have hstep := functions_record (c := ⟨f, lowerFunction p.unit f⟩) hrest hbuilds hfunctions
      hrecord
    rw [List.append_cons] at hstep
    obtain ⟨hperm, hfits⟩ := ih (hrest.record hbuilds hdeclared hrecord).1 hstep hresult
    have hfirst := Call.fits_of_builds (c := ⟨f, lowerFunction p.unit f⟩) hp.unit hbuilds
    exact ⟨by rw [List.map_cons, List.append_cons]; exact hperm,
      List.forall_mem_cons.mpr ⟨hfirst, hfits⟩⟩

namespace TopLevel

/-- Before anything is built there are the placeholders of the entry function and of the top
level. -/
private theorem Sound.functions_collect {t top : TopLevel} (h : t.Sound) {index : Nat}
    {forms : List Expr} (hcollect : t.collect index forms = .ok top) {first : Function}
    (hfunctions : t.unit.module.finish.functions =
      first :: t.pending.map PendingFunction.declared) :
    top.unit.module.finish.functions = first :: top.pending.map PendingFunction.declared := by
  have hdeclared : ∀ u : TopLevel, u.pending.map PendingFunction.declared =
      u.functions.map fun x => ⟨x.1, .word, wordParams x.2.params, []⟩ := by
    intro u
    rw [pending, List.map_map]
    rfl
  induction forms generalizing t index with
  | nil =>
    cases hcollect
    exact hfunctions
  | cons form forms ih =>
    obtain ⟨u, hnotes, hrest⟩ := collect_cons hcollect
    refine ih (h.notes hnotes).1 hrest ?_
    rw [hdeclared] at hfunctions ⊢
    cases hnotes with
    | skip => exact hfunctions
    | @function name params body hreserved hnew =>
      have hensure : (t.unit.module.ensure (ModuleDraft.placeholder name params)).definitions =
          t.unit.module.definitions ++ [ModuleDraft.placeholder name params] :=
        ModuleDraft.ensure_of_notMem rfl fun hmem =>
          h.name_ne hreserved hnew hmem (.inl rfl) rfl
      change (t.unit.module.ensure _).finish.functions = _
      rw [ModuleDraft.functions_of_append hensure, hfunctions, List.map_append]
      rfl
    | var => exact (ModuleDraft.functions_ensure _ rfl).trans hfunctions

/-- These placeholders are all the functions of a top level, the entry function first. -/
theorem functions_topLevel {top : TopLevel} {forms : List Expr} {options : CompileOptions}
    (h : topLevel forms options = .ok top) :
    top.unit.module.finish.functions =
      (top.entryCall forms options).function.declared ::
        top.pending.map PendingFunction.declared :=
  (sound_start options.moduleName options.entry).functions_collect h rfl

/-- The call for the entry function replaces the first of them by its outcome. -/
theorem functions_started {top : TopLevel} {forms : List Expr} {options : CompileOptions}
    {begun : Progress} (htop : topLevel forms options = .ok top)
    (hbegun : top.started forms options = .ok begun) :
    begun.unit.module.finish.functions.Perm
      ([(top.entryCall forms options).outcome] ++
        begun.queue.map PendingFunction.declared) := by
  obtain ⟨hsound, hentry⟩ := sound_topLevel htop
  obtain ⟨t, hbuilds⟩ := lowerEntry_builds top.unit forms top.functionForms top.globals
  rw [hentry] at hbuilds
  have hfirst : top.unit.module.finish.functions.Perm
      ([] ++ (top.entryCall forms options).function.declared ::
        top.pending.map PendingFunction.declared) :=
    .of_eq (functions_topLevel htop)
  exact functions_record (c := top.entryCall forms options) hsound.progress hbuilds hfirst hbegun

end TopLevel

namespace CompilesBy

variable {forms : List Expr} {options : CompileOptions} {calls : List Call}
  {output : CompileOutput}

/-- **The functions of a module are the outcomes of the calls.** -/
theorem functions_perm (h : CompilesBy forms options calls (.ok output)) :
    output.module.functions.Perm (calls.map Call.outcome) ∧ ∀ c ∈ calls, c.Fits := by
  cases h with
  | @finishes top begun done calls htop hbegun hworks =>
    obtain ⟨hsound, hentry⟩ := TopLevel.sound_topLevel htop
    obtain ⟨t, hbuilds⟩ := lowerEntry_builds top.unit forms top.functionForms top.globals
    rw [hentry] at hbuilds
    have hfits := Call.fits_of_builds (c := top.entryCall forms options) hsound.unit hbuilds
    obtain ⟨hperm, hrest⟩ := hworks.functions_perm (hsound.started hbegun).1
      (TopLevel.functions_started htop hbegun)
    exact ⟨hperm, List.forall_mem_cons.mpr ⟨hfits, hrest⟩⟩

/-- Every function that was to be built is there. -/
theorem exists_function (h : CompilesBy forms options calls (.ok output)) {g : PendingFunction}
    (hg : g ∈ calls.map Call.function) :
    ∃ f ∈ output.module.functions, f.name = g.name ∧ f.params = wordParams g.lambda.params := by
  obtain ⟨hperm, hfits⟩ := h.functions_perm
  obtain ⟨c, hc, rfl⟩ := List.mem_map.mp hg
  exact ⟨c.outcome, hperm.mem_iff.mpr (List.mem_map_of_mem hc), (hfits c hc).name,
    (hfits c hc).params⟩

/-- The functions of a module are called like those that were to be built. -/
private theorem names_perm (h : CompilesBy forms options calls (.ok output)) :
    (output.module.functions.map Function.name).Perm (calls.map fun c => c.function.name) := by
  obtain ⟨hperm, hfits⟩ := h.functions_perm
  have hnames := hperm.map Function.name
  rw [List.map_map] at hnames
  exact hnames.trans (.of_eq (List.map_congr_left fun c hc => (hfits c hc).name))

/-- A function without body is one that failed. -/
theorem bodiless_iff (h : CompilesBy forms options calls (.ok output)) (name : Name) :
    (∃ f ∈ output.module.functions, f.name = name ∧ f.blocks = []) ↔
      ∃ d ∈ output.diagnostics, d.function = name := by
  obtain ⟨hperm, hfits⟩ := h.functions_perm
  rw [h.diagnostics]
  constructor
  · rintro ⟨f, hf, rfl, hblocks⟩
    obtain ⟨c, hc, rfl⟩ := List.mem_map.mp (hperm.mem_iff.mp hf)
    obtain ⟨d, hd⟩ := Option.isSome_iff_exists.mp ((hfits c hc).blocks.mp hblocks)
    exact ⟨d, List.mem_filterMap.mpr ⟨c, hc, hd⟩,
      (Call.function_of_diagnostic? hd).trans (hfits c hc).name.symm⟩
  · rintro ⟨d, hd, rfl⟩
    obtain ⟨c, hc, hd⟩ := List.mem_filterMap.mp hd
    refine ⟨c.outcome, hperm.mem_iff.mpr (List.mem_map_of_mem hc), ?_, ?_⟩
    · exact (hfits c hc).name.trans (Call.function_of_diagnostic? hd).symm
    · exact (hfits c hc).blocks.mpr (Option.isSome_of_eq_some hd)

/-- The lambdas of a function that failed are gone: their names are none of those that were to be
built. -/
private theorem lifted_not_built (h : CompilesBy forms options calls (.ok output)) {c : Call}
    (hc : c ∈ calls) {e : CompileError} (he : c.result.1 = .error e) {name : Name}
    (hname : name ∈ c.lifted) : name ∉ calls.map fun c => c.function.name := by
  obtain ⟨top, htop, hfunctions⟩ := h.functions
  obtain ⟨hsound, hentry⟩ := TopLevel.sound_topLevel htop
  obtain ⟨n, hn⟩ := h.lifted_eq htop
  have hfree : isTaken options.entry top.globals name = false :=
    taken_eq_false_of_mem_untaken (hn ▸ List.mem_flatMap.mpr ⟨c, hc, hname⟩)
  intro hbuilt
  have hbuilt : name ∈ (calls.map Call.function).map PendingFunction.name := by
    rwa [List.map_map]
  rw [hfunctions, List.map_cons, List.map_append] at hbuilt
  rcases List.mem_cons.mp hbuilt with rfl | hbuilt
  · exact (isTaken_eq_false.mp hfree).1 rfl
  rcases List.mem_append.mp hbuilt with hpending | hfound
  · obtain ⟨g, hg, rfl⟩ := List.mem_map.mp hpending
    rw [← hentry, hsound.isTaken_of_mem_pending hg] at hfree
    cases hfree
  · obtain ⟨g, hg, rfl⟩ := List.mem_map.mp hfound
    obtain ⟨c', hc', hg⟩ := List.mem_flatMap.mp hg
    obtain ⟨f, hf, -⟩ := Call.exists_of_mem_found hg
    have hlifted : g.name ∈ c'.lifted := by
      rw [(h.functions_perm.2 c' hc').lifted (by simp [Call.diagnostic?, hf])]
      exact List.mem_map_of_mem hg
    -- the two calls lift no lambda of one name
    have hne : c ≠ c' := by
      rintro rfl
      rw [hf] at he
      cases he
    have hdisjoint := (List.nodup_flatMap.mp h.nodup_lifted.1).2
    have hsymm : Std.Symm (Function.onFun List.Disjoint Call.lifted) := ⟨fun _ _ hd => hd.symm⟩
    exact hdisjoint.forall hc hc' hne hname hlifted

/-- No function is reported twice. -/
private theorem nodup_diagnostics (h : CompilesBy forms options calls (.ok output))
    (hnames : (output.module.functions.map Function.name).Nodup) :
    (output.diagnostics.map Diagnostic.function).Nodup := by
  have hnodup := h.names_perm.nodup_iff.mp hnames
  rw [List.Nodup, List.pairwise_map] at hnodup ⊢
  rw [h.diagnostics]
  refine hnodup.filterMap _ fun c c' hne d hd d' hd' heq => hne ?_
  rw [← Call.function_of_diagnostic? hd, heq, Call.function_of_diagnostic? hd']

theorem exists_function_of_firstDefinition? (h : CompilesBy forms options calls (.ok output))
    {name : Name} {params : List Name} {body : List Expr}
    (hvalue : firstDefinition? name forms = some (.lambda params body)) :
    ∃ f ∈ output.module.functions, f.name = name ∧ f.params = wordParams params := by
  obtain ⟨top, htop, hfunctions⟩ := h.functions
  have hpending : ⟨name, ⟨params, body⟩, top.globals⟩ ∈ top.pending :=
    List.mem_map.mpr ⟨_, mem_functions_of_firstDefinition? htop hvalue, rfl⟩
  refine h.exists_function (g := ⟨name, ⟨params, body⟩, top.globals⟩) ?_
  rw [hfunctions]
  exact List.mem_cons_of_mem _ (List.mem_append_left _ hpending)

/-- What a call has found becomes a function, and no other has its name. -/
private theorem filter_of_mem_found (h : CompilesBy forms options calls (.ok output))
    (hnames : (output.module.functions.map Function.name).Nodup) {c : Call} (hc : c ∈ calls)
    {g : PendingFunction} (hg : g ∈ c.found) :
    ∃ f, output.module.functions.filter (·.name == g.name) = [f] ∧
      f.params = wordParams g.lambda.params := by
  obtain ⟨top, htop, hfunctions⟩ := h.functions
  have hmem : g ∈ calls.map Call.function := by
    rw [hfunctions]
    exact List.mem_cons_of_mem _ (List.mem_append_right _ (List.mem_flatMap.mpr ⟨c, hc, hg⟩))
  obtain ⟨f, hf, hname, hparams⟩ := h.exists_function hmem
  exact ⟨f, hname ▸ filter_of_nodup_map hnames hf, hparams⟩

end CompilesBy

/-- Under `abort` a program that compiles has no diagnostics. -/
theorem diagnostics_eq_nil_of_abort {forms : List Expr} {options : CompileOptions}
    {output : CompileOutput} (hpolicy : options.policy = .abort)
    (h : compileProgram forms options = .ok output) : output.diagnostics = [] := by
  have hagree := compileProgram_agree forms options
  rw [← hpolicy, h] at hagree
  generalize compileProgram forms { options with policy := .keepGoing } = going at hagree
  cases hagree
  rfl

/-- What a module has, after the given calls, and what it has not. -/
structure CompileOutput.Complete (forms : List Expr) (options : CompileOptions)
    (calls : List Call) (output : CompileOutput) : Prop where
  names : (output.module.functions.map Function.name).Nodup
  /-- The functions without a body are those that failed. -/
  bodiless : ∀ name, (∃ f ∈ output.module.functions, f.name = name ∧ f.blocks = []) ↔
    ∃ d ∈ output.diagnostics, d.function = name
  diagnostics : (output.diagnostics.map Diagnostic.function).Nodup
  entry : ∃ f ∈ output.module.functions, f.name = options.entry
  topLevel : ∀ name params body, firstDefinition? name forms = some (.lambda params body) →
    ∃ f ∈ output.module.functions, f.name = name ∧ f.params = wordParams params
  /-- The lambdas of a function that was built are functions, each of them one. -/
  lifted : ∀ c ∈ calls, ∀ f, c.result.1 = .ok f →
    c.lifted = f.pending.map PendingFunction.name ∧
    ∀ g ∈ f.pending, ∃ h, output.module.functions.filter (·.name == g.name) = [h] ∧
      h.params = wordParams g.lambda.params
  /-- The lambdas of a function that failed are not. -/
  dropped : ∀ c ∈ calls, ∀ e, c.result.1 = .error e →
    ∀ name ∈ c.lifted, ∀ f ∈ output.module.functions, f.name ≠ name
  bodies : options.policy = .abort → ∀ f ∈ output.module.functions, f.blocks ≠ []

/-- **No function is lost, duplicated or left half compiled.** In the module of every program that
compiles, under either policy, names are distinct; the functions without a body are those that a
diagnostic names, each of them once; the entry function and the functions of the top level are
there; and of the lambdas, each of a function that was built is there once, and none of a function
that failed. -/
theorem compiled_functions_complete (forms : List Expr) (options : CompileOptions)
    (output : CompileOutput) (h : compileProgram forms options = .ok output) :
    ∃ calls, CompilesBy forms options calls (.ok output) ∧
      output.Complete forms options calls := by
  obtain ⟨calls, hcalls⟩ := exists_compilesBy forms options
  rw [h] at hcalls
  have hnames : (output.module.functions.map Function.name).Nodup := by
    obtain ⟨G, p, hsound, hmodule, -⟩ :=
      exists_sound_of_compiles (h ▸ compileProgram_compiles forms options)
    rw [hmodule]
    exact hsound.unit.nodup_functions
  refine ⟨calls, hcalls, hnames, hcalls.bodiless_iff, hcalls.nodup_diagnostics hnames, ?_,
    fun _ _ _ => hcalls.exists_function_of_firstDefinition?, ?_, ?_, ?_⟩
  · obtain ⟨top, -, hfunctions⟩ := hcalls.functions
    obtain ⟨f, hf, hname, -⟩ := hcalls.exists_function (hfunctions ▸ List.mem_cons_self)
    exact ⟨f, hf, hname⟩
  · intro c hc f hf
    have hfound : c.found = f.pending := by rw [Call.found, hf]
    rw [← hfound]
    refine ⟨?_, fun g hg => hcalls.filter_of_mem_found hnames hc hg⟩
    exact (hcalls.functions_perm.2 c hc).lifted (by simp [Call.diagnostic?, hf])
  · intro c hc e he name hname f hf heq
    refine hcalls.lifted_not_built hc he hname (hcalls.names_perm.mem_iff.mp ?_)
    exact heq ▸ List.mem_map_of_mem hf
  · intro hpolicy f hf hblocks
    obtain ⟨d, hd, -⟩ := (hcalls.bodiless_iff f.name).mp ⟨f, hf, rfl, hblocks⟩
    rw [diagnostics_eq_nil_of_abort hpolicy h] at hd
    cases hd

theorem compiled_functions_complete_skipped : ∃ output,
    compileProgram halfCompiled ⟨"m", "main", .keepGoing⟩ = .ok output ∧
      output.diagnostics = [⟨"f", .unresolved "missing"⟩] ∧
      output.module.functions.map (fun f => (f.name, f.params.length, f.blocks.isEmpty)) =
        [("f", 1, true), ("main", 0, false), ("lambda", 1, false)] ∧
      ∃ calls, CompilesBy halfCompiled ⟨"m", "main", .keepGoing⟩ calls (.ok output) ∧
        output.Complete halfCompiled ⟨"m", "main", .keepGoing⟩ calls := by
  have houtput : (compileProgram halfCompiled ⟨"m", "main", .keepGoing⟩).toOption.map
      (fun output => (output.diagnostics, output.module.functions.map
        (fun f => (f.name, f.params.length, f.blocks.isEmpty)))) =
      some ([⟨"f", .unresolved "missing"⟩],
        [("f", 1, true), ("main", 0, false), ("lambda", 1, false)]) := by
    decide +kernel
  obtain ⟨output, hok, hpair⟩ := exists_ok_of_toOption houtput
  obtain ⟨hdiagnostics, hfunctions⟩ := Prod.mk.inj hpair
  exact ⟨output, hok, hdiagnostics, hfunctions, compiled_functions_complete _ _ output hok⟩

end WordScheme
