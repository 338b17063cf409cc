import Mathlib
import WordScheme.Proofs.CompileCalls
import WordScheme.Proofs.LambdaNames
import WordScheme.Proofs.LambdaNodes

/-!
# Compilations come to an end

Two loops of a compilation have no bound that can be read off: the queue, to which every function
that is built may add others, and the search for the name of a lambda, which goes on while names are
taken. The first builds each lambda and each `let` of the program at most once
(`CompilesBy.lambdas`), and the second is never cut short (`freshLambdaName_searches`).

The names that a whole compilation gives to lambdas are the first of those that neither the entry
function nor the top level has: `CompilesBy.lifted_eq`.
-/

namespace WordScheme

open LowerState NameSupply

/-! ### Each lambda at most once -/

/-- A list of functions with all that is inside of them. -/
def PendingFunction.allLambdas (fs : List PendingFunction) : List Lambda :=
  fs.flatMap fun f => f.lambda.withInner

open PendingFunction

/-- What is found among the outermost functions of a body stays inside of the body. -/
private theorem allLambdas_subperm {fs : List PendingFunction} {es : List Expr}
    (h : (fs.map PendingFunction.lambda).Sublist (lambdasAll false es)) :
    (allLambdas fs).Subperm (lambdasAll true es) := by
  have hsub := (h.flatMap Lambda.withInner).subperm
  rw [List.flatMap_map] at hsub
  exact hsub.trans (lambdasAll_perm es).symm.subperm

/-- A call that builds a function finds what is inside of it. -/
private theorem Call.found_subperm {c : Call} {ls : List Expr}
    (h : ∀ f v, c.result = (.ok f, v) →
      (f.pending.map PendingFunction.lambda).Sublist (lambdasAll false ls)) :
    (allLambdas c.found).Subperm (lambdasAll true ls) := by
  obtain ⟨function, outcome, v⟩ := c
  cases outcome with
  | ok f => exact allLambdas_subperm (h f v rfl)
  | error e => exact List.nil_subperm

/-- **The queue builds each function at most once**: every call is for a lambda of its own among
those that wait and those inside of them. -/
theorem Progress.Works.lambdas {policy : ErrorPolicy} {p : Progress} {calls : List Call}
    {result : Except Diagnostic Progress} (h : p.Works policy calls result) :
    (calls.map fun c => c.function.lambda).Subperm (allLambdas p.queue) := by
  induction h with
  | done => exact List.nil_subperm
  | @stop p f queue d hqueue hrecord =>
    rw [hqueue]
    exact List.Sublist.subperm (List.singleton_sublist.mpr List.mem_cons_self)
  | @next p q f queue calls result hqueue hrecord _ ih =>
    have hq := queue_record (p := { p with queue }) (c := ⟨f, lowerFunction p.unit f⟩) hrecord
    have hfound : (allLambdas (Call.found ⟨f, lowerFunction p.unit f⟩)).Subperm
        (lambdasAll true f.lambda.body) :=
      Call.found_subperm fun g v hg => lowerFunction_finds hg
    rw [hq, allLambdas, List.flatMap_append] at ih
    rw [hqueue, List.map_cons, allLambdas, List.flatMap_cons, Lambda.withInner, List.cons_append,
      List.subperm_cons]
    -- what was found takes the place of the body in which it was found
    exact (ih.trans List.perm_append_comm.subperm).trans
      ((List.subperm_append_right _).mpr hfound)

namespace TopLevel

theorem allLambdas_pending (t : TopLevel) :
    allLambdas t.pending = t.functions.flatMap fun x => x.2.withInner := by
  rw [allLambdas, pending, List.flatMap_map]

/-- The functions of the top level, and the forms that are not skipped, have no more lambdas than
all forms have. -/
private theorem collect_lambdas {t top : TopLevel} {index : Nat} {forms : List Expr}
    (h : t.collect index forms = .ok top) :
    t.functionForms ⊆ top.functionForms ∧
      (allLambdas top.pending ++ lambdasAll true (unskipped top.functionForms index forms)).Subperm
        (allLambdas t.pending ++ lambdasAll true forms) := by
  induction forms generalizing t index with
  | nil =>
    cases h
    exact ⟨List.Subset.refl _, List.Subperm.refl _⟩
  | cons form forms ih =>
    obtain ⟨u, hnotes, hrest⟩ := collect_cons h
    obtain ⟨hsub, hle⟩ := ih hrest
    simp only [allLambdas_pending] at hle ⊢
    rw [unskipped, lambdasAll]
    -- a form that gives no function is skipped, or counts on both sides
    have hother : u.functions = t.functions →
        (top.functions.flatMap (fun x => x.2.withInner) ++
          lambdasAll true (if top.functionForms.contains index then
            unskipped top.functionForms (index + 1) forms
            else form :: unskipped top.functionForms (index + 1) forms)).Subperm
        (t.functions.flatMap (fun x => x.2.withInner) ++
          (form.lambdas true ++ lambdasAll true forms)) := by
      intro heq
      rw [heq] at hle
      split
      · refine hle.trans ?_
        rw [List.subperm_append_left]
        exact (List.sublist_append_right _ _).subperm
      · rw [lambdasAll]
        refine List.perm_append_comm_assoc _ _ _ |>.subperm.trans ?_
        refine List.Subperm.trans ?_ (List.perm_append_comm_assoc _ _ _).subperm
        exact (List.subperm_append_left _).mpr hle
    cases hnotes with
    | skip => exact ⟨hsub, hother rfl⟩
    | var => exact ⟨hsub, hother rfl⟩
    | @function name params body _ _ =>
      -- the form is skipped, as its function waits already
      have hmem : index ∈ top.functionForms := hsub (List.mem_append_right _ List.mem_cons_self)
      refine ⟨fun i hi => hsub (List.mem_append_left _ hi), ?_⟩
      rw [if_pos (List.contains_iff_mem.mpr hmem), Expr.lambdas, Expr.lambdas, if_pos rfl]
      rw [List.flatMap_append, List.flatMap_singleton, List.append_assoc] at hle
      exact hle

end TopLevel

/-- **A compilation builds each lambda and each `let` of its program at most once.** -/
theorem CompilesBy.lambdas {forms : List Expr} {options : CompileOptions} {calls : List Call}
    {result : Except Diagnostic CompileOutput} (h : CompilesBy forms options calls result) :
    (calls.tail.map fun c => c.function.lambda).Subperm (lambdasAll true forms) := by
  -- what waits once the entry function has been built
  have hbegun : ∀ {top begun}, topLevel forms options = .ok top →
      top.started forms options = .ok begun →
      (allLambdas begun.queue).Subperm (lambdasAll true forms) := by
    intro top begun htop hbegun
    have hqueue := Progress.queue_record (p := ⟨top.unit, [], top.pending⟩)
      (c := top.entryCall forms options) hbegun
    have hfound : (allLambdas (top.entryCall forms options).found).Subperm
        (lambdasAll true (unskipped top.functionForms 0 forms)) :=
      Call.found_subperm fun f v hf => lowerEntry_finds hf
    rw [hqueue, allLambdas, List.flatMap_append]
    exact ((List.subperm_append_left _).mpr hfound).trans (TopLevel.collect_lambdas htop).2
  cases h with
  | reserved => exact List.nil_subperm
  | entryFails => exact List.nil_subperm
  | stops htop hbegan hworks => exact hworks.lambdas.trans (hbegun htop hbegan)
  | finishes htop hbegan hworks => exact hworks.lambdas.trans (hbegun htop hbegan)

/-! ### Names -/

section Names

variable {G : Globals} {issued : List Name}

/-- The lambdas that a function lifts get the next names, whether it is built or not. -/
private theorem lifted_of_builds {u : CompileUnit} {name : Name} {params : List Name} {n : Nat}
    {result : Except CompileError FinishedFunction × CompileUnit} {t : LowerState}
    (hbuilds : (start u name params G).Builds n result t) (hu : u.lambdaNames.Positive)
    (hissued : issued = untaken (isTaken u.entry G) "lambda" (u.lambdaNames.count "lambda")) :
    issued ++ result.2.lifted =
      untaken (isTaken u.entry G) "lambda" (result.2.lambdaNames.count "lambda") := by
  have hstart : (start u name params G).Names issued :=
    ⟨hu, (List.append_nil issued).trans hissued⟩
  have hnames := (hstart.moves hbuilds.moves).names
  rw [hbuilds.moves.grows.entry, hbuilds.moves.grows.globals] at hnames
  rw [hbuilds.unit]
  exact hnames

theorem Progress.Works.lifted {policy : ErrorPolicy} {p : Progress} {calls : List Call}
    {result : Except Diagnostic Progress} (h : p.Works policy calls result) (hp : p.Sound G)
    (hissued : issued =
      untaken (isTaken p.unit.entry G) "lambda" (p.unit.lambdaNames.count "lambda")) :
    ∃ n, issued ++ calls.flatMap Call.lifted = untaken (isTaken p.unit.entry G) "lambda" n := by
  induction h generalizing issued with
  | done => exact ⟨_, (List.append_nil issued).trans hissued⟩
  | @stop p f queue d hqueue hrecord =>
    obtain ⟨-, -, -, t, hbuilds⟩ := hp.next hqueue
    have hlifted := lifted_of_builds hbuilds hp.unit.lambdaNames hissued
    exact ⟨_, by rw [List.flatMap_singleton]; exact hlifted⟩
  | @next p q f queue calls result hqueue hrecord _ ih =>
    obtain ⟨hrest, -, hdeclared, t, hbuilds⟩ := hp.next hqueue
    obtain ⟨hq, hentry⟩ := hrest.record hbuilds hdeclared hrecord
    have hlifted := lifted_of_builds hbuilds hp.unit.lambdaNames hissued
    rw [← lambdaNames_record hrecord] at hlifted
    change q.unit.entry = p.unit.entry at hentry
    rw [← hentry] at hlifted ⊢
    obtain ⟨n, hn⟩ := ih hq hlifted
    exact ⟨n, by rw [List.flatMap_cons, ← List.append_assoc]; exact hn⟩

end Names

/-- **The names of lambdas in a compilation** are, in order, the first that neither the entry
function nor the top level has. -/
theorem CompilesBy.lifted_eq {forms : List Expr} {options : CompileOptions} {top : TopLevel}
    (htop : topLevel forms options = .ok top) {calls : List Call}
    {result : Except Diagnostic CompileOutput} (h : CompilesBy forms options calls result) :
    ∃ n, calls.flatMap Call.lifted = untaken (isTaken options.entry top.globals) "lambda" n := by
  obtain ⟨hsound, hentry⟩ := TopLevel.sound_topLevel htop
  obtain ⟨t, hbuilds⟩ := lowerEntry_builds top.unit forms top.functionForms top.globals
  have hnone : [] = untaken (isTaken top.unit.entry top.globals) "lambda"
      (top.unit.lambdaNames.count "lambda") := by
    rw [hsound.lambdaNames]
    rfl
  have hfirst := lifted_of_builds hbuilds hsound.unit.lambdaNames hnone
  -- the calls after that of the entry function
  have hrest : ∀ {begun calls result}, top.started forms options = .ok begun →
      begun.Works options.policy calls result →
      ∃ n, (top.entryCall forms options :: calls).flatMap Call.lifted =
        untaken (isTaken options.entry top.globals) "lambda" n := by
    intro begun calls result hbegun hworks
    obtain ⟨hbegun', hentry'⟩ := hsound.started hbegun
    rw [← Progress.lambdaNames_record hbegun] at hfirst
    change begun.unit.entry = top.unit.entry at hentry'
    rw [← hentry'] at hfirst
    obtain ⟨n, hn⟩ := hworks.lifted hbegun' hfirst
    rw [hentry', hentry] at hn
    exact ⟨n, hn⟩
  cases h with
  | reserved herror =>
    rw [htop] at herror
    cases herror
  | entryFails htop' =>
    cases htop.symm.trans htop'
    exact ⟨_, by rw [List.flatMap_singleton, ← hentry]; exact hfirst⟩
  | stops htop' hbegun hworks =>
    cases htop.symm.trans htop'
    exact hrest hbegun hworks
  | finishes htop' hbegun hworks =>
    cases htop.symm.trans htop'
    exact hrest hbegun hworks

/-- No two lambdas of a compilation share their name, and none has that of the entry function or of
a top level definition. -/
theorem CompilesBy.nodup_lifted {forms : List Expr} {options : CompileOptions} {calls : List Call}
    {result : Except Diagnostic CompileOutput} (h : CompilesBy forms options calls result) :
    (calls.flatMap Call.lifted).Nodup ∧ ∀ name ∈ calls.flatMap Call.lifted,
      name ≠ options.entry ∧ firstDefinition? name forms = none := by
  cases htop : topLevel forms options with
  | error e =>
    -- a program that is refused has no calls
    cases h with
    | reserved => exact ⟨List.nodup_nil, fun _ hname => nomatch hname⟩
    | entryFails htop' => cases htop.symm.trans htop'
    | stops htop' => cases htop.symm.trans htop'
    | finishes htop' => cases htop.symm.trans htop'
  | ok top =>
    obtain ⟨n, hn⟩ := h.lifted_eq htop
    rw [hn]
    refine ⟨nodup_untaken CompileUnit.undigited_lambda n, fun name hname => ?_⟩
    obtain ⟨hentry, hglobal⟩ := isTaken_eq_false.mp (taken_eq_false_of_mem_untaken hname)
    refine ⟨hentry, ?_⟩
    cases hvalue : firstDefinition? name forms with
    | none => rfl
    | some value =>
      rw [has_of_firstDefinition? htop hvalue] at hglobal
      cases hglobal

/-! ### Compilations -/

/-- **Compilations come to an end.** The answer of a compilation is that of working off its queue
without a limit, for which it builds every lambda and every `let` of the program at most once. Every
search for the name of a lambda ends, whatever has been named before and whatever is taken, at a
name that is new and neither that of the entry function nor of the top level; and so no two lambdas
of a compilation share their name, and none takes one from the program. -/
theorem compilation_terminates (forms : List Expr) (options : CompileOptions) :
    (∃ calls, CompilesBy forms options calls (compileProgram forms options) ∧
      (calls.tail.map fun c => c.function.lambda).Subperm (lambdasAll true forms) ∧
      (calls.flatMap Call.lifted).Nodup ∧ ∀ name ∈ calls.flatMap Call.lifted,
        name ≠ options.entry ∧ firstDefinition? name forms = none) ∧
    ∀ (Gs : List Globals) (G : Globals),
      let issued := (CompileUnit.start options.moduleName options.entry).names Gs
      let fresh := issued.2.freshLambdaName G
      Searches (isTaken options.entry G) "lambda" issued.2.lambdaNames
          (fresh.1, fresh.2.lambdaNames) ∧
        fresh.1 ≠ options.entry ∧ G.has fresh.1 = false ∧ fresh.1 ∉ issued.1 := by
  refine ⟨?_, fun Gs G => ?_⟩
  · obtain ⟨calls, hcalls⟩ := exists_compilesBy forms options
    exact ⟨calls, hcalls, hcalls.lambdas, hcalls.nodup_lifted⟩
  · have hstart : (CompileUnit.start options.moduleName options.entry).lambdaNames.Positive :=
      positive_empty
    obtain ⟨hpositive, hentry, -⟩ := CompileUnit.names_spec hstart Gs
    have hsearch := CompileUnit.freshLambdaName_searches hpositive G
    obtain ⟨hne, hglobal, -⟩ := CompileUnit.freshLambdaName_spec hpositive G
    rw [hentry] at hsearch hne
    exact ⟨hsearch, hne, hglobal, CompileUnit.names_fresh hstart Gs G⟩

end WordScheme
