import Mathlib
import WordScheme.Proofs.BodyMeaning
import WordScheme.Proofs.ControlFlow

/-!
# Lowering preserves meaning

A lowered function whose source is made of words answers what the source answers: the same word, the
same values of the top level variables and the same calls in the same order. It has no answer where
the source has none. This holds in every world and for all arguments, of functions with distinct
parameters (`lowerFunction_answers_iff`) and of the entry function of a program
(`lowerEntry_answers_iff`).

Both directions come from one run. The code comes to what evaluation comes to, an answer or a stop,
and a machine that comes to one of them comes to no other.
-/

namespace WordScheme

open NameSupply FunctionDraft Site Lower Machine

/-! ### The finished function -/

namespace Site

/-- A finished function has grown out of the draft it was made of. -/
private theorem Finishes.hosts {p q : Site} {f : FinishedFunction} (h : p.Finishes f q)
    {m : Machine} (hm : m.function = f.function) : m.Hosts q.draft := by
  intro i b hb
  obtain ⟨b', hb', rfl⟩ := h.exists_getElem? hb
  refine ⟨b', ?_, List.prefix_rfl, fun t ht => ⟨rfl, Option.some.inj ht⟩⟩
  rw [hm]
  exact find?_of_nodup_map h.intactFlow.distinct (List.mem_of_getElem? hb')

end Site

namespace Machine

variable {m : Machine}

/-- A function whose body computes what `ev` evaluates answers what `ev` answers. -/
private theorem returns_iff_answerOf {p q r : Site} {v : Operand} {ev : Eval Int64} {a : Activation}
    {c : Config} {answer : Answer} (hcomputes : m.Computes (fun _ => True) ev p v q)
    (hreturned : q.Returned v r) (hhosts : m.Hosts r.draft) (hagrees : m.Agrees p.draft a c) :
    m.Returns c answer ↔ answerOf (ev a) = some answer := by
  have hextends : q.draft.Extends r.draft := by
    cases hreturned with
    | already _ => exact .refl q.draft
    | now hlive => exact extends_endWith hlive _
  have hbody := hcomputes (hhosts.earlier hextends) a c hagrees trivial
  have houtcome : m.Outcome c (ev a) fun w a' c' => m.Returns c' ⟨w, a'.store, a'.trace⟩ := by
    refine hbody.mono fun w a' c' ⟨hc', _, hread⟩ => ?_
    cases hreturned with
    | already hdone =>
      -- a body that has left the function in all its arms gives no word
      rw [hc'.live] at hdone
      cases hdone
    | now hlive => exact simulates_ret (R := fun (_ : Unit) _ => True) hhosts a' c' hc' hread
  match hr : ev a with
  | .ok w a' =>
    rw [hr] at houtcome
    obtain ⟨c', hrun, hreturns⟩ := houtcome
    have hanswer := Runs.returns hrun hreturns
    exact ⟨fun h => congrArg some (hanswer.unique h), fun h => Option.some.inj h ▸ hanswer⟩
  | .error (.returned w) a' =>
    rw [hr] at houtcome
    exact ⟨fun h => congrArg some (houtcome.unique h), fun h => Option.some.inj h ▸ houtcome⟩
  | .error .undefined a' =>
    rw [hr] at houtcome
    exact ⟨fun h => absurd houtcome h.not_stuck, fun h => nomatch h⟩

/-! ### The start -/

/-- Distinct parameters are bound to themselves in their order. -/
private theorem foldl_bind_params_of_nodup {params : List Name} (hnodup : params.Nodup) (s : Scope)
    (hfresh : ∀ p ∈ params, p ∉ s.inner.map Prod.fst) :
    params.foldl (fun s p => s.bind p (.value (.param p .word))) s =
      ⟨s.inner ++ params.map fun p => (p, .value (.param p .word)), s.outer⟩ := by
  induction params generalizing s with
  | nil =>
    rw [List.map_nil, List.append_nil]
    rfl
  | cons p params ih =>
    rw [List.nodup_cons] at hnodup
    have hbind : s.bind p (.value (.param p .word)) =
        ⟨s.inner ++ [(p, .value (.param p .word))], s.outer⟩ := by
      rw [Scope.bind, Assoc.put_of_notMem (hfresh p List.mem_cons_self)]
    rw [List.foldl_cons, hbind, ih hnodup.2, List.append_assoc]
    · rfl
    · intro p' hp' hmem
      rw [List.map_append, List.mem_append, List.map_singleton, List.mem_singleton] at hmem
      rcases hmem with hmem | rfl
      · exact hfresh p' (List.mem_cons_of_mem _ hp') hmem
      · exact hnodup.1 hp'

/-- The local names at the start of a function with distinct parameters. -/
private theorem scope_start {params : List Name} (hnodup : params.Nodup) (name : Name)
    (globals : Globals) : (FunctionDraft.start name params globals).scope =
      ⟨params.map fun p => (p, .value (.param p .word)), [[]]⟩ :=
  foldl_bind_params_of_nodup hnodup Scope.empty.push fun _ _ => List.not_mem_nil

/-- At the start each parameter is bound to itself, and stands for its argument. -/
private theorem agrees_start {params : List Name} {args : List Int64} (hnodup : params.Nodup)
    (hlength : args.length = params.length) (hm : m.params = params.zip args) (name : Name)
    (globals : Globals) (store : Store) :
    m.Agrees (FunctionDraft.start name params globals) ⟨[params.zip args], store, []⟩
      (.start "entry" store) where
  live := rfl
  label := rfl
  index := rfl
  state := by
    have hkeys : ((params.zip args).map Prod.fst).Nodup := by
      rwa [List.map_fst_zip hlength.ge]
    rw [scope_start hnodup]
    refine ⟨rfl, rfl, .cons ?_ (.cons .nil .nil), List.cons_ne_nil _ _, ?_, ⟨nofun, nofun⟩⟩
    · -- parameter by parameter, in the order in which the arguments come
      refine List.forall₂_iff_get.mpr ⟨by simp [hlength], fun i hi hj => ?_⟩
      have hmem := List.get_mem (params.zip args) ⟨i, hi⟩
      have hread := Assoc.get?_of_mem hkeys hmem
      simp only [List.get_eq_getElem, List.getElem_zip, List.getElem_map] at hread ⊢
      refine ⟨rfl, rfl, trivial, ?_⟩
      rw [read, hm, hread]
      rfl
    · simp [slots, Scope.frames, frameSlots, Binding.slot?]

end Machine

/-! ### Answers -/

/-- A function that has been built from its start answers what its machine returns from there. -/
private theorem Site.Finishes.answers_iff {name : Name} {params : List Name} {globals : Globals}
    {done : FinishedFunction} {r : Site} (h : (Site.start name params globals).Finishes done r)
    (world : World) (args : List Int64) (store : Store) (answer : Answer) :
    done.function.Answers world args store answer ↔ args.length = params.length ∧
      (done.function.machine world args).Returns (.start "entry" store) answer := by
  have hparams : done.function.params = wordParams params := by
    rw [h.params, ((sound_start name params globals).later h.steps).params]
    rfl
  have hlength : done.function.params.length = params.length := by
    rw [hparams, wordParams, List.length_map]
  obtain ⟨b, hb, hlabel⟩ := Option.map_eq_some_iff.mp h.intactFlow.entry
  rw [Function.Answers, hlength, hb]
  refine and_congr_right fun _ => ⟨?_, fun hreturns => ⟨b, rfl, hlabel ▸ hreturns⟩⟩
  rintro ⟨b', hb', hreturns⟩
  obtain rfl := Option.some.inj hb'
  exact hlabel ▸ hreturns

private theorem Site.Finishes.machine_params {name : Name} {params : List Name} {globals : Globals}
    {done : FinishedFunction} {r : Site} (h : (Site.start name params globals).Finishes done r)
    (world : World) (args : List Int64) :
    (done.function.machine world args).params = params.zip args := by
  rw [Function.machine, h.params, ((sound_start name params globals).later h.steps).params,
    wordParams, List.map_map]
  exact congrArg (List.zip · args) (List.map_id params)

/-- A function whose body computes what `ev` evaluates, called with the right number of arguments,
answers what `ev` answers from a frame that holds them. -/
private theorem Site.Finishes.answers_iff_answerOf {name : Name} {params : List Name}
    {globals : Globals}
    {done : FinishedFunction} {q r : Site} {v : Operand} {ev : Eval Int64} {world : World}
    {args : List Int64} (h : (Site.start name params globals).Finishes done r)
    (hparams : params.Nodup) (hreturned : q.Returned v r)
    (hcomputes : (done.function.machine world args).Computes (fun _ => True) ev
      (.start name params globals) v q)
    (store : Store) (answer : Answer) :
    done.function.Answers world args store answer ↔ args.length = params.length ∧
      answerOf (ev ⟨[params.zip args], store, []⟩) = some answer := by
  rw [h.answers_iff]
  refine and_congr_right fun hlength => ?_
  exact returns_iff_answerOf hcomputes hreturned (h.hosts rfl)
    (agrees_start hparams hlength (h.machine_params world args) name globals store)

/-- The frame of a body is closed when its answer is known. -/
private theorem answerOf_inFrame (ev : Eval Int64) (a : Activation) :
    answerOf (Eval.inFrame ev a) = answerOf (ev { a with locals := [] :: a.locals }) := by
  have hrun : Eval.inFrame ev a = EStateM.bind ev (fun x => do
      modify fun a => { a with locals := a.locals.tail }
      return x) { a with locals := [] :: a.locals } := rfl
  rw [hrun, EStateM.bind]
  match ev { a with locals := [] :: a.locals } with
  | .ok x a' => rfl
  | .error (.returned w) a' => rfl
  | .error .undefined a' => rfl

section

variable {unit : CompileUnit} {done : FinishedFunction} (world : World) (store : Store)
  (answer : Answer)

private theorem lowerFunction_answers_iff {f : PendingFunction} (hparams : f.lambda.params.Nodup)
    (hbody : areFirstOrder f.lambda.body = true) (h : (lowerFunction unit f).1 = .ok done)
    (args : List Int64) :
    done.function.Answers world args store answer ↔
      f.lambda.answer? world f.globals args store = some answer := by
  -- lowering is done once, so the function it gives may be known before its code is followed
  let m : Machine := done.function.machine world args
  have hbound : ∀ name ∈ f.lambda.params,
      (Site.start f.name f.lambda.params f.globals).draft.scope.inner.get? name =
        some (.value (.param name .word)) := by
    intro name hname
    change Assoc.get? (FunctionDraft.start _ _ _).scope.inner name = _
    rw [scope_start hparams]
    refine Assoc.get?_of_mem ?_ (List.mem_map_of_mem hname)
    rw [List.map_map]
    exact (List.map_id f.lambda.params).symm ▸ hparams
  have hwhole := lowerWhole_leads (sound_start _ _ _) (lowerBody_computes (m := m)
    (spilling_start (assignedAll f.lambda.body) f.name f.lambda.params f.globals) hparams hbound
    (List.Subset.refl _) hbody rfl)
  have houtcome := buildFunction_outcome unit hwhole
  have hdone : (buildFunction unit (Site.start f.name f.lambda.params f.globals).draft _).1 =
      .ok done := h
  rw [hdone] at houtcome
  obtain ⟨r, hfinishes, v, q, hcomputes, hreturned⟩ := houtcome
  rw [hfinishes.answers_iff_answerOf hparams hreturned hcomputes, answerOf_inFrame, Lambda.answer?]
  split
  · next hlength => exact and_iff_right hlength
  · next hlength => exact ⟨fun hanswers => absurd hanswers.1 hlength, fun hnone => by cases hnone⟩

private theorem lowerEntry_answers_iff {forms : List Expr} {skipped : List Nat} {globals : Globals}
    (hforms : formsAreFirstOrder skipped 0 forms = true)
    (h : (lowerEntry unit forms skipped globals).1 = .ok done) :
    done.function.Answers world [] store answer ↔
      programAnswer? forms skipped world globals store = some answer := by
  let m : Machine := done.function.machine world []
  have hready : (Site.start unit.entry [] globals).Ready (assignedAll forms) :=
    (spilling_start _ _ _ _).ready
  have hcode := (lowerForms_computes (m := m) hready skipped 0 (sees_word _ 0) forms
    (List.Subset.refl _) hforms rfl).mono fun v q hq =>
      (⟨hq.1.ends rfl, (hq.2 0).of_imp fun c _ => reads_word m c _ 0⟩ :
        (Site.start unit.entry [] globals).Ends v q ∧ m.Computes (fun _ => True) _ _ v q)
  have houtcome := buildFunction_outcome unit (lowerWhole_leads (sound_start _ _ _) hcode)
  have hdone : (buildFunction unit (Site.start unit.entry [] globals).draft _).1 = .ok done := h
  rw [hdone] at houtcome
  obtain ⟨r, hfinishes, v, q, hcomputes, hreturned⟩ := houtcome
  rw [hfinishes.answers_iff_answerOf List.nodup_nil hreturned hcomputes]
  exact and_iff_right rfl

end

/-- **Lowering preserves meaning.** Where lowering succeeds and the source is made of words, the
code gives an answer exactly if evaluation does, and it is the same: for functions with distinct
parameters and for the entry function of a program, in every world, for all arguments and top level
names. -/
theorem lowered_answers_iff (unit : CompileUnit) (f : PendingFunction) (forms : List Expr)
    (skipped : List Nat) (globals : Globals) (world : World) (store : Store) (answer : Answer) :
    (∀ done, (lowerFunction unit f).1 = .ok done → f.lambda.params.Nodup →
      areFirstOrder f.lambda.body = true → ∀ args,
        (done.function.Answers world args store answer ↔
          f.lambda.answer? world f.globals args store = some answer)) ∧
    (∀ done, (lowerEntry unit forms skipped globals).1 = .ok done →
      formsAreFirstOrder skipped 0 forms = true →
        (done.function.Answers world [] store answer ↔
          programAnswer? forms skipped world globals store = some answer)) :=
  ⟨fun _ hdone hparams hbody args =>
      lowerFunction_answers_iff world store answer hparams hbody hdone args,
    fun _ hdone hforms => lowerEntry_answers_iff world store answer hforms hdone⟩

/-- A function that assigns to its parameter and to a top level variable, and returns early with the
result of a call. -/
def tallied : PendingFunction :=
  ⟨"f", ⟨["n"], [
    .define "k" (.binary (.word .add) (.var "n") (.integer 1)),
    .assign "n" (.binary (.word .multiply) (.var "n") (.var "k")),
    .ifElse (.binary (.compare .less) (.var "n") (.integer 10))
      (.ret (.call (.var "g") [.var "n"])) (.integer 0),
    .assign "total" (.var "n"),
    .var "k"]⟩, [("total", .var), ("g", .function 1)]⟩

/-- A world in which all calls give the number of their arguments. -/
def countingWorld : World :=
  ⟨fun _ => 0, fun _ args store => (.ofNat args.length, store)⟩

/-- Top level forms that give a variable its value and call a function. -/
def talliedForms : List Expr :=
  [.define "total" (.integer 4), .call (.var "g") [.var "total"]]

theorem lowered_answers_iff_tallied : ∃ done entry,
    (lowerFunction (.start "m" "main") tallied).1 = .ok done ∧
      (lowerEntry (.start "m" "main") talliedForms [] tallied.globals).1 = .ok entry ∧
      done.function.Answers countingWorld [2] (fun _ => 0)
        ⟨1, fun _ => 0, [⟨.named "g", [6], fun _ => 0⟩]⟩ ∧
      done.function.Answers countingWorld [5] (fun _ => 0)
        ⟨6, Function.update (fun _ => 0) "total" 30, []⟩ ∧
      entry.function.Answers countingWorld [] (fun _ => 0)
        ⟨1, Function.update (fun _ => 0) "total" 4,
          [⟨.named "g", [4], Function.update (fun _ => 0) "total" 4⟩]⟩ := by
  have hsome : (lowerFunction (.start "m" "main") tallied).1.toOption.map
      (fun _ => ()) = some () := by
    cbv
  have hsome' : (lowerEntry (.start "m" "main") talliedForms [] tallied.globals).1.toOption.map
      (fun _ => ()) = some () := by
    cbv
  obtain ⟨done, hok, -⟩ := exists_ok_of_toOption hsome
  obtain ⟨entry, hok', -⟩ := exists_ok_of_toOption hsome'
  have hiff := fun answer => lowered_answers_iff (.start "m" "main") tallied talliedForms []
    tallied.globals countingWorld (fun _ => 0) answer
  have hfunction := fun answer => (hiff answer).1 done hok (by decide) (by cbv)
  have hentry := fun answer => (hiff answer).2 entry hok' (by cbv)
  exact ⟨done, entry, hok, hok', (hfunction _ [2]).mpr (by cbv), (hfunction _ [5]).mpr (by cbv),
    (hentry _).mpr (by cbv)⟩

end WordScheme
