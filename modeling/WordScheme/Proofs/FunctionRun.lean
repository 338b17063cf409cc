import Mathlib
import WordScheme.Proofs.LoweringRun
import WordScheme.Proofs.Reachability

/-!
# Whole functions as runs of steps

A function starts as a draft with one empty block. Its parameters that are assigned to move into
cells, which makes the site ready for its body; a body of top level forms finds it ready at once.
`lowerWhole_leads` puts the traversal and the check of the finished draft together: building a
function fails with an error of the source, or gives the blocks of a sound site that steps lead to
from the start (`Finishes`).
-/

namespace WordScheme

open NameSupply FunctionDraft Site Lower

/-! ### Association lists with distinct keys -/

namespace Assoc

variable {α β : Type} [DecidableEq α]

/-- A key is put in place, or behind the others if it is new. -/
private theorem keys_put (m : Assoc α β) (key : α) (value : β) :
    (m.put key value).map Prod.fst =
      if key ∈ m.map Prod.fst then m.map Prod.fst else m.map Prod.fst ++ [key] := by
  induction m with
  | nil => simp [put]
  | cons p m ih =>
    by_cases hp : p.1 = key
    · simp [put, hp]
    · rw [put, if_neg hp, List.map_cons, ih, List.map_cons]
      by_cases hk : key ∈ m.map Prod.fst
      · rw [if_pos hk, if_pos (List.mem_cons_of_mem _ hk)]
      · rw [if_neg hk, if_neg (by simp [hk, Ne.symm hp])]
        rfl

/-- No key is put in twice. -/
theorem nodup_keys_put {m : Assoc α β} (h : (m.map Prod.fst).Nodup) (key : α) (value : β) :
    ((m.put key value).map Prod.fst).Nodup := by
  rw [keys_put]
  split
  · exact h
  · next hk => exact List.Nodup.append h (List.nodup_singleton key) (List.disjoint_singleton.mpr hk)

/-- Where keys are distinct nothing is left of the old value of a key. -/
private theorem mem_put_of_nodup {m : Assoc α β} (hm : (m.map Prod.fst).Nodup) {key : α} {value : β}
    {x : α × β} (h : x ∈ m.put key value) : (x ∈ m ∧ x.1 ≠ key) ∨ x = (key, value) := by
  by_cases hx : x.1 = key
  · have hself := mem_of_get? (get?_put_self m key value)
    exact .inr (List.inj_on_of_nodup_map (nodup_keys_put hm key value) h hself hx)
  · exact (mem_put h).imp_left fun hmem => ⟨hmem, hx⟩

theorem has_of_mem {m : Assoc α β} {x : α × β} (h : x ∈ m) : m.has x.1 = true := by
  induction m with
  | nil => cases h
  | cons p m ih =>
    rw [has, get?]
    split
    · rfl
    · next hne =>
      rcases List.mem_cons.mp h with rfl | h
      · exact absurd rfl hne
      · exact ih h

end Assoc

/-! ### The start of a function -/

namespace Site

/-- The site at which a function starts. -/
def start (name : Name) (params : List Name) (globals : Globals) : Site :=
  ⟨.start name params globals, [], []⟩

/-- A draft starts with one block, which is empty. -/
theorem block?_start {name : Name} {params : List Name} {globals : Globals} {i : Nat}
    {b : BlockDraft} (h : (FunctionDraft.start name params globals).block? i = some b) :
    i = 0 ∧ b = ⟨"entry", [], none⟩ := by
  change [(⟨"entry", [], none⟩ : BlockDraft)][i]? = some b at h
  rw [List.getElem?_singleton] at h
  split_ifs at h with hi
  exact ⟨hi, (Option.some.inj h).symm⟩

/-- A draft starts without jumps. -/
private theorem not_goes_start {name : Name} {params : List Name} {globals : Globals}
    {l l' : Name} : ¬ (FunctionDraft.start name params globals).Goes l l' := by
  rintro ⟨i, b, t, hb, -, ht, -⟩
  obtain ⟨-, rfl⟩ := block?_start hb
  cases ht

/-- A function starts at a sound site. -/
theorem sound_start (name : Name) (params : List Name) (globals : Globals) :
    (start name params globals).Sound where
  labelled := by
    refine ⟨positive_empty.fresh "entry", fun hb => ?_, fun hb hc _ => ?_⟩
    · obtain ⟨-, rfl⟩ := block?_start hb
      refine ⟨"entry", 0, by simp [Undigited], ?_, rfl⟩
      change 0 < (NameSupply.empty.fresh "entry").2.count "entry"
      rw [count_fresh_self]
      exact Nat.succ_pos _
    · rw [(block?_start hb).1, (block?_start hc).1]
  entry := ⟨⟨"entry", [], none⟩, rfl, rfl⟩
  waiting_nodup := List.nodup_nil
  waiting_empty := fun x hx => nomatch hx
  entered := List.not_mem_nil
  entry_entered := List.not_mem_nil
  ended := fun hb _ => .inl (block?_start hb).1
  targets := fun hg => absurd hg not_goes_start
  noted := fun x hx => nomatch hx
  phis := by
    intro i b k s incoming hb hs
    obtain ⟨-, rfl⟩ := block?_start hb
    cases hs
  reached := by
    intro i b hb _
    obtain ⟨-, rfl⟩ := block?_start hb
    exact .inl .refl

end Site

/-! ### Parameters -/

namespace Scope

/-- Binding parameters to themselves, one after the other. -/
theorem foldl_bind_params (params : List Name) (s : Scope) (h : (s.inner.map Prod.fst).Nodup) :
    let t := params.foldl (fun s p => s.bind p (.value (.param p .word))) s
    t.outer = s.outer ∧ (t.inner.map Prod.fst).Nodup ∧
      ∀ x ∈ t.inner, x ∈ s.inner ∨ ∃ p ∈ params, x = (p, .value (.param p .word)) := by
  induction params generalizing s with
  | nil => exact ⟨rfl, h, fun x hx => .inl hx⟩
  | cons p params ih =>
    obtain ⟨houter, hnodup, hmem⟩ := ih (s.bind p (.value (.param p .word)))
      (Assoc.nodup_keys_put h _ _)
    refine ⟨houter, hnodup, fun x hx => ?_⟩
    rcases hmem x hx with hx | ⟨p', hp', rfl⟩
    · exact (Assoc.mem_put hx).imp_right fun heq => ⟨p, List.mem_cons_self, heq⟩
    · exact .inr ⟨p', List.mem_cons_of_mem _ hp', rfl⟩

/-- Where the outer frame is empty, a change is made in the inner one. -/
private theorem rebind_inner_of_empty (s : Scope) (houter : s.outer = [[]]) (name : Name)
    (b : Binding) : (s.rebind name b).outer = [[]] ∧
      (s.rebind name b).inner = if s.inner.has name then s.inner.put name b else s.inner := by
  rw [rebind_eq]
  split
  · exact ⟨houter, rfl⟩
  · rw [houter]
    exact ⟨rfl, rfl⟩

end Scope

namespace Site

/-- A site on the way from the start of a function to its body: the parameters `rest` have not yet
been moved. -/
structure Spilling (assigned rest : List Name) (p : Site) : Prop where
  sound : p.Sound
  waiting : p.waiting = []
  outer : p.draft.scope.outer = [[]]
  keys : (p.draft.scope.inner.map Prod.fst).Nodup
  sees : ∀ x ∈ p.draft.scope.inner, p.Sees x.2.operand
  slots : ∀ x ∈ p.draft.scope.inner, x.1 ∈ assigned →
    (∃ pointer, x.2 = .slot pointer) ∨ x.1 ∈ rest
  params : rest ⊆ p.draft.params

/-- At its start a function has all parameters to spill. -/
theorem spilling_start (assigned : List Name) (name : Name) (params : List Name)
    (globals : Globals) : (start name params globals).Spilling assigned params := by
  obtain ⟨houter, hkeys, hmem⟩ := Scope.foldl_bind_params params Scope.empty.push List.nodup_nil
  have hparam : ∀ x ∈ (start name params globals).draft.scope.inner,
      ∃ p ∈ params, x = (p, .value (.param p .word)) :=
    fun x hx => (hmem x hx).resolve_left List.not_mem_nil
  refine ⟨sound_start name params globals, rfl, houter, hkeys, fun x hx => ?_, fun x hx _ => ?_,
    List.Subset.refl _⟩
  · obtain ⟨p, hp, rfl⟩ := hparam x hx
    exact hp
  · obtain ⟨p, hp, rfl⟩ := hparam x hx
    exact .inr hp

variable {assigned : List Name} {p : Site}

/-- When all parameters have been moved the site is ready. -/
theorem Spilling.ready (h : p.Spilling assigned []) : p.Ready assigned := by
  have hframes : ∀ frame ∈ p.draft.scope.frames, ∀ x ∈ frame, x ∈ p.draft.scope.inner := by
    intro frame hf x hx
    -- the one frame outside that of the parameters is the empty one of the top level
    rw [Scope.frames, h.outer, List.mem_cons, List.mem_singleton] at hf
    rcases hf with rfl | rfl
    · exact hx
    · cases hx
  refine ⟨h.sound, fun frame hf x hx hname => ?_, fun frame hf x hx => ?_⟩
  · exact (h.slots x (hframes frame hf x hx) hname).resolve_right List.not_mem_nil
  · exact h.sees x (hframes frame hf x hx)

/-- A parameter that is not assigned to stays where it is. -/
theorem Spilling.skip {name : Name} {rest : List Name} (h : p.Spilling assigned (name :: rest))
    (hname : name ∉ assigned) : p.Spilling assigned rest := by
  refine { h with slots := fun x hx hx' => ?_, params := (List.cons_subset.mp h.params).2 }
  rcases h.slots x hx hx' with hslot | hrest
  · exact .inl hslot
  · rcases List.mem_cons.mp hrest with heq | hrest
    · exact absurd (heq ▸ hx') hname
    · exact .inr hrest

/-- The site once a parameter has been moved into a cell. -/
def spill (p : Site) (name : Name) : Site :=
  let pointer : Operand := .register (p.draft.registers + 1) .ptr
  let stored := (p.emit (.alloca .word)).emitEffect (.store (.param name .word) pointer)
  stored.rescope (stored.draft.scope.rebind name (.slot pointer))

theorem scope_spill (p : Site) (name : Name) : (p.spill name).draft.scope =
    p.draft.scope.rebind name (.slot (.register (p.draft.registers + 1) .ptr)) := by
  change Scope.rebind _ _ _ = _
  rw [scope_emitEffect, scope_emit]

/-- Moving a parameter into its cell is a run of steps. -/
theorem steps_spill {name : Name} (hname : name ∈ p.draft.params) : Steps p (p.spill name) := by
  have halloca : Step p (p.emit (.alloca .word)) := .emit rfl fun o ho => nomatch ho
  have hstore : Step (p.emit (.alloca .word)) ((p.emit (.alloca .word)).emitEffect
      (.store (.param name .word) (.register (p.draft.registers + 1) .ptr))) := by
    refine .emitEffect rfl fun o ho => ?_
    rw [Instruction.operands, List.mem_cons, List.mem_singleton] at ho
    rcases ho with rfl | rfl
    · exact sees_emit (o := .param name .word) hname
    · exact List.mem_cons_self
  exact ((Relation.ReflTransGen.single halloca).tail hstore).tail (.rescope _)

/-- A parameter that is moved is one less to spill. -/
theorem Spilling.spill {name : Name} {rest : List Name} (h : p.Spilling assigned (name :: rest)) :
    (p.spill name).Spilling assigned rest := by
  obtain ⟨hname, hrest⟩ := List.cons_subset.mp h.params
  have hsteps := steps_spill hname
  have hsees : ∀ o, p.Sees o → (p.spill name).Sees o := fun o ho => sees_emitEffect (sees_emit ho)
  let pointer : Operand := .register (p.draft.registers + 1) .ptr
  have hscope := scope_spill p name
  obtain ⟨houter, hinner⟩ := Scope.rebind_inner_of_empty p.draft.scope h.outer name (.slot pointer)
  -- a name in the frame is another one, or it has been moved
  have hmem : ∀ x ∈ (p.spill name).draft.scope.inner,
      (x ∈ p.draft.scope.inner ∧ x.1 ≠ name) ∨ x = (name, .slot pointer) := by
    intro x hx
    rw [hscope, hinner] at hx
    split at hx
    · exact Assoc.mem_put_of_nodup h.keys hx
    · next hhas =>
      refine .inl ⟨hx, fun heq => hhas ?_⟩
      rw [← heq]
      exact Assoc.has_of_mem hx
  refine ⟨h.sound.steps hsteps, h.waiting, by rw [hscope, houter], ?_, fun x hx => ?_,
    fun x hx hassigned => ?_, by rwa [(h.sound.later hsteps).params]⟩
  · rw [hscope, hinner]
    split
    · exact Assoc.nodup_keys_put h.keys _ _
    · exact h.keys
  · rcases hmem x hx with ⟨hx', -⟩ | rfl
    · exact hsees _ (h.sees x hx')
    · exact List.mem_cons_self
  · rcases hmem x hx with ⟨hx', hne⟩ | rfl
    · exact (h.slots x hx' hassigned).imp_right fun hr => (List.mem_cons.mp hr).resolve_left hne
    · exact .inl ⟨pointer, rfl⟩

end Site

variable {assigned : List Name} {p : Site}

/-- Spilling leads to a site without parameters to spill. -/
theorem spillParams_leads {names : List Name} (h : p.Spilling assigned names) :
    Leads p (spillParams assigned names) fun _ q => Steps p q ∧ q.Spilling assigned [] := by
  induction names generalizing p with
  | nil =>
    rw [spillParams]
    exact leads_pure ⟨.refl, h⟩
  | cons name names ih =>
    rw [spillParams]
    split
    · refine Leads.after (q := p.emit (.alloca .word)) leads_emit ?_
      refine Leads.after leads_store (Leads.after leads_onScope ?_)
      have hname := h.params List.mem_cons_self
      exact (ih h.spill).mono fun _ q hq => ⟨(steps_spill hname).trans hq.1, hq.2⟩
    · next hname => exact ih (h.skip (by simpa using hname))

/-! ### Bodies -/

namespace Site

/-- Lowering has come to the end of a body whose value is `v`. -/
structure Ends (p : Site) (v : Operand) (q : Site) : Prop where
  steps : Steps p q
  waiting : q.waiting = []
  sees : q.Sees v

/-- A body that is lowered to a value has come to its end. -/
theorem Lowered.ends {q : Site} {v : Operand} (h : p.Lowered assigned [v] q)
    (hwaiting : p.waiting = []) : p.Ends v q :=
  ⟨h.arrives.steps, h.arrives.waiting.trans hwaiting, h.sees_one⟩

end Site

/-- The body of a function leads to its end. -/
private theorem lowerBody_leads {lambda : Lambda} (h : p.Spilling assigned lambda.params)
    (hbody : assignedAll lambda.body ⊆ assigned) :
    Leads p (lowerBody assigned lambda) fun v q => p.Ends v q := by
  refine (spillParams_leads h).bind fun _ q hq => ?_
  obtain ⟨hsteps, hspilled⟩ := hq
  let q1 := q.rescope q.draft.scope.push
  have hpush : Step q q1 := .rescope _
  refine Leads.after (q := q1) leads_onScope ?_
  have hready : q1.Ready assigned :=
    hspilled.ready.push (hspilled.sound.step hpush) rfl fun _ ho => ho
  refine (lowerSequence_leads lambda.body hbody hready (sees_word q1 0)).bind fun v q2 hq2 => ?_
  have hpop : Step q2 (q2.rescope q2.draft.scope.pop) := .rescope _
  refine Leads.after (q := q2.rescope q2.draft.scope.pop) leads_onScope (leads_pure ?_)
  have hends := hq2.ends hspilled.waiting
  exact ⟨((hsteps.tail hpush).trans hends.steps).tail hpop, hends.waiting, hends.sees⟩

/-! ### Building -/

namespace Site

/-- A finished function is made of the blocks of a sound site that steps lead to from `p`. -/
structure Finishes (p : Site) (f : FinishedFunction) (q : Site) : Prop where
  steps : Steps p q
  sound : q.Sound
  waiting : q.waiting = []
  params : f.function.params = wordParams q.draft.params
  rows : q.draft.blocks.rows = f.function.blocks.map Block.toDraft

/-- The value of a body is returned, unless the body has left the function. -/
inductive Returned (v : Operand) (p : Site) : Site → Prop
  | already (h : p.draft.terminated = true) : Returned v p p
  | now (h : p.draft.terminated = false) : Returned v p (p.leave (.ret v) v)

end Site

/-- Once a body has ended and its value is returned, the draft passes its check. -/
theorem finish_leads {q : Site} (hsteps : Steps p q) (hsound : q.Sound) (hwaiting : q.waiting = [])
    (hdone : q.draft.terminated = true) {Q : FinishedFunction → Site → Prop}
    (hQ : ∀ f, p.Finishes f q → Q f q) :
    Leads q (do match (← get).draft.finish with
      | .ok finished => return finished
      | .error e => throw e : Lower FinishedFunction) Q := by
  obtain ⟨blocks, hrows, hfinish⟩ := hsound.finish_eq hwaiting hdone
  intro s hs
  have hrun : (do match (← get).draft.finish with
      | .ok finished => return finished
      | .error e => throw e : Lower FinishedFunction) s =
      .ok ⟨⟨q.draft.name, .word, wordParams q.draft.params, blocks⟩, q.draft.pending⟩ s := by
    change (match s.draft.finish with
      | .ok finished => (pure finished : Lower FinishedFunction)
      | .error e => throw e) s = _
    rw [hs, hfinish]
    rfl
  rw [hrun]
  exact ⟨q, hs.symm, hQ _ ⟨hsteps, hsound, hwaiting, rfl, hrows⟩⟩

/-- Building a function whose body is lowered by a run of which `R` holds. -/
theorem lowerWhole_leads (hsound : p.Sound) {body : Lower Operand} {R : Operand → Site → Prop}
    (hbody : Leads p body fun v q => p.Ends v q ∧ R v q) :
    Leads p (lowerWhole body) fun f r =>
      p.Finishes f r ∧ ∃ v q, R v q ∧ q.Returned v r := by
  refine hbody.bind fun v q ⟨hq, hR⟩ => ?_
  refine leads_ofDraft_bind ?_
  split
  · next hdone =>
    refine finish_leads hq.steps (hsound.steps hq.steps) hq.waiting hdone fun f hf => ?_
    exact ⟨hf, v, q, hR, .already hdone⟩
  · next hlive =>
    rw [Bool.not_eq_true] at hlive
    have hret := hq.steps.tail (step_ret hq.sees hlive)
    refine Leads.after (q := q.leave (.ret v) v) (leads_terminate hlive rfl) ?_
    refine finish_leads hret (hsound.steps hret) ((waiting_ret q v).trans hq.waiting)
      (terminated_endWith _ _) fun f hf => ?_
    exact ⟨hf, v, q, hR, .now hlive⟩

/-- **Building a function** fails with an error of the source, or gives a function of which all is
known that is known of where its steps lead. -/
theorem buildFunction_outcome (unit : CompileUnit) {body : Lower Operand}
    {Q : FinishedFunction → Site → Prop} (hwhole : Leads p (lowerWhole body) Q) :
    match (buildFunction unit p.draft body).1 with
    | .ok f => ∃ q, Q f q
    | .error e => e.AtSource := by
  have hrun := hwhole ⟨{ unit with lifted := [] }, p.draft⟩ rfl
  rw [buildFunction, EStateM.run]
  cases hr : lowerWhole body ⟨{ unit with lifted := [] }, p.draft⟩ with
  | ok finished s =>
    rw [hr] at hrun
    obtain ⟨q, -, hq⟩ := hrun
    exact ⟨q, hq⟩
  | error e s =>
    rw [hr] at hrun
    exact hrun

/-- A result of which something is known is there. -/
theorem exists_ok_of_toOption {ε α β : Type} {r : Except ε α} {g : α → β} {b : β}
    (h : r.toOption.map g = some b) : ∃ a, r = .ok a ∧ g a = b := by
  cases r with
  | error e => cases h
  | ok a => exact ⟨a, rfl, Option.some.inj h⟩

/-- Where a function is built, the finished function is made of the blocks of a sound site. -/
theorem lowerFunction_outcome (unit : CompileUnit) (f : PendingFunction) :
    match (lowerFunction unit f).1 with
    | .ok done => ∃ q, (Site.start f.name f.lambda.params f.globals).Finishes done q
    | .error e => e.AtSource := by
  have hbody := lowerBody_leads (spilling_start (assignedAll f.lambda.body) f.name f.lambda.params
    f.globals) (List.Subset.refl _)
  have hwhole := lowerWhole_leads (R := fun _ _ => True) (sound_start _ _ _)
    (hbody.mono fun _ _ hq => ⟨hq, trivial⟩)
  exact buildFunction_outcome unit (hwhole.mono fun _ _ hq => hq.1)

/-- **The entry function is finished at a sound site, or refused for its source.** -/
theorem lowerEntry_outcome (unit : CompileUnit) (forms : List Expr) (skipped : List Nat)
    (globals : Globals) :
    match (lowerEntry unit forms skipped globals).1 with
    | .ok done => ∃ q, (Site.start unit.entry [] globals).Finishes done q
    | .error e => e.AtSource := by
  have hready : (Site.start unit.entry [] globals).Ready (assignedAll forms) :=
    (spilling_start _ _ _ _).ready
  have hforms := lowerForms_leads hready skipped 0 (sees_word _ 0) forms (List.Subset.refl _)
  have hwhole := lowerWhole_leads (R := fun _ _ => True) (sound_start _ _ _)
    (hforms.mono fun _ _ hq => ⟨hq.ends rfl, trivial⟩)
  exact buildFunction_outcome unit (hwhole.mono fun _ _ hq => hq.1)

/-- A function of either kind that has been built is made of the blocks of a sound site. -/
theorem exists_finishes {unit : CompileUnit} {f : PendingFunction} {forms : List Expr}
    {skipped : List Nat} {globals : Globals} {done : FinishedFunction}
    (h : (lowerFunction unit f).1 = .ok done ∨
      (lowerEntry unit forms skipped globals).1 = .ok done) :
    ∃ name params globals q, (Site.start name params globals).Finishes done q := by
  rcases h with h | h
  · have houtcome := lowerFunction_outcome unit f
    rw [h] at houtcome
    exact ⟨_, _, _, houtcome⟩
  · have houtcome := lowerEntry_outcome unit forms skipped globals
    rw [h] at houtcome
    exact ⟨_, _, _, houtcome⟩

end WordScheme
