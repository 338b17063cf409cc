import Mathlib
import WordScheme.Proofs.Soundness
import WordScheme.Proofs.Traversal

/-!
# Lowering as a run of steps

`Lower.Leads p m Q` says that `m`, started at the site `p`, either ends at a site for which `Q`
holds or fails with an error that the source is to blame for. Its rules follow the monad: one for
`>>=`, one for each primitive operation.

What is shown of every part of the lowering is `Lowered`: it leads from a site that is `Ready` to
one that is again, in which the value can be used, by steps of `Site.Step`, and with the blocks that
wait and the outer frames of local names as they were. The last point needs the other half of
`Ready`: names that the body assigns to live in cells, so that no assignment changes a binding. This
file has the parts that do not recurse.
-/

namespace WordScheme

open NameSupply FunctionDraft

namespace Lower

/-! ### Rules -/

/-- From the site `p` the steps of `m` lead to a site with `Q`, or to an error of the source. -/
def Leads {α : Type} (p : Site) (m : Lower α) (Q : α → Site → Prop) : Prop :=
  ∀ s : LowerState, s.draft = p.draft →
    match m s with
    | .ok a s' => ∃ q : Site, q.draft = s'.draft ∧ Q a q
    | .error e _ => e.AtSource

section Rules

variable {α β : Type} {p : Site} {m : Lower α} {Q : α → Site → Prop}

theorem Leads.mono {R : α → Site → Prop} (h : Leads p m Q) (hQR : ∀ a q, Q a q → R a q) :
    Leads p m R := by
  intro s hs
  have hm := h s hs
  cases hr : m s with
  | ok a s' =>
    rw [hr] at hm
    obtain ⟨q, hq, hQ⟩ := hm
    exact ⟨q, hq, hQR a q hQ⟩
  | error e s' =>
    rw [hr] at hm
    exact hm

/-- One step after another. -/
theorem Leads.bind {f : α → Lower β} {R : β → Site → Prop} (h : Leads p m Q)
    (hf : ∀ a q, Q a q → Leads q (f a) R) : Leads p (m >>= f) R := by
  intro s hs
  have hm := h s hs
  change match EStateM.bind m f s with
    | .ok b s' => ∃ q : Site, q.draft = s'.draft ∧ R b q
    | .error e _ => e.AtSource
  rw [EStateM.bind]
  cases hr : m s with
  | ok a s' =>
    rw [hr] at hm
    obtain ⟨q, hq, hQ⟩ := hm
    exact hf a q hQ s' hq.symm
  | error e s' =>
    rw [hr] at hm
    exact hm

/-- What a run has led to is what it gave. -/
theorem Leads.of_run (h : Leads p m Q) :
    Leads p m fun a q => (∃ s t, m s = .ok a t) ∧ Q a q := by
  intro s hs
  have hm := h s hs
  cases hr : m s with
  | ok a t =>
    rw [hr] at hm
    obtain ⟨q, hq, hQ⟩ := hm
    exact ⟨q, hq, ⟨s, t, hr⟩, hQ⟩
  | error e t =>
    rw [hr] at hm
    exact hm

/-- A step of which everything is known, and what comes after it. -/
theorem Leads.after {f : α → Lower β} {R : β → Site → Prop} {a : α} {q : Site}
    (hm : ∀ {S : α → Site → Prop}, S a q → Leads p m S) (hf : Leads q (f a) R) :
    Leads p (m >>= f) R :=
  (hm (S := fun b r => b = a ∧ r = q) ⟨rfl, rfl⟩).bind fun _ _ hr => hr.1 ▸ hr.2 ▸ hf

theorem leads_pure {a : α} (h : Q a p) : Leads p (pure a) Q :=
  fun _ hs => ⟨p, hs.symm, h⟩

/-- Only an error of the source may be raised. -/
theorem leads_throw {e : CompileError} (h : e.AtSource) : Leads p (throw e : Lower α) Q :=
  fun _ _ => h

/-- What is asked of the module leaves the site as it is. -/
private theorem leads_onUnit {f : CompileUnit → α × CompileUnit} (h : ∀ u, Q (f u).1 p) :
    Leads p (onUnit f) Q :=
  fun s hs => ⟨p, hs.symm, h s.unit⟩

private theorem leads_ofDraft {f : FunctionDraft → α} (h : Q (f p.draft) p) :
    Leads p (ofDraft f) Q := by
  intro s hs
  refine ⟨p, hs.symm, ?_⟩
  rw [hs]
  exact h

/-- Reading something off the draft changes nothing. -/
theorem leads_ofDraft_bind {f : FunctionDraft → α} {g : α → Lower β} {R : β → Site → Prop}
    (h : Leads p (g (f p.draft)) R) : Leads p (ofDraft f >>= g) R :=
  (leads_ofDraft (Q := fun a q => a = f p.draft ∧ q = p) ⟨rfl, rfl⟩).bind
    fun _ _ hq => hq.1 ▸ hq.2 ▸ h

/-- A step on the unit leaves the draft alone. -/
theorem leads_onUnit_bind {f : CompileUnit → α × CompileUnit} {g : α → Lower β}
    {R : β → Site → Prop} (h : ∀ u, Leads p (g (f u).1) R) : Leads p (onUnit f >>= g) R :=
  (leads_onUnit (Q := fun a q => (∃ u, a = (f u).1) ∧ q = p) fun u => ⟨⟨u, rfl⟩, rfl⟩).bind
    fun _ _ ⟨⟨u, hu⟩, hq⟩ => hu ▸ hq ▸ h u

/-- A step on the draft leads to every site whose draft is the result. -/
private theorem leads_onDraft {f : FunctionDraft → α × FunctionDraft} {q : Site}
    (hq : q.draft = (f p.draft).2) (h : Q (f p.draft).1 q) : Leads p (onDraft f) Q := by
  intro s hs
  refine ⟨q, ?_, ?_⟩
  · rw [hq, ← hs]
  · rw [hs]
    exact h

/-- A step that reads the state goes on with it. -/
theorem get_bind {β : Type} (f : LowerState → Lower β) (s : LowerState) :
    ((get : Lower LowerState) >>= f) s = f s s :=
  rfl

/-- An operation on the draft leaves the module as it is, whether it succeeds or fails. -/
theorem tryDraft_eq {α : Type} (f : FunctionDraft → EStateM.Result CompileError FunctionDraft α)
    (s : LowerState) : tryDraft f s = match f s.draft with
      | .ok a d => .ok a { s with draft := d }
      | .error e d => .error e { s with draft := d } :=
  rfl

/-- An operation that succeeds leads to the site of the draft it gives. -/
private theorem leads_tryDraft {f : FunctionDraft → EStateM.Result CompileError FunctionDraft Unit}
    {R : Unit → Site → Prop} {q : Site} (hq : f p.draft = .ok () q.draft) (h : R () q) :
    Leads p (tryDraft f) R := by
  intro s hs
  have hrun : tryDraft f s = .ok () { s with draft := q.draft } := by
    rw [tryDraft_eq, hs, hq]
  rw [hrun]
  exact ⟨q, rfl, h⟩

/-- An instruction is written to the site, and gives the next register. -/
theorem leads_emit {i : Instruction} {R : Operand → Site → Prop}
    (h : R (.register (p.draft.registers + 1) i.resultTy) (p.emit i)) : Leads p (emit i) R :=
  leads_onDraft (f := fun d => d.emit i) rfl h

theorem leads_store {value pointer : Operand} {R : Unit → Site → Prop}
    (h : R () (p.emitEffect (.store value pointer))) : Leads p (store value pointer) R :=
  leads_onDraft (f := fun d => ((), d.emitEffect (.store value pointer))) rfl h

theorem leads_onScope {f : Scope → Scope} {R : Unit → Site → Prop}
    (h : R () (p.rescope (f p.draft.scope))) : Leads p (onScope f) R :=
  leads_onDraft (f := fun d => ((), { d with scope := f d.scope })) rfl h

theorem leads_addBlock {base : Name} {R : BlockRef → Site → Prop}
    (h : R (p.draft.addBlock base).1 (p.addBlock base)) : Leads p (addBlock base) R :=
  leads_onDraft (f := fun d => d.addBlock base) rfl h

/-- A terminator ends the current block of a live site. -/
theorem leads_terminate {t : Terminator} {R : Unit → Site → Prop} {q : Site}
    (hlive : p.draft.terminated = false) (hq : q.draft = p.draft.endWith t) (h : R () q) :
    Leads p (terminate t) R :=
  leads_tryDraft (f := fun d => d.terminate t) (by rw [hq]; exact terminate_of_live hlive t) h

/-- The current block of a site can be any block there is. -/
theorem leads_moveTo {block : BlockRef} {R : Unit → Site → Prop} {q : Site}
    (hlt : block.index < p.draft.blocks.size) (hq : q.draft = p.draft.goTo block.index hlt)
    (h : R () q) : Leads p (moveTo block) R :=
  leads_tryDraft (f := fun d => d.moveTo block.index) (by rw [hq]; exact moveTo_of_lt hlt) h

end Rules

end Lower

/-! ### Where lowering starts and ends -/

/-- The operand behind a binding. -/
def Binding.operand : Binding → Operand
  | .value operand => operand
  | .slot pointer => pointer

namespace Site

/-- A site in which the names that are assigned to live in cells, and all local names can be
used. -/
structure Ready (assigned : List Name) (p : Site) : Prop where
  sound : p.Sound
  slots : ∀ frame ∈ p.draft.scope.frames, ∀ x ∈ frame,
    x.1 ∈ assigned → ∃ pointer, x.2 = .slot pointer
  sees : ∀ frame ∈ p.draft.scope.frames, ∀ x ∈ frame, p.Sees x.2.operand

/-- What lowering keeps on its way from one site to another. -/
structure Arrives (p q : Site) : Prop where
  steps : Steps p q
  waiting : q.waiting = p.waiting
  outer : q.draft.scope.outer = p.draft.scope.outer
  sees : ∀ o, p.Sees o → q.Sees o

/-- Lowering has arrived at a site at which these operands can be used. -/
structure Lowered (assigned : List Name) (p : Site) (operands : List Operand) (q : Site) :
    Prop where
  arrives : p.Arrives q
  ready : q.Ready assigned
  sees : ∀ o ∈ operands, q.Sees o

variable {assigned : List Name} {p q r : Site}

private theorem Arrives.refl (p : Site) : p.Arrives p :=
  ⟨.refl, rfl, rfl, fun _ h => h⟩

private theorem Arrives.trans (h : p.Arrives q) (h' : q.Arrives r) : p.Arrives r :=
  ⟨h.steps.trans h'.steps, h'.waiting.trans h.waiting, h'.outer.trans h.outer,
    fun o ho => h'.sees o (h.sees o ho)⟩

/-- Lowering may do nothing, if the values can be used already. -/
theorem Ready.lowered (h : p.Ready assigned) {operands : List Operand}
    (hsees : ∀ o ∈ operands, p.Sees o) : p.Lowered assigned operands p :=
  ⟨.refl p, h, hsees⟩

/-- Nothing is done, for a value that can be used already. -/
theorem Ready.lowered_one (h : p.Ready assigned) {v : Operand} (hv : p.Sees v) :
    p.Lowered assigned [v] p :=
  h.lowered fun _ ho => List.mem_singleton.mp ho ▸ hv

/-- The values of the second of two steps can be used behind both. -/
theorem Lowered.trans {vs ws : List Operand} (h : p.Lowered assigned vs q)
    (h' : q.Lowered assigned ws r) : p.Lowered assigned ws r :=
  ⟨h.arrives.trans h'.arrives, h'.ready, h'.sees⟩

/-- A value stays usable while others are lowered. -/
theorem Lowered.and {vs ws : List Operand} (h : p.Lowered assigned vs q)
    (h' : q.Lowered assigned ws r) : p.Lowered assigned (vs ++ ws) r := by
  refine ⟨h.arrives.trans h'.arrives, h'.ready, fun o ho => ?_⟩
  rcases List.mem_append.mp ho with ho | ho
  · exact h'.arrives.sees o (h.sees o ho)
  · exact h'.sees o ho

theorem Lowered.sees_one {v : Operand} {vs : List Operand} (h : p.Lowered assigned (v :: vs) q) :
    q.Sees v :=
  h.sees v List.mem_cons_self

/-- The draft that lowering arrives at is a later state of the one it started from. -/
theorem Ready.later {operands : List Operand} (h : p.Ready assigned)
    (hq : p.Lowered assigned operands q) : p.draft.Later q.draft :=
  h.sound.later hq.arrives.steps

/-- Constants can be used everywhere. -/
@[simp]
theorem sees_word (p : Site) (value : Int64) : p.Sees (.word value) := trivial

/-- Addresses of globals can be used everywhere. -/
@[simp]
theorem sees_global (p : Site) (name : Name) (ty : Ty) : p.Sees (.global name ty) := trivial

/-- What can be used at a site can be used wherever no less has been seen. -/
theorem sees_mono {o : Operand} (hseen : p.seen ⊆ q.seen)
    (hparams : q.draft.params = p.draft.params) (h : p.Sees o) : q.Sees o := by
  rw [Sees, hparams]
  exact Operand.Within.mono h hseen

/-- A site stays ready while its scope stays the same and nothing becomes unusable. -/
theorem Ready.of_scope_eq (h : p.Ready assigned) (hq : q.Sound)
    (hscope : q.draft.scope = p.draft.scope) (hsees : ∀ o, p.Sees o → q.Sees o) :
    q.Ready assigned := by
  refine ⟨hq, ?_, ?_⟩
  · rw [hscope]
    exact h.slots
  · rw [hscope]
    exact fun frame hf x hx => hsees _ (h.sees frame hf x hx)

/-! ### Emission -/

theorem sees_emit {i : Instruction} {o : Operand} (h : p.Sees o) : (p.emit i).Sees o := by
  refine sees_mono (List.subset_cons_of_subset _ (List.Subset.refl _)) ?_ h
  simp [Site.emit, FunctionDraft.emit, FunctionDraft.freshRegister]

theorem sees_emitEffect {i : Instruction} {o : Operand} (h : p.Sees o) :
    (p.emitEffect i).Sees o := by
  refine sees_mono (p := p) (List.Subset.refl p.seen) ?_ h
  simp [Site.emitEffect, FunctionDraft.emitEffect]

@[simp]
theorem scope_emit (p : Site) (i : Instruction) : (p.emit i).draft.scope = p.draft.scope := by
  simp [Site.emit, FunctionDraft.emit, FunctionDraft.freshRegister]

@[simp]
theorem scope_emitEffect (p : Site) (i : Instruction) :
    (p.emitEffect i).draft.scope = p.draft.scope := by
  simp [Site.emitEffect, FunctionDraft.emitEffect]

/-- An instruction whose operands can be used gives a value that can be used. -/
theorem Ready.emit (h : p.Ready assigned) {i : Instruction} (hphi : i.isPhi = false)
    (hsees : ∀ o ∈ i.operands, p.Sees o) :
    p.Lowered assigned [.register (p.draft.registers + 1) i.resultTy] (p.emit i) := by
  have hstep : Step p (p.emit i) := .emit hphi hsees
  refine ⟨⟨.single hstep, rfl, ?_, fun o => sees_emit⟩, ?_, ?_⟩
  · rw [scope_emit]
  · exact h.of_scope_eq (h.sound.step hstep) (scope_emit p i) fun o => sees_emit
  · intro o ho
    rw [List.mem_singleton.mp ho]
    exact List.mem_cons_self

/-- Emitting an instruction that reads nothing. -/
theorem Ready.emit_none (h : p.Ready assigned) {i : Instruction} (hphi : i.isPhi = false)
    (hi : i.operands = []) :
    p.Lowered assigned [.register (p.draft.registers + 1) i.resultTy] (p.emit i) :=
  h.emit hphi fun o ho => by
    rw [hi] at ho
    cases ho

/-- Emitting an instruction on a value that can be used. -/
theorem Ready.emit_one (h : p.Ready assigned) {i : Instruction} {v : Operand}
    (hphi : i.isPhi = false) (hi : i.operands = [v]) (hv : p.Sees v) :
    p.Lowered assigned [.register (p.draft.registers + 1) i.resultTy] (p.emit i) :=
  h.emit hphi fun o ho => by
    rw [hi, List.mem_singleton] at ho
    exact ho ▸ hv

/-- Emitting an instruction on two values that can be used. -/
theorem Ready.emit_two (h : p.Ready assigned) {i : Instruction} {v w : Operand}
    (hphi : i.isPhi = false) (hi : i.operands = [v, w]) (hv : p.Sees v) (hw : p.Sees w) :
    p.Lowered assigned [.register (p.draft.registers + 1) i.resultTy] (p.emit i) := by
  refine h.emit hphi fun o ho => ?_
  rw [hi, List.mem_cons, List.mem_singleton] at ho
  rcases ho with rfl | rfl
  · exact hv
  · exact hw

/-- An instruction without a result may be written if its operands can be used. -/
private theorem Ready.emitEffect (h : p.Ready assigned) {i : Instruction} (hphi : i.isPhi = false)
    (hsees : ∀ o ∈ i.operands, p.Sees o) : p.Lowered assigned [] (p.emitEffect i) := by
  have hstep : Step p (p.emitEffect i) := .emitEffect hphi hsees
  refine ⟨⟨.single hstep, rfl, ?_, fun o => sees_emitEffect⟩, ?_, fun o ho => nomatch ho⟩
  · rw [scope_emitEffect]
  · exact h.of_scope_eq (h.sound.step hstep) (scope_emitEffect p i) fun o => sees_emitEffect

/-- Storing a value that can be used to an address that can be used. -/
theorem Ready.store (h : p.Ready assigned) {value pointer : Operand} (hv : p.Sees value)
    (hp : p.Sees pointer) : p.Lowered assigned [] (p.emitEffect (.store value pointer)) := by
  refine h.emitEffect rfl fun o ho => ?_
  rw [Instruction.operands, List.mem_cons, List.mem_singleton] at ho
  rcases ho with rfl | rfl
  · exact hv
  · exact hp

end Site

/-! ### Local names -/

/-- A binding that is found stands in one of the frames. -/
theorem Scope.mem_of_lookupIn? {name : Name} {b : Binding} {frames : List (Assoc Name Binding)}
    (h : Scope.lookupIn? name frames = some b) : ∃ frame ∈ frames, (name, b) ∈ frame := by
  induction frames with
  | nil => cases h
  | cons frame frames ih =>
    rw [lookupIn?, Option.or_eq_some_iff] at h
    rcases h with h | ⟨-, h⟩
    · exact ⟨frame, List.mem_cons_self, Assoc.mem_of_get? h⟩
    · obtain ⟨f, hf, hmem⟩ := ih h
      exact ⟨f, List.mem_cons_of_mem _ hf, hmem⟩

namespace Lower

open Site

variable {assigned : List Name} {p : Site}

/-- Emitting an instruction whose operands can be used. -/
private theorem leads_emit_lowered (h : p.Ready assigned) {i : Instruction} (hphi : i.isPhi = false)
    (hsees : ∀ o ∈ i.operands, p.Sees o) :
    Leads p (emit i) fun v q => p.Lowered assigned [v] q :=
  leads_emit (h.emit hphi hsees)

private theorem leads_emit_none (h : p.Ready assigned) {i : Instruction} (hphi : i.isPhi = false)
    (hi : i.operands = []) : Leads p (emit i) fun v q => p.Lowered assigned [v] q :=
  leads_emit (h.emit_none hphi hi)

private theorem leads_emit_one (h : p.Ready assigned) {i : Instruction} {v : Operand}
    (hphi : i.isPhi = false) (hi : i.operands = [v]) (hv : p.Sees v) :
    Leads p (emit i) fun v q => p.Lowered assigned [v] q :=
  leads_emit (h.emit_one hphi hi hv)

private theorem leads_emit_two (h : p.Ready assigned) {i : Instruction} {v w : Operand}
    (hphi : i.isPhi = false) (hi : i.operands = [v, w]) (hv : p.Sees v) (hw : p.Sees w) :
    Leads p (emit i) fun v q => p.Lowered assigned [v] q :=
  leads_emit (h.emit_two hphi hi hv hw)

/-- A value that can be used may be stored at a pointer that can be. -/
private theorem store_leads (h : p.Ready assigned) {value pointer : Operand} (hv : p.Sees value)
    (hp : p.Sees pointer) : Leads p (store value pointer) fun _ q => p.Lowered assigned [] q :=
  leads_store (h.store hv hp)

/-- Several steps of lowering, one after the other. -/
theorem Leads.then {α : Type} {m : Lower α} {vs : α → List Operand} {f : α → Lower Operand}
    (h : Leads p m fun a q => p.Lowered assigned (vs a) q)
    (hf : ∀ a q, p.Lowered assigned (vs a) q →
      Leads q (f a) fun v r => q.Lowered assigned [v] r) :
    Leads p (m >>= f) fun v q => p.Lowered assigned [v] q :=
  h.bind fun a q hq => (hf a q hq).mono fun _ _ hr => hq.trans hr

/-- A value that can be used can be made a word. -/
theorem toWord_leads (h : p.Ready assigned) {o : Operand} (ho : p.Sees o) :
    Leads p (toWord o) fun v q => p.Lowered assigned [v] q := by
  have hkeep : Leads p (pure o) fun v q => p.Lowered assigned [v] q := leads_pure (h.lowered_one ho)
  rw [toWord]
  split
  · exact hkeep
  · exact leads_emit_one h rfl rfl ho
  · exact leads_emit_one h rfl rfl ho
  · exact leads_emit_one h rfl rfl ho
  · exact hkeep

/-- A literal is lowered to a value that can be used. -/
theorem lowerLiteral_leads (h : p.Ready assigned) (value : Literal) :
    Leads p (lowerLiteral value) fun v q => p.Lowered assigned [v] q := by
  have hword : ∀ w : Int64, Leads p (pure (Operand.word w)) fun v q => p.Lowered assigned [v] q :=
    fun w => leads_pure (h.lowered_one (sees_word p w))
  cases value with
  | integer value => exact hword _
  | character value => exact hword _
  | boolean value => exact hword _
  | empty => exact hword _
  | double value =>
    exact leads_emit_one h rfl rfl trivial
  | string value =>
    refine leads_onUnit_bind fun u => ?_
    refine (leads_emit_two h rfl rfl (sees_global p _ _) (sees_word p 0)).then
      fun address q hq => ?_
    exact leads_emit_one hq.ready rfl rfl hq.sees_one

/-- A local name stands for an operand that can be used. -/
theorem sees_of_lookup? (h : p.Ready assigned) {name : Name} {b : Binding}
    (hb : p.draft.scope.lookup? name = some b) : p.Sees b.operand := by
  obtain ⟨frame, hf, hmem⟩ := Scope.mem_of_lookupIn? hb
  exact h.sees frame hf _ hmem

theorem lowerVariable_leads (h : p.Ready assigned) (name : Name) :
    Leads p (lowerVariable name) fun v q => p.Lowered assigned [v] q := by
  refine leads_ofDraft_bind ?_
  cases hb : p.draft.scope.lookup? name with
  | some b =>
    have hsees := sees_of_lookup? h hb
    cases b with
    | value value => exact toWord_leads h hsees
    | slot pointer => exact leads_emit_one h rfl rfl hsees
  | none =>
    refine leads_ofDraft_bind ?_
    cases p.draft.globals.get? name with
    | none => exact leads_throw trivial
    | some kind =>
      cases kind with
      | var => exact leads_emit_one h rfl rfl trivial
      | function arity => exact toWord_leads h trivial

theorem assignGlobal_leads (h : p.Ready assigned) (name : Name) {value : Operand}
    (hv : p.Sees value) :
    Leads p (assignGlobal name value) fun _ q => p.Lowered assigned [] q := by
  refine leads_ofDraft_bind ?_
  cases p.draft.globals.get? name with
  | none => exact leads_throw trivial
  | some kind =>
    cases kind with
    | var => exact store_leads h hv trivial
    | function arity => exact leads_throw trivial

/-- A name that is assigned to lives in a cell or is not local, so no binding changes. -/
theorem lowerAssignment_leads (h : p.Ready assigned) {name : Name} (hname : name ∈ assigned)
    {value : Operand} (hv : p.Sees value) :
    Leads p (lowerAssignment name value) fun _ q => p.Lowered assigned [] q := by
  refine leads_ofDraft_bind ?_
  cases hb : p.draft.scope.lookup? name with
  | none => exact assignGlobal_leads h name hv
  | some b =>
    -- the other arm of the match, which would rebind the name, is not taken
    obtain ⟨frame, hf, hmem⟩ := Scope.mem_of_lookupIn? hb
    obtain ⟨pointer, rfl⟩ := h.slots frame hf _ hmem hname
    exact store_leads h hv (sees_of_lookup? h hb)

/-! ### Bindings and operators -/

/-- A name may be bound to an operand that can be used, and to a cell if it is assigned to. -/
theorem bind_lowered (h : p.Ready assigned) (name : Name) {b : Binding}
    (hslot : name ∈ assigned → ∃ pointer, b = .slot pointer) (hb : p.Sees b.operand) :
    p.Lowered assigned [] (p.rescope (p.draft.scope.bind name b)) := by
  have hstep : Step p (p.rescope (p.draft.scope.bind name b)) := .rescope _
  -- the entries of the new scope are those of the old one, and the new one
  have hmem : ∀ frame ∈ (p.draft.scope.bind name b).frames, ∀ x ∈ frame,
      (∃ frame' ∈ p.draft.scope.frames, x ∈ frame') ∨ x = (name, b) := by
    intro frame hf x hx
    rcases List.mem_cons.mp hf with rfl | hf
    · exact (Assoc.mem_put hx).imp_left fun hx' => ⟨_, List.mem_cons_self, hx'⟩
    · exact .inl ⟨frame, List.mem_cons_of_mem _ hf, hx⟩
  refine ⟨⟨.single hstep, rfl, rfl, fun _ ho => ho⟩, ⟨h.sound.step hstep, ?_, ?_⟩,
    fun o ho => nomatch ho⟩
  · intro frame hf x hx hassigned
    rcases hmem frame hf x hx with ⟨frame', hf', hx'⟩ | rfl
    · exact h.slots frame' hf' x hx' hassigned
    · exact hslot hassigned
  · intro frame hf x hx
    rcases hmem frame hf x hx with ⟨frame', hf', hx'⟩ | rfl
    · exact h.sees frame' hf' x hx'
    · exact hb

/-- A value that can be used may be bound to a local name. -/
theorem bindLocal_leads (h : p.Ready assigned) (name : Name) {value : Operand}
    (hv : p.Sees value) :
    Leads p (bindLocal assigned name value) fun _ q => p.Lowered assigned [] q := by
  rw [bindLocal]
  split
  · refine (toWord_leads h hv).bind fun w q hq => ?_
    refine (leads_emit_none hq.ready rfl rfl).bind fun pointer r hr => ?_
    refine (store_leads hr.ready (hr.arrives.sees w hq.sees_one) hr.sees_one).bind fun _ t ht => ?_
    have hpointer : t.Sees pointer := ht.arrives.sees pointer hr.sees_one
    refine leads_onScope (hq.trans (hr.trans (ht.trans ?_)))
    exact bind_lowered ht.ready name (fun _ => ⟨pointer, rfl⟩) hpointer
  · next hname =>
    refine leads_onScope (bind_lowered h name (fun hmem => absurd hmem ?_) hv)
    simpa using hname

/-- An operator on values that can be used gives another. -/
theorem lowerOperator_leads (h : p.Ready assigned) (op : BinaryOp) {lhs rhs : Operand}
    (hl : p.Sees lhs) (hr : p.Sees rhs) :
    Leads p (lowerOperator op lhs rhs) fun v q => p.Lowered assigned [v] q := by
  cases op with
  | word op => exact leads_emit_two h rfl rfl hl hr
  | compare c =>
    refine (leads_emit_two h rfl rfl hl hr).then fun flag q hq => ?_
    exact leads_emit_one hq.ready rfl rfl hq.sees_one
  | float op =>
    refine (leads_emit_one h rfl rfl hl).then fun l q hq => ?_
    refine (leads_emit_one hq.ready rfl rfl (hq.arrives.sees rhs hr)).then fun r q' hq' => ?_
    refine (leads_emit_two hq'.ready rfl rfl (hq'.arrives.sees l hq.sees_one) hq'.sees_one).then
      fun result t ht => ?_
    exact toWord_leads ht.ready ht.sees_one
  | floatCompare c =>
    refine (leads_emit_one h rfl rfl hl).then fun l q hq => ?_
    refine (leads_emit_one hq.ready rfl rfl (hq.arrives.sees rhs hr)).then fun r q' hq' => ?_
    refine (leads_emit_two hq'.ready rfl rfl (hq'.arrives.sees l hq.sees_one) hq'.sees_one).then
      fun flag t ht => ?_
    exact toWord_leads ht.ready ht.sees_one

/-! ### Functions -/

/-- A lifted lambda can be used. -/
theorem liftLambda_leads (h : p.Ready assigned) (lambda : Lambda) :
    Leads p (liftLambda lambda) fun v q => p.Lowered assigned [v] q := by
  refine leads_ofDraft_bind (leads_onUnit_bind fun u => leads_onUnit_bind fun u' => ?_)
  have hstep : ∀ f, Step p (p.enqueue f) := fun f => .enqueue f
  refine (leads_onDraft (q := p.enqueue ⟨_, lambda, p.draft.globals⟩)
    (Q := fun _ q => p.Lowered assigned [] q) rfl ⟨⟨.single (hstep _), rfl, rfl, fun _ ho => ho⟩,
      ⟨h.sound.step (hstep _), h.slots, h.sees⟩, fun o ho => nomatch ho⟩).then fun _ q hq => ?_
  exact leads_pure (hq.ready.lowered_one trivial)

theorem lowerCalleeVariable_leads (h : p.Ready assigned) (name : Name) :
    Leads p (lowerCalleeVariable name) fun v q => p.Lowered assigned [v] q := by
  have hglobal : ∀ f ty, Leads p (pure (Operand.global f ty)) fun v q => p.Lowered assigned [v] q :=
    fun f ty => leads_pure (h.lowered_one trivial)
  refine leads_ofDraft_bind ?_
  split
  · exact hglobal _ _
  · exact lowerVariable_leads h name
  · refine leads_ofDraft_bind ?_
    split
    · exact hglobal _ _
    · exact lowerVariable_leads h name

/-- A call with values that can be used gives another. -/
theorem lowerApplication_leads (h : p.Ready assigned) {callee : Operand} {args : List Operand}
    (hcallee : p.Sees callee) (hargs : ∀ o ∈ args, p.Sees o) :
    Leads p (lowerApplication callee args) fun v q => p.Lowered assigned [v] q := by
  have hall : ∀ {q : Site} {c : Operand}, p.Arrives q → q.Sees c →
      ∀ o ∈ c :: args, q.Sees o := by
    intro q c hq hc o ho
    rcases List.mem_cons.mp ho with rfl | ho
    · exact hc
    · exact hq.sees o (hargs o ho)
  rw [lowerApplication.eq_def]
  split
  · split
    · exact leads_emit_lowered h rfl (hall (.refl p) hcallee)
    · next hne => exact leads_throw hne
  · refine (leads_emit_one h rfl rfl hcallee).then fun pointer q hq => ?_
    exact leads_emit_lowered hq.ready rfl (hall hq.arrives hq.sees_one)

/-- A primitive on values that can be used gives another. -/
theorem lowerPrimitive_leads (h : p.Ready assigned) (f : Primitive) {args : List Operand}
    (hargs : ∀ o ∈ args, p.Sees o) :
    Leads p (lowerPrimitive f args) fun v q => p.Lowered assigned [v] q := by
  rw [lowerPrimitive.eq_def]
  split
  · refine leads_onUnit_bind fun u => leads_emit_lowered h rfl fun o ho => ?_
    rcases List.mem_cons.mp ho with rfl | ho
    · trivial
    · exact hargs o ho
  · next vector index =>
    have hvector := hargs vector List.mem_cons_self
    have hindex := hargs index (List.mem_cons_of_mem _ List.mem_cons_self)
    refine (leads_emit_one h rfl rfl hvector).then fun base q hq => ?_
    refine (leads_emit_two hq.ready rfl rfl hq.sees_one (hq.arrives.sees index hindex)).then
      fun element r hr => ?_
    exact leads_emit_one hr.ready rfl rfl hr.sees_one
  · next value =>
    refine (leads_emit_one h rfl rfl (hargs value List.mem_cons_self)).then fun double q hq => ?_
    exact leads_emit_one hq.ready rfl rfl hq.sees_one
  · exact leads_pure (h.lowered_one (sees_word p 0))

private theorem storeElements_leads (h : p.Ready assigned) (ty : Ty) {base : Operand} (index : Nat)
    {values : List Operand} (hbase : p.Sees base) (hvalues : ∀ o ∈ values, p.Sees o) :
    Leads p (storeElements ty base index values) fun _ q => p.Lowered assigned [] q := by
  induction values generalizing p index with
  | nil => exact leads_pure (h.lowered fun o ho => nomatch ho)
  | cons value values ih =>
    have hvalue := hvalues value List.mem_cons_self
    refine (leads_emit_two h rfl rfl hbase (sees_word p _)).bind fun element q hq => ?_
    refine (store_leads hq.ready (hq.arrives.sees value hvalue) hq.sees_one).bind fun _ r hr => ?_
    have hqr := hq.arrives.trans hr.arrives
    refine (ih hr.ready (index + 1) (hqr.sees base hbase) fun o ho => ?_).mono
      fun _ t ht => hq.trans (hr.trans ht)
    exact hqr.sees o (hvalues o (List.mem_cons_of_mem _ ho))

theorem lowerElements_leads (h : p.Ready assigned) {values : List Operand}
    (hvalues : ∀ o ∈ values, p.Sees o) :
    Leads p (lowerElements values) fun v q => p.Lowered assigned [v] q := by
  refine leads_onUnit_bind fun u => ?_
  refine (leads_emit_none h rfl rfl).then fun base q hq => ?_
  refine (storeElements_leads hq.ready _ 0 hq.sees_one fun o ho =>
    hq.arrives.sees o (hvalues o ho)).then fun _ r hr => ?_
  exact leads_emit_one hr.ready rfl rfl (hr.arrives.sees base hq.sees_one)

end Lower

end WordScheme
