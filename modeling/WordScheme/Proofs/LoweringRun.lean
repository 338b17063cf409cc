import Mathlib
import WordScheme.Proofs.Conditionals

/-!
# Every lowering is a run of steps

`Assembled.leads` has one rule for each part of the lowering: from a site that is ready, at which
the operands can be used of which something is known, an assembled lowering leads to one at which
its result can be used. With it bodies and top level forms are lowered by runs of steps:
`lowerSequence_leads` and `lowerForms_leads`.
-/

namespace WordScheme

open NameSupply FunctionDraft Site Lower Role

variable {assigned : List Name}

namespace Site

/-- A block that returns a value ends there. -/
theorem step_ret {p : Site} {v : Operand} (hv : p.Sees v) (hlive : p.draft.terminated = false) :
    Step p (p.leave (.ret v) v) :=
  .leave hlive (by simp) (fun o ho => List.mem_singleton.mp ho ▸ hv) hv fun l hl => nomatch hl

theorem waiting_ret (p : Site) (v : Operand) : (p.leave (.ret v) v).waiting = p.waiting :=
  map_note_eq_self fun _ _ hx => nomatch hx

theorem Ready.ret {p : Site} {v : Operand} (h : p.Ready assigned) (hv : p.Sees v)
    (hlive : p.draft.terminated = false) : p.Lowered assigned [] (p.leave (.ret v) v) := by
  have hleave := step_ret hv hlive
  refine ⟨⟨.single hleave, waiting_ret p v, rfl, fun _ ho => ho⟩, ?_, fun o ho => nomatch ho⟩
  exact h.of_scope_eq (h.sound.step hleave) rfl fun _ ho => ho

end Site

namespace Lower

variable {p : Site}

/-- A constant word as a value. -/
theorem leads_word (h : p.Ready assigned) (value : Int64) :
    Leads p (pure (Operand.word value)) fun v q => p.Lowered assigned [v] q :=
  leads_pure (h.lowered_one (sees_word p value))

/-- A value that is known already. -/
theorem leads_value (h : p.Ready assigned) {v : Operand} (hv : p.Sees v) :
    Leads p (pure v) fun v q => p.Lowered assigned [v] q :=
  leads_pure (h.lowered_one hv)

/-- The value of a function is returned from a block that has not ended. -/
private theorem ret_leads (h : p.Ready assigned) {v : Operand} (hv : p.Sees v)
    (hlive : p.draft.terminated = false) :
    Leads p (terminate (.ret v)) fun _ q => p.Lowered assigned [] q :=
  leads_terminate (q := p.leave (.ret v) v) hlive rfl (h.ret hv hlive)

/-- The value of a function is returned unless the block has ended. -/
private theorem returning_leads (h : p.Ready assigned) {v : Operand} (hv : p.Sees v) :
    Leads p (returning v) fun _ q => p.Lowered assigned [] q := by
  refine leads_ofDraft_bind ?_
  cases hlive : p.draft.terminated with
  | true => exact leads_pure (h.lowered fun o ho => nomatch ho)
  | false => exact ret_leads h hv hlive

end Lower

/-! ### Assembled lowerings -/

namespace Role

variable {Γ : List Role} {x : Role} {p q : Site}

/-- What follows from operands that can be used is about others that can. -/
private theorem Known.sees (h : Known Γ x) (hΓ : ∀ y ∈ Γ, p.Sees y.operand) : p.Sees x.operand := by
  induction h with
  | given h => exact hΓ _ h
  | constant value => exact sees_word p value
  | callee _ ih => exact ih

/-- Results can be used, and so can what was there before. -/
private theorem sees_append {Δ : List Role} (hΓ : ∀ y ∈ Γ, p.Sees y.operand)
    (hq : p.Lowered assigned (Δ.map operand) q) : ∀ y ∈ Δ ++ Γ, q.Sees y.operand := by
  intro y hy
  rcases List.mem_append.mp hy with hy | hy
  · exact hq.sees _ (List.mem_map_of_mem hy)
  · exact hq.arrives.sees _ (hΓ y hy)

end Role

namespace Lower

variable {V : Vocabulary} {Γ : List Role} {ε : Effect} {α : Type} {m : Lower α}
  {Δ : α → List Role} {p : Site}

/-- **An assembled lowering leads from every ready site to one at which its result can be used**,
if names that are assigned to are kept in cells. -/
theorem Assembled.leads (h : Assembled V Γ ε m Δ) (hV : ∀ name, V.assigns name → name ∈ V.cells)
    (hp : p.Ready V.cells) (hΓ : ∀ x ∈ Γ, p.Sees x.operand) :
    Leads p m fun a q => p.Lowered V.cells ((Δ a).map operand) q := by
  have hknown : ∀ {Γ : List Role} {Θ : List Role} {p : Site}, (∀ x ∈ Γ, p.Sees x.operand) →
      p.Ready V.cells → (∀ x ∈ Θ, Known Γ x) → p.Lowered V.cells (Θ.map operand) p := by
    intro Γ Θ p hΓ hp hΘ
    refine hp.lowered fun o ho => ?_
    obtain ⟨x, hx, rfl⟩ := List.mem_map.mp ho
    exact (hΘ x hx).sees hΓ
  induction h generalizing p with
  | pure h => exact leads_pure (hknown hΓ hp h)
  | throw h => exact leads_throw h
  | bind _ _ ihm ihf =>
    refine (ihm hp hΓ).of_run.bind fun a q hq => ?_
    obtain ⟨⟨s, t, hrun⟩, hq⟩ := hq
    exact (ihf a s t hrun hq.ready (sees_append hΓ hq)).mono fun _ _ hr => hq.trans hr
  | unlessLeft ha _ ih =>
    refine leads_ofDraft_bind ?_
    split
    · exact leads_pure (hknown hΓ hp ha)
    · exact ih hp hΓ
  | literal value h => exact lowerLiteral_leads hp value
  | var name => exact lowerVariable_leads hp name
  | calleeVar name => exact lowerCalleeVariable_leads hp name
  | toWord h => exact toWord_leads hp (h.sees hΓ)
  | lift h => exact liftLambda_leads hp _
  | operator op hl hr => exact lowerOperator_leads hp op (hl.sees hΓ) (hr.sees hΓ)
  | primitive f _ hargs => exact lowerPrimitive_leads hp f fun o ho => (hargs o ho).sees hΓ
  | application hf hargs =>
    exact lowerApplication_leads hp (hf.sees hΓ) fun o ho => (hargs o ho).sees hΓ
  | elements h => exact lowerElements_leads hp fun o ho => (h o ho).sees hΓ
  | declare name h => exact bindLocal_leads hp name (h.sees hΓ)
  | assign hname h => exact lowerAssignment_leads hp (hV _ hname) (h.sees hΓ)
  | assignGlobal name h => exact assignGlobal_leads hp name (h.sees hΓ)
  | returning h => exact returning_leads hp (h.sees hΓ)
  | branches hstem hc _ _ ihpos ihneg =>
    exact lowerBranches_lowered hp hstem (hc.sees hΓ)
      (fun q hq hsees => ihpos hq fun x hx => hsees _ (hΓ x hx))
      fun q hq hsees => ihneg hq fun x hx => hsees _ (hΓ x hx)

end Lower

/-! ### Expressions -/

section Expressions

open Vocabulary

variable {p : Site}

/-- **Lowering the forms of a body** leads from every ready site to one at which the last value can
be used. -/
theorem lowerSequence_leads (es : List Expr) (he : assignedAll es ⊆ assigned) (h : p.Ready assigned)
    {value : Operand} (hv : p.Sees value) :
    Leads p (lowerSequence assigned value es) fun v q => p.Lowered assigned [v] q :=
  (lowerSequence_assembled (V := inCells assigned) es (covers_inCells he) known_head :
    Assembled _ [.word value] _ _ _).leads (fun _ hname => hname) h
    fun _ hx => List.mem_singleton.mp hx ▸ hv

/-- **Lowering top level forms** leads from every ready site to one at which the last value can be
used. -/
theorem lowerForms_leads (h : p.Ready assigned) (skipped : List Nat) (index : Nat) {value : Operand}
    (hv : p.Sees value) (forms : List Expr) (hforms : assignedAll forms ⊆ assigned) :
    Leads p (lowerForms assigned skipped index value forms) fun v q => p.Lowered assigned [v] q :=
  (lowerForms_assembled (V := inCells assigned) skipped index known_head forms
    (covers_inCells hforms) : Assembled _ [.word value] _ _ _).leads (fun _ hname => hname) h
    fun _ hx => List.mem_singleton.mp hx ▸ hv

end Expressions

end WordScheme
