import Mathlib
import WordScheme.Proofs.Conditionals
import WordScheme.Proofs.Simulation

/-!
# What the code of a conditional does

A conditional evaluates one of its arms in a frame of its own. Its code branches on a flag, and the
arm that is taken branches to the merge block, where the phi finds the value of the arm from which
control came. Nothing the other arm has left in the function is executed, and since registers are
given out once for the whole function, nothing it would have written is read.
-/

namespace WordScheme

open NameSupply FunctionDraft Site

namespace Eval

/-- A frame that is opened for a value known before leaves no trace. -/
theorem inFrame_pure {α : Type} (x : α) : inFrame (pure x) = pure x := rfl

end Eval

namespace Machine

variable {m : Machine} {a : Activation} {c : Config}

/-- The code between two sites does what `ev` does and has the word in `v`. -/
def Computes (m : Machine) (P : Config → Prop) (ev : Eval Int64) (p : Site) (v : Operand)
    (q : Site) : Prop :=
  m.Simulates p.draft q.draft P ev fun x c => m.Reads c q.draft.registers v x

/-- Control comes to a block that is empty so far. -/
private theorem standing_goTo {d : FunctionDraft} {i : Nat} {label : Name} (h : i < d.blocks.size)
    (hempty : d.block? i = some ⟨label, [], none⟩) (hlabel : c.label = label)
    (hindex : c.index = 0) : Standing (d.goTo i h) c := by
  have hblock : (d.goTo i h).currentBlock = ⟨label, [], none⟩ :=
    (eq_currentBlock (d := d.goTo i h) hempty).symm
  refine ⟨?_, ?_, ?_⟩
  · rw [terminated_eq_false_iff, hblock]
  · rw [hblock, hlabel]
  · rw [hblock, hindex]
    rfl

/-- Evaluation in a frame of its own, where the machine closes the frame in steps of its own. -/
theorem Outcome.inFrame {ev : Eval Int64} {Q R : Int64 → Activation → Config → Prop}
    (h : m.Outcome c (ev { a with locals := [] :: a.locals }) Q)
    (hQ : ∀ x a' c', Q x a' c' → m.Outcome c' (.ok x { a' with locals := a'.locals.tail }) R) :
    m.Outcome c (Eval.inFrame ev a) R := by
  have hopen : m.Outcome c
      ((modify fun a => { a with locals := [] :: a.locals } : Eval PUnit) a)
      fun _ a' c' => c' = c ∧ a' = { a with locals := [] :: a.locals } :=
    ⟨c, .refl, rfl, rfl⟩
  refine hopen.bind fun _ a' c' ⟨hc', ha'⟩ => ?_
  rw [hc', ha']
  exact h.bind fun x a' c' hx => hQ x a' c' hx

/-! ### Arms -/

/-- Control has come to the merge block from an arm, which handed over the word. -/
structure ComesFrom (m : Machine) (p q : Site) (merge : BlockRef) (c : Config)
    (incoming : List (Operand × Name)) (w : Int64) (a' : Activation) (c' : Config) : Prop where
  label : c'.label = merge.label
  index : c'.index = 0
  state : m.Matches p.draft.scope q.draft.registers a' c'
  keeps : Keeps p.draft.registers c c'
  value : ∃ v source, (v, source) ∈ incoming ∧ c'.previous = some source ∧
    m.Reads c' q.draft.registers v w

variable {assigned : List Name} {R S : Site → Operand → Site → Prop} {P : Config → Prop}
  {ev : Eval Int64} {p q : Site} {x : Waiting} {rest : List Waiting}
  {incoming : List (Operand × Name)}

/-- An arm does what its evaluation in a frame of its own does. -/
private theorem outcome_arm {merge : BlockRef}
    (harm : ArmLowered assigned R p x rest merge incoming q)
    (hR : ∀ {s v r}, R s v r → m.Computes P ev s v r)
    (hempty : p.draft.block? x.ref.index = some ⟨x.ref.label, [], none⟩) (hhosts : m.Hosts q.draft)
    (hstate : m.Matches p.draft.scope p.draft.registers a c) (hP : P (c.jump x.ref.label)) :
    m.Outcome (c.jump x.ref.label) (Eval.inFrame ev a) (m.ComesFrom p q merge c incoming) := by
  obtain @⟨v, left, hlt, hleft, harm, hends⟩ := harm
  have hstanding : Standing (p.draft.goTo x.ref.index hlt) (c.jump x.ref.label) :=
    standing_goTo hlt hempty rfl rfl
  have hagrees : m.Agrees (p.armStart x rest hlt).draft { a with locals := [] :: a.locals }
      (c.jump x.ref.label) :=
    ⟨⟨hstanding.live, hstanding.label, hstanding.index⟩,
      hstate.push.congr rfl rfl rfl rfl (le_refl _)⟩
  have hextends : left.draft.Extends q.draft := by
    cases hends with
    | leaves _ => exact .refl left.draft
    | joins hlive => exact extends_endWith hlive _
  refine (hR harm (hhosts.earlier hextends) _ _ hagrees hP).inFrame ?_
  rintro w a' c' ⟨hc', hkeeps, hread⟩
  cases hends with
  | leaves hdone =>
    -- evaluation has given a word, so the machine stands in a block that goes on
    rw [hc'.live] at hdone
    cases hdone
  | joins hlive =>
    have hstanding' : Standing (left.rescope left.draft.scope.pop).draft c' :=
      ⟨hc'.live, hc'.label, hc'.index⟩
    have hstep : m.step c' = some (.running (c'.jump merge.label)) :=
      hstanding'.step_endWith hhosts
    have hpop := hc'.state.pop hleft.arrives.outer hstate.outer
    refine ⟨_, .single hstep, rfl, rfl, hpop.congr rfl rfl rfl rfl (le_refl _), ?_, ?_⟩
    · exact fun r hr => hkeeps r hr
    · refine ⟨v, left.label, List.mem_singleton_self _, congrArg some hc'.label, ?_⟩
      exact hread.keep (fun _ _ => rfl) (le_refl _)

/-! ### The merge block -/

/-- From the start of the merge block the machine comes to its phi, which has the word. -/
private theorem outcome_merge {v : Operand} {r s : Site} {w : Int64} {c₀ : Config}
    (hmerged : Merged x rest q v r)
    (hempty : q.draft.block? x.ref.index = some ⟨x.ref.label, [], none⟩)
    (hnodup : (x.incoming.map Prod.snd).Nodup) (hhosts : m.Hosts r.draft)
    (hscope : q.draft.scope = p.draft.scope) (hsub : incoming ⊆ x.incoming)
    (hregisters : s.draft.registers ≤ q.draft.registers)
    (hc : m.ComesFrom p s x.ref c₀ incoming w a c) :
    m.Outcome c (.ok w a) fun w a' c' => m.Agrees r.draft a' c' ∧ Keeps q.draft.registers c c' ∧
      m.Reads c' r.draft.registers v w := by
  obtain ⟨o, source, ho, hprevious, hread⟩ := hc.value
  -- the arms come from different blocks, so the phi finds this one
  have hfind := find?_of_nodup_map hnodup (hsub ho)
  cases hmerged with
  | abandoned hin _ =>
    rw [hin] at hfind
    cases hfind
  | joined hin hlt =>
    have hagrees : m.Agrees (q.draft.goTo x.ref.index hlt) a c :=
      ⟨standing_goTo hlt hempty hc.label hc.index,
        hscope ▸ hc.state.congr rfl rfl rfl rfl hregisters⟩
    have hphi : m.Simulates (q.draft.goTo x.ref.index hlt)
        ((q.draft.goTo x.ref.index hlt).emit (.phi .word x.incoming)).2
        (fun c => c.previous = some source ∧ m.Reads c q.draft.registers o w) (pure w) _ :=
      simulates_emit_word (fun _ _ => rfl) fun a c hstate ⟨hprevious, hread⟩ => by
        refine performs_pure hstate ?_
        simp [execute, hprevious, hfind, hread.word]
    exact hphi hhosts a c hagrees ⟨hprevious, hread.keep (fun _ _ => rfl) hregisters⟩

/-- An arm that is taken leads through the merge block to its phi, which has the word. -/
private theorem outcome_taken {y : Waiting} {rest' : List Waiting} {v : Operand} {s s' r : Site}
    (harm : ArmLowered assigned R s x rest y.ref incoming s')
    (hR : ∀ {s v r}, R s v r → m.Computes P ev s v r) (hx : Pending p x s) (hy : Pending p y q)
    (harmed : s'.draft.Later q.draft) (hmerged : Merged y rest' q v r)
    (hlater : q.draft.Later r.draft) (hsub : incoming ⊆ y.incoming) (hhosts : m.Hosts r.draft)
    (hstate : m.Matches p.draft.scope p.draft.registers a c) (hP : P (c.jump x.ref.label)) :
    m.Outcome (c.jump x.ref.label) (Eval.inFrame ev a) fun w a' c' => m.Agrees r.draft a' c' ∧
      Keeps p.draft.registers c c' ∧ m.Reads c' r.draft.registers v w := by
  have hhosts' : m.Hosts s'.draft := (hhosts.earlier hlater.blocks).earlier harmed.blocks
  have hstate' : m.Matches s.draft.scope s.draft.registers a c :=
    hx.scope ▸ hstate.congr rfl rfl rfl rfl hx.registers
  refine (outcome_arm harm hR hx.empty hhosts' hstate' hP).trans fun w a' c' hcomes => ?_
  refine (outcome_merge hmerged hy.empty hy.nodup hhosts (hy.scope.trans hx.scope.symm) hsub
    harmed.registers hcomes).mono ?_
  rintro w a'' c'' ⟨hagrees, hkeeps, hread⟩
  have hkeeps' : Keeps p.draft.registers c c' := (Keeps.refl _ c).trans hcomes.keeps hx.registers
  exact ⟨hagrees, hkeeps'.trans hkeeps hy.registers, hread⟩

/-! ### Conditionals -/

variable {stem : String} {condition v : Operand} {evThen evElse : Eval Int64} {w : Int64}

/-- The test of a conditional leaves a flag. -/
private theorem simulates_tested (hP : ∀ c c', Keeps p.draft.registers c c' → P c → P c')
    (hcondition : ∀ {c}, P c → m.Reads c p.draft.registers condition w) :
    m.Simulates p.draft (p.tested condition).draft P (pure (w != 0)) fun b c =>
      m.read c p.flag = some (.flag b) ∧ P c := by
  refine simulates_emit .flag (fun _ _ h => nomatch h) (fun a c hstate hc => ?_)
    fun hc hkeeps hflag => ⟨hflag, hP _ _ hkeeps hc⟩
  refine performs_pure hstate ?_
  simp [execute, (hcondition hc).readWord, (reads_word m c 0 0).readWord, evalPredicate]

/-- A conditional does what the arm does that its condition selects. -/
theorem computes_branched (hb : p.Branched assigned R S stem condition v q) (h : p.Ready assigned)
    (hstem : Undigited stem) (hc : p.Sees condition)
    (hR : ∀ {s v r}, R s v r → m.Computes P evThen s v r)
    (hS : ∀ {s v r}, S s v r → m.Computes P evElse s v r)
    (hP : ∀ c c', Keeps p.draft.registers c c' → P c → P c')
    (hcondition : ∀ {c}, P c → m.Reads c p.draft.registers condition w) :
    m.Computes P (if w ≠ 0 then Eval.inFrame evThen else Eval.inFrame evElse) p v q := by
  cases hb with
  | skipped hdone => exact simulates_of_terminated hdone
  | @merged incoming v q₂ q hlive harms hmerged =>
  intro hhosts a c hagrees hPc
  -- the sites on the way: after the fork, after each of the arms, and at the phi
  obtain @⟨fromThen, fromElse, q₁, q₂, hthen, helse⟩ := harms
  have hsound := h.sound.steps (steps_fork hstem hc hlive)
  have hwaiting := waiting_fork (h.sound.steps (steps_laidOut hstem hc))
  obtain ⟨hsteps₁, hdone₁, hscope₁, hwaiting₁⟩ := arrives_then h.sound hstem hc hthen
  have hsound₁ := hsound.steps hsteps₁
  obtain ⟨hsteps₂, hdone₂, hscope₂, hwaiting₂⟩ := helse.arrives hdone₁ hwaiting₁
    (List.cons_ne_nil _ _) (List.Subset.refl _)
  have hsound₂ := hsound₁.steps hsteps₂
  have hlater₁ := hsound.later hsteps₁
  have hlater₂ := hsound₁.later hsteps₂
  have hlater := hsound₂.later_step
    (hmerged.step hdone₂ hwaiting₂ (isMergeLabel_mergeRef h.sound hc))
  have hmerge : Pending (p.fork stem condition) (p.mergeWaiting stem condition _) q₂ :=
    ⟨hsound₂, hwaiting₂ ▸ List.mem_cons_self, (hscope₂.trans hscope₁).trans scope_fork.symm,
      hlater₁.registers.trans hlater₂.registers⟩
  have hhosts₀ : m.Hosts (p.fork stem condition).draft :=
    ((hhosts.earlier hlater.blocks).earlier hlater₂.blocks).earlier hlater₁.blocks
  -- the test, and the branch on its flag
  obtain ⟨c₁, hrun, hc₁, hkeeps, hflag, hPc₁⟩ := simulates_tested hP hcondition
    (hhosts₀.earlier (extends_fork hlive)) a c hagrees hPc
  have hstanding : Standing (p.laidOut stem condition).draft c₁ :=
    ((hc₁.toStanding.addBlock _).addBlock _).addBlock _
  have hstep : m.step c₁ = some (.running (c₁.jump (if w != 0 then
      (p.thenRef stem condition).label else (p.elseRef stem condition).label))) := by
    rw [hstanding.step_endWith hhosts₀, leave, hflag]
    rfl
  have hregisters : p.draft.registers ≤ (p.fork stem condition).draft.registers :=
    (h.sound.later (steps_fork hstem hc hlive)).registers
  by_cases hw : w = 0
  · rw [if_neg (not_not.mpr hw)]
    rw [if_neg (by simp [hw])] at hstep
    have helse' : Pending (p.fork stem condition) (p.elseWaiting stem condition) q₁ :=
      ⟨hsound₁, by rw [hwaiting₁]; simp, hscope₁.trans scope_fork.symm, hlater₁.registers⟩
    refine Runs.outcome (hrun.tail hstep) ((outcome_taken helse hS helse' hmerge (.refl _) hmerged
      hlater (List.subset_append_right _ _) hhosts hc₁.state
      (hP c₁ _ (fun _ _ => rfl) hPc₁)).mono ?_)
    rintro x a' c' ⟨hagrees', hkeeps', hread⟩
    exact ⟨hagrees', hkeeps.trans hkeeps' hregisters, hread⟩
  · rw [if_pos hw]
    rw [if_pos (by simp [hw])] at hstep
    have hthen' : Pending (p.fork stem condition) (p.thenWaiting stem condition)
        (p.fork stem condition) :=
      ⟨hsound, by rw [hwaiting]; simp, rfl, le_refl _⟩
    refine Runs.outcome (hrun.tail hstep) ((outcome_taken hthen hR hthen' hmerge hlater₂ hmerged
      hlater (List.subset_append_left _ _) hhosts hc₁.state
      (hP c₁ _ (fun _ _ => rfl) hPc₁)).mono ?_)
    rintro x a' c' ⟨hagrees', hkeeps', hread⟩
    exact ⟨hagrees', hkeeps.trans hkeeps' hregisters, hread⟩

end Machine

end WordScheme
