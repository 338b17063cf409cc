import Mathlib
import WordScheme.Proofs.LoweringSteps

/-!
# Conditionals as runs of steps

A conditional adds three blocks that wait, branches to two of them, and enters one after the other.
An arm that does not leave the function branches to the merge block, which notes it; when both arms
are done the merge block is entered, with a phi of what it has noted or, if that is nothing, as a
block that is never reached. Whatever the arms do, the blocks that waited before still wait, and the
local names are those of the place before the branch.
-/

namespace WordScheme

open NameSupply FunctionDraft Site

namespace Site

variable {p q : Site} {assigned : List Name}

private theorem Arrives.seen_subset (h : p.Arrives q) : p.seen ⊆ q.seen :=
  fun r hr => h.sees (.register r .word) hr

/-- Blocks that are not among the targets of a branch note nothing. -/
theorem map_note_eq_self {targets : List Name} {value : Operand} {source : Name}
    {waiting : List Waiting} (h : ∀ x ∈ waiting, x.ref.label ∉ targets) :
    waiting.map (Waiting.note targets value source) = waiting := by
  refine (List.map_congr_left fun x hx => ?_).trans (List.map_id waiting)
  exact if_neg (h x hx)

/-- The local names of an arm are those around it, in a frame further out. -/
theorem Ready.push (h : p.Ready assigned) (hq : q.Sound)
    (hscope : q.draft.scope = p.draft.scope.push) (hsees : ∀ o, p.Sees o → q.Sees o) :
    q.Ready assigned := by
  -- the new frame is empty
  have hframes : ∀ frame ∈ q.draft.scope.frames, ∀ x ∈ frame, frame ∈ p.draft.scope.frames := by
    rw [hscope]
    intro frame hf x hx
    rcases List.mem_cons.mp hf with rfl | hf
    · cases hx
    · exact hf
  exact ⟨hq, fun frame hf x hx => h.slots frame (hframes frame hf x hx) x hx,
    fun frame hf x hx => hsees _ (h.sees frame (hframes frame hf x hx) x hx)⟩

/-- Closing a frame that was opened over a scope gives the scope back. -/
theorem pop_of_outer_eq {s t : Scope} (h : t.outer = s.push.outer) : t.pop = s := by
  rw [Scope.pop, h]
  rfl

end Site

/-! ### Arms -/

namespace Site

/-- The site at which an arm begins: its block is entered, and a frame opened. -/
def armStart (p : Site) (x : Waiting) (rest : List Waiting)
    (h : x.ref.index < p.draft.blocks.size) : Site :=
  (p.enter x rest h).rescope p.draft.scope.push

/-- How an arm that was lowered to `left`, with the value `v`, comes to an end: it has left the
function, or it goes on to the merge block and hands the value over. -/
inductive ArmEnds (merge : BlockRef) (v : Operand) (left : Site) :
    List (Operand × Name) → Site → Prop
  | leaves (h : left.draft.terminated = true) :
      ArmEnds merge v left [] (left.rescope left.draft.scope.pop)
  | joins (h : left.draft.terminated = false) :
      ArmEnds merge v left [(v, left.label)]
        ((left.rescope left.draft.scope.pop).leave (.branch merge.label) v)

/-- An arm has been lowered, by a run from its start of which `R` holds. -/
inductive ArmLowered (assigned : List Name) (R : Site → Operand → Site → Prop) (p : Site)
    (x : Waiting) (rest : List Waiting) (merge : BlockRef) (incoming : List (Operand × Name))
    (q : Site) : Prop
  | intro {v : Operand} {left : Site} (h : x.ref.index < p.draft.blocks.size)
      (hleft : (p.armStart x rest h).Lowered assigned [v] left)
      (hR : R (p.armStart x rest h) v left) (hends : ArmEnds merge v left incoming q)

variable {p q : Site} {x w : Waiting} {mid rest : List Waiting} {assigned : List Name}
  {R : Site → Operand → Site → Prop} {incoming : List (Operand × Name)}

/-- What is left once an arm has been lowered: the merge block, which comes first among those that
wait, has noted what the arm handed over, and the arm's own block no longer waits. -/
theorem ArmLowered.arrives (harm : ArmLowered assigned R p x (w :: (mid ++ rest)) w.ref incoming q)
    (hdone : p.draft.terminated = true) (hwaiting : p.waiting = w :: (mid ++ x :: rest))
    (hin : x.incoming ≠ []) (hseen : w.seen ⊆ x.seen) :
    Steps p q ∧ q.draft.terminated = true ∧ q.draft.scope = p.draft.scope ∧
      q.waiting = { w with incoming := w.incoming ++ incoming } :: (mid ++ rest) := by
  obtain @⟨v, left, hlt, hleft, -, hends⟩ := harm
  have henter : Step p (p.enter x ((w :: mid) ++ rest) hlt) :=
    .enter (w :: mid) rest hdone hwaiting hin hlt
  have hsteps : Steps p (left.rescope left.draft.scope.pop) :=
    (((Relation.ReflTransGen.single henter).tail (.rescope _)).trans hleft.arrives.steps).tail
      (.rescope _)
  have hpop : left.draft.scope.pop = p.draft.scope := pop_of_outer_eq hleft.arrives.outer
  have hwaiting' : left.waiting = w :: (mid ++ rest) := hleft.arrives.waiting
  cases hends with
  | leaves hended =>
    refine ⟨hsteps, hended, hpop, ?_⟩
    rw [List.append_nil]
    exact hwaiting'
  | joins hlive =>
    have hleave : Step (left.rescope left.draft.scope.pop)
        ((left.rescope left.draft.scope.pop).leave (.branch w.ref.label) v) := by
      refine .leave hlive (by simp) (fun o ho => nomatch ho) hleft.sees_one fun l hl => ?_
      refine ⟨w, hwaiting' ▸ List.mem_cons_self, (List.mem_singleton.mp hl).symm, fun r hr => ?_⟩
      exact hleft.arrives.seen_subset (hseen hr)
    refine ⟨hsteps.tail hleave, terminated_endWith _ _, hpop, ?_⟩
    -- only the merge block is a target of the branch
    have hnodup := hleft.ready.sound.waiting_nodup
    rw [waitingLabels, hwaiting', List.map_cons, List.nodup_cons] at hnodup
    change left.waiting.map _ = _
    rw [hwaiting', List.map_cons, map_note_eq_self]
    · rw [Waiting.note, if_pos (by simp [Terminator.successors])]
      rfl
    · intro y hy hmem
      rw [Terminator.successors, List.mem_singleton] at hmem
      exact hnodup.1 (hmem ▸ List.mem_map_of_mem (f := fun z : Waiting => z.ref.label) hy)

end Site

namespace Lower

variable {assigned : List Name} {p : Site}

/-- Lowering an arm, given that it is lowered from its start. -/
private theorem lowerArm_leads {x : Waiting} {rest : List Waiting} {merge : BlockRef}
    {arm : Lower Operand} {R : Site → Operand → Site → Prop} (h : x.ref.index < p.draft.blocks.size)
    (harm : Leads (p.armStart x rest h) arm fun v r =>
      (p.armStart x rest h).Lowered assigned [v] r ∧ R (p.armStart x rest h) v r) :
    Leads p (lowerArm x.ref merge arm) (ArmLowered assigned R p x rest merge) := by
  refine Leads.after (q := p.enter x rest h) (leads_moveTo h rfl) ?_
  refine Leads.after (q := p.armStart x rest h) leads_onScope ?_
  refine harm.bind fun v left hleft => ?_
  refine Leads.after (q := left.rescope left.draft.scope.pop) leads_onScope ?_
  refine leads_ofDraft_bind ?_
  split
  · next hended => exact leads_pure (.intro h hleft.1 hleft.2 (.leaves hended))
  · next hlive =>
    rw [Bool.not_eq_true] at hlive
    refine leads_ofDraft_bind ?_
    refine Leads.after (q := (left.rescope left.draft.scope.pop).leave (.branch merge.label) v)
      (leads_terminate hlive rfl) ?_
    exact leads_pure (.intro h hleft.1 hleft.2 (.joins hlive))

end Lower

/-! ### Forks -/

namespace Site

section Fork

variable (p : Site) (stem : String) (condition : Operand)

/-- The site once the test of a conditional has been emitted. -/
def tested : Site :=
  p.emit (.icmp .ne condition (.word 0))

/-- The flag on which a conditional branches. -/
def flag : Operand :=
  .register (p.draft.registers + 1) .flag

/-- The site once the three blocks of a conditional have been added. -/
def laidOut : Site :=
  (((p.tested condition).addBlock (stem ++ ".then")).addBlock (stem ++ ".else")).addBlock
    (stem ++ ".merge")

/-- The block of the positive arm. -/
def thenRef : BlockRef :=
  ((p.tested condition).draft.addBlock (stem ++ ".then")).1

/-- The block of the negative arm. -/
def elseRef : BlockRef :=
  (((p.tested condition).addBlock (stem ++ ".then")).draft.addBlock (stem ++ ".else")).1

/-- The block in which the arms meet. -/
def mergeRef : BlockRef :=
  ((((p.tested condition).addBlock (stem ++ ".then")).addBlock (stem ++ ".else")).draft.addBlock
    (stem ++ ".merge")).1

/-- The site at which control has forked, and neither arm is begun. -/
def fork : Site :=
  (p.laidOut stem condition).leave
    (.condBranch p.flag (p.thenRef stem condition).label (p.elseRef stem condition).label) p.flag

end Fork

variable {assigned : List Name} {p : Site} {stem : String} {condition : Operand}

/-- Comparing the condition with zero is a step. -/
private theorem step_tested (hc : p.Sees condition) : Step p (p.tested condition) := by
  refine .emit rfl fun o ho => ?_
  rw [Instruction.operands, List.mem_cons, List.mem_singleton] at ho
  rcases ho with rfl | rfl
  · exact hc
  · exact sees_word p 0

/-- Laying out the blocks of a conditional is a run of steps. -/
theorem steps_laidOut (hstem : Undigited stem) (hc : p.Sees condition) :
    Steps p (p.laidOut stem condition) := by
  have hemit := step_tested hc
  have hthen : Undigited (stem ++ ".then") := hstem.append (by simp [Undigited])
  have helse : Undigited (stem ++ ".else") := hstem.append (by simp [Undigited])
  have hmerge : Undigited (stem ++ ".merge") := hstem.append (by simp [Undigited])
  exact (((Relation.ReflTransGen.single hemit).tail (.addBlock hthen)).tail
    (.addBlock helse)).tail (.addBlock hmerge)

private theorem waiting_laidOut : (p.laidOut stem condition).waiting =
    ⟨p.mergeRef stem condition, (p.tested condition).seen, []⟩ ::
    ⟨p.elseRef stem condition, (p.tested condition).seen, []⟩ ::
    ⟨p.thenRef stem condition, (p.tested condition).seen, []⟩ :: p.waiting := rfl

private theorem terminated_laidOut :
    (p.laidOut stem condition).draft.terminated = p.draft.terminated := by
  simp [laidOut, tested, Site.addBlock, Site.emit, FunctionDraft.emit, FunctionDraft.freshRegister]
  rfl

theorem scope_fork : (p.fork stem condition).draft.scope = p.draft.scope :=
  scope_emit p _

/-- Branching on the condition is a step. -/
private theorem step_fork (hlive : p.draft.terminated = false) :
    Step (p.laidOut stem condition) (p.fork stem condition) := by
  have hflag : (p.laidOut stem condition).Sees p.flag := List.mem_cons_self
  refine .leave (terminated_laidOut.trans hlive) (by simp) ?_ hflag ?_
  · exact fun o ho => List.mem_singleton.mp ho ▸ hflag
  · intro l hl
    rw [Terminator.successors, List.mem_cons, List.mem_singleton] at hl
    rw [waiting_laidOut]
    rcases hl with rfl | rfl
    · exact ⟨⟨p.thenRef stem condition, (p.tested condition).seen, []⟩, by simp, rfl,
        List.Subset.refl _⟩
    · exact ⟨⟨p.elseRef stem condition, (p.tested condition).seen, []⟩, by simp, rfl,
        List.Subset.refl _⟩

section Waiting

variable (p stem condition)

/-- The positive arm while it waits, with the branch to it. -/
def thenWaiting : Waiting :=
  ⟨p.thenRef stem condition, (p.tested condition).seen,
    [(p.flag, (p.laidOut stem condition).label)]⟩

/-- The negative arm while it waits, with the branch to it. -/
def elseWaiting : Waiting :=
  ⟨p.elseRef stem condition, (p.tested condition).seen,
    [(p.flag, (p.laidOut stem condition).label)]⟩

/-- The merge block while it waits, with the branches to it so far. -/
def mergeWaiting (incoming : List (Operand × Name)) : Waiting :=
  ⟨p.mergeRef stem condition, (p.tested condition).seen, incoming⟩

end Waiting

/-- Once control has forked, both arms have noted the branch and the merge block has not. -/
theorem waiting_fork (hsound : (p.laidOut stem condition).Sound) :
    (p.fork stem condition).waiting = p.mergeWaiting stem condition [] ::
      ([p.elseWaiting stem condition] ++ p.thenWaiting stem condition :: p.waiting) := by
  have hnodup := hsound.waiting_nodup
  rw [waitingLabels, waiting_laidOut] at hnodup
  simp only [List.map_cons, List.nodup_cons, List.mem_cons, not_or] at hnodup
  obtain ⟨⟨hme, hmt, -⟩, ⟨-, he⟩, ht, -⟩ := hnodup
  rw [fork, Site.leave, waiting_laidOut, List.map_cons, List.map_cons, List.map_cons,
    map_note_eq_self]
  · simp only [Waiting.note, Terminator.successors, List.mem_cons, List.not_mem_nil, or_false]
    rw [if_neg (by tauto), if_pos (by tauto), if_pos (by tauto)]
    rfl
  · intro x hx hmem
    have hx' := List.mem_map_of_mem (f := fun z : Waiting => z.ref.label) hx
    rw [Terminator.successors, List.mem_cons, List.mem_singleton] at hmem
    rcases hmem with hmem | hmem
    · exact ht (hmem ▸ hx')
    · exact he (hmem ▸ hx')

/-- The merge block is labelled as one. -/
theorem isMergeLabel_mergeRef (hsound : p.Sound) (hc : p.Sees condition) :
    IsMergeLabel (p.mergeRef stem condition).label := by
  have hpositive := (hsound.step (step_tested hc)).labelled.positive
  exact ⟨stem, _, fresh_name ((hpositive.fresh _).fresh _) _⟩

/-! ### Both arms -/

/-- Both arms of a conditional have been lowered, by runs of which `R` and `S` hold, and the merge
block is left to be entered. -/
inductive ArmsLowered (assigned : List Name) (R S : Site → Operand → Site → Prop) (p : Site)
    (stem : String) (condition : Operand) : List (Operand × Name) → Site → Prop
  | intro {fromThen fromElse : List (Operand × Name)} {q q' : Site}
      (hthen : ArmLowered assigned R (p.fork stem condition) (p.thenWaiting stem condition)
        (p.mergeWaiting stem condition [] :: ([p.elseWaiting stem condition] ++ p.waiting))
        (p.mergeRef stem condition) fromThen q)
      (helse : ArmLowered assigned S q (p.elseWaiting stem condition)
        (p.mergeWaiting stem condition fromThen :: ([] ++ p.waiting))
        (p.mergeRef stem condition) fromElse q') :
      ArmsLowered assigned R S p stem condition (fromThen ++ fromElse) q'

/-- How the merge block is entered: with a phi, or as a block that is never reached. -/
inductive Merged (x : Waiting) (rest : List Waiting) (p : Site) : Operand → Site → Prop
  | joined (hin : x.incoming ≠ []) (h : x.ref.index < p.draft.blocks.size) :
      Merged x rest p (.register (p.draft.registers + 1) .word)
        ((p.enter x rest h).emit (.phi .word x.incoming))
  | abandoned (hin : x.incoming = []) (h : x.ref.index < p.draft.blocks.size) :
      Merged x rest p (.word 0)
        { p.enter x rest h with draft := (p.draft.goTo x.ref.index h).endWith .unreachable }

variable {R S : Site → Operand → Site → Prop} {incoming : List (Operand × Name)} {q : Site}
  {v : Operand}

/-- The fork extends the draft with the comparison. -/
theorem extends_fork (hlive : p.draft.terminated = false) :
    (p.tested condition).draft.Extends (p.fork stem condition).draft := by
  have hlive' : (p.laidOut stem condition).draft.terminated = false :=
    terminated_laidOut.trans hlive
  exact (extends_addBlock _ _).trans ((extends_addBlock _ _).trans ((extends_addBlock _ _).trans
    (extends_endWith hlive' _)))

/-- A conditional forks by steps. -/
theorem steps_fork (hstem : Undigited stem) (hc : p.Sees condition)
    (hlive : p.draft.terminated = false) : Steps p (p.fork stem condition) :=
  (steps_laidOut hstem hc).tail (step_fork hlive)

/-- Where the positive arm leads. -/
theorem arrives_then (hsound : p.Sound) (hstem : Undigited stem) (hc : p.Sees condition)
    (hthen : ArmLowered assigned R (p.fork stem condition) (p.thenWaiting stem condition)
      (p.mergeWaiting stem condition [] :: ([p.elseWaiting stem condition] ++ p.waiting))
      (p.mergeRef stem condition) incoming q) :
    Steps (p.fork stem condition) q ∧ q.draft.terminated = true ∧ q.draft.scope = p.draft.scope ∧
      q.waiting = p.mergeWaiting stem condition incoming ::
        ([] ++ p.elseWaiting stem condition :: p.waiting) := by
  have hwaiting := waiting_fork (hsound.steps (steps_laidOut hstem hc))
  obtain ⟨hsteps, hdone, hscope, hwaiting⟩ := hthen.arrives (terminated_endWith _ _) hwaiting
    (List.cons_ne_nil _ _) (List.Subset.refl _)
  exact ⟨hsteps, hdone, hscope.trans scope_fork, hwaiting⟩

/-- Once both arms have been lowered only the merge block waits of the three. -/
private theorem ArmsLowered.arrives (harms : p.ArmsLowered assigned R S stem condition incoming q)
    (hsound : p.Sound) (hstem : Undigited stem) (hc : p.Sees condition)
    (hlive : p.draft.terminated = false) :
    Steps p q ∧ q.draft.terminated = true ∧ q.draft.scope = p.draft.scope ∧
      q.waiting = [] ++ p.mergeWaiting stem condition incoming :: p.waiting := by
  obtain ⟨hthen, helse⟩ := harms
  obtain ⟨hsteps, hdone, hscope, hwaiting⟩ := arrives_then hsound hstem hc hthen
  have hfork := (steps_fork hstem hc hlive).trans hsteps
  obtain ⟨hsteps', hdone', hscope', hwaiting'⟩ := helse.arrives hdone hwaiting
    (List.cons_ne_nil _ _) (List.Subset.refl _)
  exact ⟨hfork.trans hsteps', hdone', hscope'.trans hscope, hwaiting'⟩

/-- A block that waits at `q`, to be entered with the local names of `p`. -/
structure Pending (p : Site) (x : Waiting) (q : Site) : Prop where
  sound : q.Sound
  mem : x ∈ q.waiting
  scope : q.draft.scope = p.draft.scope
  registers : p.draft.registers ≤ q.draft.registers

theorem Pending.empty {x : Waiting} (h : Pending p x q) :
    q.draft.block? x.ref.index = some ⟨x.ref.label, [], none⟩ :=
  h.sound.waiting_empty x h.mem

theorem Pending.nodup {x : Waiting} (h : Pending p x q) : (x.incoming.map Prod.snd).Nodup :=
  (h.sound.noted x h.mem).1

/-- Entering the merge block is a step. -/
theorem Merged.step {x : Waiting} {rest : List Waiting} {r : Site} (hmerged : Merged x rest q v r)
    (hdone : q.draft.terminated = true) (hwaiting : q.waiting = [] ++ x :: rest)
    (hlabel : IsMergeLabel x.ref.label) : Step q r := by
  cases hmerged with
  | joined hin hlt => exact .join [] rest hdone hwaiting hin hlt
  | abandoned hin hlt => exact .abandon [] rest hdone hwaiting hin hlabel hlt

/-- Where a conditional leads. -/
private theorem Merged.lowered (h : p.Ready assigned) (hstem : Undigited stem)
    (hc : p.Sees condition) (hlive : p.draft.terminated = false)
    (harms : p.ArmsLowered assigned R S stem condition incoming q) {r : Site}
    (hmerged : Merged (p.mergeWaiting stem condition incoming) p.waiting q v r) :
    p.Lowered assigned [v] r := by
  obtain ⟨hsteps, hdone, hscope, hwaiting⟩ := harms.arrives h.sound hstem hc hlive
  have hstep := hmerged.step hdone hwaiting (isMergeLabel_mergeRef h.sound hc)
  have hsteps' := hsteps.tail hstep
  have hparams := (h.sound.later hsteps').params
  cases hmerged with
  | joined hin hlt =>
    have hsees : ∀ o, p.Sees o → ((q.enter (p.mergeWaiting stem condition incoming) p.waiting
        hlt).emit (.phi .word incoming)).Sees o := by
      refine fun o ho => sees_mono (fun r hr => ?_) hparams ho
      exact List.mem_cons_of_mem _ (List.mem_cons_of_mem _ hr)
    refine ⟨⟨hsteps', rfl, ?_, hsees⟩, ?_, ?_⟩
    · rw [scope_emit]
      exact congrArg Scope.outer hscope
    · exact h.of_scope_eq (h.sound.steps hsteps') ((scope_emit _ _).trans hscope) hsees
    · exact fun o ho => List.mem_singleton.mp ho ▸ List.mem_cons_self
  | abandoned hin hlt =>
    have hsees : ∀ o, p.Sees o → Site.Sees
        { q.enter (p.mergeWaiting stem condition incoming) p.waiting hlt with
          draft := (q.draft.goTo _ hlt).endWith .unreachable } o :=
      fun o ho => sees_mono (fun r hr => List.mem_cons_of_mem _ hr) hparams ho
    refine ⟨⟨hsteps', rfl, congrArg Scope.outer hscope, hsees⟩, ?_, ?_⟩
    · exact h.of_scope_eq (h.sound.steps hsteps') hscope hsees
    · exact fun o ho => List.mem_singleton.mp ho ▸ sees_word _ 0

/-- A conditional has been lowered, by way of arms of which `R` and `S` hold, unless the block had
ended before. -/
inductive Branched (assigned : List Name) (R S : Site → Operand → Site → Prop) (p : Site)
    (stem : String) (condition : Operand) : Operand → Site → Prop
  | skipped (hdone : p.draft.terminated = true) : Branched assigned R S p stem condition (.word 0) p
  | merged {incoming : List (Operand × Name)} {v : Operand} {q r : Site}
      (hlive : p.draft.terminated = false)
      (harms : p.ArmsLowered assigned R S stem condition incoming q)
      (hmerged : Merged (p.mergeWaiting stem condition incoming) p.waiting q v r) :
      Branched assigned R S p stem condition v r

/-- A conditional whose arms have been joined is lowered to its value. -/
theorem Branched.lowered (hb : p.Branched assigned R S stem condition v q) (h : p.Ready assigned)
    (hstem : Undigited stem) (hc : p.Sees condition) : p.Lowered assigned [v] q := by
  cases hb with
  | skipped hdone => exact h.lowered_one (sees_word _ 0)
  | merged hlive harms hmerged => exact hmerged.lowered h hstem hc hlive harms

end Site

namespace Lower

variable {assigned : List Name} {p : Site} {R S : Site → Operand → Site → Prop}

/-- An arm is begun at a ready site at which everything can be used that could be used before the
conditional. -/
private theorem ready_armStart {q : Site} {x : Waiting} (before after : List Waiting)
    (h : p.Ready assigned) (hsteps : Steps p q) (hdone : q.draft.terminated = true)
    (hscope : q.draft.scope = p.draft.scope) (hwaiting : q.waiting = before ++ x :: after)
    (hin : x.incoming ≠ []) (hseen : p.seen ⊆ x.seen) (hlt : x.ref.index < q.draft.blocks.size) :
    (q.armStart x (before ++ after) hlt).Ready assigned ∧
      p.draft.Later (q.armStart x (before ++ after) hlt).draft ∧
      ∀ o, p.Sees o → (q.armStart x (before ++ after) hlt).Sees o := by
  have hsteps' : Steps p (q.armStart x (before ++ after) hlt) :=
    (hsteps.tail (.enter before after hdone hwaiting hin hlt)).tail (.rescope _)
  have hlater := h.sound.later hsteps'
  have hsees : ∀ o, p.Sees o → (q.armStart x (before ++ after) hlt).Sees o :=
    fun o ho => sees_mono hseen hlater.params ho
  exact ⟨h.push (h.sound.steps hsteps') (congrArg Scope.push hscope) hsees, hlater, hsees⟩

/-- A block that waits is there. -/
private theorem waiting_lt {q : Site} {x : Waiting} (before after : List Waiting) (h : q.Sound)
    (hwaiting : q.waiting = before ++ x :: after) : x.ref.index < q.draft.blocks.size :=
  block?_lt (h.waiting_empty x (hwaiting ▸ List.mem_append_right before List.mem_cons_self))

/-- Lowering a conditional, given that both arms are lowered from every site at which what can be
used here can be used. -/
theorem lowerBranches_leads (h : p.Ready assigned) {stem : String} (hstem : Undigited stem)
    {condition : Operand} (hc : p.Sees condition) {positive negative : Lower Operand}
    (hpositive : ∀ q : Site, q.Ready assigned → p.draft.Later q.draft → (∀ o, p.Sees o → q.Sees o) →
      Leads q positive fun v r => q.Lowered assigned [v] r ∧ R q v r)
    (hnegative : ∀ q : Site, q.Ready assigned → p.draft.Later q.draft → (∀ o, p.Sees o → q.Sees o) →
      Leads q negative fun v r => q.Lowered assigned [v] r ∧ S q v r) :
    Leads p (lowerBranches stem condition positive negative)
      (p.Branched assigned R S stem condition) := by
  refine leads_ofDraft_bind ?_
  split
  · next hdone => exact leads_pure (.skipped hdone)
  next hlive =>
  rw [Bool.not_eq_true] at hlive
  refine Leads.after (q := p.tested condition) leads_emit ?_
  refine Leads.after leads_addBlock (Leads.after leads_addBlock (Leads.after leads_addBlock ?_))
  refine Leads.after (q := p.fork stem condition)
    (leads_terminate (terminated_laidOut.trans hlive) rfl) ?_
  have hfork := steps_fork hstem hc hlive
  have hwaiting := waiting_fork (h.sound.steps (steps_laidOut hstem hc))
  have hseen : p.seen ⊆ (p.tested condition).seen :=
    List.subset_cons_of_subset _ (List.Subset.refl _)
  -- the positive arm
  have hlt := waiting_lt [_, _] _ (h.sound.steps hfork) hwaiting
  obtain ⟨hready, hlater, hsees⟩ := ready_armStart [_, _] _ h hfork
    (terminated_endWith _ _) scope_fork hwaiting (List.cons_ne_nil _ _) hseen hlt
  refine (lowerArm_leads hlt (hpositive _ hready hlater hsees)).bind fun fromThen q1 hthen => ?_
  obtain ⟨hsteps1, hdone1, hscope1, hwaiting1⟩ := arrives_then h.sound hstem hc hthen
  -- the negative arm
  have hfork1 := hfork.trans hsteps1
  have hlt1 := waiting_lt [_] _ (h.sound.steps hfork1) hwaiting1
  obtain ⟨hready, hlater, hsees⟩ := ready_armStart [_] _ h hfork1 hdone1 hscope1
    hwaiting1 (List.cons_ne_nil _ _) hseen hlt1
  refine (lowerArm_leads hlt1 (hnegative _ hready hlater hsees)).bind fun fromElse q2 helse => ?_
  have harms : p.ArmsLowered assigned R S stem condition (fromThen ++ fromElse) q2 :=
    .intro hthen helse
  obtain ⟨hsteps2, hdone2, hscope2, hwaiting2⟩ := harms.arrives h.sound hstem hc hlive
  -- the merge block, with a phi unless both arms have left the function
  have hsound2 := h.sound.steps hsteps2
  have hlt2 := waiting_lt [] _ hsound2 hwaiting2
  refine Leads.after (q := q2.enter (p.mergeWaiting stem condition (fromThen ++ fromElse)) p.waiting
    hlt2) (leads_moveTo hlt2 rfl) ?_
  split
  · next hnone =>
    have hlive2 : (q2.draft.goTo (p.mergeRef stem condition).index hlt2).terminated = false := by
      rw [terminated_eq_false_iff]
      exact congrArg BlockDraft.terminator (currentBlock_enter [] p.waiting hsound2 hwaiting2 hlt2)
    refine Leads.after (leads_terminate (q := { q2.enter _ p.waiting hlt2 with
      draft := (q2.draft.goTo _ hlt2).endWith .unreachable }) hlive2 rfl) ?_
    exact leads_pure (.merged hlive harms (.abandoned hnone hlt2))
  · next hsome => exact leads_emit (.merged hlive harms (.joined hsome hlt2))

/-- Lowering a conditional leads to a site at which its value can be used. -/
theorem lowerBranches_lowered (h : p.Ready assigned) {stem : String} (hstem : Undigited stem)
    {condition : Operand} (hc : p.Sees condition) {positive negative : Lower Operand}
    (hpositive : ∀ q : Site, q.Ready assigned → (∀ o, p.Sees o → q.Sees o) →
      Leads q positive fun v r => q.Lowered assigned [v] r)
    (hnegative : ∀ q : Site, q.Ready assigned → (∀ o, p.Sees o → q.Sees o) →
      Leads q negative fun v r => q.Lowered assigned [v] r) :
    Leads p (lowerBranches stem condition positive negative)
      fun v q => p.Lowered assigned [v] q := by
  refine (lowerBranches_leads (R := fun _ _ _ => True) (S := fun _ _ _ => True) h hstem hc
    (fun q hq _ hsees => ?_) fun q hq _ hsees => ?_).mono fun v q hb => hb.lowered h hstem hc
  · exact (hpositive q hq hsees).mono fun _ _ hr => ⟨hr, trivial⟩
  · exact (hnegative q hq hsees).mono fun _ _ hr => ⟨hr, trivial⟩

end Lower

end WordScheme
