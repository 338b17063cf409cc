import Mathlib
import WordScheme.Proofs.Construction

/-!
# Control flow under construction

`Site.Sound` is the invariant that holds throughout the lowering of a function, however its
conditionals are nested: the blocks that wait are empty, all other blocks but the current one have
ended, the blocks that branch to a waiting block are exactly those it has noted, phis agree with the
edges, and every block that has been entered can be reached unless it is the merge block of two arms
that both left the function.

A step changes the blocks of the draft in one of four ways, and there is one lemma for each:
`Sound.append`, `Sound.addBlock`, `Sound.leave` and `Sound.enter`, the last with its two variants
for merge blocks. `Sound.steps` puts them together.
-/

namespace WordScheme

open NameSupply FunctionDraft

namespace FunctionDraft

/-- Control can get to a label from the first block. -/
def Reaches (d : FunctionDraft) (l : Name) : Prop :=
  Relation.ReflTransGen d.Goes "entry" l

/-- The labels of the blocks that branch to `l`, each once. -/
def Sources (d : FunctionDraft) (labels : List Name) (l : Name) : Prop :=
  labels.Nodup ∧ ∀ k, k ∈ labels ↔ d.Goes k l

/-- The merge block of two arms that both left the function. -/
structure Abandoned (d : FunctionDraft) (b : BlockDraft) : Prop where
  merge : IsMergeLabel b.label
  statements : b.statements = []
  terminator : b.terminator = some .unreachable
  sources : ∀ l, ¬ d.Goes l b.label

variable {d e : FunctionDraft}

/-- More jumps reach more labels. -/
private theorem Reaches.mono (h : ∀ {l l'}, d.Goes l l' → e.Goes l l') {l : Name}
    (hl : d.Reaches l) : e.Reaches l :=
  Relation.ReflTransGen.mono (fun _ _ => h) _ _ hl

/-- Facts about sources carry over where no edge to the label is added. -/
private theorem Sources.congr {labels : List Name} {l : Name} (hs : d.Sources labels l)
    (h : ∀ {k}, e.Goes k l ↔ d.Goes k l) : e.Sources labels l :=
  ⟨hs.1, fun k => (hs.2 k).trans h.symm⟩

/-- A label of a draft is one of its extensions. -/
private theorem Extends.exists_label (h : d.Extends e) {l : Name}
    (hl : ∃ i b, d.block? i = some b ∧ b.label = l) :
    ∃ i b, e.block? i = some b ∧ b.label = l := by
  obtain ⟨i, b, hb, rfl⟩ := hl
  obtain ⟨c, hc, hlabel, -⟩ := h i b hb
  exact ⟨i, c, hc, hlabel⟩

/-- A block stays abandoned as long as no edge to it is added. -/
private theorem Abandoned.congr {b : BlockDraft} (ha : d.Abandoned b)
    (h : ∀ {l}, e.Goes l b.label → d.Goes l b.label) : e.Abandoned b :=
  ⟨ha.merge, ha.statements, ha.terminator, fun l hg => ha.sources l (h hg)⟩

end FunctionDraft

namespace Site

/-- The invariant of control flow under construction. -/
structure Sound (p : Site) : Prop where
  labelled : p.draft.Labelled
  entry : ∃ b, p.draft.block? 0 = some b ∧ b.label = "entry"
  waiting_nodup : p.waitingLabels.Nodup
  waiting_empty : ∀ x ∈ p.waiting, p.draft.block? x.ref.index = some ⟨x.ref.label, [], none⟩
  entered : p.label ∉ p.waitingLabels
  entry_entered : "entry" ∉ p.waitingLabels
  ended : ∀ {i b}, p.draft.block? i = some b → b.terminator = none →
    i = p.draft.current ∨ b.label ∈ p.waitingLabels
  targets : ∀ {l l'}, p.draft.Goes l l' →
    l' ≠ "entry" ∧ ∃ i b, p.draft.block? i = some b ∧ b.label = l'
  noted : ∀ x ∈ p.waiting, p.draft.Sources (x.incoming.map Prod.snd) x.ref.label
  phis : ∀ {i b k s incoming}, p.draft.block? i = some b → b.statements[k]? = some s →
    s.instruction.incoming? = some incoming →
    k = 0 ∧ p.draft.Sources (incoming.map Prod.snd) b.label
  reached : ∀ {i b}, p.draft.block? i = some b → b.label ∉ p.waitingLabels →
    p.draft.Reaches b.label ∨ p.draft.Abandoned b

variable {p : Site}

/-! ### Consequences -/

private theorem mem_waitingLabels {x : Waiting} (hx : x ∈ p.waiting) :
    x.ref.label ∈ p.waitingLabels :=
  List.mem_map_of_mem hx

/-- A waiting block is not the current one. -/
private theorem Sound.index_ne_current (h : p.Sound) {x : Waiting} (hx : x ∈ p.waiting) :
    x.ref.index ≠ p.draft.current := by
  intro heq
  have hb := h.waiting_empty x hx
  rw [heq] at hb
  refine h.entered ?_
  rw [label, ← eq_currentBlock hb]
  exact mem_waitingLabels hx

/-- A block that is not the current one and does not wait has ended. -/
theorem Sound.exists_terminator (h : p.Sound) {i : Nat} {b : BlockDraft}
    (hb : p.draft.block? i = some b) (hcur : i ≠ p.draft.current)
    (hw : b.label ∉ p.waitingLabels) : ∃ t, b.terminator = some t := by
  cases ht : b.terminator with
  | none => exact absurd (h.ended hb ht) (by simp [hcur, hw])
  | some t => exact ⟨t, rfl⟩

/-- A block that branches somewhere can be reached. -/
private theorem Sound.reaches_of_goes (h : p.Sound) {l l' : Name} (hg : p.draft.Goes l l') :
    p.draft.Reaches l := by
  obtain ⟨i, b, t, hb, rfl, ht, hs⟩ := hg
  -- a waiting block is empty, so this one has been entered; an abandoned one branches nowhere
  have hw : b.label ∉ p.waitingLabels := by
    intro hmem
    obtain ⟨x, hx, hlabel⟩ := List.mem_map.mp hmem
    have hxb := h.waiting_empty x hx
    have hi := h.labelled.distinct hxb hb hlabel
    rw [hi, hb] at hxb
    rw [Option.some.inj hxb] at ht
    cases ht
  rcases h.reached hb hw with hr | ha
  · exact hr
  · rw [ha.terminator] at ht
    cases ht
    cases hs

/-- A waiting block that has noted a branch can be reached. -/
private theorem Sound.reaches_of_noted (h : p.Sound) {x : Waiting} (hx : x ∈ p.waiting)
    (hin : x.incoming ≠ []) : p.draft.Reaches x.ref.label := by
  obtain ⟨⟨value, l⟩, hl⟩ := List.exists_mem_of_ne_nil _ hin
  have hg := ((h.noted x hx).2 l).mp (List.mem_map_of_mem (f := Prod.snd) hl)
  exact (h.reaches_of_goes hg).tail hg

/-- The current block can be reached, unless it has ended. -/
private theorem Sound.reaches_current (h : p.Sound) (hlive : p.draft.terminated = false) :
    p.draft.Reaches p.label := by
  rcases h.reached (block?_current p.draft) h.entered with hr | ha
  · exact hr
  · have hnone := terminated_eq_false_iff.mp hlive
    rw [ha.terminator] at hnone
    cases hnone

/-- An extension of a sound site begins with the entry. -/
private theorem Sound.entry_of_extends (h : p.Sound) {e : FunctionDraft}
    (hext : p.draft.Extends e) : ∃ b, e.block? 0 = some b ∧ b.label = "entry" := by
  obtain ⟨b, hb, hentry⟩ := h.entry
  obtain ⟨c, hc, hcb, -⟩ := hext 0 b hb
  exact ⟨c, hc, hcb.trans hentry⟩

/-- The jumps of a sound site lead to blocks of its extensions, and none to the entry. -/
private theorem Sound.targets_of_extends (h : p.Sound) {e : FunctionDraft}
    (hext : p.draft.Extends e) {l l' : Name} (hg : p.draft.Goes l l') :
    l' ≠ "entry" ∧ ∃ i b, e.block? i = some b ∧ b.label = l' :=
  (h.targets hg).imp_right hext.exists_label

/-- The invariant is about blocks, labels, the current block and the blocks that wait only. -/
private theorem Sound.congr {q : Site} (h : p.Sound) (hblocks : q.draft.blocks = p.draft.blocks)
    (hcurrent : q.draft.current = p.draft.current) (hlabels : q.draft.labels = p.draft.labels)
    (hwaiting : q.waiting = p.waiting) : q.Sound := by
  obtain ⟨⟨_, _, _, _, _, _, _, _, _, _⟩, _, _⟩ := p
  obtain ⟨⟨_, _, _, _, _, _, _, _, _, _⟩, _, _⟩ := q
  dsimp only at hblocks hcurrent hlabels hwaiting
  subst hblocks hcurrent hlabels hwaiting
  exact ⟨⟨h.labelled.positive, h.labelled.issued, h.labelled.distinct⟩, h.entry, h.waiting_nodup,
    h.waiting_empty, h.entered, h.entry_entered, h.ended, h.targets, h.noted, h.phis,
    fun hb hw => (h.reached hb hw).imp_right fun ha =>
      ⟨ha.merge, ha.statements, ha.terminator, ha.sources⟩⟩

/-! ### Statements -/

/-- A statement at the end of the current block. A phi may only come first, and has to name the
blocks that branch to it. -/
private theorem Sound.append (h : p.Sound) {s : Statement}
    (hphi : ∀ {incoming}, s.instruction.incoming? = some incoming →
      p.draft.currentBlock.statements = [] ∧ p.draft.Sources (incoming.map Prod.snd) p.label) :
    Sound { p with draft := p.draft.append s } := by
  cases hlive : p.draft.terminated with
  | true => exact h.congr (by rw [append_of_terminated hlive]) (by simp) (by simp) rfl
  | false =>
    have hgoes : ∀ {l l'}, (p.draft.append s).Goes l l' ↔ p.draft.Goes l l' := goes_append
    have hext := extends_append p.draft s
    have hblock : ∀ i, (p.draft.append s).block? i = if i = p.draft.current then
        some { p.draft.currentBlock with statements := p.draft.currentBlock.statements ++ [s] }
        else p.draft.block? i := by
      intro i
      rw [append_of_live hlive]
      exact block?_updateCurrent _ _ i
    have hlabel : (p.draft.append s).currentBlock.label = p.draft.currentBlock.label := by
      rw [append_of_live hlive, currentBlock_updateCurrent]
    exact {
      labelled := h.labelled.append s
      entry := h.entry_of_extends hext
      waiting_nodup := h.waiting_nodup
      waiting_empty := by
        intro x hx
        dsimp only
        rw [hblock, if_neg (h.index_ne_current hx)]
        exact h.waiting_empty x hx
      entered := by
        rw [label, hlabel]
        exact h.entered
      entry_entered := h.entry_entered
      ended := by
        intro i b hb hnone
        rw [hblock] at hb
        split_ifs at hb with hi
        · exact .inl (by rw [hi, append_current])
        · rw [append_current]
          exact h.ended hb hnone
      targets := fun hg => h.targets_of_extends hext (hgoes.mp hg)
      noted := fun x hx => (h.noted x hx).congr hgoes
      phis := by
        intro i b k s' incoming hb hs hin
        rw [hblock] at hb
        split_ifs at hb with hi
        · cases hb
          rw [List.getElem?_append] at hs
          split_ifs at hs with hk
          · obtain ⟨hzero, hsrc⟩ := h.phis (block?_current p.draft) hs hin
            exact ⟨hzero, hsrc.congr hgoes⟩
          · -- the new statement is the phi, and it is the first one of its block
            obtain ⟨hk', rfl⟩ : k - p.draft.currentBlock.statements.length = 0 ∧ s = s' := by
              rw [List.getElem?_singleton] at hs
              split_ifs at hs with hz
              exact ⟨hz, Option.some.inj hs⟩
            obtain ⟨hempty, hsrc⟩ := hphi hin
            rw [hempty] at hk'
            exact ⟨hk', hsrc.congr hgoes⟩
        · obtain ⟨hzero, hsrc⟩ := h.phis hb hs hin
          exact ⟨hzero, hsrc.congr hgoes⟩
      reached := by
        intro i b hb hw
        rw [hblock] at hb
        split_ifs at hb with hi
        · cases hb
          exact .inl ((h.reaches_current hlive).mono hgoes.mpr)
        · refine (h.reached hb hw).imp (fun hr => hr.mono hgoes.mpr) fun ha => ?_
          exact ha.congr hgoes.mp }

/-! ### New blocks -/

/-- A new block may wait to be entered. -/
private theorem Sound.addBlock (h : p.Sound) {base : Name} (hbase : Undigited base) :
    (p.addBlock base).Sound := by
  have hfresh : ∀ {i b}, p.draft.block? i = some b → b.label ≠ (p.draft.addBlock base).1.label :=
    fun hb => h.labelled.fresh_not_used hbase hb
  have hgoes : ∀ {l l'}, (p.draft.addBlock base).2.Goes l l' ↔ p.draft.Goes l l' := goes_addBlock
  have hext := extends_addBlock p.draft base
  exact {
    labelled := h.labelled.addBlock hbase
    entry := h.entry_of_extends hext
    waiting_nodup := by
      refine List.nodup_cons.mpr ⟨fun hmem => ?_, h.waiting_nodup⟩
      obtain ⟨x, hx, hlabel⟩ := List.mem_map.mp hmem
      exact hfresh (h.waiting_empty x hx) hlabel
    waiting_empty := by
      intro x hx
      rcases List.mem_cons.mp hx with rfl | hx
      · exact (block?_addBlock p.draft base _).trans (if_pos rfl)
      · have hb := h.waiting_empty x hx
        refine (block?_addBlock p.draft base _).trans ?_
        rw [if_neg (Nat.ne_of_lt (block?_lt hb))]
        exact hb
    entered := by
      intro hmem
      rw [label, Site.addBlock, currentBlock_addBlock] at hmem
      rcases List.mem_cons.mp hmem with heq | hmem
      · exact hfresh (block?_current p.draft) heq
      · exact h.entered hmem
    entry_entered := by
      intro hmem
      obtain ⟨b, hb, hentry⟩ := h.entry
      rcases List.mem_cons.mp hmem with heq | hmem
      · exact hfresh hb (hentry.trans heq)
      · exact h.entry_entered hmem
    ended := by
      intro i b hb hnone
      rw [Site.addBlock, block?_addBlock] at hb
      split_ifs at hb with hi
      · cases hb
        exact .inr List.mem_cons_self
      · exact (h.ended hb hnone).imp id (List.mem_cons_of_mem _)
    targets := fun hg => h.targets_of_extends hext (hgoes.mp hg)
    noted := by
      intro x hx
      rcases List.mem_cons.mp hx with rfl | hx
      · -- the label was not in use, and edges lead to labels in use only
        refine ⟨List.nodup_nil, fun k => iff_of_false List.not_mem_nil fun hg => ?_⟩
        obtain ⟨-, i, b, hb, hlabel⟩ := h.targets (hgoes.mp hg)
        exact hfresh hb hlabel
      · exact (h.noted x hx).congr hgoes
    phis := by
      intro i b k s incoming hb hs hin
      rw [Site.addBlock, block?_addBlock] at hb
      split_ifs at hb with hi
      · cases hb
        cases hs
      · obtain ⟨hzero, hsrc⟩ := h.phis hb hs hin
        exact ⟨hzero, hsrc.congr hgoes⟩
    reached := by
      intro i b hb hw
      rw [Site.addBlock, block?_addBlock] at hb
      split_ifs at hb with hi
      · cases hb
        exact absurd List.mem_cons_self hw
      · have hw' : b.label ∉ p.waitingLabels := fun hmem => hw (List.mem_cons_of_mem _ hmem)
        refine (h.reached hb hw').imp (fun hr => hr.mono hgoes.mpr) fun ha => ?_
        exact ha.congr hgoes.mp }

/-! ### The end of a block -/

@[simp]
theorem note_ref (targets : List Name) (value : Operand) (source : Name) (x : Waiting) :
    (x.note targets value source).ref = x.ref := by
  rw [Waiting.note]
  split <;> rfl

@[simp]
theorem note_seen (targets : List Name) (value : Operand) (source : Name) (x : Waiting) :
    (x.note targets value source).seen = x.seen := by
  rw [Waiting.note]
  split <;> rfl

@[simp]
theorem waitingLabels_leave (p : Site) (t : Terminator) (value : Operand) :
    (p.leave t value).waitingLabels = p.waitingLabels := by
  simp [waitingLabels, leave, Function.comp_def]

/-- No edge leads out of the current block before it ends. -/
private theorem Sound.not_goes_current (h : p.Sound) (hlive : p.draft.terminated = false)
    {l : Name} : ¬ p.draft.Goes p.label l := by
  rintro ⟨i, b, t, hb, hlabel, ht, -⟩
  obtain rfl := h.labelled.distinct hb (block?_current p.draft) hlabel
  rw [eq_currentBlock hb, terminated_eq_false_iff.mp hlive] at ht
  cases ht

/-- A live block may be left for blocks that wait. -/
private theorem Sound.leave (h : p.Sound) {t : Terminator} {value : Operand}
    (hlive : p.draft.terminated = false) (htargets : ∀ l ∈ t.successors, l ∈ p.waitingLabels) :
    (p.leave t value).Sound := by
  have hgoes : ∀ {l l'}, (p.leave t value).draft.Goes l l' ↔
      p.draft.Goes l l' ∨ (l = p.label ∧ l' ∈ t.successors) := goes_endWith hlive
  have hold : ∀ {l l'}, l' ∉ t.successors →
      ((p.leave t value).draft.Goes l l' ↔ p.draft.Goes l l') := by
    intro l l' hl'
    rw [hgoes]
    exact or_iff_left fun hnew => hl' hnew.2
  have hext : p.draft.Extends (p.leave t value).draft := extends_endWith hlive t
  have hblock : ∀ i, (p.leave t value).draft.block? i = if i = p.draft.current then
      some { p.draft.currentBlock with terminator := some t } else p.draft.block? i :=
    block?_updateCurrent _ _
  have hlabel : (p.leave t value).label = p.label := by
    simp [label, Site.leave, endWith]
  exact {
    labelled := h.labelled.endWith t
    entry := h.entry_of_extends hext
    waiting_nodup := by
      rw [waitingLabels_leave]
      exact h.waiting_nodup
    waiting_empty := by
      intro y hy
      obtain ⟨x, hx, rfl⟩ := List.mem_map.mp hy
      rw [note_ref, hblock, if_neg (h.index_ne_current hx)]
      exact h.waiting_empty x hx
    entered := by
      rw [waitingLabels_leave, hlabel]
      exact h.entered
    entry_entered := by
      rw [waitingLabels_leave]
      exact h.entry_entered
    ended := by
      intro i b hb hnone
      rw [waitingLabels_leave]
      rw [hblock] at hb
      split_ifs at hb with hi
      · cases hb
        cases hnone
      · exact h.ended hb hnone
    targets := by
      intro l l' hg
      rcases hgoes.mp hg with hg | ⟨-, hl'⟩
      · exact h.targets_of_extends hext hg
      · have hw := htargets l' hl'
        obtain ⟨x, hx, rfl⟩ := List.mem_map.mp hw
        refine ⟨fun heq => h.entry_entered (heq ▸ hw), hext.exists_label ?_⟩
        exact ⟨_, _, h.waiting_empty x hx, rfl⟩
    noted := by
      intro y hy
      obtain ⟨x, hx, rfl⟩ := List.mem_map.mp hy
      obtain ⟨hnodup, hsrc⟩ := h.noted x hx
      rw [note_ref]
      by_cases hx' : x.ref.label ∈ t.successors
      · have hnew : (x.note t.successors value p.label).incoming.map Prod.snd =
            x.incoming.map Prod.snd ++ [p.label] := by
          rw [Waiting.note, if_pos hx', List.map_append]
          rfl
        -- a block ends once, so it is not among the sources yet
        rw [hnew]
        refine ⟨List.nodup_append_comm.mp (List.nodup_cons.mpr ⟨fun hmem => ?_, hnodup⟩),
          fun k => ?_⟩
        · exact h.not_goes_current hlive ((hsrc _).mp hmem)
        · rw [hgoes, List.mem_append, List.mem_singleton, hsrc]
          exact or_congr_right (and_iff_left hx').symm
      · rw [Waiting.note, if_neg hx']
        exact (h.noted x hx).congr (hold hx')
    phis := by
      intro i b k s incoming hb hs hin
      obtain ⟨b', hb', hbl, hbs⟩ : ∃ b', p.draft.block? i = some b' ∧ b'.label = b.label ∧
          b'.statements = b.statements := by
        rw [hblock] at hb
        split_ifs at hb with hi
        · cases hb
          exact ⟨p.draft.currentBlock, hi ▸ block?_current p.draft, rfl, rfl⟩
        · exact ⟨b, hb, rfl, rfl⟩
      rw [← hbs] at hs
      rw [← hbl]
      obtain ⟨hzero, hsrc⟩ := h.phis hb' hs hin
      refine ⟨hzero, hsrc.congr (hold fun hmem => ?_)⟩
      -- the targets wait, and so have no statements
      obtain ⟨x, hx, hxl⟩ := List.mem_map.mp (htargets _ hmem)
      obtain rfl := h.labelled.distinct (h.waiting_empty x hx) hb' hxl
      rw [h.waiting_empty x hx] at hb'
      cases hb'
      cases hs
    reached := by
      intro i b hb hw
      rw [waitingLabels_leave] at hw
      rw [hblock] at hb
      split_ifs at hb with hi
      · cases hb
        exact .inl ((h.reaches_current hlive).mono fun hg => hgoes.mpr (.inl hg))
      · refine (h.reached hb hw).imp (fun hr => hr.mono fun hg => hgoes.mpr (.inl hg)) fun ha => ?_
        exact ha.congr (hold fun hmem => hw (htargets _ hmem)).mp }

/-! ### The next block -/

section Enter

variable {x : Waiting} {before after : List Waiting}

private theorem waitingLabels_eq (hwaiting : p.waiting = before ++ x :: after) :
    p.waitingLabels = before.map (fun y => y.ref.label) ++
      x.ref.label :: after.map (fun y => y.ref.label) := by
  rw [waitingLabels, hwaiting, List.map_append, List.map_cons]

/-- What waits once a waiting block has been entered: the same blocks without that one. -/
private theorem mem_rest_iff (h : p.Sound) (hwaiting : p.waiting = before ++ x :: after)
    {l : Name} :
    l ∈ (before ++ after).map (fun y => y.ref.label) ↔ l ∈ p.waitingLabels ∧ l ≠ x.ref.label := by
  have hnodup := h.waiting_nodup
  rw [waitingLabels_eq hwaiting] at hnodup ⊢
  rw [List.nodup_middle, List.nodup_cons] at hnodup
  rw [List.map_append]
  constructor
  · intro hl
    refine ⟨?_, fun heq => hnodup.1 (heq ▸ hl)⟩
    rw [List.mem_append] at hl ⊢
    exact hl.imp_right (List.mem_cons_of_mem _)
  · rintro ⟨hl, hne⟩
    rw [List.mem_append, List.mem_cons] at hl
    rw [List.mem_append]
    tauto

/-- The other blocks that wait have different labels. -/
private theorem nodup_rest (h : p.Sound) (hwaiting : p.waiting = before ++ x :: after) :
    ((before ++ after).map fun y => y.ref.label).Nodup := by
  have hnodup := h.waiting_nodup
  rw [waitingLabels_eq hwaiting, List.nodup_middle, List.nodup_cons] at hnodup
  rw [List.map_append]
  exact hnodup.2

theorem mem_of_rest (hwaiting : p.waiting = before ++ x :: after) {y : Waiting}
    (hy : y ∈ before ++ after) : y ∈ p.waiting := by
  rw [hwaiting]
  rw [List.mem_append] at hy ⊢
  exact hy.imp_right (List.mem_cons_of_mem _)

theorem mem_of_eq (hwaiting : p.waiting = before ++ x :: after) : x ∈ p.waiting := by
  rw [hwaiting]
  exact List.mem_append_right _ List.mem_cons_self

/-- Once the current block has ended, a block without terminator is one that waits. -/
private theorem mem_waitingLabels_of_open (h : p.Sound) (hdone : p.draft.terminated = true)
    {i : Nat} {b : BlockDraft} (hb : p.draft.block? i = some b) (hnone : b.terminator = none) :
    b.label ∈ p.waitingLabels := by
  rcases h.ended hb hnone with rfl | hw
  · rw [eq_currentBlock hb] at hnone
    rw [terminated, hnone] at hdone
    cases hdone
  · exact hw

/-- A block that waited is empty when it is entered. -/
theorem currentBlock_enter (before after : List Waiting) (h : p.Sound)
    (hwaiting : p.waiting = before ++ x :: after) (hlt : x.ref.index < p.draft.blocks.size) :
    (p.enter x (before ++ after) hlt).draft.currentBlock = ⟨x.ref.label, [], none⟩ := by
  refine (eq_currentBlock (d := (p.enter x (before ++ after) hlt).draft) ?_).symm
  exact h.waiting_empty x (mem_of_eq hwaiting)

/-- Behind a terminator, a block that waits and has been branched to may be entered. -/
private theorem Sound.enter (h : p.Sound) (hdone : p.draft.terminated = true)
    (hwaiting : p.waiting = before ++ x :: after) (hin : x.incoming ≠ [])
    (hlt : x.ref.index < p.draft.blocks.size) : (p.enter x (before ++ after) hlt).Sound := by
  have hx := mem_of_eq hwaiting
  have hcur := currentBlock_enter before after h hwaiting hlt
  exact {
    labelled := ⟨h.labelled.positive, h.labelled.issued, h.labelled.distinct⟩
    entry := h.entry
    waiting_nodup := nodup_rest h hwaiting
    waiting_empty := fun y hy => h.waiting_empty y (mem_of_rest hwaiting hy)
    entered := by
      intro hmem
      rw [label, hcur] at hmem
      exact ((mem_rest_iff h hwaiting).mp hmem).2 rfl
    entry_entered := fun hmem => h.entry_entered ((mem_rest_iff h hwaiting).mp hmem).1
    ended := by
      intro i b hb hnone
      have hw := mem_waitingLabels_of_open h hdone hb hnone
      by_cases hbx : b.label = x.ref.label
      · exact .inl (h.labelled.distinct hb (h.waiting_empty x hx) hbx)
      · exact .inr ((mem_rest_iff h hwaiting).mpr ⟨hw, hbx⟩)
    targets := h.targets
    noted := fun y hy => h.noted y (mem_of_rest hwaiting hy)
    phis := h.phis
    reached := by
      intro i b hb hw
      by_cases hbx : b.label = x.ref.label
      · rw [hbx]
        exact .inl (h.reaches_of_noted hx hin)
      · have hreached := h.reached hb fun hmem => hw ((mem_rest_iff h hwaiting).mpr ⟨hmem, hbx⟩)
        refine hreached.imp_right ?_
        exact fun ha => ⟨ha.merge, ha.statements, ha.terminator, ha.sources⟩ }

/-- A merge block is entered with the phi that names the blocks which branch to it. -/
private theorem Sound.join (h : p.Sound) (hdone : p.draft.terminated = true)
    (hwaiting : p.waiting = before ++ x :: after) (hin : x.incoming ≠ [])
    (hlt : x.ref.index < p.draft.blocks.size) :
    ((p.enter x (before ++ after) hlt).emit (.phi .word x.incoming)).Sound := by
  have hcur := currentBlock_enter before after h hwaiting hlt
  have hentered := h.enter hdone hwaiting hin hlt
  -- emitting is to take a register and to append; the invariant does not look at registers
  refine (Sound.append (s := ⟨some (p.draft.registers + 1), .phi .word x.incoming⟩)
    (hentered.congr (q := ⟨{ (p.enter x (before ++ after) hlt).draft with
      registers := p.draft.registers + 1 }, [], before ++ after⟩) rfl rfl rfl rfl) ?_).congr
    rfl rfl rfl rfl
  intro incoming hincoming
  cases hincoming
  refine ⟨congrArg BlockDraft.statements hcur, ?_⟩
  have hlabel := congrArg BlockDraft.label hcur
  change p.draft.Sources _ (p.enter x (before ++ after) hlt).label
  rw [label, hlabel]
  exact h.noted x (mem_of_eq hwaiting)

/-- A merge block to which no block branches is entered and ends at once. -/
private theorem Sound.abandon (h : p.Sound) (hdone : p.draft.terminated = true)
    (hwaiting : p.waiting = before ++ x :: after) (hin : x.incoming = [])
    (hmerge : IsMergeLabel x.ref.label) (hlt : x.ref.index < p.draft.blocks.size) :
    Sound { p.enter x (before ++ after) hlt with
      draft := (p.draft.goTo x.ref.index hlt).endWith .unreachable } := by
  have hx := mem_of_eq hwaiting
  have hcur := currentBlock_enter before after h hwaiting hlt
  have hlive : (p.draft.goTo x.ref.index hlt).terminated = false := by
    rw [terminated_eq_false_iff]
    exact congrArg BlockDraft.terminator hcur
  have hgoes : ∀ {l l'}, ((p.draft.goTo x.ref.index hlt).endWith .unreachable).Goes l l' ↔
      p.draft.Goes l l' := by
    intro l l'
    rw [goes_endWith hlive]
    exact or_iff_left fun hnew => List.not_mem_nil hnew.2
  have hblock : ∀ i, ((p.draft.goTo x.ref.index hlt).endWith .unreachable).block? i =
      if i = x.ref.index then some ⟨x.ref.label, [], some .unreachable⟩ else p.draft.block? i := by
    intro i
    rw [endWith, block?_updateCurrent]
    rw [show (p.draft.goTo x.ref.index hlt).currentBlock = ⟨x.ref.label, [], none⟩ from hcur]
    rfl
  have hext : p.draft.Extends ((p.draft.goTo x.ref.index hlt).endWith .unreachable) :=
    extends_endWith (d := p.draft.goTo x.ref.index hlt) hlive .unreachable
  have hne : ∀ {i b}, i ≠ x.ref.index → p.draft.block? i = some b → b.label ≠ x.ref.label :=
    fun hi hb hbx => hi (h.labelled.distinct hb (h.waiting_empty x hx) hbx)
  exact {
    labelled := by
      exact Labelled.endWith (d := p.draft.goTo x.ref.index hlt)
        ⟨h.labelled.positive, h.labelled.issued, h.labelled.distinct⟩ _
    entry := h.entry_of_extends hext
    waiting_nodup := nodup_rest h hwaiting
    waiting_empty := by
      intro y hy
      have hne' : y.ref.label ≠ x.ref.label :=
        ((mem_rest_iff h hwaiting).mp (List.mem_map_of_mem hy)).2
      have hy' := h.waiting_empty y (mem_of_rest hwaiting hy)
      dsimp only
      rw [hblock, if_neg]
      · exact hy'
      · intro hi
        rw [hi, h.waiting_empty x hx] at hy'
        exact hne' (congrArg BlockDraft.label (Option.some.inj hy')).symm
    entered := by
      intro hmem
      rw [label, endWith, currentBlock_updateCurrent] at hmem
      exact ((mem_rest_iff h hwaiting).mp hmem).2 (congrArg BlockDraft.label hcur)
    entry_entered := fun hmem => h.entry_entered ((mem_rest_iff h hwaiting).mp hmem).1
    ended := by
      intro i b hb hnone
      dsimp only at hb
      rw [hblock] at hb
      split_ifs at hb with hi
      · cases hb
        cases hnone
      · have hw := mem_waitingLabels_of_open h hdone hb hnone
        exact .inr ((mem_rest_iff h hwaiting).mpr ⟨hw, hne hi hb⟩)
    targets := fun hg => h.targets_of_extends hext (hgoes.mp hg)
    noted := fun y hy => (h.noted y (mem_of_rest hwaiting hy)).congr hgoes
    phis := by
      intro i b k s incoming hb hs hincoming
      dsimp only at hb
      rw [hblock] at hb
      split_ifs at hb with hi
      · cases hb
        cases hs
      · obtain ⟨hzero, hsrc⟩ := h.phis hb hs hincoming
        exact ⟨hzero, hsrc.congr hgoes⟩
    reached := by
      intro i b hb hw
      dsimp only at hb
      rw [hblock] at hb
      split_ifs at hb with hi
      · cases hb
        -- its sources are those it has noted, and that is none
        refine .inr ⟨hmerge, rfl, rfl, fun l hg => ?_⟩
        have hmem := ((h.noted x hx).2 l).mpr (hgoes.mp hg)
        rw [hin] at hmem
        cases hmem
      · refine (h.reached hb fun hmem => hw ((mem_rest_iff h hwaiting).mpr ⟨hmem, hne hi hb⟩)).imp
          (fun hr => hr.mono hgoes.mpr) fun ha => ?_
        exact ha.congr hgoes.mp }

end Enter

/-! ### Runs -/

/-- A step keeps a site sound. -/
theorem Sound.step {q : Site} (h : p.Sound) (hstep : Step p q) : q.Sound := by
  cases hstep with
  | @emit i hphi hsees =>
    refine (Sound.append (s := ⟨some (p.draft.registers + 1), i⟩)
      (h.congr (q := ⟨{ p.draft with registers := p.draft.registers + 1 }, [], p.waiting⟩)
        rfl rfl rfl rfl) ?_).congr rfl rfl rfl rfl
    exact fun hincoming => absurd hincoming (i.incoming?_ne_some hphi)
  | @emitEffect i hphi hsees =>
    refine h.append (s := ⟨none, i⟩) ?_
    exact fun hincoming => absurd hincoming (i.incoming?_ne_some hphi)
  | rescope scope => exact h.congr rfl rfl rfl rfl
  | enqueue f => exact h.congr rfl rfl rfl rfl
  | addBlock hbase => exact h.addBlock hbase
  | leave hlive ht hsees hvalue htargets =>
    refine h.leave hlive fun l hl => ?_
    obtain ⟨x, hx, rfl, -⟩ := htargets l hl
    exact mem_waitingLabels hx
  | enter before after hdone hwaiting hin hlt => exact h.enter hdone hwaiting hin hlt
  | join before after hdone hwaiting hin hlt => exact h.join hdone hwaiting hin hlt
  | abandon before after hdone hwaiting hin hmerge hlt =>
    exact h.abandon hdone hwaiting hin hmerge hlt

/-- **A run of steps keeps a site sound.** -/
theorem Sound.steps {q : Site} (h : p.Sound) (hsteps : Steps p q) : q.Sound := by
  induction hsteps with
  | refl => exact h
  | tail _ hstep ih => exact ih.step hstep

/-- Steps only add to the draft. -/
theorem Sound.later_step {q : Site} (h : p.Sound) (hstep : Step p q) : p.draft.Later q.draft := by
  cases hstep with
  | emit => exact later_emit p.draft _
  | emitEffect => exact later_append p.draft _
  | rescope scope => exact ⟨.refl p.draft, le_refl _, rfl, rfl⟩
  | enqueue f => exact ⟨.refl p.draft, le_refl _, rfl, rfl⟩
  | addBlock hbase => exact ⟨extends_addBlock p.draft _, le_refl _, rfl, rfl⟩
  | leave hlive => exact later_endWith hlive _
  | enter before after hdone hwaiting hin hlt => exact ⟨.refl p.draft, le_refl _, rfl, rfl⟩
  | @join x before after hdone hwaiting hin hlt =>
    have hemit := later_emit (p.draft.goTo _ hlt) (.phi .word x.incoming)
    exact ⟨hemit.blocks, hemit.registers, hemit.params, hemit.globals⟩
  | abandon before after hdone hwaiting hin hmerge hlt =>
    have hlive : (p.draft.goTo _ hlt).terminated = false := by
      rw [terminated_eq_false_iff]
      exact congrArg BlockDraft.terminator (currentBlock_enter before after h hwaiting hlt)
    have hend := later_endWith hlive .unreachable
    exact ⟨hend.blocks, hend.registers, hend.params, hend.globals⟩

/-- Steps from a sound site give a later draft. -/
theorem Sound.later {q : Site} (h : p.Sound) (hsteps : Steps p q) : p.draft.Later q.draft := by
  induction hsteps with
  | refl => exact .refl _
  | tail hsteps hstep ih => exact ih.trans ((h.steps hsteps).later_step hstep)

end Site

end WordScheme
