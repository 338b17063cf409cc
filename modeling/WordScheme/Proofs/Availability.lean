import Mathlib
import WordScheme.Proofs.Soundness

/-!
# Registers available under construction

A certificate `avail` gives for each label the registers that can be used from the start of the
block on. `Site.Available` says that the certificate is right for a site: what a block uses is in
the certificate of its label or defined earlier in the block, and what is in the certificate of a
block is available at the end of every block that branches to it. A certificate for the finished
function is a proof of dominance, by induction on paths.

Two points carry the invariant through conditionals. Registers are numbered upwards, so a new one is
neither defined elsewhere nor in any certificate. And the certificate of a block is fixed when the
block is added, to what can be used there; whoever branches to it can still use that. Registers
behind a terminator are given out and defined nowhere, but the current block is then never the
source of a branch, so `Available.current` need not speak of them.
-/

namespace WordScheme

open FunctionDraft

/-! ### Blocks -/

/-- The registers that can be used at the end of a block. -/
def BlockDraft.atEnd (avail : Name → List Nat) (b : BlockDraft) : List Nat :=
  avail b.label ++ destinations b.statements

/-- A block for which a certificate is right, in a function with these parameters that has given out
so many registers. -/
structure BlockDraft.Fits (avail : Name → List Nat) (params : List Name) (registers : Nat)
    (b : BlockDraft) : Prop where
  le : ∀ r ∈ destinations b.statements, r ≤ registers
  nodup : (destinations b.statements).Nodup
  new : ∀ r ∈ destinations b.statements, r ∉ avail b.label
  statements : ∀ {k : Nat} {s : Statement}, b.statements[k]? = some s →
    s.instruction.isPhi = false → ∀ o ∈ s.instruction.operands,
      o.Within params (avail b.label ++ destinations (b.statements.take k))
  terminator : ∀ {t}, b.terminator = some t → ∀ o ∈ t.operands, o.Within params (b.atEnd avail)
  flow : ∀ {t}, b.terminator = some t → ∀ l ∈ t.successors, avail l ⊆ b.atEnd avail

theorem destinations_append (ss ts : List Statement) :
    destinations (ss ++ ts) = destinations ss ++ destinations ts :=
  List.filterMap_append

private theorem destinations_subset {ss ts : List Statement} (h : ss <+: ts) :
    destinations ss ⊆ destinations ts := by
  obtain ⟨us, rfl⟩ := h
  rw [destinations_append]
  exact List.subset_append_left _ _

/-- A block that has grown has more registers at its end. -/
private theorem BlockDraft.atEnd_subset {avail : Name → List Nat} {b c : BlockDraft}
    (hlabel : c.label = b.label) (hpre : b.statements <+: c.statements) :
    b.atEnd avail ⊆ c.atEnd avail := by
  intro r hr
  rw [atEnd, List.mem_append] at hr ⊢
  rw [hlabel]
  exact hr.imp_right fun h => destinations_subset hpre h

theorem mem_destinations_singleton {s : Statement} {r : Nat} :
    r ∈ destinations [s] ↔ s.dest = some r := by
  simp [destinations]

namespace BlockDraft.Fits

variable {avail : Name → List Nat} {params : List Name} {registers : Nat} {b : BlockDraft}

theorem empty (l : Name) : Fits avail params registers ⟨l, [], none⟩ where
  le := fun _ hr => nomatch hr
  nodup := List.nodup_nil
  new := fun _ hr => nomatch hr
  statements := fun hs => nomatch hs
  terminator := fun ht => nomatch ht
  flow := fun ht => nomatch ht

private theorem mono (h : b.Fits avail params registers) {n : Nat} (hn : registers ≤ n) :
    b.Fits avail params n :=
  { h with le := fun r hr => (h.le r hr).trans hn }

/-- A statement at the end of a block, which uses what can be used there and defines a new
register. -/
private theorem append (h : b.Fits avail params registers) (hopen : b.terminator = none)
    {s : Statement} (hdest : ∀ r, s.dest = some r →
      r ≤ registers ∧ r ∉ destinations b.statements ∧ r ∉ avail b.label)
    (huse : s.instruction.isPhi = false →
      ∀ o ∈ s.instruction.operands, o.Within params (b.atEnd avail)) :
    Fits avail params registers { b with statements := b.statements ++ [s] } := by
  have hmem : ∀ {r}, r ∈ destinations (b.statements ++ [s]) →
      r ∈ destinations b.statements ∨ s.dest = some r := by
    intro r hr
    rw [destinations_append, List.mem_append, mem_destinations_singleton] at hr
    exact hr
  exact {
    le := fun r hr => (hmem hr).elim (h.le r) fun hd => (hdest r hd).1
    nodup := by
      change (destinations (b.statements ++ [s])).Nodup
      rw [destinations_append]
      refine h.nodup.append ?_ fun r hr hr' => ?_
      · cases hd : s.dest <;> simp [destinations, hd]
      · exact (hdest r (mem_destinations_singleton.mp hr')).2.1 hr
    new := fun r hr => (hmem hr).elim (h.new r) fun hd => (hdest r hd).2.2
    statements := by
      intro k s' hs hphi o ho
      change (b.statements ++ [s])[k]? = some s' at hs
      rw [List.getElem?_append] at hs
      change o.Within params (avail b.label ++ destinations ((b.statements ++ [s]).take k))
      split_ifs at hs with hk
      · rw [List.take_append_of_le_length hk.le]
        exact h.statements hs hphi o ho
      · -- the new statement comes behind all others of the block
        rw [List.getElem?_singleton] at hs
        split_ifs at hs with hz
        obtain rfl := Option.some.inj hs
        have hlen : k = b.statements.length := by omega
        rw [hlen, List.take_left]
        exact huse hphi o ho
    terminator := fun ht => absurd (hopen.symm.trans ht) (by simp)
    flow := fun ht => absurd (hopen.symm.trans ht) (by simp) }

/-- The end of a block, in a terminator that uses what can be used there and branches to blocks that
need no more. -/
private theorem endWith (h : b.Fits avail params registers) {t : Terminator}
    (huse : ∀ o ∈ t.operands, o.Within params (b.atEnd avail))
    (hflow : ∀ l ∈ t.successors, avail l ⊆ b.atEnd avail) :
    Fits avail params registers { b with terminator := some t } :=
  { h with
    terminator := fun ht => Option.some.inj ht ▸ huse
    flow := fun ht => Option.some.inj ht ▸ hflow }

/-- A certificate may change where the block does not look. -/
private theorem congr (h : b.Fits avail params registers) {avail' : Name → List Nat}
    (hlabel : avail' b.label = avail b.label)
    (htargets : ∀ {t}, b.terminator = some t → ∀ l ∈ t.successors, avail' l = avail l) :
    b.Fits avail' params registers := by
  have hend : b.atEnd avail' = b.atEnd avail := by rw [atEnd, hlabel, atEnd]
  refine ⟨h.le, h.nodup, ?_, ?_, ?_, fun ht l hl => ?_⟩
  · rw [hlabel]
    exact h.new
  · rw [hlabel]
    exact h.statements
  · rw [hend]
    exact h.terminator
  · rw [hend, htargets ht l hl]
    exact h.flow ht l hl

end BlockDraft.Fits

/-! ### Sites -/

namespace FunctionDraft

/-- An operand can be used at the end of the block that hands it over. -/
def Hands (d : FunctionDraft) (avail : Name → List Nat) (x : Operand × Name) : Prop :=
  ∃ i b, d.block? i = some b ∧ b.label = x.2 ∧ x.1.Within d.params (b.atEnd avail)

private theorem Hands.extends {d e : FunctionDraft} {avail : Name → List Nat} {x : Operand × Name}
    (h : d.Hands avail x) (hext : d.Extends e) (hparams : e.params = d.params) :
    e.Hands avail x := by
  obtain ⟨i, b, hb, hlabel, hwithin⟩ := h
  obtain ⟨c, hc, hcl, hpre, -⟩ := hext i b hb
  refine ⟨i, c, hc, hcl.trans hlabel, ?_⟩
  rw [hparams]
  exact hwithin.mono (BlockDraft.atEnd_subset hcl hpre)

end FunctionDraft

namespace Site

/-- A certificate is right for a site. -/
structure Available (avail : Name → List Nat) (p : Site) : Prop where
  entry : avail "entry" = []
  seen_le : ∀ r ∈ p.seen, r ≤ p.draft.registers
  avail_le : ∀ l, ∀ r ∈ avail l, r ≤ p.draft.registers
  fits : ∀ {i b}, p.draft.block? i = some b → b.Fits avail p.draft.params p.draft.registers
  unique : ∀ {i j b c r}, p.draft.block? i = some b → p.draft.block? j = some c →
    r ∈ destinations b.statements → r ∈ destinations c.statements → i = j
  phis : ∀ {i b s incoming}, p.draft.block? i = some b → s ∈ b.statements →
    s.instruction.incoming? = some incoming → ∀ x ∈ incoming, p.draft.Hands avail x
  waiting : ∀ x ∈ p.waiting, avail x.ref.label = x.seen
  noted : ∀ x ∈ p.waiting, ∀ y ∈ x.incoming, p.draft.Hands avail y
  current : p.draft.terminated = false → p.seen ⊆ p.draft.currentBlock.atEnd avail

variable {avail : Name → List Nat} {p : Site}

/-! ### Statements -/

/-- Registers are given out. Where the block has ended they may be used at once, since nothing there
is kept. -/
private theorem Available.reserve (h : p.Available avail) {n : Nat} (hn : p.draft.registers ≤ n)
    {seen : List Nat} (hle : ∀ r ∈ seen, r ≤ n)
    (hlive : p.draft.terminated = false → seen ⊆ p.seen) :
    Available avail ⟨{ p.draft with registers := n }, seen, p.waiting⟩ where
  entry := h.entry
  seen_le := hle
  avail_le := fun l r hr => (h.avail_le l r hr).trans hn
  fits := fun hb => (h.fits hb).mono hn
  unique := h.unique
  phis := h.phis
  waiting := h.waiting
  noted := h.noted
  current := fun ht _ hr => h.current ht (hlive ht hr)

/-- A statement is added to a block that has not ended. The register that it defines is new. -/
private theorem Available.append_live (h : p.Available avail) (hlive : p.draft.terminated = false)
    {s : Statement} {seen : List Nat} (hseen : ∀ r ∈ seen, r ∈ p.seen ∨ s.dest = some r)
    (hle : ∀ r, s.dest = some r → r ≤ p.draft.registers)
    (havail : ∀ r, s.dest = some r → ∀ l, r ∉ avail l)
    (hnew : ∀ r, s.dest = some r →
      ∀ {i b}, p.draft.block? i = some b → r ∉ destinations b.statements)
    (huse : s.instruction.isPhi = false → ∀ o ∈ s.instruction.operands, p.Sees o)
    (hphi : ∀ {incoming}, s.instruction.incoming? = some incoming →
      ∀ x ∈ incoming, p.draft.Hands avail x) :
    Available avail ⟨p.draft.append s, seen, p.waiting⟩ := by
  have hhands : ∀ {x}, p.draft.Hands avail x → (p.draft.append s).Hands avail x :=
    fun hx => hx.extends (extends_append _ s) (append_params _ s)
  let grown : BlockDraft :=
    { p.draft.currentBlock with statements := p.draft.currentBlock.statements ++ [s] }
  have hblock : ∀ i, (p.draft.append s).block? i =
      if i = p.draft.current then some grown else p.draft.block? i := by
    intro i
    rw [append_of_live hlive]
    exact block?_updateCurrent _ _ i
  have hgrown : ∀ {r}, r ∈ destinations grown.statements →
      r ∈ destinations p.draft.currentBlock.statements ∨ s.dest = some r := by
    intro r hr
    rw [destinations_append, List.mem_append, mem_destinations_singleton] at hr
    exact hr
  exact {
    entry := h.entry
    seen_le := by
      intro r hr
      rw [append_registers]
      exact (hseen r hr).elim (h.seen_le r) (hle r)
    avail_le := by
      intro l r hr
      rw [append_registers]
      exact h.avail_le l r hr
    fits := by
      intro i b hb
      rw [hblock] at hb
      rw [append_params, append_registers]
      split_ifs at hb with hi
      · cases hb
        have hcur := block?_current p.draft
        refine (h.fits hcur).append (terminated_eq_false_iff.mp hlive) (fun r hd => ?_) ?_
        · exact ⟨hle r hd, hnew r hd hcur, havail r hd _⟩
        · exact fun hplain o ho => (huse hplain o ho).mono (h.current hlive)
      · exact h.fits hb
    unique := by
      intro i j b c r hb hc hr hr'
      rw [hblock] at hb hc
      split_ifs at hb hc with hi hj hj
      · rw [hi, hj]
      · cases hb
        rcases hgrown hr with hr | hd
        · rw [hi]
          exact h.unique (block?_current p.draft) hc hr hr'
        · exact absurd hr' (hnew r hd hc)
      · cases hc
        rcases hgrown hr' with hr' | hd
        · rw [hj]
          exact h.unique hb (block?_current p.draft) hr hr'
        · exact absurd hr (hnew r hd hb)
      · exact h.unique hb hc hr hr'
    phis := by
      intro i b s' incoming hb hs hin x hx
      rw [hblock] at hb
      refine hhands ?_
      split_ifs at hb with hi
      · cases hb
        rcases List.mem_append.mp hs with hs | hs
        · exact h.phis (block?_current p.draft) hs hin x hx
        · rw [List.mem_singleton.mp hs] at hin
          exact hphi hin x hx
      · exact h.phis hb hs hin x hx
    waiting := h.waiting
    noted := fun x hx y hy => hhands (h.noted x hx y hy)
    current := by
      intro _ r hr
      have hcurrent : (p.draft.append s).currentBlock = grown := by
        rw [append_of_live hlive, currentBlock_updateCurrent]
      rw [hcurrent, BlockDraft.atEnd, destinations_append, List.mem_append, List.mem_append,
        mem_destinations_singleton]
      rcases hseen r hr with hr | hd
      · have hold := h.current hlive hr
        rw [BlockDraft.atEnd, List.mem_append] at hold
        exact hold.imp_right .inl
      · exact .inr (.inr hd) }

/-- An instruction with a result is emitted. -/
private theorem Available.emit (h : p.Available avail) {i : Instruction}
    (huse : i.isPhi = false → ∀ o ∈ i.operands, p.Sees o)
    (hphi : ∀ {incoming}, i.incoming? = some incoming → ∀ x ∈ incoming, p.draft.Hands avail x) :
    (p.emit i).Available avail := by
  let e : FunctionDraft := { p.draft with registers := p.draft.registers + 1 }
  have hle : ∀ r ∈ (p.draft.registers + 1) :: p.seen, r ≤ p.draft.registers + 1 := by
    intro r hr
    rcases List.mem_cons.mp hr with rfl | hr
    · exact Nat.le_refl _
    · exact (h.seen_le r hr).trans (Nat.le_succ _)
  cases hlive : p.draft.terminated with
  | true =>
    -- the statement is dropped, and its register is given out all the same
    have heq : p.emit i = ⟨e, (p.draft.registers + 1) :: p.seen, p.waiting⟩ :=
      congrArg (fun d => Site.mk d _ p.waiting) (append_of_terminated (d := e) hlive _)
    rw [heq]
    exact h.reserve (Nat.le_succ _) hle fun hlive' => absurd (hlive.symm.trans hlive') (by simp)
  | false =>
    have hreserved : Available avail ⟨e, p.seen, p.waiting⟩ :=
      h.reserve (Nat.le_succ _) (fun r hr => hle r (List.mem_cons_of_mem _ hr))
        fun _ => List.Subset.refl _
    refine hreserved.append_live hlive ?_ ?_ ?_ ?_ huse hphi
    · intro r hr
      exact (List.mem_cons.mp hr).symm.imp_right fun hr' => congrArg some hr'.symm
    · intro r hd
      exact (Option.some.inj hd).symm.le
    -- a number above all that were given out is in no certificate and defined in no block
    · intro r hd l hr
      obtain rfl := Option.some.inj hd
      exact Nat.not_succ_le_self _ (h.avail_le l _ hr)
    · intro r hd j b hb hr
      obtain rfl := Option.some.inj hd
      exact Nat.not_succ_le_self _ ((h.fits hb).le _ hr)

/-- An instruction without result is emitted. -/
private theorem Available.emitEffect (h : p.Available avail) {i : Instruction}
    (hplain : i.isPhi = false)
    (huse : ∀ o ∈ i.operands, p.Sees o) : (p.emitEffect i).Available avail := by
  cases hlive : p.draft.terminated with
  | true =>
    have heq : p.emitEffect i = p :=
      congrArg (fun d => Site.mk d p.seen p.waiting) (append_of_terminated hlive _)
    rwa [heq]
  | false =>
    refine h.append_live hlive (fun r hr => .inl hr) (fun r hd => nomatch hd)
      (fun r hd => nomatch hd) (fun r hd => nomatch hd) (fun _ => huse) fun hin => ?_
    exact absurd hin (i.incoming?_ne_some hplain)

/-! ### Blocks that are added, left and entered -/

/-- The certificate of a new block is what can be used where it is added. -/
private theorem Available.addBlock (h : p.Available avail) (hsound : p.Sound) {base : Name}
    (hbase : NameSupply.Undigited base) :
    (p.addBlock base).Available
      (Function.update avail (p.draft.addBlock base).1.label p.seen) := by
  have hother : ∀ {i b}, p.draft.block? i = some b →
      Function.update avail (p.draft.addBlock base).1.label p.seen b.label = avail b.label :=
    fun hb => Function.update_of_ne (hsound.labelled.fresh_not_used hbase hb) _ _
  have hblock := block?_addBlock p.draft base
  have hhands : ∀ {x}, p.draft.Hands avail x → (p.addBlock base).draft.Hands
      (Function.update avail (p.draft.addBlock base).1.label p.seen) x := by
    rintro x ⟨i, b, hb, hlabel, hwithin⟩
    refine FunctionDraft.Hands.extends (d := p.draft) ⟨i, b, hb, hlabel, ?_⟩
      (extends_addBlock _ _) rfl
    rwa [BlockDraft.atEnd, hother hb]
  exact {
    entry := by
      obtain ⟨b, hb, hentry⟩ := hsound.entry
      rw [← hentry, hother hb, hentry]
      exact h.entry
    seen_le := h.seen_le
    avail_le := by
      intro l r hr
      by_cases hl : l = (p.draft.addBlock base).1.label
      · rw [hl, Function.update_self] at hr
        exact h.seen_le r hr
      · rw [Function.update_of_ne hl] at hr
        exact h.avail_le l r hr
    fits := by
      intro i b hb
      rw [Site.addBlock, hblock] at hb
      split_ifs at hb with hi
      · cases hb
        exact .empty _
      · -- neither the block nor those it branches to have the new label
        refine (h.fits hb).congr (hother hb) fun ht l hl => ?_
        obtain ⟨-, j, c, hc, rfl⟩ := hsound.targets ⟨i, b, _, hb, rfl, ht, hl⟩
        exact hother hc
    unique := by
      intro i j b c r hb hc hr hr'
      rw [Site.addBlock, hblock] at hb hc
      split_ifs at hb hc with hi hj hj
      · rw [hi, hj]
      · cases hb
        cases hr
      · cases hc
        cases hr'
      · exact h.unique hb hc hr hr'
    phis := by
      intro i b s incoming hb hs hin x hx
      rw [Site.addBlock, hblock] at hb
      split_ifs at hb with hi
      · cases hb
        cases hs
      · exact hhands (h.phis hb hs hin x hx)
    waiting := by
      intro x hx
      rcases List.mem_cons.mp hx with rfl | hx
      · exact Function.update_self _ _ _
      · rw [hother (hsound.waiting_empty x hx)]
        exact h.waiting x hx
    noted := by
      intro x hx y hy
      rcases List.mem_cons.mp hx with rfl | hx
      · cases hy
      · exact hhands (h.noted x hx y hy)
    current := by
      intro hlive
      rw [Site.addBlock, terminated_addBlock] at hlive
      rw [Site.addBlock, currentBlock_addBlock, BlockDraft.atEnd, hother (block?_current p.draft)]
      exact h.current hlive }

/-- The current block ends. What its terminator uses and what its targets need can be used there. -/
private theorem Available.endWith (h : p.Available avail) (hlive : p.draft.terminated = false)
    {t : Terminator} (huse : ∀ o ∈ t.operands, p.Sees o)
    (htargets : ∀ l ∈ t.successors, avail l ⊆ p.seen) {waiting : List Waiting}
    (hwaiting : ∀ x ∈ waiting, avail x.ref.label = x.seen)
    (hnoted : ∀ x ∈ waiting, ∀ y ∈ x.incoming, p.draft.Hands avail y) :
    Available avail ⟨p.draft.endWith t, p.seen, waiting⟩ := by
  have hext : p.draft.Extends (p.draft.endWith t) := extends_endWith hlive t
  have hblock : ∀ i, (p.draft.endWith t).block? i = if i = p.draft.current then
      some { p.draft.currentBlock with terminator := some t } else p.draft.block? i :=
    block?_updateCurrent _ _
  -- a block has the label and the statements that it had
  have hback : ∀ {i b}, (p.draft.endWith t).block? i = some b →
      ∃ b', p.draft.block? i = some b' ∧ b'.statements = b.statements := by
    intro i b hb
    rw [hblock] at hb
    split_ifs at hb with hi
    · cases hb
      exact ⟨p.draft.currentBlock, hi ▸ block?_current p.draft, rfl⟩
    · exact ⟨b, hb, rfl⟩
  exact {
    entry := h.entry
    seen_le := h.seen_le
    avail_le := h.avail_le
    fits := by
      intro i b hb
      rw [hblock] at hb
      split_ifs at hb with hi
      · cases hb
        refine (h.fits (block?_current p.draft)).endWith (fun o ho => ?_) fun l hl r hr => ?_
        · exact (huse o ho).mono (h.current hlive)
        · exact h.current hlive (htargets l hl hr)
      · exact h.fits hb
    unique := by
      intro i j b c r hb hc hr hr'
      obtain ⟨b', hb', hbs⟩ := hback hb
      obtain ⟨c', hc', hcs⟩ := hback hc
      exact h.unique hb' hc' (hbs ▸ hr) (hcs ▸ hr')
    phis := by
      intro i b s incoming hb hs hin x hx
      obtain ⟨b', hb', hbs⟩ := hback hb
      exact (h.phis hb' (hbs ▸ hs) hin x hx).extends hext rfl
    waiting := hwaiting
    noted := fun x hx y hy => (hnoted x hx y hy).extends hext rfl
    current := by
      intro hlive'
      rw [terminated_endWith] at hlive'
      cases hlive' }

private theorem Available.leave (h : p.Available avail) {t : Terminator} {value : Operand}
    (hlive : p.draft.terminated = false) (huse : ∀ o ∈ t.operands, p.Sees o) (hvalue : p.Sees value)
    (htargets : ∀ l ∈ t.successors, ∃ x ∈ p.waiting, x.ref.label = l ∧ x.seen ⊆ p.seen) :
    (p.leave t value).Available avail := by
  refine h.endWith hlive huse (fun l hl => ?_) (fun y hy => ?_) fun y hy z hz => ?_
  · obtain ⟨x, hx, rfl, hseen⟩ := htargets l hl
    rw [h.waiting x hx]
    exact hseen
  · obtain ⟨x, hx, rfl⟩ := List.mem_map.mp hy
    rw [note_ref, note_seen]
    exact h.waiting x hx
  · obtain ⟨x, hx, rfl⟩ := List.mem_map.mp hy
    rw [Waiting.note] at hz
    split_ifs at hz
    · rcases List.mem_append.mp hz with hz | hz
      · exact h.noted x hx z hz
      · rw [List.mem_singleton.mp hz]
        exact ⟨_, _, block?_current p.draft, rfl, hvalue.mono (h.current hlive)⟩
    · exact h.noted x hx z hz

private theorem Available.enter (h : p.Available avail) (hsound : p.Sound) {x : Waiting}
    {before after : List Waiting} (hwaiting : p.waiting = before ++ x :: after)
    (hlt : x.ref.index < p.draft.blocks.size) :
    (p.enter x (before ++ after) hlt).Available avail := by
  have hx : avail x.ref.label = x.seen := h.waiting x (mem_of_eq hwaiting)
  refine { h with
    seen_le := fun r hr => h.avail_le x.ref.label r (hx ▸ hr)
    waiting := fun y hy => h.waiting y (mem_of_rest hwaiting hy)
    noted := fun y hy => h.noted y (mem_of_rest hwaiting hy)
    current := fun _ r hr => ?_ }
  rw [BlockDraft.atEnd, currentBlock_enter before after hsound hwaiting hlt]
  exact List.mem_append_left _ (hx ▸ hr)

/-! ### Runs -/

/-- Every step keeps a certificate right, once it is extended to the blocks that the step adds. -/
private theorem Available.step {q : Site} (h : p.Available avail) (hsound : p.Sound)
    (hstep : Step p q) : ∃ avail', q.Available avail' := by
  cases hstep with
  | @emit i hplain huse =>
    exact ⟨avail, h.emit (fun _ => huse) fun hin => absurd hin (i.incoming?_ne_some hplain)⟩
  | emitEffect hplain huse => exact ⟨avail, h.emitEffect hplain huse⟩
  | rescope scope => exact ⟨avail, { h with }⟩
  | enqueue f => exact ⟨avail, { h with }⟩
  | addBlock hbase => exact ⟨_, h.addBlock hsound hbase⟩
  | leave hlive _ huse hvalue htargets => exact ⟨avail, h.leave hlive huse hvalue htargets⟩
  | enter before after hdone hwaiting hin hlt => exact ⟨avail, h.enter hsound hwaiting hlt⟩
  | @join x before after hdone hwaiting hin hlt =>
    have hentered := h.enter hsound hwaiting hlt
    refine ⟨avail, hentered.emit (fun hphi => nomatch hphi) fun hincoming => ?_⟩
    cases hincoming
    exact h.noted x (mem_of_eq hwaiting)
  | abandon before after hdone hwaiting hin hmerge hlt =>
    have hentered := h.enter hsound hwaiting hlt
    refine ⟨avail, hentered.endWith (t := .unreachable) ?_ (fun o ho => nomatch ho)
      (fun l hl => nomatch hl) hentered.waiting hentered.noted⟩
    rw [terminated_eq_false_iff, currentBlock_enter before after hsound hwaiting hlt]

theorem Available.steps {q : Site} (h : p.Available avail) (hsound : p.Sound) (hsteps : Steps p q) :
    ∃ avail', q.Available avail' := by
  induction hsteps with
  | refl => exact ⟨avail, h⟩
  | tail hsteps hstep ih =>
    obtain ⟨avail', h'⟩ := ih
    exact h'.step (hsound.steps hsteps) hstep

end Site

end WordScheme
