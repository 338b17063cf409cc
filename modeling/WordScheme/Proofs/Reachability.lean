import Mathlib
import WordScheme.Proofs.Soundness

/-!
# The check of a finished draft

`FunctionDraft.finish` refuses a draft with a block that has no terminator or cannot be reached. The
search for reachable blocks runs for a bounded number of steps; `reach_searches` says that the bound
never cuts the search short, so that what it finds is closed under successors (`Searches.closed`). A
block that control can get to is always found (`mem_reachable_of_reaches`), and a sound site in
which no block waits and the current one has ended is accepted: `Site.Sound.finish_eq`.
-/

namespace WordScheme

namespace FunctionDraft

/-! ### The search -/

/-- While `seen` lists numbers below `n` once each, it is no longer than `n`. -/
private theorem length_le_of_lt {seen : List Nat} {n : Nat} (hnodup : seen.Nodup)
    (hlt : ∀ i ∈ seen, i < n) : seen.length ≤ n := by
  have hsub : seen ⊆ List.range n := fun i hi => List.mem_range.mpr (hlt i hi)
  have hle := (List.subperm_of_subset hnodup hsub).length_le
  rwa [List.length_range] at hle

/-- The search for what can be reached, with no bound on its steps. It takes one block after another
off `work` and ends once `work` is empty. -/
inductive Searches (next : Nat → List Nat) : (seen work found : List Nat) → Prop
  | done {seen : List Nat} : Searches next seen [] seen
  | skip {seen work found : List Nat} {index : Nat} (hmem : index ∈ seen)
      (hrest : Searches next seen work found) : Searches next seen (index :: work) found
  | visit {seen work found : List Nat} {index : Nat} (hmem : index ∉ seen)
      (hrest : Searches next (index :: seen) (next index ++ work) found) :
      Searches next seen (index :: work) found

/-- The bounded search is the search without a bound, if it may take a step for each block that
waits and two for each block that is not yet seen. -/
private theorem reach_searches {next : Nat → List Nat} {n : Nat} (htwo : ∀ i, (next i).length ≤ 2)
    (hnext : ∀ i, ∀ j ∈ next i, j < n) (steps : Nat) (seen work : List Nat) (hnodup : seen.Nodup)
    (hseen : ∀ i ∈ seen, i < n) (hwork : ∀ i ∈ work, i < n)
    (hsteps : work.length + 2 * (n - seen.length) ≤ steps) :
    Searches next seen work (reach next steps seen work) := by
  induction steps generalizing seen work with
  | zero =>
    obtain rfl := List.length_eq_zero_iff.mp (show work.length = 0 by omega)
    rw [reach]
    exact .done
  | succ steps ih =>
    cases work with
    | nil =>
      rw [reach]
      exact .done
    | cons index work =>
      have hindex : index < n := hwork index List.mem_cons_self
      have hrest : ∀ i ∈ work, i < n := fun i hi => hwork i (List.mem_cons_of_mem _ hi)
      rw [List.length_cons] at hsteps
      rw [reach]
      split
      · -- the block has been seen: a step is spent on taking it off the list
        next hmem =>
        exact .skip (List.contains_iff_mem.mp hmem) (ih seen work hnodup hseen hrest (by omega))
      · -- the block is new: at most two are put on the list for the one unseen block less
        next hmem =>
        rw [List.contains_iff_mem] at hmem
        have hnodup' : (index :: seen).Nodup := List.nodup_cons.mpr ⟨hmem, hnodup⟩
        have hseen' : ∀ i ∈ index :: seen, i < n := List.forall_mem_cons.mpr ⟨hindex, hseen⟩
        have hlen := length_le_of_lt hnodup' hseen'
        rw [List.length_cons] at hlen
        have hwork' : ∀ i ∈ next index ++ work, i < n := by
          intro i hi
          exact (List.mem_append.mp hi).elim (hnext index i) (hrest i)
        have hsteps' : (next index ++ work).length + 2 * (n - (index :: seen).length) ≤ steps := by
          have := htwo index
          rw [List.length_append, List.length_cons]
          omega
        exact .visit hmem (ih (index :: seen) (next index ++ work) hnodup' hseen' hwork' hsteps')

namespace Searches

variable {next : Nat → List Nat} {seen work found : List Nat}

/-- What the search finds contains what it starts from and is closed under successors. -/
private theorem closed (h : Searches next seen work found)
    (hclosed : ∀ i ∈ seen, ∀ j ∈ next i, j ∈ seen ∨ j ∈ work) :
    seen ⊆ found ∧ work ⊆ found ∧ ∀ i ∈ found, next i ⊆ found := by
  induction h with
  | done =>
    refine ⟨List.Subset.refl _, List.nil_subset _, fun i hi j hj => ?_⟩
    exact (hclosed i hi j hj).resolve_right List.not_mem_nil
  | @skip seen work found index hmem _ ih =>
    have hclosed' : ∀ i ∈ seen, ∀ j ∈ next i, j ∈ seen ∨ j ∈ work := by
      intro i hi j hj
      rcases hclosed i hi j hj with h | h
      · exact .inl h
      · rcases List.mem_cons.mp h with rfl | h
        · exact .inl hmem
        · exact .inr h
    obtain ⟨h1, h2, h3⟩ := ih hclosed'
    exact ⟨h1, List.cons_subset.mpr ⟨h1 hmem, h2⟩, h3⟩
  | @visit seen work found index _ _ ih =>
    have hclosed' : ∀ i ∈ index :: seen, ∀ j ∈ next i,
        j ∈ index :: seen ∨ j ∈ next index ++ work := by
      intro i hi j hj
      rcases List.mem_cons.mp hi with rfl | hi
      · exact .inr (List.mem_append_left _ hj)
      · rcases hclosed i hi j hj with h | h
        · exact .inl (List.mem_cons_of_mem _ h)
        · rcases List.mem_cons.mp h with rfl | h
          · exact .inl List.mem_cons_self
          · exact .inr (List.mem_append_right _ h)
    obtain ⟨h1, h2, h3⟩ := ih hclosed'
    rw [List.cons_subset] at h1
    rw [List.append_subset] at h2
    exact ⟨h1.2, List.cons_subset.mpr ⟨h1.1, h2.2⟩, h3⟩

/-- What holds of the blocks that the search starts from, and with a block of its successors, holds
of all that it finds. -/
theorem forall_found (h : Searches next seen work found) {P : Nat → Prop}
    (hnext : ∀ i, P i → ∀ j ∈ next i, P j) (hseen : ∀ i ∈ seen, P i) (hwork : ∀ i ∈ work, P i) :
    ∀ i ∈ found, P i := by
  induction h with
  | done => exact hseen
  | skip _ _ ih => exact ih hseen (List.forall_mem_cons.mp hwork).2
  | visit _ _ ih =>
    obtain ⟨hindex, hrest⟩ := List.forall_mem_cons.mp hwork
    refine ih (List.forall_mem_cons.mpr ⟨hindex, hseen⟩) fun i hi => ?_
    exact (List.mem_append.mp hi).elim (hnext _ hindex i) (hrest i)

end Searches

/-! ### Blocks by label -/

theorem label_of_lastLabelled? {label : Name} {bs : List BlockDraft} {i : Nat}
    (h : lastLabelled? label bs = some i) : ∃ b, bs[i]? = some b ∧ b.label = label := by
  induction bs generalizing i with
  | nil => cases h
  | cons b bs ih =>
    rw [lastLabelled?] at h
    split at h
    · next j hj =>
      cases h
      exact ih hj
    · split at h
      · next hlabel =>
        cases h
        exact ⟨b, rfl, hlabel⟩
      · cases h

theorem exists_lastLabelled? {label : Name} {bs : List BlockDraft} {b : BlockDraft} (hb : b ∈ bs)
    (hlabel : b.label = label) : ∃ i, lastLabelled? label bs = some i := by
  induction bs with
  | nil => cases hb
  | cons c bs ih =>
    rw [lastLabelled?]
    split
    · exact ⟨_, rfl⟩
    · next hnone =>
      rcases List.mem_cons.mp hb with rfl | hb
      · exact ⟨0, if_pos hlabel⟩
      · obtain ⟨i, hi⟩ := ih hb
        rw [hnone] at hi
        cases hi

variable {d : FunctionDraft}

/-- Where labels are distinct, a label leads to the one block that has it. -/
theorem Labelled.lastLabelled?_eq (h : d.Labelled) {j : Nat} {c : BlockDraft}
    (hc : d.block? j = some c) : lastLabelled? c.label d.blocks.rows = some j := by
  obtain ⟨i, hi⟩ := exists_lastLabelled? (List.mem_of_getElem? hc) rfl
  obtain ⟨b, hb, hlabel⟩ := label_of_lastLabelled? hi
  rw [hi, h.distinct hb hc hlabel]

private theorem Labelled.mem_successors (h : d.Labelled) {i j : Nat} {b c : BlockDraft}
    {t : Terminator}
    (hb : d.block? i = some b) (ht : b.terminator = some t) (hc : d.block? j = some c)
    (hmem : c.label ∈ t.successors) : j ∈ d.successors i := by
  have hterminator : (d.blocks.get? i).bind BlockDraft.terminator = some t := by
    change (d.block? i).bind _ = _
    rw [hb]
    exact ht
  rw [successors, hterminator]
  exact List.mem_filterMap.mpr ⟨c.label, hmem, h.lastLabelled?_eq hc⟩

private theorem length_successors_le (d : FunctionDraft) (i : Nat) :
    (d.successors i).length ≤ 2 := by
  rw [successors]
  split
  · next t _ =>
    refine (List.length_filterMap_le _ _).trans ?_
    cases t <;> simp [Terminator.successors]
  · simp

private theorem lt_of_mem_successors {i j : Nat} (h : j ∈ d.successors i) : j < d.blocks.size := by
  rw [successors] at h
  split at h
  · obtain ⟨label, -, hj⟩ := List.mem_filterMap.mp h
    obtain ⟨b, hb, -⟩ := label_of_lastLabelled? hj
    exact block?_lt hb
  · cases h

/-- The search for the reachable blocks of a draft comes to its end within its bound. -/
theorem searches_reachable (d : FunctionDraft) : Searches d.successors [] [0] d.reachable := by
  have hpos : 0 < d.blocks.size := Nat.zero_lt_of_lt d.current_lt
  refine reach_searches (n := d.blocks.size) d.length_successors_le
    (fun i j hj => lt_of_mem_successors hj) _ _ _ List.nodup_nil ?_ ?_ ?_
  · intro i hi
    cases hi
  · intro i hi
    rwa [List.mem_singleton.mp hi]
  · simp [Nat.add_comm]

/-- The search finds the first block, and with a block all its successors. -/
theorem reachable_closed (d : FunctionDraft) :
    0 ∈ d.reachable ∧ ∀ i ∈ d.reachable, d.successors i ⊆ d.reachable := by
  obtain ⟨-, hzero, hclosed⟩ := d.searches_reachable.closed fun i hi => absurd hi List.not_mem_nil
  exact ⟨hzero List.mem_cons_self, hclosed⟩

end FunctionDraft

/-! ### Sound sites -/

namespace Site

open FunctionDraft

variable {p : Site}

/-- The search finds every block that control can get to. -/
private theorem Sound.mem_reachable_of_reaches (h : p.Sound) {l : Name} (hl : p.draft.Reaches l) :
    ∀ {i b}, p.draft.block? i = some b → b.label = l → i ∈ p.draft.reachable := by
  obtain ⟨hzero, hclosed⟩ := p.draft.reachable_closed
  induction hl with
  | refl =>
    intro i b hb hlabel
    obtain ⟨e, he, hentry⟩ := h.entry
    rw [h.labelled.distinct hb he (hlabel.trans hentry.symm)]
    exact hzero
  | tail _ hg ih =>
    intro i b hb hlabel
    obtain ⟨j, c, t, hc, hcl, ht, hmem⟩ := hg
    exact hclosed j (ih hc hcl) (h.labelled.mem_successors hc ht hb (hlabel ▸ hmem))

/-- No block is astray, unless it still waits. -/
private theorem Sound.stray?_eq_none (h : p.Sound) (hwaiting : p.waiting = []) :
    p.draft.stray? = none := by
  rw [stray?]
  refine List.findSome?_eq_none_iff.mpr fun entry hentry => ?_
  rw [Table.entries] at hentry
  obtain ⟨⟨b, i⟩, hmem, rfl⟩ := List.mem_map.mp hentry
  have hb : p.draft.block? i = some b := List.mem_zipIdx_iff_getElem?.mp hmem
  refine if_pos ?_
  rcases h.reached hb (by simp [waitingLabels, hwaiting]) with hr | ha
  · rw [Bool.or_eq_true, List.contains_iff_mem]
    exact .inl (h.mem_reachable_of_reaches hr hb rfl)
  · rw [Bool.or_eq_true, ha.terminator]
    exact .inr rfl

end Site

/-! ### Finished functions -/

/-- A finished block as it stood in the draft. -/
def Block.toDraft (b : Block) : BlockDraft :=
  ⟨b.label, b.statements, some b.terminator⟩

theorem BlockDraft.mapM_finish {bs : List BlockDraft} (h : ∀ b ∈ bs, ∃ t, b.terminator = some t) :
    ∃ blocks, bs.mapM BlockDraft.finish = .ok blocks ∧ bs = blocks.map Block.toDraft := by
  induction bs with
  | nil => exact ⟨[], rfl, rfl⟩
  | cons b bs ih =>
    rw [List.forall_mem_cons] at h
    obtain ⟨⟨t, ht⟩, hbs⟩ := h
    obtain ⟨blocks, hblocks, rfl⟩ := ih hbs
    have hb : b.finish = .ok ⟨b.label, b.statements, t⟩ := by rw [finish, ht]
    refine ⟨⟨b.label, b.statements, t⟩ :: blocks, ?_, ?_⟩
    · rw [List.mapM_cons, hb, hblocks]
      rfl
    · rw [List.map_cons, Block.toDraft, ← ht]

namespace Site

open FunctionDraft

variable {p : Site}

/-- **A sound site is accepted** once nothing waits and the current block has ended: the check of
terminators and of reachability finds nothing. -/
theorem Sound.finish_eq (h : p.Sound) (hwaiting : p.waiting = [])
    (hdone : p.draft.terminated = true) :
    ∃ blocks, p.draft.blocks.rows = blocks.map Block.toDraft ∧ p.draft.finish =
      .ok ⟨⟨p.draft.name, .word, wordParams p.draft.params, blocks⟩, p.draft.pending⟩ := by
  have hended : ∀ b ∈ p.draft.blocks.rows, ∃ t, b.terminator = some t := by
    intro b hb
    obtain ⟨i, hi⟩ := List.mem_iff_getElem?.mp hb
    by_cases hcur : i = p.draft.current
    · subst hcur
      rw [eq_currentBlock hi]
      exact Option.isSome_iff_exists.mp hdone
    · exact h.exists_terminator hi hcur (by simp [waitingLabels, hwaiting])
  obtain ⟨blocks, hfinish, hrows⟩ := BlockDraft.mapM_finish hended
  refine ⟨blocks, hrows, ?_⟩
  rw [finish, hfinish, h.stray?_eq_none hwaiting]
  rfl

end Site

end WordScheme
