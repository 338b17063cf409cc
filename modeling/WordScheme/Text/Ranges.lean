/-!
# Ranges of code points

A property of characters is carried as the ranges of its code points, ends included, ascending and
apart. `inRanges` stops at the first range beyond the code point, which is right because the ranges
ascend; `ascending` is that condition as a check.
-/

namespace WordScheme

/-- Whether a number lies in one of the ranges, which ascend. -/
def inRanges (n : Nat) : List (Nat × Nat) → Bool
  | [] => false
  | (lo, hi) :: ranges => if n < lo then false else n ≤ hi || inRanges n ranges

/-- Whether the ranges, all beyond the bound, are non-empty, ascend and leave a gap between
neighbours. -/
def ascending (bound : Nat) : List (Nat × Nat) → Bool
  | [] => true
  | (lo, hi) :: ranges => bound ≤ lo && lo ≤ hi && ascending (hi + 2) ranges

/-- Ranges that ascend from a bound on hold nothing below it. -/
theorem le_of_mem_ascending {bound : Nat} {ranges : List (Nat × Nat)}
    (h : ascending bound ranges = true) {r : Nat × Nat} (hr : r ∈ ranges) : bound ≤ r.1 := by
  induction ranges generalizing bound with
  | nil => cases hr
  | cons first ranges ih =>
    simp only [ascending, Bool.and_eq_true, decide_eq_true_eq] at h
    obtain ⟨⟨hbound, hfirst⟩, hrest⟩ := h
    rcases List.mem_cons.mp hr with rfl | hr
    · exact hbound
    · have hbeyond := ih hrest hr
      omega

/-- **The search among ascending ranges finds every number that lies in one of them.** -/
theorem inRanges_iff {n bound : Nat} {ranges : List (Nat × Nat)}
    (h : ascending bound ranges = true) :
    inRanges n ranges = true ↔ ∃ r ∈ ranges, r.1 ≤ n ∧ n ≤ r.2 := by
  induction ranges generalizing bound with
  | nil => simp [inRanges]
  | cons first ranges ih =>
    simp only [ascending, Bool.and_eq_true, decide_eq_true_eq] at h
    obtain ⟨⟨-, hfirst⟩, hrest⟩ := h
    -- the ranges behind the first one begin beyond its end
    have hbeyond : ∀ r ∈ ranges, first.1 < r.1 := by
      intro r hr
      have hle := le_of_mem_ascending hrest hr
      omega
    rw [inRanges]
    split
    · next hlt =>
      refine iff_of_false Bool.false_ne_true ?_
      rintro ⟨r, hr, hlow, -⟩
      rcases List.mem_cons.mp hr with rfl | hr
      · omega
      · have hgap := hbeyond r hr
        omega
    · next hge =>
      simp only [Bool.or_eq_true, decide_eq_true_eq, ih hrest, List.mem_cons, or_and_right,
        exists_or, exists_eq_left, Nat.le_of_not_lt hge, true_and]

end WordScheme
