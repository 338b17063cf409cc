import Mathlib
import WordScheme.Proofs.DraftBlocks

/-!
# Labels never clash

A supply hands out the names `nth base 0`, `nth base 1`, … of each base. For bases without digits
these determine base and number (`nth_inj`), so a draft whose blocks are all labelled after such
bases never has two blocks of one label. `FunctionDraft.Labelled` is the invariant: every label is a
name that the supply has already given out.

Bases with digits do clash: the second name of `a` is the first name of `a1`. Whenever two bases
share a name, one of them is spelled like a name of the other (`exists_nth_of_nth_eq`).
-/

namespace WordScheme

namespace NameSupply

/-- The name number `n` of a base. -/
def nth (base : Name) (n : Nat) : Name :=
  if n = 0 then base else base ++ toString n

/-- The number of names of a base that a supply has given out. -/
def count (s : NameSupply) (base : Name) : Nat :=
  (s.next? base).getD 0

/-- The counts of a supply that started out empty are never zero. -/
def Positive (s : NameSupply) : Prop :=
  ∀ base n, s.next? base = some n → 0 < n

/-- The empty supply has no counts. -/
theorem positive_empty : empty.Positive := by
  intro base n h
  cases h

/-- A fresh name has the number of those given out before. -/
theorem fresh_name {s : NameSupply} (hs : s.Positive) (base : Name) :
    (s.fresh base).1 = nth base (s.count base) := by
  rw [fresh, count]
  cases h : s.next? base with
  | none => rfl
  | some n => exact (if_neg (Nat.ne_of_gt (hs base n h))).symm

private theorem fresh_next?_self (s : NameSupply) (base : Name) :
    (s.fresh base).2.next? base = some (s.count base + 1) := by
  rw [fresh, count]
  cases h : s.next? base with
  | none => exact Assoc.get?_put_self _ _ _
  | some n => exact Assoc.get?_put_self _ _ _

private theorem fresh_next?_of_ne (s : NameSupply) {base other : Name} (h : other ≠ base) :
    (s.fresh base).2.next? other = s.next? other := by
  rw [fresh]
  cases s.next? base with
  | none => exact Assoc.get?_put_of_ne _ _ h
  | some n => exact Assoc.get?_put_of_ne _ _ h

/-- Counts stay positive as names are given out. -/
theorem Positive.fresh {s : NameSupply} (hs : s.Positive) (base : Name) :
    (s.fresh base).2.Positive := by
  intro other n h
  by_cases hb : other = base
  · subst hb
    rw [fresh_next?_self] at h
    cases h
    exact Nat.succ_pos _
  · rw [fresh_next?_of_ne s hb] at h
    exact hs other n h

/-- A fresh name counts one more for its base. -/
theorem count_fresh_self (s : NameSupply) (base : Name) :
    (s.fresh base).2.count base = s.count base + 1 := by
  rw [count, fresh_next?_self]
  rfl

/-- A fresh name counts nothing for other bases. -/
theorem count_fresh_of_ne (s : NameSupply) {base other : Name} (h : other ≠ base) :
    (s.fresh base).2.count other = s.count other := by
  rw [count, fresh_next?_of_ne s h, count]

private theorem count_le_count_fresh (s : NameSupply) (base other : Name) :
    s.count other ≤ (s.fresh base).2.count other := by
  by_cases h : other = base
  · subst h
    rw [count_fresh_self]
    exact Nat.le_succ _
  · rw [count_fresh_of_ne s h]

/-! ### Bases without digits -/

/-- A base in which no digit occurs. -/
def Undigited (base : Name) : Prop :=
  ∀ c ∈ base.toList, c.isDigit = false

theorem Undigited.append {a b : Name} (ha : Undigited a) (hb : Undigited b) :
    Undigited (a ++ b) := by
  intro c hc
  rw [String.toList_append, List.mem_append] at hc
  exact hc.elim (ha c) (hb c)

/-- The digits behind the base of a name. -/
def digits (n : Nat) : List Char :=
  if n = 0 then [] else Nat.toDigits 10 n

private theorem toList_nth (base : Name) (n : Nat) :
    (nth base n).toList = base.toList ++ digits n := by
  rw [nth, digits]
  split
  · simp
  · rw [String.toList_append, Nat.toString_eq_repr, Nat.toList_repr]

/-- A number is written with digits. -/
private theorem isDigit_of_mem_digits {n : Nat} {c : Char} (h : c ∈ digits n) :
    c.isDigit = true := by
  rw [digits] at h
  split at h
  · cases h
  · exact Nat.isDigit_of_mem_toDigits (by decide) (by decide) h

/-- Different numbers are written differently. -/
private theorem digits_inj {m n : Nat} (h : digits m = digits n) : m = n := by
  have hdecode : ∀ k, Nat.ofDigitChars 10 (digits k) 0 = k := by
    intro k
    rw [digits]
    split
    · next hk => rw [hk, Nat.ofDigitChars_nil]
    · exact Nat.ofDigitChars_ten_toDigits
  rw [← hdecode m, h, hdecode n]

/-- The base of a name ends where its digits begin. -/
private theorem takeWhile_nth {base : Name} (hb : Undigited base) (n : Nat) :
    (nth base n).toList.takeWhile (fun c => !c.isDigit) = base.toList := by
  rw [toList_nth, List.takeWhile_append_of_pos fun c hc => by simp [hb c hc]]
  have htail : (digits n).takeWhile (fun c => !c.isDigit) = [] := by
    cases hd : digits n with
    | nil => rfl
    | cons c cs =>
      have hmem : c ∈ digits n := hd ▸ List.mem_cons_self
      have hc : c.isDigit = true := isDigit_of_mem_digits hmem
      simp [hc]
  rw [htail, List.append_nil]

/-- A name determines its base and its number. -/
theorem nth_inj {a b : Name} (ha : Undigited a) (hb : Undigited b) {m n : Nat}
    (h : nth a m = nth b n) : a = b ∧ m = n := by
  -- the base of a name is what stands before its first digit
  have hbase : a.toList = b.toList := by
    rw [← takeWhile_nth ha m, h, takeWhile_nth hb n]
  have hlist : a.toList ++ digits m = b.toList ++ digits n := by
    rw [← toList_nth, h, toList_nth]
  rw [hbase] at hlist
  exact ⟨String.toList_inj.mp hbase, digits_inj (List.append_cancel_left hlist)⟩

/-! ### Bases with digits -/

/-- What a numeral starts with is a numeral, and of a number that is no greater. -/
private theorem exists_digits_of_append {n : Nat} {cs rest : List Char} (h : digits n = cs ++ rest)
    (hcs : cs ≠ []) : ∃ k, 0 < k ∧ k ≤ n ∧ cs = digits k := by
  -- digits are taken off at the end, where a numeral is that of a tenth of its number
  induction rest using List.reverseRecOn generalizing n with
  | nil =>
    rw [List.append_nil] at h
    refine ⟨n, Nat.pos_of_ne_zero ?_, le_refl n, h.symm⟩
    rintro rfl
    exact hcs h.symm
  | append_singleton rest c ih =>
    rw [← List.append_assoc] at h
    have hlength := congrArg List.length h
    have hpos := List.length_pos_iff.mpr hcs
    rw [List.length_append, List.length_append, List.length_singleton] at hlength
    rw [digits] at h hlength
    split at h
    · next hzero => simp [hzero] at hlength
    · next hzero =>
      rw [if_neg hzero] at hlength
      have hten : 10 ≤ n := by
        by_contra hlt
        rw [Nat.toDigits_of_lt_base (Nat.not_le.mp hlt), List.length_singleton] at hlength
        omega
      rw [Nat.toDigits_of_base_le (by decide) hten] at h
      have htenth : digits (n / 10) = cs ++ rest := by
        rw [digits, if_neg (by omega)]
        exact List.append_inj_left' h rfl
      obtain ⟨k, hk, hle, hdigits⟩ := ih htenth
      exact ⟨k, hk, hle.trans (Nat.div_le_self n 10), hdigits⟩

/-- A name that two bases share comes from a base which is spelled like an earlier name of the
other. -/
theorem exists_nth_of_nth_eq {a b : Name} {m n : Nat} (h : nth a m = nth b n)
    (hne : (a, m) ≠ (b, n)) :
    ∃ k, 0 < k ∧ (k ≤ m ∧ b = nth a k ∨ k ≤ n ∧ a = nth b k) := by
  have hlist : a.toList ++ digits m = b.toList ++ digits n := by
    rw [← toList_nth, h, toList_nth]
  -- the longer base goes on with the first digits of the other's number
  have hlonger : ∀ {a b : Name} {m n : Nat} {cs : List Char}, (a, m) ≠ (b, n) →
      b.toList = a.toList ++ cs → digits m = cs ++ digits n → ∃ k, 0 < k ∧ k ≤ m ∧ b = nth a k := by
    intro a b m n cs hne hbase hdigits
    have hcs : cs ≠ [] := by
      rintro rfl
      rw [List.append_nil] at hbase
      exact hne (Prod.ext (String.toList_inj.mp hbase.symm) (digits_inj hdigits))
    obtain ⟨k, hk, hle, rfl⟩ := exists_digits_of_append hdigits hcs
    refine ⟨k, hk, hle, String.toList_inj.mp ?_⟩
    rw [hbase, toList_nth]
  rcases List.append_eq_append_iff.mp hlist with ⟨cs, hbase, hdigits⟩ | ⟨cs, hbase, hdigits⟩
  · obtain ⟨k, hk, hle, hb⟩ := hlonger hne hbase hdigits
    exact ⟨k, hk, .inl ⟨hle, hb⟩⟩
  · obtain ⟨k, hk, hle, ha⟩ := hlonger hne.symm hbase hdigits
    exact ⟨k, hk, .inr ⟨hle, ha⟩⟩

end NameSupply

/-! ### Labels of a draft -/

namespace FunctionDraft

open NameSupply

/-- Every block is labelled by a name of a base without digits that the supply has given out, and
no two blocks share a label. -/
structure Labelled (d : FunctionDraft) : Prop where
  positive : d.labels.Positive
  issued : ∀ {i b}, d.block? i = some b →
    ∃ base n, Undigited base ∧ n < d.labels.count base ∧ b.label = nth base n
  distinct : ∀ {i j b c}, d.block? i = some b → d.block? j = some c → b.label = c.label → i = j

variable {d : FunctionDraft}

/-- A label that the supply gives out next is not in use. -/
theorem Labelled.fresh_not_used (h : d.Labelled) {base : Name} (hb : Undigited base) {i : Nat}
    {b : BlockDraft} (hi : d.block? i = some b) : b.label ≠ (d.addBlock base).1.label := by
  intro heq
  obtain ⟨base', n, hb', hn, hlabel⟩ := h.issued hi
  change b.label = (d.labels.fresh base).1 at heq
  rw [fresh_name h.positive, hlabel] at heq
  obtain ⟨rfl, rfl⟩ := nth_inj hb' hb heq
  exact Nat.lt_irrefl _ hn

/-- A new block gets a label that no other block has. -/
theorem Labelled.addBlock (h : d.Labelled) {base : Name} (hb : Undigited base) :
    (d.addBlock base).2.Labelled where
  positive := h.positive.fresh base
  issued := by
    intro i b hi
    rw [block?_addBlock] at hi
    split_ifs at hi
    · cases hi
      refine ⟨base, d.labels.count base, hb, ?_, fresh_name h.positive base⟩
      change _ < (d.labels.fresh base).2.count base
      rw [count_fresh_self]
      exact Nat.lt_succ_self _
    · obtain ⟨base', n, hb', hn, hlabel⟩ := h.issued hi
      exact ⟨base', n, hb', Nat.lt_of_lt_of_le hn (count_le_count_fresh _ _ _), hlabel⟩
  distinct := by
    intro i j b c hi hj hlabel
    rw [block?_addBlock] at hi hj
    split_ifs at hi hj with hi' hj' hj'
    · rw [hi', hj']
    · cases hi
      exact absurd hlabel.symm (h.fresh_not_used hb hj)
    · cases hj
      exact absurd hlabel (h.fresh_not_used hb hi)
    · exact h.distinct hi hj hlabel

/-- Changes of the current block that keep its label keep the invariant. -/
private theorem Labelled.updateCurrent (h : d.Labelled) {f : BlockDraft → BlockDraft}
    (hf : (f d.currentBlock).label = d.currentBlock.label) : (d.updateCurrent f).Labelled := by
  -- each block was there before, under the same label
  have hback : ∀ {i b}, (d.updateCurrent f).block? i = some b →
      ∃ b', d.block? i = some b' ∧ b.label = b'.label := by
    intro i b hi
    rw [block?_updateCurrent] at hi
    split_ifs at hi with hcur
    · cases hi
      exact ⟨d.currentBlock, hcur ▸ block?_current d, hf⟩
    · exact ⟨b, hi, rfl⟩
  refine ⟨h.positive, fun hi => ?_, fun hi hj hlabel => ?_⟩
  · obtain ⟨b', hb', hlabel⟩ := hback hi
    rw [hlabel]
    exact h.issued hb'
  · obtain ⟨b', hb', hlabel'⟩ := hback hi
    obtain ⟨c', hc', hlabel''⟩ := hback hj
    exact h.distinct hb' hc' (by rw [← hlabel', hlabel, hlabel''])

/-- A statement changes no label. -/
theorem Labelled.append (h : d.Labelled) (s : Statement) : (d.append s).Labelled := by
  cases ht : d.terminated with
  | true => rwa [append_of_terminated ht]
  | false =>
    rw [append_of_live ht]
    exact h.updateCurrent rfl

/-- A terminator changes no label. -/
theorem Labelled.endWith (h : d.Labelled) (t : Terminator) : (d.endWith t).Labelled :=
  h.updateCurrent rfl

end FunctionDraft

end WordScheme
