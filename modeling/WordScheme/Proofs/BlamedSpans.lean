import Mathlib
import WordScheme.Proofs.Relocation

/-!
# Errors are blamed on spans of the data

Whatever is wrong with a datum, the error that `Datum.toExpr` reports is at the span of the datum or
of one inside of it. `Datum.spans` lists these, and `Blames P m` says that an error of `m` is at a
span with the property `P`; its rules follow the monad. `toExprs_blames` needs no recursion of its
own: a relocation that leaves all spans of the data in place leaves the data as they are, so it
leaves the error in place too (`toExprs_relocate`).
-/

namespace WordScheme

/-! ### Spans -/

mutual

/-- All spans of a datum: its own, and those of the data inside of it. -/
def Datum.spans : Datum → List Span
  | .atom _ _ span => [span]
  | .list items span => span :: spansAll items
  | .vector items span => span :: spansAll items
  | .quoted datum span => span :: datum.spans

/-- All spans of several data. -/
def spansAll : List Datum → List Span
  | [] => []
  | d :: ds => d.spans ++ spansAll ds

end

/-- The span of a datum is one of its spans. -/
theorem span_mem_spans (d : Datum) : d.span ∈ d.spans := by
  cases d <;> simp [Datum.span, Datum.spans]

variable {P : Span → Prop}

private theorem forall_spansAll_cons {d : Datum} {ds : List Datum} :
    (∀ x ∈ spansAll (d :: ds), P x) ↔ (∀ x ∈ d.spans, P x) ∧ ∀ x ∈ spansAll ds, P x := by
  rw [spansAll, List.forall_mem_append]

theorem forall_spansAll {ds : List Datum} :
    (∀ x ∈ spansAll ds, P x) ↔ ∀ d ∈ ds, ∀ x ∈ d.spans, P x := by
  induction ds with
  | nil => simp [spansAll]
  | cons d ds ih => rw [forall_spansAll_cons, ih, List.forall_mem_cons]

/-! ### Rules -/

section Rules

variable {α β : Type} {m : Except ReadError α}

/-- An error, if there is one, is at a span with the given property. -/
def Blames (P : Span → Prop) (m : Except ReadError α) : Prop :=
  ∀ e, m = .error e → P e.span

theorem blames_ok (a : α) : Blames P (.ok a) := by
  intro e he
  cases he

/-- An error blames its span. -/
theorem blames_error {e : ReadError} (h : P e.span) :
    Blames P (.error e : Except ReadError α) := by
  intro e' he
  cases he
  exact h

/-- Readings that blame the given spans do so one after another. -/
theorem Blames.bind {f : α → Except ReadError β} (h : Blames P m) (hf : ∀ a, Blames P (f a)) :
    Blames P (m >>= f) := by
  cases m with
  | error e => exact blames_error (h e rfl)
  | ok a => exact hf a

end Rules

/-! ### Data -/

mutual

/-- A relocation that moves no span of a datum leaves it as it is. -/
private theorem relocate_eq_self {f : Span → Span} :
    (d : Datum) → (∀ x ∈ d.spans, f x = x) → d.relocate f = d
  | .atom kind text span, h => by
    rw [Datum.relocate, h span List.mem_cons_self]
  | .list items span, h => by
    obtain ⟨hspan, hitems⟩ := List.forall_mem_cons.mp h
    rw [Datum.relocate, hspan, relocateAll_eq_self items hitems]
  | .vector items span, h => by
    obtain ⟨hspan, hitems⟩ := List.forall_mem_cons.mp h
    rw [Datum.relocate, hspan, relocateAll_eq_self items hitems]
  | .quoted d span, h => by
    obtain ⟨hspan, hd⟩ := List.forall_mem_cons.mp h
    rw [Datum.relocate, hspan, relocate_eq_self d hd]

/-- A relocation that leaves the spans of data in place changes nothing. -/
private theorem relocateAll_eq_self {f : Span → Span} :
    (ds : List Datum) → (∀ x ∈ spansAll ds, f x = x) → relocateAll f ds = ds
  | [], _ => rfl
  | d :: ds, h => by
    obtain ⟨hd, hds⟩ := forall_spansAll_cons.mp h
    rw [relocateAll, relocate_eq_self d hd, relocateAll_eq_self ds hds]

end

/-- **An error in data** is at the span of one of them, or at that of a datum inside of it. -/
theorem toExprs_blames (ds : List Datum) (h : ∀ x ∈ spansAll ds, P x) : Blames P (toExprs ds) := by
  classical
  intro e he
  by_contra hspan
  -- every span without the property gets another start, but none of these is in the data
  let f : Span → Span := fun x => if P x then x else ⟨x.start + 1, x.stop⟩
  have hrelocates : Relocates f (toExprs ds) (toExprs (relocateAll f ds)) := toExprs_relocate ds
  rw [relocateAll_eq_self ds fun x hx => if_pos (h x hx), Relocates, he] at hrelocates
  have hsame : e.span = f e.span := congrArg ReadError.span (Except.error.inj hrelocates)
  have hmoved : f e.span = ⟨e.span.start + 1, e.span.stop⟩ := if_neg hspan
  have hstart : e.span.start = e.span.start + 1 := congrArg Span.start (hsame.trans hmoved)
  omega

end WordScheme
