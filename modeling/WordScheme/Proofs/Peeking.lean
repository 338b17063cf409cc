import Mathlib
import WordScheme.Proofs.Tiling

/-!
# Looking ahead changes nothing

A lexer may be asked for its next token or only to show it, in any order. As long as nothing faulty
is shown, the tokens, faults and ends of the text that it gives are those that it gives without
being asked to show any, and what it shows is what it gives next: `peeking_transparent`.

A token that was shown is held back and is not scanned again. The lexer that holds it is another
one than before, but it has the same answers for all calls to come (`Lexer.answer_peek`). So every
reply, of either kind, is the answer whose number is that of the tokens taken before it
(`Lexer.reply_eq`). A fault is not held back: the lexer that has shown one goes on behind it.
-/

namespace WordScheme

namespace Lexer

/-- What a lexer can be asked for. -/
inductive Request where
  | next
  | peek
deriving DecidableEq, Repr

/-- A request and the answer to it. -/
abbrev Reply :=
  Request × Option (Except ReadError Token)

/-- The answer to a request, and the lexer afterwards. -/
def ask (l : Lexer) : Request → Option (Except ReadError Token) × Lexer
  | .next => l.next
  | .peek => l.peek

/-- The replies to requests that are made one after the other, also behind a fault. -/
def replies (l : Lexer) : List Request → List Reply
  | [] => []
  | r :: rs => (r, (l.ask r).1) :: (l.ask r).2.replies rs

/-- The answers to the requests for the next token. -/
def taken (replies : List Reply) : List (Option (Except ReadError Token)) :=
  (replies.filter (·.1 = .next)).map Prod.snd

/-- No request to show the next token was answered with a fault. -/
def ShowsNoFault (replies : List Reply) : Prop :=
  ∀ e, (.peek, some (.error e)) ∉ replies

variable {l : Lexer} {requests : List Request} {before later : List Reply} {x : Reply}

/-! ### Single requests -/

/-- What is shown is what comes next. -/
private theorem peek_fst (l : Lexer) : l.peek.1 = l.next.1 := by
  obtain ⟨cursor, _ | t⟩ := l
  · rw [peek, next]
    dsimp only
    split
    · next heq => rw [heq]
    · next heq => rw [heq]
  · rfl

/-- **A lexer that has shown no fault gives the same answers** as before. -/
theorem answer_peek (h : ∀ e, l.peek.1 ≠ some (.error e)) (n : Nat) :
    l.peek.2.answer n = l.answer n := by
  obtain ⟨cursor, _ | t⟩ := l
  · obtain ⟨hnext, hrest⟩ | ⟨r, taken, rest, hnext, -⟩ := cursor.next_cases
    · -- at the end, behind the last gap, there is nothing to be held back
      have hpeek : (Lexer.mk cursor none).peek.2 = ⟨cursor.skip, none⟩ := by rw [peek, hnext]
      rw [hpeek, Cursor.answer_of_rest_eq_nil hrest]
      cases n with
      | zero => exact (congrArg Prod.fst hnext).symm
      | succ n => rw [Cursor.answer_succ hnext, Cursor.answer_of_rest_eq_nil hrest]
    · cases r with
      | error e =>
        rw [peek_fst] at h
        exact absurd (congrArg Prod.fst hnext) (h e)
      | ok t =>
        have hpeek : (Lexer.mk cursor none).peek.2 =
            ⟨⟨cursor.skip.offset + byteLength taken, rest⟩, some t⟩ := by
          rw [peek, hnext]
        rw [hpeek]
        cases n with
        | zero => exact (congrArg Prod.fst hnext).symm
        | succ n => exact (Cursor.answer_succ hnext n).symm
  · rfl

private theorem ask_fst (l : Lexer) (r : Request) : (l.ask r).1 = l.answer 0 := by
  cases r with
  | next => rfl
  | peek => exact l.peek_fst

/-- The answers to come after a request: those behind the first, or the same ones. -/
private theorem answer_ask {r : Request} (h : ∀ e, r = .peek → (l.ask r).1 ≠ some (.error e))
    (n : Nat) : (l.ask r).2.answer n = l.answer (n + if r = .next then 1 else 0) := by
  cases r with
  | next => rfl
  | peek => exact answer_peek (fun e => h e rfl) n

/-! ### Runs of requests -/

private theorem taken_append (before later : List Reply) :
    taken (before ++ later) = taken before ++ taken later := by
  rw [taken, List.filter_append, List.map_append, taken, taken]

private theorem taken_of_peeks (h : ∀ x ∈ before, x.1 = .peek) : taken before = [] := by
  rw [taken, List.filter_eq_nil_iff.mpr, List.map_nil]
  intro x hx
  simp [h x hx]

private theorem fst_mem_of_mem_replies (h : x ∈ l.replies requests) : x.1 ∈ requests := by
  induction requests generalizing l with
  | nil => cases h
  | cons r requests ih =>
    rcases List.mem_cons.mp h with rfl | h
    · exact List.mem_cons_self
    · exact List.mem_cons_of_mem _ (ih h)

/-- Without requests to show anything no fault is shown. -/
private theorem showsNoFault_replicate (l : Lexer) (n : Nat) :
    ShowsNoFault (l.replies (List.replicate n .next)) := by
  intro e he
  cases List.eq_of_mem_replicate (fst_mem_of_mem_replies he)

theorem ShowsNoFault.cons {r : Request} (h : ShowsNoFault (l.replies (r :: requests))) :
    (∀ e, r = .peek → (l.ask r).1 ≠ some (.error e)) ∧
      ShowsNoFault ((l.ask r).2.replies requests) := by
  refine ⟨?_, fun e he => h e (List.mem_cons_of_mem _ he)⟩
  rintro e rfl heq
  exact h e (List.mem_cons.mpr (.inl (Prod.ext rfl heq.symm)))

/-- **Every reply is the answer with the number of the tokens taken before it.** -/
theorem reply_eq (h : ShowsNoFault (l.replies requests))
    (hsplit : l.replies requests = before ++ x :: later) :
    x.2 = l.answer (taken before).length := by
  induction before generalizing l requests with
  | nil =>
    cases requests with
    | nil => cases hsplit
    | cons r requests =>
      cases hsplit
      exact l.ask_fst r
  | cons y before ih =>
    cases requests with
    | nil => cases hsplit
    | cons r requests =>
      obtain ⟨hfirst, hrest⟩ := h.cons
      obtain ⟨rfl, hlater⟩ := List.cons_eq_cons.mp hsplit
      rw [ih hrest hlater, answer_ask hfirst]
      cases r <;> rfl

/-- The tokens taken are the first answers, one after the other. -/
private theorem taken_replies (h : ShowsNoFault (l.replies requests)) :
    taken (l.replies requests) = (List.range (requests.count .next)).map l.answer := by
  induction requests generalizing l with
  | nil => rfl
  | cons r requests ih =>
    obtain ⟨hfirst, hrest⟩ := h.cons
    have hanswers := ih hrest
    rw [funext (answer_ask hfirst)] at hanswers
    cases r with
    | next =>
      rw [List.count_cons_self, List.range_succ_eq_map, List.map_cons, List.map_map]
      exact congrArg (List.cons _) hanswers
    | peek =>
      rw [List.count_cons_of_ne (by decide)]
      exact hanswers

end Lexer

open Lexer

/-- **Peeking is transparent.** If no fault is shown, then the tokens, faults and ends of the text
that are taken in the course of any requests are those of as many requests for the next token
alone, and what is shown is what is taken by the next request that takes something. -/
theorem peeking_transparent (text : String) (requests : List Request)
    (h : ShowsNoFault ((Lexer.ofText text).replies requests)) :
    taken ((Lexer.ofText text).replies requests) =
      taken ((Lexer.ofText text).replies (List.replicate (requests.count .next) .next)) ∧
    ∀ (before between later : List Reply) (shown answer : Option (Except ReadError Token)),
      (Lexer.ofText text).replies requests =
        before ++ (.peek, shown) :: (between ++ (.next, answer) :: later) →
      (∀ x ∈ between, x.1 = .peek) → shown = answer := by
  constructor
  · rw [taken_replies h, taken_replies (showsNoFault_replicate _ _), List.count_replicate_self]
  · intro before between later shown answer hsplit hbetween
    have hshown := reply_eq h hsplit
    rw [List.append_cons, ← List.append_assoc] at hsplit
    have hanswer := reply_eq h hsplit
    have hpeeks : taken ((.peek, shown) :: between) = [] :=
      taken_of_peeks (List.forall_mem_cons.mpr ⟨rfl, hbetween⟩)
    rw [List.append_assoc, List.singleton_append, taken_append, hpeeks, List.append_nil] at hanswer
    exact hshown.trans hanswer.symm

/-- Two looks at a parenthesis, then a fault that is taken without a look, then looks at a token and
at the end of the text. -/
def looks : List Request :=
  [.peek, .peek, .next, .next, .peek, .next, .peek, .next]

theorem peeking_transparent_looks :
    let shown : Option (Except ReadError Token) := some (.ok ⟨.openList, "(", ⟨0, 1⟩⟩)
    let replies := (Lexer.ofText "(#q )").replies looks
    ShowsNoFault replies ∧
      taken replies = taken ((Lexer.ofText "(#q )").replies (List.replicate 4 .next)) ∧
      ∃ (answer : Option (Except ReadError Token)) (later : List Reply),
        replies = [] ++ (.peek, shown) :: ([(.peek, shown)] ++ (.next, answer) :: later) ∧
          shown = answer := by
  intro shown replies
  have hreplies : replies = [(.peek, shown), (.peek, shown), (.next, shown),
      (.next, some (.error ⟨.invalidAtom "#q", ⟨1, 3⟩⟩)),
      (.peek, some (.ok ⟨.closeList, ")", ⟨4, 5⟩⟩)), (.next, some (.ok ⟨.closeList, ")", ⟨4, 5⟩⟩)),
      (.peek, none), (.next, none)] := by
    cbv
  have hclean : ShowsNoFault replies := by
    intro e he
    rw [hreplies] at he
    simp [shown] at he
  obtain ⟨htaken, hshown⟩ := peeking_transparent "(#q )" looks hclean
  exact ⟨hclean, htaken, _, _, hreplies, hshown [] [(.peek, shown)] _ _ _ hreplies (by simp)⟩

end WordScheme
