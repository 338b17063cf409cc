import WordScheme.Assoc
import WordScheme.Expr

/-!
# Supplies of names

A supply hands out names derived from a base: the base itself at the first request, then the base
with a count behind it. The counts of different bases know nothing of each other.
-/

namespace WordScheme

/-- For each base requested so far, the count that comes next. -/
structure NameSupply where
  /-- No bound is set to the counts; a supply that counts with 32 bits hands out fewer than `2 ^ 32`
  names of each base. -/
  counts : Assoc Name Nat
deriving DecidableEq, Repr

namespace NameSupply

/-- A supply that has given out nothing. -/
def empty : NameSupply :=
  ⟨[]⟩

/-- The count that the next name of a base will carry, if the base has been requested before. -/
def next? (s : NameSupply) (base : Name) : Option Nat :=
  s.counts.get? base

/-- The next name of a base. -/
def fresh (s : NameSupply) (base : Name) : Name × NameSupply :=
  match s.next? base with
  | none => (base, ⟨s.counts.put base 1⟩)
  | some n => (base ++ toString n, ⟨s.counts.put base (n + 1)⟩)

/-- The first name of a base that is not taken. It skips at most `limit` names, which is enough
when no more than that are taken, since no name of a base comes twice. -/
def freshAvoiding (taken : Name → Bool) (base : Name) : (limit : Nat) → NameSupply →
    Name × NameSupply
  | 0, s => s.fresh base
  | limit + 1, s =>
    let (name, later) := s.fresh base
    if taken name then freshAvoiding taken base limit later else (name, later)

end NameSupply

/-- Each name of a list with the index of its first occurrence there. -/
def firstOccurrences (names : List Name) : List (Name × Nat) :=
  names.map fun name => (name, names.idxOf name)

end WordScheme
