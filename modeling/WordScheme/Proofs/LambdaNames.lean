import Mathlib
import WordScheme.Proofs.UnitDefinitions

/-!
# The names of lambdas

A lambda is named by a search: the names `lambda`, `lambda1`, … are tried one after the other, and
those of the entry function and of the top level are passed over. `NameSupply.Searches` is this
search without a limit, and `freshLambdaName_searches` says that the limit which is set never ends
it. No matter in which scopes names are asked for, none comes twice (`names_fresh`).

Within one program the names given out are exactly the first of those that are not taken, in order:
`NameSupply.untaken`. `LowerState.Names` follows this through the building of a function.
-/

namespace WordScheme

open FunctionDraft

namespace NameSupply

variable {taken : Name → Bool} {base : Name}

/-! ### Searching -/

/-- The search for a name of a base that is not taken, which tries one name after the other. -/
inductive Searches (taken : Name → Bool) (base : Name) : NameSupply → Name × NameSupply → Prop
  | found {s : NameSupply} (h : taken (s.fresh base).1 = false) :
      Searches taken base s (s.fresh base)
  | skip {s : NameSupply} {r : Name × NameSupply} (h : taken (s.fresh base).1 = true)
      (hrest : Searches taken base (s.fresh base).2 r) : Searches taken base s r

/-- A search within a limit that ends at a name which is not taken was not cut short. -/
private theorem freshAvoiding_searches (limit : Nat) {s : NameSupply}
    (h : taken (s.freshAvoiding taken base limit).1 = false) :
    Searches taken base s (s.freshAvoiding taken base limit) := by
  induction limit generalizing s with
  | zero => exact .found h
  | succ limit ih =>
    rw [freshAvoiding_succ] at h ⊢
    split at h
    · next htaken =>
      rw [if_pos htaken]
      exact .skip htaken (ih h)
    · next hfree =>
      rw [if_neg hfree]
      exact .found h

/-! ### Names that are not taken -/

/-- The first `n` names of a base, without those that are taken. -/
def untaken (taken : Name → Bool) (base : Name) (n : Nat) : List Name :=
  ((List.range n).map (nth base)).filter fun name => !taken name

private theorem untaken_succ (n : Nat) :
    untaken taken base (n + 1) =
      untaken taken base n ++ if taken (nth base n) then [] else [nth base n] := by
  rw [untaken, untaken, List.range_succ, List.map_append, List.filter_append, List.map_singleton]
  cases h : taken (nth base n) <;> simp [h]

/-- The names that are left are different. -/
theorem nodup_untaken (hbase : Undigited base) (n : Nat) : (untaken taken base n).Nodup := by
  refine List.Nodup.filter _ (List.nodup_range.map ?_)
  intro i j heq
  exact (nth_inj hbase hbase heq).2

/-- The names that are left are not taken. -/
theorem taken_eq_false_of_mem_untaken {n : Nat} {name : Name} (h : name ∈ untaken taken base n) :
    taken name = false := by
  rw [← Bool.not_eq_true']
  exact (List.mem_filter.mp h).2

/-- The name that a search finds is the next of those that are not taken. -/
private theorem Searches.untaken_eq {s : NameSupply} {r : Name × NameSupply}
    (h : Searches taken base s r) (hs : s.Positive) :
    untaken taken base (r.2.count base) = untaken taken base (s.count base) ++ [r.1] := by
  induction h with
  | @found s hfree =>
    rw [fresh_name hs] at hfree
    rw [count_fresh_self, untaken_succ, fresh_name hs, hfree]
    rfl
  | @skip s r htaken _ ih =>
    rw [fresh_name hs] at htaken
    rw [ih (hs.fresh base), count_fresh_self, untaken_succ, htaken, if_pos rfl, List.append_nil]

end NameSupply

open NameSupply

/-! ### Lambdas -/

/-- A name that no lambda gets: that of the entry function, or one of the top level. -/
def isTaken (entry : Name) (G : Globals) (name : Name) : Bool :=
  name == entry || G.has name

/-- A name is free unless it is the entry function or defined at the top level. -/
theorem isTaken_eq_false {entry name : Name} {G : Globals} :
    isTaken entry G name = false ↔ name ≠ entry ∧ G.has name = false := by
  rw [isTaken, Bool.or_eq_false_iff, beq_eq_false_iff_ne]

namespace CompileUnit

variable {u : CompileUnit}

/-- **The search for the name of a lambda ends**, whatever is taken. -/
theorem freshLambdaName_searches (hu : u.lambdaNames.Positive) (G : Globals) :
    Searches (isTaken u.entry G) "lambda" u.lambdaNames
      ((u.freshLambdaName G).1, (u.freshLambdaName G).2.lambdaNames) := by
  obtain ⟨hentry, hglobal, -⟩ := freshLambdaName_spec hu G
  have hfree : isTaken u.entry G (u.freshLambdaName G).1 = false :=
    isTaken_eq_false.mpr ⟨hentry, hglobal⟩
  exact freshAvoiding_searches (G.length + 1) hfree

/-- The names that lambdas get which are found one after the other, each among top level names of
its own. -/
def names : CompileUnit → List Globals → List Name × CompileUnit
  | u, [] => ([], u)
  | u, G :: Gs =>
    let rest := names (u.freshLambdaName G).2 Gs
    ((u.freshLambdaName G).1 :: rest.1, rest.2)

/-- The names that have been given out are those of numbers below the count. -/
theorem names_spec (hu : u.lambdaNames.Positive) (Gs : List Globals) :
    (u.names Gs).2.lambdaNames.Positive ∧ (u.names Gs).2.entry = u.entry ∧
      u.lambdaNames.count "lambda" ≤ (u.names Gs).2.lambdaNames.count "lambda" ∧
      ∀ name ∈ (u.names Gs).1, ∃ k, name = nth "lambda" k ∧
        k < (u.names Gs).2.lambdaNames.count "lambda" := by
  induction Gs generalizing u with
  | nil => exact ⟨hu, rfl, le_refl _, fun _ h => nomatch h⟩
  | cons G Gs ih =>
    obtain ⟨-, -, hpositive, k, hk, hname, hcount⟩ := freshLambdaName_spec hu G
    obtain ⟨hpositive', hentry, hle, hrest⟩ := ih hpositive
    rw [hcount] at hle
    have hlt : k < (u.names (G :: Gs)).2.lambdaNames.count "lambda" := hle
    refine ⟨hpositive', hentry, hk.trans hlt.le, ?_⟩
    intro name hmem
    rcases List.mem_cons.mp hmem with rfl | hmem
    · exact ⟨k, hname, hlt⟩
    · exact hrest name hmem

/-- **No name comes twice**: the name that a lambda gets is none of those given out before. -/
theorem names_fresh (hu : u.lambdaNames.Positive) (Gs : List Globals) (G : Globals) :
    ((u.names Gs).2.freshLambdaName G).1 ∉ (u.names Gs).1 := by
  obtain ⟨hpositive, -, -, hgiven⟩ := names_spec hu Gs
  obtain ⟨-, -, -, k, hk, hname, -⟩ := freshLambdaName_spec hpositive G
  intro hmem
  obtain ⟨j, hj, hlt⟩ := hgiven _ hmem
  have heq := (nth_inj undigited_lambda undigited_lambda (hname.symm.trans hj)).2
  omega

end CompileUnit

/-! ### Building a function -/

namespace LowerState

/-- After the names `issued`, those of the lambdas that the function at hand has lifted are the next
ones that are not taken. -/
structure Names (issued : List Name) (s : LowerState) : Prop where
  positive : s.unit.lambdaNames.Positive
  names : issued ++ s.unit.lifted =
    untaken (isTaken s.unit.entry s.draft.globals) "lambda" (s.unit.lambdaNames.count "lambda")

variable {issued : List Name} {s t : LowerState}

/-- A lifted lambda gets the next name that is left. -/
private theorem Names.lift (h : s.Names issued) (lambda : Lambda) :
    (s.lift lambda).Names issued := by
  obtain ⟨hpositive, hnames⟩ := h
  have hsearch := CompileUnit.freshLambdaName_searches hpositive s.draft.globals
  obtain ⟨-, -, hpositive', -⟩ := CompileUnit.freshLambdaName_spec hpositive s.draft.globals
  refine ⟨hpositive', ?_⟩
  change issued ++ (s.unit.lifted ++ [(s.unit.freshLambdaName s.draft.globals).1]) = _
  rw [← List.append_assoc, hnames]
  exact (hsearch.untaken_eq hpositive).symm

/-- Nothing changes that has to do with names of lambdas. -/
private theorem Names.of_eq (h : s.Names issued) (hsupply : t.unit.lambdaNames = s.unit.lambdaNames)
    (hlifted : t.unit.lifted = s.unit.lifted) (hentry : t.unit.entry = s.unit.entry)
    (hglobals : t.draft.globals = s.draft.globals) : t.Names issued := by
  refine ⟨hsupply ▸ h.positive, ?_⟩
  rw [hsupply, hlifted, hentry, hglobals]
  exact h.names

/-- A move gives out names in order. -/
private theorem Names.move (h : s.Names issued) (hmove : s.Move t) : t.Names issued := by
  cases hmove.effect with
  | code hglobals _ => exact h.of_eq rfl rfl rfl hglobals
  | share _ _ hentry hlambdas hlifted => exact h.of_eq hlambdas hlifted hentry rfl
  | lift lambda => exact h.lift lambda

/-- **A run of moves gives out names in order.** -/
theorem Names.moves (h : s.Names issued) (hmoves : s.Moves t) : t.Names issued := by
  induction hmoves with
  | refl => exact h
  | tail _ hmove ih => exact ih.move hmove

end LowerState

end WordScheme
