import Mathlib
import WordScheme.Proofs.DraftRuns
import WordScheme.Proofs.MoveRun

/-!
# When labels clash

A supply counts the names of each base for itself, so names of different bases may be the same. This
file says exactly when: names clash if and only if some base is itself the name number `k` of
another base, `k` at least one, and the other base is requested more than `k` times (`Clashing`).
Other ways to spell a name twice need no mention, since each of them comes with a clash of this
kind.

The blocks of a draft are labelled by such a supply, the first of them after the base `entry`. So
for the functions that `FunctionDraft.finish` accepts the same condition on the bases decides
whether their labels are distinct (`labels_nodup_iff`). A draft whose bases clash can be accepted:
`finish_clashing`.
-/

namespace WordScheme

namespace NameSupply

/-! ### Names handed out -/

/-- The names that a supply hands out for a list of bases, one after the other. -/
def handOut (s : NameSupply) : List Name → List Name
  | [] => []
  | base :: bases => (s.fresh base).1 :: (s.fresh base).2.handOut bases

/-- The same names, each as its base and its number. -/
def numbered (s : NameSupply) : List Name → List (Name × Nat)
  | [] => []
  | base :: bases => (base, s.count base) :: (s.fresh base).2.numbered bases

/-- Some base is spelled like a name of another one, and that name is handed out. -/
def Clashing (bases : List Name) : Prop :=
  ∃ base ∈ bases, ∃ k < bases.count base, 0 < k ∧ nth base k ∈ bases

instance (bases : List Name) : Decidable (Clashing bases) :=
  inferInstanceAs (Decidable (∃ base ∈ bases, ∃ k < bases.count base, 0 < k ∧ nth base k ∈ bases))

variable {s : NameSupply}

private theorem handOut_eq_map (hs : s.Positive) (bases : List Name) :
    s.handOut bases = (s.numbered bases).map fun x => nth x.1 x.2 := by
  induction bases generalizing s with
  | nil => rfl
  | cons base bases ih =>
    rw [handOut, numbered, List.map_cons, ih (hs.fresh base), fresh_name hs]

/-- The numbers that a base gets are the next ones, one for each request. -/
private theorem mem_numbered {bases : List Name} {base : Name} {k : Nat} :
    (base, k) ∈ s.numbered bases ↔ s.count base ≤ k ∧ k < s.count base + bases.count base := by
  induction bases generalizing s with
  | nil =>
    rw [numbered, List.count_nil]
    simp
  | cons other bases ih =>
    rw [numbered, List.mem_cons, ih, Prod.mk.injEq]
    by_cases h : base = other
    · subst h
      simp only [count_fresh_self, List.count_cons_self, true_and]
      omega
    · rw [count_fresh_of_ne s h, List.count_cons_of_ne (Ne.symm h)]
      simp [h]

private theorem nodup_numbered (bases : List Name) : (s.numbered bases).Nodup := by
  induction bases generalizing s with
  | nil => exact List.nodup_nil
  | cons base bases ih =>
    refine List.nodup_cons.mpr ⟨fun hmem => ?_, ih⟩
    rw [mem_numbered, count_fresh_self] at hmem
    omega

/-- **When names clash.** -/
theorem nodup_handOut_iff (bases : List Name) :
    (empty.handOut bases).Nodup ↔ ¬ Clashing bases := by
  have hmem : ∀ {base k}, (base, k) ∈ empty.numbered bases ↔ k < bases.count base := by
    intro base k
    rw [mem_numbered]
    change 0 ≤ k ∧ k < 0 + bases.count base ↔ _
    omega
  rw [handOut_eq_map positive_empty, List.nodup_map_iff_inj_on (nodup_numbered bases)]
  constructor
  · -- a base that is spelled like a name of another one is also its own first name
    rintro hinj ⟨base, -, k, hk, hpos, hclash⟩
    have hfirst : (nth base k, 0) ∈ empty.numbered bases :=
      hmem.mpr (List.count_pos_iff.mpr hclash)
    have heq := hinj (base, k) (hmem.mpr hk) (nth base k, 0) hfirst rfl
    exact Nat.ne_of_gt hpos (Prod.mk.inj heq).2
  · rintro hclear ⟨a, m⟩ ha ⟨b, n⟩ hb heq
    by_contra hne
    have hm := hmem.mp ha
    have hn := hmem.mp hb
    obtain ⟨k, hpos, ⟨hle, rfl⟩ | ⟨hle, rfl⟩⟩ := exists_nth_of_nth_eq heq hne
    · exact hclear ⟨a, List.count_pos_iff.mp (Nat.zero_lt_of_lt hm), k, hle.trans_lt hm, hpos,
        List.count_pos_iff.mp (Nat.zero_lt_of_lt hn)⟩
    · exact hclear ⟨b, List.count_pos_iff.mp (Nat.zero_lt_of_lt hn), k, hle.trans_lt hn, hpos,
        List.count_pos_iff.mp (Nat.zero_lt_of_lt hm)⟩

end NameSupply

/-! ### Labels of a draft -/

namespace FunctionDraft

open NameSupply

/-- The base after which an operation labels a block. -/
def Operation.base? : Operation → Option Name
  | .addBlock base => some base
  | _ => none

private theorem labels_perform_of_base? {d : FunctionDraft} {op : Operation} (h : op.base? = none) :
    (d.perform op).labels = d.labels ∧ d.labelGiven? op = none := by
  cases op with
  | addBlock base => cases h
  | moveTo index =>
    rw [perform_moveTo]
    split <;> exact ⟨rfl, rfl⟩
  | emit i => exact ⟨append_labels _ _, rfl⟩
  | emitEffect i => exact ⟨append_labels _ _, rfl⟩
  | terminate t =>
    rw [perform_terminate]
    split <;> exact ⟨rfl, rfl⟩
  | _ => exact ⟨rfl, rfl⟩

/-- The labels that a run gives out are those of its bases. -/
private theorem labelsGiven_eq_handOut (d : FunctionDraft) (ops : List Operation) :
    d.labelsGiven ops = d.labels.handOut (ops.filterMap Operation.base?) := by
  induction ops generalizing d with
  | nil => rfl
  | cons op ops ih =>
    rw [labelsGiven, ih]
    cases hop : op.base? with
    | none =>
      obtain ⟨hlabels, hgiven⟩ := labels_perform_of_base? (d := d) hop
      rw [hlabels, hgiven, List.filterMap_cons_none hop]
      rfl
    | some base =>
      cases op with
      | addBlock other =>
        cases hop
        rfl
      | _ => cases hop

/-- A finished function has the labels of its draft. -/
private theorem labels_of_finish {d : FunctionDraft} {f : FinishedFunction} (h : d.finish = .ok f) :
    f.function.blocks.map Block.label = d.blocks.rows.map BlockDraft.label := by
  obtain ⟨blocks, rfl, hrows⟩ := of_finish h
  rw [hrows, List.map_map]
  rfl

/-- **Distinct labels.** The names of a supply are pairwise distinct, for whatever bases they are
requested, exactly if the bases do not clash. So the labels of a function that is finished after
some operations, in any order and with any bases, are distinct exactly if no base among `entry` and
those of the operations is spelled like a name that is handed out for another one. -/
theorem labels_nodup_iff (name : Name) (params : List Name) (globals : Globals)
    (ops : List Operation) :
    (∀ bases, (NameSupply.empty.handOut bases).Nodup ↔ ¬ Clashing bases) ∧
    ∀ f, ((start name params globals).run ops).finish = .ok f →
      ((f.function.blocks.map Block.label).Nodup ↔
        ¬ Clashing ("entry" :: ops.filterMap Operation.base?)) := by
  refine ⟨nodup_handOut_iff, fun f hf => ?_⟩
  have hadds := adds_run (start name params globals) ops
  rw [labels_of_finish hf, hadds.labels, labelsGiven_eq_handOut, ← nodup_handOut_iff]
  rfl

/-- A draft in which the second block after `next` and the first after `next1` share their label. A
branch to the label goes to the later of the two, and the earlier is marked as unreachable. -/
def clashingOperations : List Operation :=
  [.addBlock "next", .addBlock "next", .addBlock "next1",
    .terminate (.condBranch (.const (.int .i1 1)) "next" "next1"),
    .moveTo 1, .terminate (.ret (.word 0)),
    .moveTo 2, .terminate .unreachable,
    .moveTo 3, .terminate (.ret (.word 1))]

/-- Finished functions may have two blocks of one label. -/
theorem finish_clashing : ∃ f, ((start "f" [] []).run clashingOperations).finish = .ok f ∧
    f.function.blocks.map Block.label = ["entry", "next", "next1", "next1"] ∧
    ¬ (f.function.blocks.map Block.label).Nodup := by
  have hlabels : ((start "f" [] []).run clashingOperations).finish.toOption.map
      (fun f => f.function.blocks.map Block.label) = some ["entry", "next", "next1", "next1"] := by
    decide +kernel
  obtain ⟨f, hf, hblocks⟩ := exists_ok_of_toOption hlabels
  exact ⟨f, hf, hblocks, by rw [hblocks]; decide⟩

end FunctionDraft

end WordScheme
