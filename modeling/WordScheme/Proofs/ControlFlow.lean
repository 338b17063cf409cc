import Mathlib
import WordScheme.Proofs.FunctionRun

/-!
# The control flow of lowered functions

`Function.IntactFlow` collects what holds of the control-flow graph of every function that the
lowering gives: labels are distinct, branches lead to blocks of the function and never back to the
first one, phis stand first and name exactly the blocks that branch to theirs, and every block can
be reached save the merge blocks of conditionals whose arms all leave the function.

All of this is `Site.Sound` at the end of a run, where no block waits; `Finishes.block?_eq` and
`Finishes.goes_iff` carry it from the draft to the finished function.
-/

namespace WordScheme

namespace Function

/-- Some block labelled `l` ends in a branch to `l'`. -/
def Goes (f : Function) (l l' : Name) : Prop :=
  ∃ b ∈ f.blocks, b.label = l ∧ l' ∈ b.terminator.successors

/-- The labels of the blocks that branch to `l`, each once. -/
def Sources (f : Function) (labels : List Name) (l : Name) : Prop :=
  labels.Nodup ∧ ∀ k, k ∈ labels ↔ f.Goes k l

/-- A merge block that control never gets to. -/
structure Abandoned (f : Function) (b : Block) : Prop where
  merge : IsMergeLabel b.label
  statements : b.statements = []
  terminator : b.terminator = .unreachable
  sources : ∀ l, ¬ f.Goes l b.label

/-- The control-flow graph of a function is in order. -/
structure IntactFlow (f : Function) : Prop where
  distinct : (f.blocks.map Block.label).Nodup
  entry : f.blocks.head?.map Block.label = some "entry"
  entry_free : ∀ l, ¬ f.Goes l "entry"
  targets : ∀ l l', f.Goes l l' → l' ∈ f.blocks.map Block.label
  phis : ∀ b ∈ f.blocks, ∀ k s incoming, b.statements[k]? = some s →
    s.instruction.incoming? = some incoming → k = 0 ∧ f.Sources (incoming.map Prod.snd) b.label
  reached : ∀ b ∈ f.blocks, Relation.ReflTransGen f.Goes "entry" b.label ∨ f.Abandoned b

end Function

/-! ### From drafts to functions -/

namespace Site

open FunctionDraft

variable {p q : Site} {f : FinishedFunction}

/-- The blocks of a finished function are those of its draft. -/
private theorem Finishes.block?_eq (h : p.Finishes f q) (i : Nat) :
    q.draft.block? i = f.function.blocks[i]?.map Block.toDraft := by
  rw [block?, Table.get?, h.rows, List.getElem?_map]

theorem Finishes.block?_of_getElem? (h : p.Finishes f q) {i : Nat} {b : Block}
    (hb : f.function.blocks[i]? = some b) : q.draft.block? i = some b.toDraft := by
  rw [h.block?_eq, hb]
  rfl

theorem Finishes.exists_getElem? (h : p.Finishes f q) {i : Nat} {c : BlockDraft}
    (hc : q.draft.block? i = some c) : ∃ b, f.function.blocks[i]? = some b ∧ b.toDraft = c := by
  rw [h.block?_eq, Option.map_eq_some_iff] at hc
  exact hc

/-- The jumps of a finished function are those of its draft. -/
private theorem Finishes.goes_iff (h : p.Finishes f q) {l l' : Name} :
    q.draft.Goes l l' ↔ f.function.Goes l l' := by
  constructor
  · rintro ⟨i, c, t, hc, hl, ht, hmem⟩
    obtain ⟨b, hb, rfl⟩ := h.exists_getElem? hc
    cases ht
    exact ⟨b, List.mem_of_getElem? hb, hl, hmem⟩
  · rintro ⟨b, hb, hl, hmem⟩
    obtain ⟨i, hi⟩ := List.mem_iff_getElem?.mp hb
    exact ⟨i, b.toDraft, b.terminator, h.block?_of_getElem? hi, hl, rfl, hmem⟩

/-- The sources of a block stay the same as a function is finished. -/
private theorem Finishes.sources (h : p.Finishes f q) {labels : List Name} {l : Name}
    (hs : q.draft.Sources labels l) : f.function.Sources labels l :=
  ⟨hs.1, fun k => (hs.2 k).trans h.goes_iff⟩

/-- No two blocks of a finished function share a label. -/
theorem Finishes.distinct (h : p.Finishes f q) {i j : Nat} {b c : Block}
    (hb : f.function.blocks[i]? = some b) (hc : f.function.blocks[j]? = some c)
    (hlabel : b.label = c.label) : i = j :=
  h.sound.labelled.distinct (h.block?_of_getElem? hb) (h.block?_of_getElem? hc) hlabel

/-- The control flow of a finished function is that of the site it is made of. -/
theorem Finishes.intactFlow (h : p.Finishes f q) : f.function.IntactFlow where
  distinct := by
    refine List.nodup_iff_injective_getElem.mpr fun i j hij => Fin.ext ?_
    simp only [List.getElem_map] at hij
    exact h.distinct (List.getElem?_eq_getElem _) (List.getElem?_eq_getElem _) hij
  entry := by
    obtain ⟨c, hc, hlabel⟩ := h.sound.entry
    obtain ⟨b, hb, rfl⟩ := h.exists_getElem? hc
    rw [List.head?_eq_getElem?, hb]
    exact congrArg some hlabel
  entry_free := fun l hg => (h.sound.targets (h.goes_iff.mpr hg)).1 rfl
  targets := by
    intro l l' hg
    obtain ⟨-, i, c, hc, rfl⟩ := h.sound.targets (h.goes_iff.mpr hg)
    obtain ⟨b, hb, rfl⟩ := h.exists_getElem? hc
    exact List.mem_map_of_mem (List.mem_of_getElem? hb)
  phis := by
    intro b hb k s incoming hs hin
    obtain ⟨i, hi⟩ := List.mem_iff_getElem?.mp hb
    obtain ⟨hzero, hsources⟩ := h.sound.phis (h.block?_of_getElem? hi) hs hin
    exact ⟨hzero, h.sources hsources⟩
  reached := by
    intro b hb
    obtain ⟨i, hi⟩ := List.mem_iff_getElem?.mp hb
    have hblock := h.block?_of_getElem? hi
    rcases h.sound.reached hblock (by simp [waitingLabels, h.waiting]) with hr | ha
    · exact .inl (Relation.ReflTransGen.mono (fun _ _ => h.goes_iff.mp) _ _ hr)
    · exact .inr ⟨ha.merge, ha.statements, Option.some.inj ha.terminator,
        fun l hg => ha.sources l (h.goes_iff.mpr hg)⟩

end Site

/-- **The control flow of lowered code is intact**, for functions and for the entry function of a
program. -/
theorem lowered_intactFlow (unit : CompileUnit) (f : PendingFunction) (forms : List Expr)
    (skipped : List Nat) (globals : Globals) (done : FinishedFunction)
    (h : (lowerFunction unit f).1 = .ok done ∨
      (lowerEntry unit forms skipped globals).1 = .ok done) :
    done.function.IntactFlow := by
  obtain ⟨_, _, _, q, hq⟩ := exists_finishes h
  exact hq.intactFlow

/-- A conditional with a conditional in each arm: one of them leaves the function in one arm, the
other in both. -/
def nestedReturns : PendingFunction :=
  ⟨"f", ⟨["x"], [.ifElse (.var "x") (.ifElse (.var "x") (.ret (.integer 1)) (.integer 2))
    (.ifElse (.var "x") (.ret (.integer 3)) (.ret (.integer 4)))]⟩, []⟩

theorem lowered_intactFlow_nested : ∃ done,
    (lowerFunction (.start "m" "main") nestedReturns).1 = .ok done ∧
      done.function.blocks.map Block.label = ["entry", "if.then", "if.else", "if.merge", "if.then1",
        "if.else1", "if.merge1", "if.then2", "if.else2", "if.merge2"] ∧
      done.function.IntactFlow := by
  have hlabels : (lowerFunction (.start "m" "main") nestedReturns).1.toOption.map
      (fun done => done.function.blocks.map Block.label) = some ["entry", "if.then", "if.else",
        "if.merge", "if.then1", "if.else1", "if.merge1", "if.then2", "if.else2", "if.merge2"] := by
    cbv
  obtain ⟨done, hok, hblocks⟩ := exists_ok_of_toOption hlabels
  exact ⟨done, hok, hblocks, lowered_intactFlow _ nestedReturns [] [] [] done (.inl hok)⟩

end WordScheme
