import Mathlib
import WordScheme.Proofs.Reachability

/-!
# Runs of operations on a draft

`FunctionDraft.run` performs a list of operations on a draft, in any order and with any names and
indices; after an operation that is refused it goes on with the draft which that one leaves
(`FunctionDraft.attempt`). What a run leaves is put to the check
of `FunctionDraft.finish`, which is compared here with the control-flow graph itself. The graph is
described by `Resolves`, `Edge` and `Reachable`, without the search: a label stands for the last
created block that carries it, and a label that no block carries stands for none. `finish_run` is
the result.
-/

namespace WordScheme

namespace FunctionDraft

/-- What can be done to a draft. -/
inductive Operation where
  | addBlock (base : Name)
  | moveTo (index : Nat)
  | freshRegister
  | emit (i : Instruction)
  | emitEffect (i : Instruction)
  | terminate (t : Terminator)
  | enqueue (p : PendingFunction)
  | onScope (f : Scope → Scope)

/-- What an operation comes to: whether it is refused, and the draft that it leaves in either
case. -/
def attempt (d : FunctionDraft) : Operation → EStateM.Result CompileError FunctionDraft Unit
  | .addBlock base => .ok () (d.addBlock base).2
  | .moveTo index => d.moveTo index
  | .freshRegister => .ok () d.freshRegister.2
  | .emit i => .ok () (d.emit i).2
  | .emitEffect i => .ok () (d.emitEffect i)
  | .terminate t => d.terminate t
  | .enqueue p => .ok () (d.enqueue p)
  | .onScope f => .ok () { d with scope := f d.scope }

/-- The draft that an operation leaves, refused or not. -/
def perform (d : FunctionDraft) (op : Operation) : FunctionDraft :=
  match d.attempt op with
  | .ok _ left => left
  | .error _ left => left

/-- The draft after a list of operations. -/
def run (d : FunctionDraft) (ops : List Operation) : FunctionDraft :=
  ops.foldl perform d

/-- The label that an operation gives out. -/
def labelGiven? (d : FunctionDraft) : Operation → Option Name
  | .addBlock base => some (d.addBlock base).1.label
  | _ => none

/-- The labels given out in the course of a run. -/
def labelsGiven (d : FunctionDraft) : List Operation → List Name
  | [] => []
  | op :: ops => (d.labelGiven? op).toList ++ (d.perform op).labelsGiven ops

/-- The function that an operation notes. -/
def Operation.noted? : Operation → Option PendingFunction
  | .enqueue p => some p
  | _ => none

variable {d : FunctionDraft}

/-- A move to a block that is not there changes nothing. -/
theorem perform_moveTo (d : FunctionDraft) (index : Nat) : d.perform (.moveTo index) =
    if h : index < d.blocks.size then d.goTo index h else d := by
  by_cases h : index < d.blocks.size
  · rw [perform, attempt, moveTo_of_lt h, dif_pos h]
  · rw [perform, attempt, moveTo, dif_neg h, dif_neg h]

/-- A second terminator changes nothing. -/
theorem perform_terminate (d : FunctionDraft) (t : Terminator) : d.perform (.terminate t) =
    if d.terminated then d else d.endWith t := by
  cases h : d.terminated with
  | true => rw [perform, attempt, terminate, h, if_pos rfl, if_pos rfl]
  | false => rw [perform, attempt, terminate_of_live h, if_neg Bool.false_ne_true]

/-! ### What a run keeps and adds -/

/-- A later draft has the blocks of an earlier one and, behind them, blocks with these labels; and
likewise for the functions noted. -/
structure Adds (d : FunctionDraft) (labels : List Name) (noted : List PendingFunction)
    (e : FunctionDraft) : Prop where
  name : e.name = d.name
  params : e.params = d.params
  labels : e.blocks.rows.map BlockDraft.label = d.blocks.rows.map BlockDraft.label ++ labels
  pending : e.pending = d.pending ++ noted

/-- Nothing is added where name, parameters, blocks and noted functions stay. -/
private theorem Adds.nothing {d e : FunctionDraft} (hname : e.name = d.name)
    (hparams : e.params = d.params)
    (hblocks : e.blocks = d.blocks) (hpending : e.pending = d.pending) : d.Adds [] [] e where
  name := hname
  params := hparams
  labels := by rw [hblocks, List.append_nil]
  pending := by rw [hpending, List.append_nil]

private theorem Adds.refl (d : FunctionDraft) : d.Adds [] [] d :=
  .nothing rfl rfl rfl rfl

/-- What two runs add comes one after the other. -/
private theorem Adds.trans {d e f : FunctionDraft} {ls ls' : List Name}
    {ps ps' : List PendingFunction}
    (h : d.Adds ls ps e) (h' : e.Adds ls' ps' f) : d.Adds (ls ++ ls') (ps ++ ps') f where
  name := h'.name.trans h.name
  params := h'.params.trans h.params
  labels := by rw [h'.labels, h.labels, List.append_assoc]
  pending := by rw [h'.pending, h.pending, List.append_assoc]

/-- An update that keeps the label adds nothing. -/
private theorem adds_updateCurrent (d : FunctionDraft) {f : BlockDraft → BlockDraft}
    (hf : ∀ b, (f b).label = b.label) : d.Adds [] [] (d.updateCurrent f) := by
  refine ⟨rfl, rfl, ?_, (List.append_nil _).symm⟩
  rw [List.append_nil]
  refine List.ext_getElem? fun i => ?_
  change ((d.blocks.rows.modify d.current f).map _)[i]? = _
  rw [List.getElem?_map, List.getElem?_map, List.getElem?_modify]
  have hlabel : ∀ b, (if d.current = i then f b else b).label = b.label := by
    intro b
    split
    · exact hf b
    · rfl
  cases d.blocks.rows[i]? with
  | none => rfl
  | some b => exact congrArg some (hlabel b)

/-- A statement adds no block. -/
private theorem adds_append (d : FunctionDraft) (s : Statement) : d.Adds [] [] (d.append s) := by
  rw [append]
  split
  · exact .refl d
  · exact adds_updateCurrent d fun _ => rfl

/-- What one operation adds. -/
theorem adds_perform (d : FunctionDraft) (op : Operation) :
    d.Adds (d.labelGiven? op).toList op.noted?.toList (d.perform op) := by
  cases op with
  | addBlock base => exact ⟨rfl, rfl, List.map_append, (List.append_nil _).symm⟩
  | moveTo index =>
    rw [perform_moveTo]
    split <;> exact .nothing rfl rfl rfl rfl
  | freshRegister => exact .nothing rfl rfl rfl rfl
  | emit i =>
    have hregister : d.Adds [] [] d.freshRegister.2 := .nothing rfl rfl rfl rfl
    exact hregister.trans (adds_append _ _)
  | emitEffect i => exact adds_append d _
  | terminate t =>
    rw [perform_terminate]
    split
    · exact .refl d
    · exact adds_updateCurrent d fun _ => rfl
  | enqueue p => exact ⟨rfl, rfl, (List.append_nil _).symm, rfl⟩
  | onScope f => exact .nothing rfl rfl rfl rfl

/-- What a run adds: a block for each label given out, and the functions noted, in order. -/
theorem adds_run (d : FunctionDraft) (ops : List Operation) :
    d.Adds (d.labelsGiven ops) (ops.filterMap Operation.noted?) (d.run ops) := by
  induction ops generalizing d with
  | nil => exact .refl d
  | cons op ops ih =>
    have hrun := (d.adds_perform op).trans (ih (d.perform op))
    have hnoted : (op :: ops).filterMap Operation.noted? =
        op.noted?.toList ++ ops.filterMap Operation.noted? := by
      cases h : op.noted? <;> simp [h]
    rw [hnoted]
    exact hrun

/-! ### The control-flow graph -/

/-- A label stands for the last created block that carries it. -/
def Resolves (d : FunctionDraft) (label : Name) (j : Nat) : Prop :=
  (∃ b, d.block? j = some b ∧ b.label = label) ∧
    ∀ k c, d.block? k = some c → c.label = label → k ≤ j

/-- Some branch of a block leads to another. -/
def Edge (d : FunctionDraft) (i j : Nat) : Prop :=
  ∃ b t label, d.block? i = some b ∧ b.terminator = some t ∧ label ∈ t.successors ∧
    d.Resolves label j

/-- Control can get to a block from the first one. -/
def Reachable (d : FunctionDraft) (i : Nat) : Prop :=
  Relation.ReflTransGen d.Edge 0 i

/-- No block behind the one that `lastLabelled?` finds carries the label. -/
private theorem le_of_lastLabelled? {label : Name} {bs : List BlockDraft} {j : Nat}
    (h : lastLabelled? label bs = some j) {k : Nat} {c : BlockDraft} (hc : bs[k]? = some c)
    (hlabel : c.label = label) : k ≤ j := by
  induction bs generalizing j k with
  | nil => cases h
  | cons b bs ih =>
    cases k with
    | zero => exact Nat.zero_le j
    | succ k =>
      rw [List.getElem?_cons_succ] at hc
      obtain ⟨m, hm⟩ := exists_lastLabelled? (List.mem_of_getElem? hc) hlabel
      rw [lastLabelled?, hm] at h
      cases h
      exact Nat.succ_le_succ (ih hm hc)

/-- A label is resolved to the last block that carries it. -/
private theorem lastLabelled?_eq_some_iff {label : Name} {j : Nat} :
    lastLabelled? label d.blocks.rows = some j ↔ d.Resolves label j := by
  constructor
  · intro h
    exact ⟨label_of_lastLabelled? h, fun k c hc hlabel => le_of_lastLabelled? h hc hlabel⟩
  · rintro ⟨⟨b, hb, hlabel⟩, hlast⟩
    obtain ⟨m, hm⟩ := exists_lastLabelled? (List.mem_of_getElem? hb) hlabel
    obtain ⟨c, hc, hc'⟩ := label_of_lastLabelled? hm
    have hle : j ≤ m := le_of_lastLabelled? hm hb hlabel
    rw [hm, Nat.le_antisymm (hlast m c hc hc') hle]

/-- The successors of a block are where its edges lead. -/
private theorem mem_successors_iff {i j : Nat} : j ∈ d.successors i ↔ d.Edge i j := by
  have hget : ∀ t, (d.blocks.get? i).bind BlockDraft.terminator = some t ↔
      ∃ b, d.block? i = some b ∧ b.terminator = some t := fun t => Option.bind_eq_some_iff
  constructor
  · intro h
    rw [successors] at h
    split at h
    · next t ht =>
      obtain ⟨label, hmem, hj⟩ := List.mem_filterMap.mp h
      obtain ⟨b, hb, hbt⟩ := (hget t).mp ht
      exact ⟨b, t, label, hb, hbt, hmem, lastLabelled?_eq_some_iff.mp hj⟩
    · cases h
  · rintro ⟨b, t, label, hb, hbt, hmem, hj⟩
    rw [successors, (hget t).mpr ⟨b, hb, hbt⟩]
    exact List.mem_filterMap.mpr ⟨label, hmem, lastLabelled?_eq_some_iff.mpr hj⟩

/-- **The search finds exactly the blocks that control can get to.** -/
theorem mem_reachable_iff {i : Nat} : i ∈ d.reachable ↔ d.Reachable i := by
  constructor
  · intro hi
    refine d.searches_reachable.forall_found (P := d.Reachable) ?_ ?_ ?_ i hi
    · intro j hj k hk
      exact hj.tail (mem_successors_iff.mp hk)
    · intro j hj
      cases hj
    · intro j hj
      rw [List.mem_singleton.mp hj]
      exact .refl
  · intro hi
    obtain ⟨hzero, hclosed⟩ := d.reachable_closed
    induction hi with
    | refl => exact hzero
    | tail _ hedge ih => exact hclosed _ ih (mem_successors_iff.mpr hedge)

/-! ### The check at the end -/

/-- The first block of a draft, in the order of creation, for which a condition holds. -/
structure First (d : FunctionDraft) (P : Nat → BlockDraft → Prop) (i : Nat) (b : BlockDraft) :
    Prop where
  block : d.block? i = some b
  holds : P i b
  least : ∀ j c, j < i → d.block? j = some c → ¬ P j c

/-- Where there is a block of a kind there is a first one. -/
private theorem exists_first {P : Nat → BlockDraft → Prop}
    (h : ∃ i b, d.block? i = some b ∧ P i b) : ∃ i b, d.First P i b := by
  classical
  obtain ⟨b, hb, hP⟩ := Nat.find_spec h
  refine ⟨Nat.find h, b, hb, hP, fun j c hj hc hPc => ?_⟩
  exact Nat.find_min h hj ⟨c, hc, hPc⟩

/-- A block without a terminator. -/
def Unended (_ : Nat) (b : BlockDraft) : Prop :=
  b.terminator = none

/-- A block that control cannot get to and that is not marked as unreachable. -/
def Stray (d : FunctionDraft) (i : Nat) (b : BlockDraft) : Prop :=
  ¬ d.Reachable i ∧ b.terminator ≠ some .unreachable

/-- The blocks before and behind a block. -/
private theorem rows_eq_of_block? {i : Nat} {b : BlockDraft} (h : d.block? i = some b) :
    d.blocks.rows = d.blocks.rows.take i ++ b :: d.blocks.rows.drop (i + 1) := by
  obtain ⟨hlt, rfl⟩ := List.getElem?_eq_some_iff.mp h
  rw [List.cons_getElem_drop_succ, List.take_append_drop]

private theorem exists_of_mem_take {α : Type} {xs : List α} {n : Nat} {x : α} (h : x ∈ xs.take n) :
    ∃ j < n, xs[j]? = some x := by
  obtain ⟨j, hj⟩ := List.mem_iff_getElem?.mp h
  rw [List.getElem?_take] at hj
  split at hj
  · next hlt => exact ⟨j, hlt, hj⟩
  · cases hj

/-- The first block without a terminator is the one that is named. -/
private theorem mapM_finish_of_first {i : Nat} {b : BlockDraft} (h : d.First Unended i b) :
    d.blocks.rows.mapM BlockDraft.finish = .error (.missingTerminator b.label) := by
  rw [rows_eq_of_block? h.block]
  have hbefore : ∀ c ∈ d.blocks.rows.take i, ∃ t, c.terminator = some t := by
    intro c hc
    obtain ⟨j, hlt, hj⟩ := exists_of_mem_take hc
    exact Option.ne_none_iff_exists'.mp (h.least j c hlt hj)
  obtain ⟨blocks, hblocks, -⟩ := BlockDraft.mapM_finish hbefore
  have hb : b.finish = .error (.missingTerminator b.label) := by
    rw [BlockDraft.finish, show b.terminator = none from h.holds]
  rw [List.mapM_append, hblocks, List.mapM_cons, hb]
  rfl

private theorem beq_unreachable_iff {t : Option Terminator} :
    (t == some Terminator.unreachable) = true ↔ t = some .unreachable := by
  constructor
  · intro h
    cases t with
    | none => cases h
    | some t =>
      cases t with
      | unreachable => rfl
      | _ => cases h
  · rintro rfl
    rfl

/-- What the check for blocks out of reach says of one block. -/
private theorem stray_iff {i : Nat} {b : BlockDraft} :
    (d.reachable.contains i || b.terminator == some .unreachable) = false ↔ d.Stray i b := by
  rw [Bool.or_eq_false_iff, ← Bool.not_eq_true, ← Bool.not_eq_true, List.contains_iff_mem,
    mem_reachable_iff, beq_unreachable_iff]
  rfl

private theorem getElem?_entries (d : FunctionDraft) (i : Nat) :
    d.blocks.entries[i]? = (d.block? i).map fun b => (i, b) := by
  simp [Table.entries, block?, Table.get?, Function.comp_def]

/-- The first stray block is the one that is found. -/
private theorem stray?_of_first {i : Nat} {b : BlockDraft} (h : d.First d.Stray i b) :
    d.stray? = some b.label := by
  rw [stray?, List.findSome?_eq_some_iff]
  have hentry : d.blocks.entries[i]? = some (i, b) := by
    rw [getElem?_entries, h.block]
    rfl
  obtain ⟨hlt, hget⟩ := List.getElem?_eq_some_iff.mp hentry
  refine ⟨d.blocks.entries.take i, (i, b), d.blocks.entries.drop (i + 1), ?_, ?_, ?_⟩
  · rw [← hget, List.cons_getElem_drop_succ, List.take_append_drop]
  · simp only [stray_iff.mpr h.holds, Bool.false_eq_true, if_false]
  · intro entry hentry
    obtain ⟨j, hlt, hj⟩ := exists_of_mem_take hentry
    rw [getElem?_entries] at hj
    obtain ⟨c, hc, rfl⟩ := Option.map_eq_some_iff.mp hj
    have hstray := mt stray_iff.mp (h.least j c hlt hc)
    exact if_pos (Bool.not_eq_false _ ▸ hstray)

/-- Without a stray block none is found. -/
private theorem stray?_eq_none_of_forall (h : ∀ i b, d.block? i = some b → ¬ d.Stray i b) :
    d.stray? = none := by
  rw [stray?, List.findSome?_eq_none_iff]
  intro entry hentry
  obtain ⟨j, hj⟩ := List.mem_iff_getElem?.mp hentry
  rw [getElem?_entries] at hj
  obtain ⟨c, hc, rfl⟩ := Option.map_eq_some_iff.mp hj
  have hstray := mt stray_iff.mp (h j c hc)
  exact if_pos (Bool.not_eq_false _ ▸ hstray)

/-- A draft with a block that has not ended is refused. -/
private theorem finish_of_unended {i : Nat} {b : BlockDraft} (h : d.First Unended i b) :
    d.finish = .error (.missingTerminator b.label) := by
  rw [finish, mapM_finish_of_first h]
  rfl

/-- Once every block has its terminator, the blocks are kept and the rest is up to the search. -/
private theorem finish_of_ended (h : ∀ i b, d.block? i = some b → ¬ Unended i b) :
    ∃ blocks, blocks.map Block.toDraft = d.blocks.rows ∧
      (∀ label, d.stray? = some label → d.finish = .error (.unreachableBlock label)) ∧
      (d.stray? = none →
        d.finish = .ok ⟨⟨d.name, .word, wordParams d.params, blocks⟩, d.pending⟩) := by
  have hended : ∀ b ∈ d.blocks.rows, ∃ t, b.terminator = some t := by
    intro b hb
    obtain ⟨i, hi⟩ := List.mem_iff_getElem?.mp hb
    exact Option.ne_none_iff_exists'.mp (h i b hi)
  obtain ⟨blocks, hfinish, hrows⟩ := BlockDraft.mapM_finish hended
  refine ⟨blocks, hrows.symm, fun label hstray => ?_, fun hstray => ?_⟩ <;>
  · rw [finish, hfinish, hstray]
    rfl

/-- **The check at the end of every run.** A missing terminator is reported first, for the first
block that has none; then a block out of reach, for the first such block. Otherwise the draft is
accepted: the function has all blocks as they stand, in the order in which the operations created
them, and the functions noted come with it in order. The search for the blocks in reach ends. -/
theorem finish_run (name : Name) (params : List Name) (globals : Globals) (ops : List Operation) :
    let d := (start name params globals).run ops
    Searches d.successors [] [0] d.reachable ∧
    ((∃ i b, d.First Unended i b ∧ d.finish = .error (.missingTerminator b.label)) ∨
      (∀ i b, d.block? i = some b → ¬ Unended i b) ∧
      ((∃ i b, d.First d.Stray i b ∧ d.finish = .error (.unreachableBlock b.label)) ∨
        (∀ i b, d.block? i = some b → ¬ d.Stray i b) ∧
        ∃ blocks, d.finish = .ok ⟨⟨name, .word, wordParams params, blocks⟩,
            ops.filterMap Operation.noted?⟩ ∧
          blocks.map Block.toDraft = d.blocks.rows ∧
          blocks.map Block.label = "entry" :: (start name params globals).labelsGiven ops)) := by
  intro d
  refine ⟨d.searches_reachable, ?_⟩
  by_cases hunended : ∃ i b, d.block? i = some b ∧ Unended i b
  · obtain ⟨i, b, h⟩ := exists_first hunended
    exact .inl ⟨i, b, h, finish_of_unended h⟩
  · have hended : ∀ i b, d.block? i = some b → ¬ Unended i b :=
      fun i b hb h => hunended ⟨i, b, hb, h⟩
    obtain ⟨blocks, hrows, hrefused, haccepted⟩ := finish_of_ended hended
    refine .inr ⟨hended, ?_⟩
    by_cases hstray : ∃ i b, d.block? i = some b ∧ d.Stray i b
    · obtain ⟨i, b, h⟩ := exists_first hstray
      exact .inl ⟨i, b, h, hrefused _ (stray?_of_first h)⟩
    · have hreached : ∀ i b, d.block? i = some b → ¬ d.Stray i b :=
        fun i b hb h => hstray ⟨i, b, hb, h⟩
      have hadds : (start name params globals).Adds _ _ d := adds_run _ ops
      have hfinish := haccepted (stray?_eq_none_of_forall hreached)
      rw [hadds.name, hadds.params, hadds.pending] at hfinish
      refine .inr ⟨hreached, blocks, hfinish, hrows, ?_⟩
      -- a block has the label that it had in the draft
      have hlabels : blocks.map Block.label = d.blocks.rows.map BlockDraft.label := by
        rw [← hrows, List.map_map]
        rfl
      rw [hlabels, hadds.labels]
      rfl

end FunctionDraft

end WordScheme
