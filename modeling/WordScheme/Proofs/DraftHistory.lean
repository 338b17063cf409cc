import Mathlib
import WordScheme.Proofs.Availability
import WordScheme.Proofs.DraftRuns

/-!
# The history of a draft

What two points of a run have to do with each other, whatever operations lie between them and in
whatever order blocks are entered. Blocks keep their numbers and labels; they grow at their ends,
and not at all once they have their terminator; an operation that is refused changes nothing. Blocks
and registers are numbered by counters that never go back (`given_eq_range'`), also where an
instruction is dropped behind a terminator.

`FunctionDraft.Grows` compares the registers defined between the two points with the counters at
both: they are new at the first, in ascending order within each block, and none is defined in two
blocks. Since a draft starts without statements, this says of a whole run that no register is
defined twice. `appendOnly_run` is the result.
-/

namespace WordScheme

namespace FunctionDraft

variable {d e f : FunctionDraft}

/-! ### What operations give -/

/-- The number of the block that an operation adds. -/
def blockGiven? (d : FunctionDraft) : Operation → Option Nat
  | .addBlock base => some (d.addBlock base).1.index
  | _ => none

/-- The register that an operation gives out, by itself or for the result of an instruction. -/
def registerGiven? (d : FunctionDraft) : Operation → Option Nat
  | .freshRegister => some d.freshRegister.1
  | .emit i =>
    match (d.emit i).1 with
    | .register number _ => some number
    | _ => none
  | _ => none

/-- What the operations of a run give, of one kind, in order. -/
def given {α : Type} (d : FunctionDraft) (answer : FunctionDraft → Operation → Option α) :
    List Operation → List α
  | [] => []
  | op :: ops => (answer d op).toList ++ (d.perform op).given answer ops

/-- An operation that is refused leaves the draft as it was. That is a second terminator, or an
entry into a block that there is not. -/
private theorem of_attempt_error {op : Operation} {error : CompileError} {left : FunctionDraft}
    (h : d.attempt op = .error error left) : left = d ∧ d.perform op = left ∧
      ((∃ label, error = .secondTerminator label) ∨ ∃ index, error = .unknownBlock index) := by
  have hperform : d.perform op = left := by rw [perform, h]
  cases op with
  | moveTo index =>
    obtain ⟨hleft, herror⟩ := of_moveTo_error h
    exact ⟨hleft, hperform, .inr ⟨index, herror⟩⟩
  | terminate t =>
    obtain ⟨hleft, herror⟩ := of_terminate_error h
    exact ⟨hleft, hperform, .inl ⟨_, herror⟩⟩
  | _ => cases h

/-- Behind a terminator an instruction leaves nothing but the number of its register. -/
private theorem perform_emit_of_terminated (h : d.terminated = true) (i : Instruction) :
    d.perform (.emit i) = d.perform .freshRegister :=
  append_of_terminated (d := d.freshRegister.2) h _

private theorem run_append (d : FunctionDraft) (before after : List Operation) :
    d.run (before ++ after) = (d.run before).run after :=
  List.foldl_append

/-- **What a counter gives in a run** is an interval of numbers, in order. -/
theorem given_eq_range' (count : FunctionDraft → Nat) (first : Nat)
    {answer : FunctionDraft → Operation → Option Nat}
    (hstep : ∀ d op, answer d op = none ∧ count (d.perform op) = count d ∨
      answer d op = some (count d + first) ∧ count (d.perform op) = count d + 1)
    (d : FunctionDraft) (ops : List Operation) :
    ∃ n, d.given answer ops = List.range' (count d + first) n ∧
      count (d.run ops) = count d + n := by
  induction ops generalizing d with
  | nil => exact ⟨0, rfl, rfl⟩
  | cons op ops ih =>
    obtain ⟨n, hgiven, hcount⟩ := ih (d.perform op)
    change count (d.run (op :: ops)) = _ at hcount
    rcases hstep d op with ⟨hnone, hsame⟩ | ⟨hsome, hnext⟩
    · refine ⟨n, ?_, hsame ▸ hcount⟩
      rw [given, hnone, hgiven, hsame]
      rfl
    · refine ⟨n + 1, ?_, ?_⟩
      · rw [given, hsome, hgiven, hnext, List.range'_succ, Nat.add_right_comm]
        rfl
      · rw [hcount, hnext, Nat.add_assoc, Nat.add_comm 1]

/-- Blocks are numbered one after the other. -/
private theorem blocks_given (d : FunctionDraft) (ops : List Operation) :
    ∃ n, d.given blockGiven? ops = List.range' d.blocks.size n ∧
      (d.run ops).blocks.size = d.blocks.size + n := by
  refine given_eq_range' (fun d => d.blocks.size) 0 (fun d op => ?_) d ops
  -- there is one more block for each label
  have hsize : (d.perform op).blocks.size = d.blocks.size + (d.labelGiven? op).toList.length := by
    have hlength := congrArg List.length (d.adds_perform op).labels
    rwa [List.length_append, List.length_map, List.length_map] at hlength
  cases op with
  | addBlock base => exact .inr ⟨rfl, hsize⟩
  | _ => exact .inl ⟨rfl, hsize⟩

/-- Registers are numbered one after the other, those of dropped instructions included. -/
private theorem registers_given (d : FunctionDraft) (ops : List Operation) :
    ∃ n, d.given registerGiven? ops = List.range' (d.registers + 1) n ∧
      (d.run ops).registers = d.registers + n := by
  refine given_eq_range' FunctionDraft.registers 1 (fun d op => ?_) d ops
  cases op with
  | freshRegister => exact .inr ⟨rfl, rfl⟩
  | emit i => exact .inr ⟨rfl, emit_registers d i⟩
  | moveTo index =>
    refine .inl ⟨rfl, ?_⟩
    rw [perform_moveTo]
    split <;> rfl
  | emitEffect i => exact .inl ⟨rfl, append_registers _ _⟩
  | terminate t =>
    refine .inl ⟨rfl, ?_⟩
    rw [perform_terminate]
    split <;> rfl
  | _ => exact .inl ⟨rfl, rfl⟩

/-! ### Statements added between two points -/

/-- The statements of the block at an index; there are none where there is no block. -/
def statementsAt (d : FunctionDraft) (index : Nat) : List Statement :=
  ((d.block? index).map BlockDraft.statements).getD []

/-- The statements that a later draft has more in the block at an index. -/
def added (d e : FunctionDraft) (index : Nat) : List Statement :=
  (e.statementsAt index).drop (d.statementsAt index).length

/-- The statements at the index of a block are its own. -/
private theorem statementsAt_of_block? {i : Nat} {b : BlockDraft} (h : d.block? i = some b) :
    d.statementsAt i = b.statements := by
  rw [statementsAt, h]
  rfl

/-- An update of the current block changes the statements at the current index alone. -/
private theorem statementsAt_updateCurrent (d : FunctionDraft) (g : BlockDraft → BlockDraft)
    (i : Nat) : (d.updateCurrent g).statementsAt i =
      if i = d.current then (g d.currentBlock).statements else d.statementsAt i := by
  rw [statementsAt, block?_updateCurrent]
  split
  · rfl
  · rfl

/-- A new block changes no statements. -/
private theorem statementsAt_addBlock (d : FunctionDraft) (base : Name) (i : Nat) :
    (d.addBlock base).2.statementsAt i = d.statementsAt i := by
  rw [statementsAt, block?_addBlock]
  split
  · next hi =>
    have hnone : d.block? i = none := List.getElem?_eq_none (Nat.le_of_eq hi.symm)
    rw [statementsAt, hnone]
    rfl
  · rfl

/-- Statements only grow. -/
private theorem Extends.statementsAt_mono (h : d.Extends e) (i : Nat) :
    d.statementsAt i <+: e.statementsAt i := by
  cases hb : d.block? i with
  | none =>
    rw [statementsAt, hb]
    exact List.nil_prefix
  | some b =>
    obtain ⟨c, hc, -, hpre, -⟩ := h i b hb
    rwa [statementsAt_of_block? hb, statementsAt_of_block? hc]

private theorem added_eq_nil {i : Nat} (h : e.statementsAt i = d.statementsAt i) :
    d.added e i = [] := by
  rw [added, h, List.drop_length]

/-- What two runs add to a block comes one after the other. -/
private theorem added_trans (h : d.Extends e) (h' : e.Extends f) (i : Nat) :
    d.added f i = d.added e i ++ e.added f i := by
  obtain ⟨xs, hxs⟩ := h.statementsAt_mono i
  obtain ⟨ys, hys⟩ := h'.statementsAt_mono i
  rw [added, added, added, ← hys, ← hxs, List.append_assoc]
  simp

/-- From one point of a run to a later one, blocks are only extended, and the registers defined in
the meantime were given out in the meantime, each to one statement and in ascending order. -/
structure Grows (d e : FunctionDraft) : Prop where
  blocks : d.Extends e
  registers : d.registers ≤ e.registers
  above : ∀ {i r}, r ∈ destinations (d.added e i) → d.registers < r ∧ r ≤ e.registers
  ascending : ∀ i, (destinations (d.added e i)).Pairwise (· < ·)
  apart : ∀ {i j r}, r ∈ destinations (d.added e i) → r ∈ destinations (d.added e j) → i = j

/-- No statement is added. -/
private theorem Grows.of_statementsAt (hblocks : d.Extends e)
    (hregisters : d.registers ≤ e.registers)
    (h : ∀ i, e.statementsAt i = d.statementsAt i) : d.Grows e where
  blocks := hblocks
  registers := hregisters
  above := by
    intro i r hr
    rw [added_eq_nil (h i)] at hr
    cases hr
  ascending := by
    intro i
    rw [added_eq_nil (h i)]
    exact .nil
  apart := by
    intro i j r hr
    rw [added_eq_nil (h i)] at hr
    cases hr

private theorem Grows.refl (d : FunctionDraft) : d.Grows d :=
  .of_statementsAt (.refl d) (le_refl _) fun _ => rfl

private theorem Grows.trans (h : d.Grows e) (h' : e.Grows f) : d.Grows f := by
  have hadded := added_trans h.blocks h'.blocks
  have hmem : ∀ {i r}, r ∈ destinations (d.added f i) ↔
      r ∈ destinations (d.added e i) ∨ r ∈ destinations (e.added f i) := by
    intro i r
    rw [hadded, destinations_append, List.mem_append]
  have hle := h.registers
  have hle' := h'.registers
  refine ⟨h.blocks.trans h'.blocks, hle.trans hle', ?_, fun i => ?_, ?_⟩
  · intro i r hr
    rcases hmem.mp hr with hr | hr
    · have := h.above hr
      omega
    · have := h'.above hr
      omega
  · rw [hadded, destinations_append, List.pairwise_append]
    refine ⟨h.ascending i, h'.ascending i, fun r hr r' hr' => ?_⟩
    exact Nat.lt_of_le_of_lt (h.above hr).2 (h'.above hr').1
  · -- a register is above the middle counter or not, so both statements come from the same part
    intro i j r hr hr'
    rcases hmem.mp hr with hr | hr <;> rcases hmem.mp hr' with hr' | hr'
    · exact h.apart hr hr'
    · exact absurd (h.above hr).2 (Nat.not_le.mpr (h'.above hr').1)
    · exact absurd (h.above hr').2 (Nat.not_le.mpr (h'.above hr).1)
    · exact h'.apart hr hr'

/-- A statement is put at the end of the current block, or dropped, while registers are given out up
to number `n`; what it defines is one of these. -/
private theorem grows_append (d : FunctionDraft) {n : Nat} (hn : d.registers ≤ n) {s : Statement}
    (hs : ∀ r, s.dest = some r → d.registers < r ∧ r ≤ n) :
    d.Grows (append { d with registers := n } s) := by
  have hblocks : d.Extends (append { d with registers := n } s) :=
    extends_append { d with registers := n } s
  have hregisters : (append { d with registers := n } s).registers = n := append_registers _ _
  by_cases hended : d.terminated = true
  · have hdropped : append { d with registers := n } s = { d with registers := n } :=
      append_of_terminated (d := { d with registers := n }) hended s
    rw [hdropped]
    exact .of_statementsAt (.refl d) hn fun _ => rfl
  · have happend : append { d with registers := n } s = _ :=
      append_of_live (Bool.not_eq_true _ ▸ hended) s
    have hadded : ∀ i, d.added (append { d with registers := n } s) i =
        if i = d.current then [s] else [] := by
      intro i
      rw [added, happend, statementsAt_updateCurrent]
      change List.drop _ (if i = d.current then d.currentBlock.statements ++ [s]
        else d.statementsAt i) = _
      split
      · next hi => rw [hi, statementsAt_of_block? (block?_current d), List.drop_left]
      · exact List.drop_length
    have hmem : ∀ {i r}, r ∈ destinations (d.added (append { d with registers := n } s) i) →
        i = d.current ∧ s.dest = some r := by
      intro i r hr
      rw [hadded] at hr
      split at hr
      · next hi => exact ⟨hi, mem_destinations_singleton.mp hr⟩
      · cases hr
    refine ⟨hblocks, ?_, fun hr => ?_, fun i => ?_, ?_⟩
    · rwa [hregisters]
    · rw [hregisters]
      exact hs _ (hmem hr).2
    · rw [hadded]
      split
      · cases hd : s.dest <;> simp [destinations, hd]
      · exact .nil
    · intro i j r hr hr'
      rw [(hmem hr).1, (hmem hr').1]

/-- **What one operation does** to the blocks and registers. -/
theorem grows_perform (d : FunctionDraft) (op : Operation) : d.Grows (d.perform op) := by
  cases op with
  | addBlock base =>
    exact .of_statementsAt (extends_addBlock d base) (le_refl _) (statementsAt_addBlock d base)
  | moveTo index =>
    rw [perform_moveTo]
    split
    · exact .of_statementsAt (.refl d) (le_refl _) fun _ => rfl
    · exact .refl d
  | freshRegister => exact .of_statementsAt (.refl d) (Nat.le_succ _) fun _ => rfl
  | emit i =>
    refine d.grows_append (Nat.le_succ _) fun r hr => ?_
    cases hr
    exact ⟨Nat.lt_succ_self _, le_refl _⟩
  | emitEffect i =>
    refine d.grows_append (le_refl _) fun r hr => ?_
    cases hr
  | terminate t =>
    rw [perform_terminate]
    split
    · exact .refl d
    · next hopen =>
      have hlive : d.terminated = false := Bool.not_eq_true _ ▸ hopen
      refine .of_statementsAt (extends_endWith hlive t) (le_refl _) fun i => ?_
      rw [endWith, statementsAt_updateCurrent]
      split
      · next hi => rw [hi, statementsAt_of_block? (block?_current d)]
      · rfl
  | enqueue p => exact .of_statementsAt (.refl d) (le_refl _) fun _ => rfl
  | onScope g => exact .of_statementsAt (.refl d) (le_refl _) fun _ => rfl

/-- **What a run does** to the blocks and registers. -/
theorem grows_run (d : FunctionDraft) (ops : List Operation) : d.Grows (d.run ops) := by
  induction ops generalizing d with
  | nil => exact .refl d
  | cons op ops ih => exact (d.grows_perform op).trans (ih (d.perform op))

/-! ### Whole runs -/

/-- A reference to a block stays valid. -/
private theorem Extends.ref?_eq (h : d.Extends e) {i : Nat} (hi : i < d.blocks.size) :
    e.ref? i = d.ref? i := by
  have hb : d.block? i = some _ := List.getElem?_eq_getElem hi
  obtain ⟨c, hc, hlabel, -⟩ := h i _ hb
  change (e.block? i).map _ = (d.block? i).map _
  rw [hb, hc, Option.map_some, Option.map_some, hlabel]

/-- Since a draft starts without statements, all statements of a run have been added in it. -/
private theorem added_start (name : Name) (params : List Name) (globals : Globals) {b : BlockDraft}
    {i : Nat} (h : e.block? i = some b) : (start name params globals).added e i = b.statements := by
  have hnone : (start name params globals).statementsAt i = [] := by
    cases i with
    | zero => rfl
    | succ i => rfl
  rw [added, hnone, statementsAt_of_block? h]
  rfl

/-- No run defines a register twice, and within each block the registers ascend. -/
private theorem destinations_run (name : Name) (params : List Name) (globals : Globals)
    (ops : List Operation) :
    let e := (start name params globals).run ops
    (e.blocks.rows.flatMap fun b => destinations b.statements).Nodup ∧
      ∀ b ∈ e.blocks.rows, (destinations b.statements).Pairwise (· < ·) := by
  intro e
  have hgrows : (start name params globals).Grows e := grows_run _ ops
  have hadded : ∀ {i b}, e.block? i = some b →
      (start name params globals).added e i = b.statements :=
    fun hb => added_start name params globals hb
  have hascending : ∀ b ∈ e.blocks.rows, (destinations b.statements).Pairwise (· < ·) := by
    intro b hb
    obtain ⟨i, hi⟩ := List.mem_iff_getElem?.mp hb
    exact hadded hi ▸ hgrows.ascending i
  refine ⟨List.nodup_flatMap.mpr ⟨fun b hb => (hascending b hb).imp Nat.ne_of_lt, ?_⟩, hascending⟩
  refine List.pairwise_iff_getElem.mpr fun i j hi hj hij r hr hr' => ?_
  dsimp only at hr hr'
  rw [← hadded (List.getElem?_eq_getElem hi)] at hr
  rw [← hadded (List.getElem?_eq_getElem hj)] at hr'
  exact Nat.ne_of_lt hij (hgrows.apart hr hr')

/-- **Drafts are only appended to.** Let `d` be a draft at some point of a run and `e` the draft at
a later point. Blocks have been numbered one after the other from zero on, and keep their labels;
a block of `d` has at most gained statements at its end, and nothing has changed in it if it had its
terminator. An operation that `d` refuses leaves all of it as it is, and an instruction behind a
terminator leaves nothing but the number of its register. Registers have been numbered one after the
other from one on. Those that statements define which came in after `d` were given out after `d`,
above all earlier ones; so no register is defined twice, and within each block the registers
ascend. -/
theorem appendOnly_run (name : Name) (params : List Name) (globals : Globals)
    (before after : List Operation) :
    let s := start name params globals
    let d := s.run before
    let e := d.run after
    (0 :: s.given blockGiven? before = List.range d.blocks.size ∧
      ∀ i < d.blocks.size, e.ref? i = d.ref? i) ∧
    d.Extends e ∧
    (∀ op error left, d.attempt op = .error error left → left = d ∧ d.perform op = left ∧
      ((∃ label, error = .secondTerminator label) ∨ ∃ index, error = .unknownBlock index)) ∧
    (d.terminated = true → ∀ i, d.perform (.emit i) = d.perform .freshRegister) ∧
    s.given registerGiven? before = List.range' 1 d.registers ∧
    (∀ i, ∀ r ∈ destinations (d.added e i), r ∈ d.given registerGiven? after ∧
      ∀ n ∈ s.given registerGiven? before, n < r) ∧
    (e.blocks.rows.flatMap fun b => destinations b.statements).Nodup ∧
    ∀ b ∈ e.blocks.rows, (destinations b.statements).Pairwise (· < ·) := by
  intro s d e
  have hgrows : d.Grows e := d.grows_run after
  obtain ⟨n, hblocks, hsize⟩ := blocks_given s before
  obtain ⟨m, hregisters, hcount⟩ := registers_given s before
  obtain ⟨k, hlater, hcount'⟩ := registers_given d after
  have hissued : s.given registerGiven? before = List.range' 1 d.registers := by
    rw [hregisters, show d.registers = 0 + m from hcount, Nat.zero_add]
    rfl
  have hwhole : e = s.run (before ++ after) := (run_append s before after).symm
  refine ⟨⟨?_, fun i => hgrows.blocks.ref?_eq⟩, hgrows.blocks,
    fun op error left => of_attempt_error, fun h i => perform_emit_of_terminated h i, hissued,
    fun i r hr => ⟨?_, fun j hj => ?_⟩, ?_⟩
  · rw [hblocks, show d.blocks.size = 1 + n from hsize, Nat.add_comm 1, List.range_eq_range',
      List.range'_succ]
    rfl
  · have habove := hgrows.above hr
    have hend : e.registers = d.registers + k := hcount'
    rw [hlater, List.mem_range'_1]
    omega
  · have habove := hgrows.above hr
    rw [hissued, List.mem_range'_1] at hj
    omega
  · rw [hwhole]
    exact destinations_run name params globals (before ++ after)

end FunctionDraft

end WordScheme
