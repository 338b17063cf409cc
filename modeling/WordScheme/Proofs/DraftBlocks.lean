import Mathlib
import WordScheme.FunctionDraft

/-!
# The blocks of a draft under its operations

Every operation on a draft changes its blocks in one of three ways: it changes the current block, it
adds an empty block behind the others, or it leaves the blocks alone. This file says so once, in
terms of `FunctionDraft.block?`, and derives the two relations that later arguments are about:

* `FunctionDraft.Goes`: the edges of the control-flow graph, between labels. Only `endWith` adds
  edges.
* `FunctionDraft.Extends`: a later draft keeps every block of an earlier one in its place, adds
  statements only behind those that were there, and changes no block that has its terminator.
  `FunctionDraft.Later` adds that registers are only given out, and parameters and globals fixed.
-/

namespace WordScheme

namespace FunctionDraft

/-- The block at an index. -/
def block? (d : FunctionDraft) (index : Nat) : Option BlockDraft :=
  d.blocks.get? index

/-- The draft whose current block ends in a terminator. -/
def endWith (d : FunctionDraft) (t : Terminator) : FunctionDraft :=
  d.updateCurrent fun b => { b with terminator := some t }

/-- The draft that goes on in another of its blocks. -/
def goTo (d : FunctionDraft) (index : Nat) (h : index < d.blocks.size) : FunctionDraft :=
  { d with current := index, current_lt := h }

variable {d : FunctionDraft}

/-! ### Lookup -/

/-- Only the indices below the number of blocks have a block. -/
theorem block?_lt {i : Nat} {b : BlockDraft} (h : d.block? i = some b) : i < d.blocks.size :=
  (List.getElem?_eq_some_iff.mp h).1

@[simp]
theorem block?_current (d : FunctionDraft) : d.block? d.current = some d.currentBlock :=
  List.getElem?_eq_getElem d.current_lt

/-- The block at the current index is the current one. -/
theorem eq_currentBlock {b : BlockDraft} (h : d.block? d.current = some b) :
    b = d.currentBlock := by
  rw [block?_current] at h
  exact (Option.some.inj h).symm

/-- A draft is live exactly when its current block has no terminator yet. -/
theorem terminated_eq_false_iff : d.terminated = false ↔ d.currentBlock.terminator = none := by
  simp [terminated]

/-- An update of the current block changes the block at the current index alone. -/
theorem block?_updateCurrent (d : FunctionDraft) (f : BlockDraft → BlockDraft) (i : Nat) :
    (d.updateCurrent f).block? i =
      if i = d.current then some (f d.currentBlock) else d.block? i := by
  change (d.blocks.rows.modify d.current f)[i]? = _
  rw [List.getElem?_modify]
  split_ifs with hcur hi hi
  · subst hcur
    change some f <*> d.block? d.current = _
    rw [block?_current]
    rfl
  · exact absurd hcur.symm hi
  · exact absurd hi.symm hcur
  · change id <$> d.block? i = d.block? i
    exact id_map _

@[simp]
theorem currentBlock_updateCurrent (d : FunctionDraft) (f : BlockDraft → BlockDraft) :
    (d.updateCurrent f).currentBlock = f d.currentBlock := by
  refine (eq_currentBlock (d := d.updateCurrent f) ?_).symm
  rw [block?_updateCurrent]
  exact if_pos rfl

/-- A new block is empty and comes behind the others, which stay as they are. -/
theorem block?_addBlock (d : FunctionDraft) (base : Name) (i : Nat) :
    (d.addBlock base).2.block? i =
      if i = d.blocks.size then some ⟨(d.addBlock base).1.label, [], none⟩ else d.block? i := by
  change (d.blocks.rows ++ [_])[i]? = _
  rcases Nat.lt_trichotomy i d.blocks.size with hlt | rfl | hgt
  · rw [List.getElem?_append_left hlt, if_neg (by omega)]
    rfl
  · simp [Table.size]
    rfl
  · rw [if_neg (by omega), block?, Table.get?, List.getElem?_eq_none, List.getElem?_eq_none]
    · exact Nat.le_of_lt hgt
    · rw [List.length_append]
      exact hgt

@[simp]
theorem currentBlock_addBlock (d : FunctionDraft) (base : Name) :
    (d.addBlock base).2.currentBlock = d.currentBlock := by
  refine (eq_currentBlock (d := (d.addBlock base).2) ?_).symm
  rw [block?_addBlock, if_neg]
  · exact block?_current d
  · exact Nat.ne_of_lt d.current_lt

/-! ### Statements and terminators -/

/-- In a live draft a statement goes to the end of the current block. -/
theorem append_of_live (h : d.terminated = false) (s : Statement) :
    d.append s = d.updateCurrent fun b => { b with statements := b.statements ++ [s] } := by
  rw [append, h]
  rfl

/-- Behind a terminator a statement is dropped. -/
theorem append_of_terminated (h : d.terminated = true) (s : Statement) : d.append s = d := by
  rw [append, h]
  rfl

/-- A live draft takes a terminator. -/
theorem terminate_of_live (h : d.terminated = false) (t : Terminator) :
    d.terminate t = .ok () (d.endWith t) := by
  rw [terminate, h]
  rfl

/-- The current block can be any block there is. -/
theorem moveTo_of_lt {index : Nat} (h : index < d.blocks.size) :
    d.moveTo index = .ok () (d.goTo index h) :=
  dif_pos h

/-- A terminator is taken in a block that has none. -/
theorem of_terminate_ok {t : Terminator} {e : FunctionDraft} (h : d.terminate t = .ok () e) :
    d.terminated = false ∧ e = d.endWith t := by
  cases hlive : d.terminated with
  | true =>
    rw [terminate, hlive] at h
    cases h
  | false =>
    rw [terminate_of_live hlive] at h
    cases h
    exact ⟨rfl, rfl⟩

/-- A second terminator is refused, and leaves the draft as it was. -/
theorem of_terminate_error {t : Terminator} {error : CompileError} {e : FunctionDraft}
    (h : d.terminate t = .error error e) :
    e = d ∧ error = .secondTerminator d.currentBlock.label := by
  rw [terminate] at h
  split at h
  · cases h
    exact ⟨rfl, rfl⟩
  · cases h

/-- A block is entered if it is there. -/
theorem of_moveTo_ok {index : Nat} {e : FunctionDraft} (h : d.moveTo index = .ok () e) :
    ∃ hlt : index < d.blocks.size, e = d.goTo index hlt := by
  by_cases hlt : index < d.blocks.size
  · rw [moveTo_of_lt hlt] at h
    cases h
    exact ⟨hlt, rfl⟩
  · rw [moveTo, dif_neg hlt] at h
    cases h

/-- A block that is not there is not entered, and the draft is left as it was. -/
theorem of_moveTo_error {index : Nat} {error : CompileError} {e : FunctionDraft}
    (h : d.moveTo index = .error error e) : e = d ∧ error = .unknownBlock index := by
  rw [moveTo] at h
  split at h
  · cases h
  · cases h
    exact ⟨rfl, rfl⟩

/-- The block that a terminator was given to is terminated. -/
@[simp]
theorem terminated_endWith (d : FunctionDraft) (t : Terminator) :
    (d.endWith t).terminated = true := by
  simp [terminated, endWith]

@[simp]
theorem terminated_addBlock (d : FunctionDraft) (base : Name) :
    (d.addBlock base).2.terminated = d.terminated := by
  simp [terminated]

/-- A statement does not end the current block. -/
@[simp]
theorem terminated_append (d : FunctionDraft) (s : Statement) :
    (d.append s).terminated = d.terminated := by
  cases h : d.terminated with
  | true => rw [append_of_terminated h, h]
  | false =>
    rw [append_of_live h, terminated_eq_false_iff, currentBlock_updateCurrent]
    exact terminated_eq_false_iff.mp h

/-- An appended statement leaves everything but the blocks alone. -/
private theorem append_eq (d : FunctionDraft) (s : Statement) :
    ∃ blocks h, d.append s = { d with blocks := blocks, current_lt := h } := by
  rw [append]
  split
  · exact ⟨_, d.current_lt, rfl⟩
  · exact ⟨_, (d.updateCurrent _).current_lt, rfl⟩

@[simp]
theorem append_current (d : FunctionDraft) (s : Statement) : (d.append s).current = d.current := by
  obtain ⟨_, _, h⟩ := d.append_eq s
  rw [h]

@[simp]
theorem append_name (d : FunctionDraft) (s : Statement) : (d.append s).name = d.name := by
  obtain ⟨_, _, h⟩ := d.append_eq s
  rw [h]

@[simp]
theorem append_pending (d : FunctionDraft) (s : Statement) : (d.append s).pending = d.pending := by
  obtain ⟨_, _, h⟩ := d.append_eq s
  rw [h]

@[simp]
theorem append_params (d : FunctionDraft) (s : Statement) : (d.append s).params = d.params := by
  obtain ⟨_, _, h⟩ := d.append_eq s
  rw [h]

@[simp]
theorem append_labels (d : FunctionDraft) (s : Statement) : (d.append s).labels = d.labels := by
  obtain ⟨_, _, h⟩ := d.append_eq s
  rw [h]

@[simp]
theorem append_registers (d : FunctionDraft) (s : Statement) :
    (d.append s).registers = d.registers := by
  obtain ⟨_, _, h⟩ := d.append_eq s
  rw [h]

@[simp]
theorem append_globals (d : FunctionDraft) (s : Statement) : (d.append s).globals = d.globals := by
  obtain ⟨_, _, h⟩ := d.append_eq s
  rw [h]

@[simp]
theorem append_scope (d : FunctionDraft) (s : Statement) : (d.append s).scope = d.scope := by
  obtain ⟨_, _, h⟩ := d.append_eq s
  rw [h]

@[simp]
theorem emit_registers (d : FunctionDraft) (i : Instruction) :
    (d.emit i).2.registers = d.registers + 1 :=
  append_registers _ _

@[simp]
theorem emit_scope (d : FunctionDraft) (i : Instruction) : (d.emit i).2.scope = d.scope :=
  append_scope _ _

/-! ### Edges -/

/-- Some block labelled `l` ends in a branch to `l'`. -/
def Goes (d : FunctionDraft) (l l' : Name) : Prop :=
  ∃ i b t, d.block? i = some b ∧ b.label = l ∧ b.terminator = some t ∧ l' ∈ t.successors

/-- A new block adds no jump. -/
theorem goes_addBlock {base : Name} {l l' : Name} :
    (d.addBlock base).2.Goes l l' ↔ d.Goes l l' := by
  constructor
  · rintro ⟨i, b, t, hb, hl, ht, hs⟩
    rw [block?_addBlock] at hb
    split_ifs at hb
    · cases hb
      cases ht
    · exact ⟨i, b, t, hb, hl, ht, hs⟩
  · rintro ⟨i, b, t, hb, hl, ht, hs⟩
    refine ⟨i, b, t, ?_, hl, ht, hs⟩
    rw [block?_addBlock, if_neg (Nat.ne_of_lt (block?_lt hb))]
    exact hb

/-- A statement adds no jump. -/
theorem goes_append {s : Statement} {l l' : Name} : (d.append s).Goes l l' ↔ d.Goes l l' := by
  cases h : d.terminated with
  | true => rw [append_of_terminated h]
  | false =>
    have hnone := terminated_eq_false_iff.mp h
    rw [append_of_live h]
    -- the current block has no terminator before or after, so it is the source of no edge
    constructor
    · rintro ⟨i, b, t, hb, hl, ht, hs⟩
      rw [block?_updateCurrent] at hb
      split_ifs at hb with hi
      · cases hb
        rw [hnone] at ht
        cases ht
      · exact ⟨i, b, t, hb, hl, ht, hs⟩
    · rintro ⟨i, b, t, hb, hl, ht, hs⟩
      refine ⟨i, b, t, ?_, hl, ht, hs⟩
      rw [block?_updateCurrent, if_neg]
      · exact hb
      · rintro rfl
        rw [eq_currentBlock hb, hnone] at ht
        cases ht

/-- Ending the current block adds exactly the edges of its terminator. -/
theorem goes_endWith (h : d.terminated = false) {t : Terminator} {l l' : Name} :
    (d.endWith t).Goes l l' ↔ d.Goes l l' ∨ (l = d.currentBlock.label ∧ l' ∈ t.successors) := by
  have hnone := terminated_eq_false_iff.mp h
  constructor
  · rintro ⟨i, b, u, hb, hl, hu, hs⟩
    rw [endWith, block?_updateCurrent] at hb
    split_ifs at hb with hi
    · cases hb
      cases hu
      exact .inr ⟨hl.symm, hs⟩
    · exact .inl ⟨i, b, u, hb, hl, hu, hs⟩
  · rintro (⟨i, b, u, hb, hl, hu, hs⟩ | ⟨rfl, hs⟩)
    · refine ⟨i, b, u, ?_, hl, hu, hs⟩
      rw [endWith, block?_updateCurrent, if_neg]
      · exact hb
      · rintro rfl
        rw [eq_currentBlock hb, hnone] at hu
        cases hu
    · refine ⟨d.current, { d.currentBlock with terminator := some t }, t, ?_, rfl, rfl, hs⟩
      rw [endWith, block?_updateCurrent, if_pos rfl]

/-! ### Extension -/

/-- A later state of the same draft: blocks stay where they are, statements are added only at their
ends, and a block with a terminator stays as it is. -/
def Extends (d e : FunctionDraft) : Prop :=
  ∀ i b, d.block? i = some b →
    ∃ c, e.block? i = some c ∧ c.label = b.label ∧ b.statements <+: c.statements ∧
      (b.terminator.isSome → c = b)

@[refl]
theorem Extends.refl (d : FunctionDraft) : d.Extends d :=
  fun _ b hb => ⟨b, hb, rfl, List.prefix_rfl, fun _ => rfl⟩

theorem Extends.trans {d e f : FunctionDraft} (h : d.Extends e) (h' : e.Extends f) :
    d.Extends f := by
  intro i b hb
  obtain ⟨c, hc, hlabel, hpre, hfixed⟩ := h i b hb
  obtain ⟨a, ha, hlabel', hpre', hfixed'⟩ := h' i c hc
  refine ⟨a, ha, hlabel'.trans hlabel, hpre.trans hpre', fun hb' => ?_⟩
  have hcb := hfixed hb'
  rw [hfixed' (by rwa [hcb]), hcb]

/-- A live draft is extended by an update that keeps the current block's label and lets its
statements grow. -/
private theorem extends_updateCurrent (h : d.terminated = false) {f : BlockDraft → BlockDraft}
    (hlabel : (f d.currentBlock).label = d.currentBlock.label)
    (hpre : d.currentBlock.statements <+: (f d.currentBlock).statements) :
    d.Extends (d.updateCurrent f) := by
  intro i b hb
  rw [block?_updateCurrent]
  split_ifs with hi
  · subst hi
    obtain rfl := eq_currentBlock hb
    refine ⟨_, rfl, hlabel, hpre, fun hsome => ?_⟩
    rw [terminated_eq_false_iff.mp h] at hsome
    cases hsome
  · exact ⟨b, hb, rfl, List.prefix_rfl, fun _ => rfl⟩

/-- A statement extends the draft. -/
theorem extends_append (d : FunctionDraft) (s : Statement) : d.Extends (d.append s) := by
  cases h : d.terminated with
  | true => rw [append_of_terminated h]
  | false =>
    rw [append_of_live h]
    exact extends_updateCurrent h rfl (List.prefix_append _ _)

/-- A terminator extends a live draft. -/
theorem extends_endWith (h : d.terminated = false) (t : Terminator) : d.Extends (d.endWith t) :=
  extends_updateCurrent h rfl List.prefix_rfl

/-- A new block extends the draft. -/
theorem extends_addBlock (d : FunctionDraft) (base : Name) : d.Extends (d.addBlock base).2 := by
  intro i b hb
  refine ⟨b, ?_, rfl, List.prefix_rfl, fun _ => rfl⟩
  rw [block?_addBlock, if_neg (Nat.ne_of_lt (block?_lt hb))]
  exact hb

/-- A later state of the same draft, of which what never changes is the same. -/
structure Later (d e : FunctionDraft) : Prop where
  blocks : d.Extends e
  registers : d.registers ≤ e.registers
  params : e.params = d.params
  globals : e.globals = d.globals

@[refl]
theorem Later.refl (d : FunctionDraft) : d.Later d :=
  ⟨.refl d, le_refl _, rfl, rfl⟩

theorem Later.trans {d e f : FunctionDraft} (h : d.Later e) (h' : e.Later f) : d.Later f :=
  ⟨h.blocks.trans h'.blocks, h.registers.trans h'.registers, h'.params.trans h.params,
    h'.globals.trans h.globals⟩

/-- A statement gives a later state. -/
theorem later_append (d : FunctionDraft) (s : Statement) : d.Later (d.append s) := by
  refine ⟨extends_append d s, ?_, append_params d s, append_globals d s⟩
  rw [append_registers]

/-- An instruction gives a later state. -/
theorem later_emit (d : FunctionDraft) (i : Instruction) : d.Later (d.emit i).2 := by
  have happend := later_append { d with registers := d.registers + 1 } ⟨some (d.registers + 1), i⟩
  exact ⟨happend.blocks, (Nat.le_succ _).trans happend.registers, happend.params, happend.globals⟩

/-- A terminator gives a live draft a later state. -/
theorem later_endWith (h : d.terminated = false) (t : Terminator) : d.Later (d.endWith t) :=
  ⟨extends_endWith h t, le_refl _, rfl, rfl⟩

end FunctionDraft

end WordScheme
