import Mathlib
import WordScheme.Lowering
import WordScheme.Proofs.DraftBlocks
import WordScheme.Proofs.InstructionTypes
import WordScheme.Proofs.ModuleIndex

/-!
# What lowering does to its state

`LowerState.Move` lists what lowering does to the unit and the function at hand, one operation at a
time, with what is known about the operands when it does so. It is to types and references what
`Site.Step` is to control flow: it says nothing about where control goes, but it covers the unit,
and also a lowering that fails, up to the point at which it does.

`LowerState.Knows` are the operands that code may refer to: registers that were given out, with the
type of the instruction that defines them; top level names; and functions, library functions and
strings that the unit has made a definition for. What is known stays known (`Knows.grows`), because
moves only ever add: `Move.grows`. Two invariants follow from this for every run of moves:

* `LowerState.Proper`: registers in use were given out, and local names stand for words, for known
  functions, or for the addresses of cells (`Proper.moves`);
* `LowerState.Written`: every instruction written so far is well typed and refers to what is known
  (`Written.moves`).
-/

namespace WordScheme

open FunctionDraft

/-! ### Statements and terminators of a draft -/

namespace FunctionDraft

/-- A statement stands in one of the blocks. -/
def Contains (d : FunctionDraft) (x : Statement) : Prop :=
  ∃ i b, d.block? i = some b ∧ x ∈ b.statements

/-- One of the blocks ends in a terminator. -/
def EndsIn (d : FunctionDraft) (t : Terminator) : Prop :=
  ∃ i b, d.block? i = some b ∧ b.terminator = some t

variable {d : FunctionDraft}

/-- A block of a draft whose current block has changed is an old one or the changed one. -/
private theorem block?_of_updateCurrent {f : BlockDraft → BlockDraft} {i : Nat} {b : BlockDraft}
    (h : (d.updateCurrent f).block? i = some b) : d.block? i = some b ∨ b = f d.currentBlock := by
  rw [block?_updateCurrent] at h
  split_ifs at h
  · exact .inr (Option.some.inj h).symm
  · exact .inl h

/-- A statement of a draft that has got one is an old one or the new one. -/
theorem contains_append {s x : Statement} (h : (d.append s).Contains x) : d.Contains x ∨ x = s := by
  cases hlive : d.terminated with
  | true =>
    rw [append_of_terminated hlive] at h
    exact .inl h
  | false =>
    rw [append_of_live hlive] at h
    obtain ⟨i, b, hb, hx⟩ := h
    rcases block?_of_updateCurrent hb with hb | rfl
    · exact .inl ⟨i, b, hb, hx⟩
    · rcases List.mem_append.mp hx with hx | hx
      · exact .inl ⟨d.current, _, block?_current d, hx⟩
      · exact .inr (List.mem_singleton.mp hx)

private theorem endsIn_append {s : Statement} {t : Terminator} (h : (d.append s).EndsIn t) :
    d.EndsIn t := by
  cases hlive : d.terminated with
  | true => rwa [append_of_terminated hlive] at h
  | false =>
    rw [append_of_live hlive] at h
    obtain ⟨i, b, hb, ht⟩ := h
    rcases block?_of_updateCurrent hb with hb | rfl
    · exact ⟨i, b, hb, ht⟩
    · exact ⟨d.current, _, block?_current d, ht⟩

/-- The statement of an instruction whose result goes to a fresh register. -/
theorem contains_emit {i : Instruction} {x : Statement} (h : (d.emit i).2.Contains x) :
    d.Contains x ∨ x = ⟨some (d.registers + 1), i⟩ :=
  contains_append (d := { d with registers := d.registers + 1 }) h

private theorem endsIn_emit {i : Instruction} {t : Terminator} (h : (d.emit i).2.EndsIn t) :
    d.EndsIn t :=
  endsIn_append (d := { d with registers := d.registers + 1 }) h

/-- A terminator brings no statement. -/
theorem contains_endWith {t : Terminator} {x : Statement} (h : (d.endWith t).Contains x) :
    d.Contains x := by
  obtain ⟨i, b, hb, hx⟩ := h
  rcases block?_of_updateCurrent hb with hb | rfl
  · exact ⟨i, b, hb, hx⟩
  · exact ⟨d.current, _, block?_current d, hx⟩

/-- A terminator of a draft that has got one is an old one or the new one. -/
private theorem endsIn_endWith {t u : Terminator} (h : (d.endWith t).EndsIn u) :
    d.EndsIn u ∨ u = t := by
  obtain ⟨i, b, hb, hu⟩ := h
  rcases block?_of_updateCurrent hb with hb | rfl
  · exact .inl ⟨i, b, hb, hu⟩
  · exact .inr (Option.some.inj hu).symm

/-- A block that has been added is empty, so all that stands in the draft stood there before. -/
private theorem block?_of_addBlock {base : Name} {i : Nat} {b : BlockDraft}
    (h : (d.addBlock base).2.block? i = some b) :
    d.block? i = some b ∨ (b.statements = [] ∧ b.terminator = none) := by
  rw [block?_addBlock] at h
  split_ifs at h
  · cases h
    exact .inr ⟨rfl, rfl⟩
  · exact .inl h

theorem contains_addBlock {base : Name} {x : Statement} (h : (d.addBlock base).2.Contains x) :
    d.Contains x := by
  obtain ⟨i, b, hb, hx⟩ := h
  rcases block?_of_addBlock hb with hb | ⟨hempty, -⟩
  · exact ⟨i, b, hb, hx⟩
  · rw [hempty] at hx
    cases hx

private theorem endsIn_addBlock {base : Name} {t : Terminator} (h : (d.addBlock base).2.EndsIn t) :
    d.EndsIn t := by
  obtain ⟨i, b, hb, ht⟩ := h
  rcases block?_of_addBlock hb with hb | ⟨-, hnone⟩
  · exact ⟨i, b, hb, ht⟩
  · rw [hnone] at ht
    cases ht

end FunctionDraft

/-! ### What is known -/

/-- The declaration of a library function. -/
def LibraryFunction.declaration (f : LibraryFunction) : Definition :=
  .external f.symbol .word (.replicate f.arity .word)

/-- The name of the type of arrays of so many words. -/
def arrayName (length : Nat) : Name :=
  "array." ++ toString length

/-- The definition of the type of arrays of so many words. -/
def arrayAlias (length : Nat) : Definition :=
  .alias (arrayName length) (.array .word length)

namespace LowerState

/-- The operands that code may refer to. -/
inductive Knows (s : LowerState) : Operand → Prop
  /-- A register that was given out. The instruction that defines it, unless it was dropped, has a
  result of the type. -/
  | register {r : Nat} {ty : Ty} (hnames : ty.typeNames = []) (hle : r ≤ s.draft.registers)
      (hty : ∀ {x}, s.draft.Contains x → x.dest = some r → x.instruction.resultTy = ty) :
      Knows s (.register r ty)
  | const (value : Constant) : Knows s (.const value)
  | param (name : Name) : Knows s (.param name .word)
  | globalVar {name : Name} (h : s.draft.globals.get? name = some .var) :
      Knows s (.global name .word)
  | globalFunction {name : Name} {arity : Nat}
      (h : s.draft.globals.get? name = some (.function arity)) :
      Knows s (.global name (.wordFunction arity))
  /-- A lambda that has been made a function. -/
  | lifted {name : Name} {params : List Name}
      (h : ModuleDraft.placeholder name params ∈ s.unit.module.definitions) :
      Knows s (.global name (.wordFunction params.length))
  | library {f : LibraryFunction} (h : f.declaration ∈ s.unit.module.definitions) :
      Knows s (.global f.symbol (.wordFunction f.arity))
  | string {value : String} {name : Name} (h : s.unit.strings.get? value = some name) :
      Knows s (.global name (.array (.int .i8) ((utf8Bytes value).length + 1)))

/-- An operand of a type, to which code may refer. -/
def Has (s : LowerState) (ty : Ty) (o : Operand) : Prop :=
  s.Knows o ∧ o.ty = ty

/-- An operand that can be called or made a word: a word, or the address of a function that takes
and gives words. -/
def Callable (s : LowerState) (o : Operand) : Prop :=
  s.Knows o ∧ (o.ty = .word ∨ ∃ name arity, o = .global name (.wordFunction arity))

/-- A local name may stand for this. -/
def Admits (s : LowerState) : Binding → Prop
  | .value operand => s.Callable operand
  | .slot pointer => s.Has .ptr pointer

/-- A type name that has its definition. -/
def Defines (s : LowerState) (name : Name) : Prop :=
  ∃ length, name = arrayName length ∧ arrayAlias length ∈ s.unit.module.definitions

/-- An instruction that may be written: it is well typed and refers to what is known. -/
structure Allows (s : LowerState) (i : Instruction) : Prop where
  typed : i.WellTyped
  known : ∀ o ∈ i.operands, s.Knows o
  types : ∀ ty ∈ i.types, ∀ name ∈ ty.typeNames, s.Defines name
  saturated : i.Saturated

/-- The registers in use were given out, and all local names stand for what they may stand for. -/
structure Proper (s : LowerState) : Prop where
  registers : ∀ {x r}, s.draft.Contains x → x.dest = some r → r ≤ s.draft.registers
  bindings : ∀ frame ∈ s.draft.scope.frames, ∀ x ∈ frame, s.Admits x.2

/-- All that has been written may be written. -/
structure Written (s : LowerState) : Prop where
  statements : ∀ {x}, s.draft.Contains x → s.Allows x.instruction
  terminators : ∀ {t}, s.draft.EndsIn t → t.WellTyped ∧ ∀ o ∈ t.operands, s.Knows o

/-! ### Growth -/

/-- A later state: registers are given out in order, and what the unit has is kept. -/
structure Grows (s t : LowerState) : Prop where
  registers : s.draft.registers ≤ t.draft.registers
  /-- The registers of new statements are new. -/
  statements : ∀ {x r}, t.draft.Contains x → x.dest = some r →
    s.draft.Contains x ∨ (s.draft.registers < r ∧ r ≤ t.draft.registers)
  name : t.draft.name = s.draft.name
  params : t.draft.params = s.draft.params
  globals : t.draft.globals = s.draft.globals
  entry : t.unit.entry = s.unit.entry
  definitions : s.unit.module.definitions ⊆ t.unit.module.definitions
  strings : ∀ {value name}, s.unit.strings.get? value = some name →
    t.unit.strings.get? value = some name

variable {s t u : LowerState}

@[refl]
private theorem Grows.refl (s : LowerState) : s.Grows s :=
  ⟨le_refl _, fun hx _ => .inl hx, rfl, rfl, rfl, rfl, List.Subset.refl _, id⟩

theorem Grows.trans (h : s.Grows t) (h' : t.Grows u) : s.Grows u where
  registers := h.registers.trans h'.registers
  statements := by
    intro x r hx hd
    rcases h'.statements hx hd with hx | ⟨hlt, hle⟩
    · exact (h.statements hx hd).imp_right fun hr => ⟨hr.1, hr.2.trans h'.registers⟩
    · exact .inr ⟨h.registers.trans_lt hlt, hle⟩
  name := h'.name.trans h.name
  params := h'.params.trans h.params
  globals := h'.globals.trans h.globals
  entry := h'.entry.trans h.entry
  definitions := fun _ hd => h'.definitions (h.definitions hd)
  strings := fun hv => h'.strings (h.strings hv)

/-- What is known stays known. -/
theorem Knows.grows {o : Operand} (h : s.Knows o) (hgrows : s.Grows t) : t.Knows o := by
  cases h with
  | register hnames hle hty =>
    refine .register hnames (hle.trans hgrows.registers) fun hx hd => ?_
    rcases hgrows.statements hx hd with hx | ⟨hlt, -⟩
    · exact hty hx hd
    · exact absurd hle hlt.not_ge
  | const value => exact .const value
  | param name => exact .param name
  | globalVar h => exact .globalVar (hgrows.globals ▸ h)
  | globalFunction h => exact .globalFunction (hgrows.globals ▸ h)
  | lifted h => exact .lifted (hgrows.definitions h)
  | library h => exact .library (hgrows.definitions h)
  | string h => exact .string (hgrows.strings h)

/-- An operand keeps its type as the state grows. -/
theorem Has.grows {ty : Ty} {o : Operand} (h : s.Has ty o) (hgrows : s.Grows t) : t.Has ty o :=
  ⟨h.1.grows hgrows, h.2⟩

/-- What can be called can still be as the state grows. -/
theorem Callable.grows {o : Operand} (h : s.Callable o) (hgrows : s.Grows t) : t.Callable o :=
  ⟨h.1.grows hgrows, h.2⟩

/-- What a local name may stand for it may as the state grows. -/
private theorem Admits.grows {b : Binding} (h : s.Admits b) (hgrows : s.Grows t) : t.Admits b := by
  cases b with
  | value operand => exact Callable.grows h hgrows
  | slot pointer => exact Has.grows h hgrows

/-- A defined type name stays defined. -/
theorem Defines.grows {name : Name} (h : s.Defines name) (hgrows : s.Grows t) : t.Defines name := by
  obtain ⟨length, hlength, hdefined⟩ := h
  exact ⟨length, hlength, hgrows.definitions hdefined⟩

/-- What may be written may be written later. -/
private theorem Allows.grows {i : Instruction} (h : s.Allows i) (hgrows : s.Grows t) :
    t.Allows i where
  typed := h.typed
  known := fun o ho => (h.known o ho).grows hgrows
  types := fun ty hty name hname => (h.types ty hty name hname).grows hgrows
  saturated := h.saturated

/-- Registers stay in order, whatever becomes of the local names. -/
private theorem Proper.registers_grows (h : s.Proper) (hgrows : s.Grows t) {x : Statement} {r : Nat}
    (hx : t.draft.Contains x) (hd : x.dest = some r) : r ≤ t.draft.registers := by
  rcases hgrows.statements hx hd with hx | ⟨-, hle⟩
  · exact (h.registers hx hd).trans hgrows.registers
  · exact hle

/-- A state that grows stays proper if the local names stay the same. -/
theorem Proper.grows (h : s.Proper) (hgrows : s.Grows t)
    (hscope : t.draft.scope = s.draft.scope) : t.Proper := by
  refine ⟨h.registers_grows hgrows, fun frame hf x hx => ?_⟩
  rw [hscope] at hf
  exact (h.bindings frame hf x hx).grows hgrows

/-! ### Operations -/

/-- Only the function at hand changes, and no statement is added. -/
private theorem grows_of_contains {d : FunctionDraft} (hregisters : s.draft.registers ≤ d.registers)
    (hcontains : ∀ {x}, d.Contains x → s.draft.Contains x) (hname : d.name = s.draft.name)
    (hparams : d.params = s.draft.params) (hglobals : d.globals = s.draft.globals) :
    s.Grows { s with draft := d } :=
  ⟨hregisters, fun hx _ => .inl (hcontains hx), hname, hparams, hglobals, rfl,
    List.Subset.refl _, id⟩

/-- The register of an instruction is a new one. -/
theorem grows_emit (s : LowerState) (i : Instruction) :
    s.Grows { s with draft := (s.draft.emit i).2 } where
  registers := by
    rw [emit_registers]
    exact Nat.le_succ _
  statements := by
    intro x r hx hd
    rcases contains_emit hx with hx | rfl
    · exact .inl hx
    · -- the statement defines the register given out last
      obtain rfl := Option.some.inj hd
      rw [emit_registers]
      exact .inr ⟨Nat.lt_succ_self _, le_refl _⟩
  name := append_name _ _
  params := append_params _ _
  globals := append_globals _ _
  entry := rfl
  definitions := List.Subset.refl _
  strings := id

theorem grows_emitEffect (s : LowerState) (i : Instruction) :
    s.Grows { s with draft := s.draft.emitEffect i } where
  registers := by
    rw [emitEffect, append_registers]
  statements := by
    intro x r hx hd
    rcases contains_append hx with hx | rfl
    · exact .inl hx
    · cases hd
  name := append_name _ _
  params := append_params _ _
  globals := append_globals _ _
  entry := rfl
  definitions := List.Subset.refl _
  strings := id

theorem grows_endWith (s : LowerState) (t : Terminator) :
    s.Grows { s with draft := s.draft.endWith t } :=
  grows_of_contains (le_refl _) contains_endWith rfl rfl rfl

theorem grows_addBlock (s : LowerState) (base : Name) :
    s.Grows { s with draft := (s.draft.addBlock base).2 } :=
  grows_of_contains (le_refl _) contains_addBlock rfl rfl rfl

theorem grows_goTo (s : LowerState) {index : Nat} (h : index < s.draft.blocks.size) :
    s.Grows { s with draft := s.draft.goTo index h } :=
  grows_of_contains (le_refl _) id rfl rfl rfl

theorem grows_rescope (s : LowerState) (scope : Scope) :
    s.Grows { s with draft := { s.draft with scope } } :=
  grows_of_contains (le_refl _) id rfl rfl rfl

/-- Only the unit changes. -/
private theorem grows_unit {v : CompileUnit} (hentry : v.entry = s.unit.entry)
    (hdefinitions : s.unit.module.definitions ⊆ v.module.definitions)
    (hstrings : ∀ {value name}, s.unit.strings.get? value = some name →
      v.strings.get? value = some name) : s.Grows { s with unit := v } :=
  ⟨le_refl _, fun hx _ => .inl hx, rfl, rfl, rfl, hentry, hdefinitions, hstrings⟩

/-- A definition is added to those that are there. -/
theorem grows_ensure (s : LowerState) (d : Definition) :
    s.Grows { s with unit := s.unit.ensure d } :=
  grows_unit rfl (List.IsPrefix.subset (s.unit.module.prefix_ensure d)) id

/-- A string that gets its constant leaves the constants of the others. -/
theorem grows_string (s : LowerState) (value : String) :
    s.Grows { s with unit := (s.unit.stringConstant value).2 } := by
  rw [CompileUnit.stringConstant]
  cases hv : s.unit.strings.get? value with
  | some name => exact .refl s
  | none =>
    refine grows_unit rfl (List.IsPrefix.subset (s.unit.module.prefix_ensure _))
      fun {v n} hold => ?_
    -- a string that had a constant is another one
    have hne : v ≠ value := by
      rintro rfl
      rw [hv] at hold
      cases hold
    exact (Assoc.get?_put_of_ne _ _ hne).trans hold

/-- The state once a lambda has been made a function. -/
def lift (s : LowerState) (lambda : Lambda) : LowerState :=
  let fresh := s.unit.freshLambdaName s.draft.globals
  { unit := { fresh.2.ensure (ModuleDraft.placeholder fresh.1 lambda.params) with
      lifted := fresh.2.lifted ++ [fresh.1] }
    draft := s.draft.enqueue ⟨fresh.1, lambda, s.draft.globals⟩ }

/-- A lifted lambda leaves what is there. -/
theorem grows_lift (s : LowerState) (lambda : Lambda) : s.Grows (s.lift lambda) where
  registers := le_refl _
  statements := fun hx _ => .inl hx
  name := rfl
  params := rfl
  globals := rfl
  entry := rfl
  definitions := List.IsPrefix.subset (s.unit.module.prefix_ensure _)
  strings := id

/-- One operation of the lowering on its state, with what is known when it occurs. -/
inductive Move : LowerState → LowerState → Prop
  | emit {s : LowerState} {i : Instruction} (h : s.Allows i) :
      Move s { s with draft := (s.draft.emit i).2 }
  | emitEffect {s : LowerState} {i : Instruction} (h : s.Allows i) :
      Move s { s with draft := s.draft.emitEffect i }
  | terminate {s : LowerState} {t : Terminator} (hlive : s.draft.terminated = false)
      (htyped : t.WellTyped) (hknown : ∀ o ∈ t.operands, s.Knows o) :
      Move s { s with draft := s.draft.endWith t }
  | addBlock {s : LowerState} (base : Name) : Move s { s with draft := (s.draft.addBlock base).2 }
  | goTo {s : LowerState} (index : Nat) (h : index < s.draft.blocks.size) :
      Move s { s with draft := s.draft.goTo index h }
  /-- Frames are opened or closed, or a name is bound anew. -/
  | rescope {s : LowerState} (scope : Scope)
      (h : ∀ frame ∈ scope.frames, ∀ x ∈ frame,
        (∃ old ∈ s.draft.scope.frames, x ∈ old) ∨ s.Admits x.2) :
      Move s { s with draft := { s.draft with scope } }
  | string {s : LowerState} (value : String) :
      Move s { s with unit := (s.unit.stringConstant value).2 }
  | array {s : LowerState} (length : Nat) :
      Move s { s with unit := s.unit.ensure (arrayAlias length) }
  | library {s : LowerState} (f : LibraryFunction) :
      Move s { s with unit := s.unit.ensure f.declaration }
  | lift {s : LowerState} (lambda : Lambda) : Move s (s.lift lambda)

/-- Any number of moves. -/
abbrev Moves : LowerState → LowerState → Prop :=
  Relation.ReflTransGen Move

/-- **Moves only add.** -/
theorem Move.grows (h : s.Move t) : s.Grows t := by
  cases h with
  | emit h => exact grows_emit s _
  | emitEffect h => exact grows_emitEffect s _
  | terminate hlive htyped hknown => exact grows_endWith s _
  | addBlock base => exact grows_addBlock s base
  | goTo index h => exact grows_goTo s h
  | rescope scope h => exact grows_rescope s scope
  | string value => exact grows_string s value
  | array length => exact grows_ensure s _
  | library f => exact grows_ensure s _
  | lift lambda => exact grows_lift s lambda

/-- A run of moves only adds. -/
theorem Moves.grows (h : s.Moves t) : s.Grows t := by
  induction h with
  | refl => exact .refl s
  | tail _ hmove ih => exact ih.trans hmove.grows

/-! ### Invariants -/

/-- Local names may change as long as what they stand for is admitted. -/
private theorem Proper.rescope (h : s.Proper) {scope : Scope}
    (hscope : ∀ frame ∈ scope.frames, ∀ x ∈ frame,
      (∃ old ∈ s.draft.scope.frames, x ∈ old) ∨ s.Admits x.2) :
    Proper { s with draft := { s.draft with scope } } := by
  have hgrows := grows_rescope s scope
  refine ⟨h.registers_grows hgrows, fun frame hf x hx => ?_⟩
  rcases hscope frame hf x hx with ⟨old, hold, hx⟩ | hadmits
  · exact (h.bindings old hold x hx).grows hgrows
  · exact hadmits.grows hgrows

/-- A move keeps a state proper. -/
private theorem Proper.move (h : s.Proper) (hmove : s.Move t) : t.Proper := by
  have hgrows := hmove.grows
  cases hmove with
  | emit => exact h.grows hgrows (emit_scope s.draft _)
  | emitEffect => exact h.grows hgrows (append_scope s.draft _)
  | rescope scope hscope => exact h.rescope hscope
  | terminate => exact h.grows hgrows rfl
  | addBlock => exact h.grows hgrows rfl
  | goTo => exact h.grows hgrows rfl
  | string => exact h.grows hgrows rfl
  | array => exact h.grows hgrows rfl
  | library => exact h.grows hgrows rfl
  | lift => exact h.grows hgrows rfl

/-- **A run of moves keeps a state proper.** -/
theorem Proper.moves (h : s.Proper) (hmoves : s.Moves t) : t.Proper := by
  induction hmoves with
  | refl => exact h
  | tail _ hmove ih => exact ih.move hmove

/-- What has been written stays in order, if what is new is. -/
private theorem Written.grows (h : s.Written) (hgrows : s.Grows t)
    (hstatements : ∀ {x}, t.draft.Contains x → s.draft.Contains x ∨ s.Allows x.instruction)
    (hterminators : ∀ {u}, t.draft.EndsIn u →
      s.draft.EndsIn u ∨ (u.WellTyped ∧ ∀ o ∈ u.operands, s.Knows o)) : t.Written where
  statements := fun hx => ((hstatements hx).elim h.statements id).grows hgrows
  terminators := by
    intro u hu
    obtain ⟨htyped, hknown⟩ := (hterminators hu).elim h.terminators id
    exact ⟨htyped, fun o ho => (hknown o ho).grows hgrows⟩

/-- A move writes only what may be written. -/
private theorem Written.move (h : s.Written) (hmove : s.Move t) : t.Written := by
  have hgrows := hmove.grows
  cases hmove with
  | emit hallows =>
    refine h.grows hgrows (fun hx => ?_) fun hu => .inl (endsIn_emit hu)
    rcases contains_emit hx with hold | rfl
    · exact .inl hold
    · exact .inr hallows
  | emitEffect hallows =>
    refine h.grows hgrows (fun hx => ?_) fun hu => .inl (endsIn_append hu)
    rcases contains_append hx with hold | rfl
    · exact .inl hold
    · exact .inr hallows
  | terminate _ htyped hknown =>
    refine h.grows hgrows (fun hx => .inl (contains_endWith hx)) fun hu => ?_
    rcases endsIn_endWith hu with hold | rfl
    · exact .inl hold
    · exact .inr ⟨htyped, hknown⟩
  | addBlock =>
    exact h.grows hgrows (fun hx => .inl (contains_addBlock hx)) fun hu => .inl (endsIn_addBlock hu)
  | goTo => exact h.grows hgrows .inl .inl
  | rescope => exact h.grows hgrows .inl .inl
  | string => exact h.grows hgrows .inl .inl
  | array => exact h.grows hgrows .inl .inl
  | library => exact h.grows hgrows .inl .inl
  | lift => exact h.grows hgrows .inl .inl

/-- **A run of moves writes only what may be written.** -/
theorem Written.moves (h : s.Written) (hmoves : s.Moves t) : t.Written := by
  induction hmoves with
  | refl => exact h
  | tail _ hmove ih => exact ih.move hmove

end LowerState

end WordScheme
