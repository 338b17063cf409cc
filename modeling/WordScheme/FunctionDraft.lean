import WordScheme.CompileError
import WordScheme.Ir.Module
import WordScheme.Naming
import WordScheme.Scope
import WordScheme.Table

/-!
# Functions in the making

A `FunctionDraft` grows block by block. Instructions go to the end of the current block; a block
takes nothing more once it has a terminator, though the register of a dropped instruction stays
used. The current block is always one of the draft's blocks, and the type says so. An operation that
may be refused gives the draft that it leaves in either case. `FunctionDraft.finish` accepts a draft
whose blocks all have terminators and can all be reached from the first, save those that are marked
as unreachable.
-/

namespace WordScheme

/-- A block in the making. -/
structure BlockDraft where
  label : Name
  statements : List Statement
  terminator : Option Terminator
deriving BEq, Repr, Inhabited

/-- The finished block, if it has a terminator. -/
def BlockDraft.finish (b : BlockDraft) : Except CompileError Block :=
  match b.terminator with
  | some terminator => .ok ⟨b.label, b.statements, terminator⟩
  | none => .error (.missingTerminator b.label)

/-- A block of a draft, by index and label. -/
structure BlockRef where
  index : Nat
  label : Name
deriving DecidableEq, Repr, Inhabited

/-- A function whose body waits to be compiled, with the top level names it can see. -/
structure PendingFunction where
  name : Name
  lambda : Lambda
  globals : Globals

/-- A function in the making. -/
structure FunctionDraft where
  name : Name
  params : List Name
  /-- The index of the block that takes instructions. -/
  current : Nat
  blocks : Table BlockDraft
  labels : NameSupply
  /-- The number of registers given out. No bound is set; a function whose registers are to be
  numbered with 32 bits has fewer than `2 ^ 32` of them. -/
  registers : Nat
  scope : Scope
  globals : Globals
  /-- The functions found in the body, in the order in which they were found. -/
  pending : List PendingFunction
  current_lt : current < blocks.size

/-- A finished function and those found in its body. -/
structure FinishedFunction where
  function : Function
  pending : List PendingFunction

namespace FunctionDraft

/-! ### Blocks -/

/-- Adds an empty block labelled after a base, without moving to it. -/
def addBlock (d : FunctionDraft) (base : Name) : BlockRef × FunctionDraft :=
  let fresh := d.labels.fresh base
  let pushed := d.blocks.push ⟨fresh.1, [], none⟩
  (⟨pushed.1, fresh.1⟩,
    { d with
      labels := fresh.2
      blocks := pushed.2
      current_lt := Nat.lt_of_lt_of_le d.current_lt (by simp [pushed]) })

/-- A function of words with one empty block, its parameters bound in a frame of their own. -/
def start (name : Name) (params : List Name) (globals : Globals) : FunctionDraft :=
  let entry := NameSupply.empty.fresh "entry"
  { name, params, globals
    current := 0
    blocks := (Table.empty.push ⟨entry.1, [], none⟩).2
    labels := entry.2
    registers := 0
    scope := params.foldl (fun s p => s.bind p (.value (.param p .word))) Scope.empty.push
    pending := []
    current_lt := by simp }

/-- The block that takes instructions. -/
def currentBlock (d : FunctionDraft) : BlockDraft :=
  d.blocks.rows.get ⟨d.current, d.current_lt⟩

/-- The block that takes instructions, as a reference. -/
def currentRef (d : FunctionDraft) : BlockRef :=
  ⟨d.current, d.currentBlock.label⟩

/-- Whether the current block has its terminator. -/
def terminated (d : FunctionDraft) : Bool :=
  d.currentBlock.terminator.isSome

/-- The block with an index. -/
def ref? (d : FunctionDraft) (index : Nat) : Option BlockRef :=
  (d.blocks.get? index).map fun b => ⟨index, b.label⟩

/-- Makes a block the current one; no branch is added. -/
def moveTo (d : FunctionDraft) (index : Nat) : EStateM.Result CompileError FunctionDraft Unit :=
  if h : index < d.blocks.size then .ok () { d with current := index, current_lt := h }
  else .error (.unknownBlock index) d

/-! ### Statements and terminators -/

/-- Gives out a register; the first is number one. -/
def freshRegister (d : FunctionDraft) : Nat × FunctionDraft :=
  (d.registers + 1, { d with registers := d.registers + 1 })

/-- Changes the current block. -/
def updateCurrent (d : FunctionDraft) (f : BlockDraft → BlockDraft) : FunctionDraft :=
  { d with
    blocks := d.blocks.update d.current f
    current_lt := Nat.lt_of_lt_of_eq d.current_lt (d.blocks.size_update d.current f).symm }

/-- Puts a statement at the end of the current block, unless that has its terminator. -/
def append (d : FunctionDraft) (s : Statement) : FunctionDraft :=
  if d.terminated then d
  else d.updateCurrent fun b => { b with statements := b.statements ++ [s] }

/-- Appends an instruction whose result goes to a fresh register. -/
def emit (d : FunctionDraft) (i : Instruction) : Operand × FunctionDraft :=
  let (number, d) := d.freshRegister
  (.register number i.resultTy, d.append ⟨some number, i⟩)

/-- Appends an instruction that gives no result. -/
def emitEffect (d : FunctionDraft) (i : Instruction) : FunctionDraft :=
  d.append ⟨none, i⟩

/-- Ends the current block. -/
def terminate (d : FunctionDraft) (t : Terminator) :
    EStateM.Result CompileError FunctionDraft Unit :=
  if d.terminated then .error (.secondTerminator d.currentBlock.label) d
  else .ok () (d.updateCurrent fun b => { b with terminator := some t })

/-- Notes a function found in the body. -/
def enqueue (d : FunctionDraft) (p : PendingFunction) : FunctionDraft :=
  { d with pending := d.pending ++ [p] }

/-! ### Reachable blocks -/

/-- The index of the last block with a label. -/
def lastLabelled? (label : Name) : List BlockDraft → Option Nat
  | [] => none
  | b :: bs =>
    match lastLabelled? label bs with
    | some index => some (index + 1)
    | none => if b.label = label then some 0 else none

/-- The blocks to which control may go from a block. Labels that no block has lead nowhere. -/
def successors (d : FunctionDraft) (index : Nat) : List Nat :=
  match (d.blocks.get? index).bind BlockDraft.terminator with
  | some t => t.successors.filterMap fun label => lastLabelled? label d.blocks.rows
  | none => []

/-- Adds to `seen` what can be reached from the blocks of `work`. Each step takes one block off
`work`, and only the first visit of a block adds others, two at most. -/
def reach (next : Nat → List Nat) : (steps : Nat) → (seen work : List Nat) → List Nat
  | 0, seen, _ => seen
  | _ + 1, seen, [] => seen
  | steps + 1, seen, index :: work =>
    if seen.contains index then reach next steps seen work
    else reach next steps (index :: seen) (next index ++ work)

/-- The blocks that can be reached from the first one. -/
def reachable (d : FunctionDraft) : List Nat :=
  reach d.successors (2 * d.blocks.size + 1) [] [0]

/-- The first block that can neither be reached nor is marked as unreachable. -/
def stray? (d : FunctionDraft) : Option Name :=
  let reachable := d.reachable
  d.blocks.entries.findSome? fun (index, b) =>
    if reachable.contains index || b.terminator == some .unreachable then none else some b.label

/-- The finished function. A missing terminator is reported before a block out of reach. -/
def finish (d : FunctionDraft) : Except CompileError FinishedFunction := do
  let blocks ← d.blocks.rows.mapM BlockDraft.finish
  match d.stray? with
  | some label => throw (.unreachableBlock label)
  | none => return ⟨⟨d.name, .word, wordParams d.params, blocks⟩, d.pending⟩

end FunctionDraft

end WordScheme
