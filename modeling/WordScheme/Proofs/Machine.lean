import Mathlib
import WordScheme.Ir.Module
import WordScheme.Proofs.Evaluation

/-!
# A machine for blocks

What the blocks of a function do, one statement at a time. Registers hold words, truth values and
addresses; the addresses of cells are made by `alloca`, and every `alloca` makes a new cell. A phi
takes the value that belongs to the block from which control came. Instructions on doubles and
arrays are left out: the machine stops at them, as it does where an operation has no result.

The machine does one thing at a time in one way (`step` is a function), so a function that returns
an answer returns no other and does not get stuck: `Returns.unique` and `Returns.not_stuck`.
-/

namespace WordScheme

/-- A machine that executes a function, in a world and with values for the parameters. -/
structure Machine where
  function : Function
  world : World
  params : Assoc Name Int64

namespace Machine

/-- What a register may hold. -/
inductive Value where
  | word (value : Int64)
  | flag (value : Bool)
  /-- The address of a cell. -/
  | cell (index : Nat)
  /-- The address of a global. -/
  | global (name : Name)
  /-- An address that a word stood for. -/
  | pointer (address : Int64)
deriving DecidableEq, Repr

/-- A function under way. -/
structure Config where
  /-- The block that is under way. -/
  label : Name
  /-- The block from which control came. -/
  previous : Option Name
  /-- The number of statements of the block that have been executed. -/
  index : Nat
  registers : Nat → Option Value
  /-- The cells made so far, empty until they are stored to. -/
  cells : List (Option Int64)
  store : Store
  trace : List Event

/-- The start of a block, with nothing done yet. -/
def Config.start (label : Name) (store : Store) : Config :=
  ⟨label, none, 0, fun _ => none, [], store, []⟩

/-! ### Instructions -/

/-- The word that an operation on words gives, if it has a result. -/
def evalOpcode (a b : Int64) : Opcode → Option Int64
  | .add => some (a + b)
  | .sub => some (a - b)
  | .mul => some (a * b)
  | .sdiv => if b = 0 ∨ (a = Int64.minValue ∧ b = -1) then none else some (a / b)
  | .shl => if b.toUInt64 < 64 then some (a <<< b) else none
  | .lshr => if b.toUInt64 < 64 then some (a.toUInt64 >>> b.toUInt64).toInt64 else none
  | .or => some (a ||| b)
  | _ => none

/-- Whether a comparison of integers holds. -/
def evalPredicate (a b : Int64) : IntPredicate → Bool
  | .eq => a == b
  | .ne => a != b
  | .slt => a < b
  | .sle => a ≤ b
  | .sgt => b < a
  | .sge => b ≤ a

/-- The value of an operand. -/
def read (m : Machine) (c : Config) : Operand → Option Value
  | .register number _ => c.registers number
  | .const (.int .i64 value) => some (.word value)
  | .const _ => none
  | .global name _ => some (.global name)
  | .param name _ => (m.params.get? name).map .word

/-- The value of an operand that is a word. -/
def readWord (m : Machine) (c : Config) (o : Operand) : Option Int64 :=
  match m.read c o with
  | some (.word value) => some value
  | _ => none

/-- The values of several operands that are words. -/
def readWords (m : Machine) (c : Config) : List Operand → Option (List Int64)
  | [] => some []
  | o :: os => do
    let value ← m.readWord c o
    let values ← m.readWords c os
    return value :: values

/-- What is called through an address. -/
def calleeOf : Value → Option Callee
  | .global name => some (.named name)
  | .pointer address => some (.address address)
  | _ => none

/-- Executes an instruction: gives its value, if it has one, and changes the memory. -/
def execute (m : Machine) (c : Config) : Instruction → Option (Option Value × Config)
  | .binary op lhs rhs => do
    let a ← m.readWord c lhs
    let b ← m.readWord c rhs
    let value ← evalOpcode a b op
    return (some (.word value), c)
  | .icmp predicate lhs rhs => do
    let a ← m.readWord c lhs
    let b ← m.readWord c rhs
    return (some (.flag (evalPredicate a b predicate)), c)
  | .alloca (.int .i64) =>
    some (some (.cell c.cells.length), { c with cells := c.cells ++ [none] })
  | .load (.int .i64) pointer => do
    match ← m.read c pointer with
    | .cell index =>
      let value ← c.cells[index]?.join
      return (some (.word value), c)
    | .global name => return (some (.word (c.store name)), c)
    | _ => none
  | .store value pointer => do
    let value ← m.readWord c value
    match ← m.read c pointer with
    | .cell index => return (none, { c with cells := c.cells.set index (some value) })
    | .global name => return (none, { c with store := Function.update c.store name value })
    | _ => none
  | .cast .zext operand (.int .i64) => do
    match ← m.read c operand with
    | .flag value => return (some (.word (wordOfBool value)), c)
    | _ => none
  | .cast .ptrtoint operand (.int .i64) => do
    match ← m.read c operand with
    | .global name => return (some (.word (m.world.address name)), c)
    | _ => none
  | .cast .inttoptr operand .ptr => do
    let value ← m.readWord c operand
    return (some (.pointer value), c)
  | .call (.int .i64) callee args => do
    let callee ← calleeOf (← m.read c callee)
    let args ← m.readWords c args
    let result := m.world.call callee args c.store
    return (some (.word result.1),
      { c with store := result.2, trace := c.trace ++ [⟨callee, args, c.store⟩] })
  | .phi _ incoming => do
    let source ← c.previous
    let (operand, _) ← incoming.find? fun x => x.2 == source
    let value ← m.read c operand
    return (some value, c)
  | _ => none

/-- Control goes to the start of another block. -/
def Config.jump (c : Config) (label : Name) : Config :=
  { c with label, previous := some c.label, index := 0 }

/-- The statement at hand is done: its value goes to its register. -/
def Config.advance (c : Config) (dest : Option Nat) (value : Option Value) : Config :=
  match dest, value with
  | some number, some _ =>
    { c with index := c.index + 1, registers := Function.update c.registers number value }
  | _, _ => { c with index := c.index + 1 }

/-! ### Steps -/

/-- What a step comes to. -/
inductive Next where
  | running (c : Config)
  | returned (answer : Answer)

/-- How a block ends. -/
def leave (m : Machine) (c : Config) : Terminator → Option Next
  | .branch target => some (.running (c.jump target))
  | .condBranch condition positive negative => do
    match ← m.read c condition with
    | .flag value => return .running (c.jump (if value then positive else negative))
    | _ => none
  | .ret value => do
    let value ← m.readWord c value
    return .returned ⟨value, c.store, c.trace⟩
  | .unreachable => none

/-- One step: the next statement of the block, or its end. -/
def step (m : Machine) (c : Config) : Option Next := do
  let b ← m.function.block? c.label
  match b.statements[c.index]? with
  | some s =>
    let (value, c) ← m.execute c s.instruction
    return .running (c.advance s.dest value)
  | none => m.leave c b.terminator

section Runs

variable (m : Machine)

/-- One configuration leads to another. -/
def Runs : Config → Config → Prop :=
  Relation.ReflTransGen fun c c' => step m c = some (.running c')

/-- The function returns an answer. -/
inductive Returns : Config → Answer → Prop
  | now {c : Config} {answer : Answer} (h : m.step c = some (.returned answer)) : Returns c answer
  | later {c c' : Config} {answer : Answer} (h : m.step c = some (.running c'))
      (hr : Returns c' answer) : Returns c answer

/-- The function stops without an answer. -/
inductive Stuck : Config → Prop
  | now {c : Config} (h : m.step c = none) : Stuck c
  | later {c c' : Config} (h : m.step c = some (.running c')) (hs : Stuck c') : Stuck c

variable {m} {c c' : Config} {answer : Answer}

theorem Runs.returns (h : m.Runs c c') (hr : m.Returns c' answer) : m.Returns c answer := by
  induction h using Relation.ReflTransGen.head_induction_on with
  | refl => exact hr
  | head hstep _ ih => exact .later hstep ih

theorem Runs.stuck (h : m.Runs c c') (hs : m.Stuck c') : m.Stuck c := by
  induction h using Relation.ReflTransGen.head_induction_on with
  | refl => exact hs
  | head hstep _ ih => exact .later hstep ih

/-- A function returns one answer at most. -/
theorem Returns.unique {answer' : Answer} (h : m.Returns c answer) (h' : m.Returns c answer') :
    answer = answer' := by
  induction h with
  | now hstep =>
    cases h' with
    | now hstep' =>
      rw [hstep] at hstep'
      cases hstep'
      rfl
    | later hstep' _ =>
      rw [hstep] at hstep'
      cases hstep'
  | later hstep _ ih =>
    cases h' with
    | now hstep' =>
      rw [hstep] at hstep'
      cases hstep'
    | later hstep' hr' =>
      rw [hstep] at hstep'
      cases hstep'
      exact ih hr'

/-- A function that returns does not get stuck. -/
theorem Returns.not_stuck (h : m.Returns c answer) : ¬ m.Stuck c := by
  induction h with
  | now hstep =>
    intro hs
    cases hs with
    | now hstep' =>
      rw [hstep] at hstep'
      cases hstep'
    | later hstep' _ =>
      rw [hstep] at hstep'
      cases hstep'
  | later hstep _ ih =>
    intro hs
    cases hs with
    | now hstep' =>
      rw [hstep] at hstep'
      cases hstep'
    | later hstep' hs' =>
      rw [hstep] at hstep'
      cases hstep'
      exact ih hs'

end Runs

end Machine

/-- The machine for a call of a function. -/
def Function.machine (f : Function) (world : World) (args : List Int64) : Machine :=
  ⟨f, world, (f.params.map Param.name).zip args⟩

/-- A function that is called with as many arguments as it has parameters returns an answer. -/
def Function.Answers (f : Function) (world : World) (args : List Int64) (store : Store)
    (answer : Answer) : Prop :=
  args.length = f.params.length ∧ ∃ b, f.blocks.head? = some b ∧
    (f.machine world args).Returns (.start b.label store) answer

end WordScheme
