import WordScheme.FunctionDraft
import WordScheme.Lowering.Assigned
import WordScheme.Lowering.Unit

/-!
# Lowering expressions to instructions

`lower` turns an expression into instructions of the function at hand and gives the word that holds
its value. Conditionals branch to two arms, each with a frame of its own, that meet in a merge block
whose phi joins their values; an arm that leaves the function gives the phi nothing. A lambda
becomes a function of its own, of which a placeholder stands in the module until its body is
compiled. Names that a body assigns to live in memory cells, all others are values.

Code behind a `return` is lowered too, for its errors and its lambdas, but leaves no statement.
-/

namespace WordScheme

/-- What lowering works on: the unit and the function at hand. -/
structure LowerState where
  unit : CompileUnit
  draft : FunctionDraft

/-- Steps of lowering. An error keeps the state in which it arose. -/
abbrev Lower := EStateM CompileError LowerState

namespace Lower

/-! ### Steps -/

/-- A step on the function at hand. -/
def onDraft {α : Type} (f : FunctionDraft → α × FunctionDraft) : Lower α :=
  modifyGet fun s => ((f s.draft).1, { s with draft := (f s.draft).2 })

/-- A step on the unit. -/
def onUnit {α : Type} (f : CompileUnit → α × CompileUnit) : Lower α :=
  modifyGet fun s => ((f s.unit).1, { s with unit := (f s.unit).2 })

/-- A step on the function at hand that may fail. -/
def tryDraft {α : Type} (f : FunctionDraft → EStateM.Result CompileError FunctionDraft α) :
    Lower α := fun s =>
  match f s.draft with
  | .ok a draft => .ok a { s with draft }
  | .error e draft => .error e { s with draft }

/-- Something about the function at hand. -/
def ofDraft {α : Type} (f : FunctionDraft → α) : Lower α := do
  return f (← get).draft

/-- Appends an instruction and gives the register of its result. -/
def emit (i : Instruction) : Lower Operand :=
  onDraft (·.emit i)

/-- Appends an instruction that stores a value. -/
def store (value pointer : Operand) : Lower Unit :=
  onDraft fun d => ((), d.emitEffect (.store value pointer))

/-- Ends the current block. -/
def terminate (t : Terminator) : Lower Unit :=
  tryDraft (·.terminate t)

/-- Whether the current block has ended. -/
def terminated : Lower Bool :=
  ofDraft FunctionDraft.terminated

/-- Adds an empty block. -/
def addBlock (base : Name) : Lower BlockRef :=
  onDraft (·.addBlock base)

/-- Goes on in a block. -/
def moveTo (block : BlockRef) : Lower Unit :=
  tryDraft (·.moveTo block.index)

/-- Changes the local names. -/
def onScope (f : Scope → Scope) : Lower Unit :=
  onDraft fun d => ((), { d with scope := f d.scope })

/-- The binding of a local name. -/
def local? (name : Name) : Lower (Option Binding) :=
  ofDraft fun d => d.scope.lookup? name

/-- How a top level name is defined. -/
def global? (name : Name) : Lower (Option GlobalKind) :=
  ofDraft fun d => d.globals.get? name

end Lower

open Lower

/-! ### Values -/

/-- A value of any type that occurs as the word that encodes it. -/
def toWord (o : Operand) : Lower Operand :=
  match o.ty with
  | .int .i64 => pure o
  | .int _ => emit (.cast .zext o .word)
  | .double => emit (.cast .bitcast o .word)
  | .ptr => emit (.ofPointer o)
  | _ => pure o

/-- A literal. -/
def lowerLiteral : Literal → Lower Operand
  | .integer value => pure (.word value)
  | .character value => pure (.word (.ofNat value.toNat))
  | .boolean value => pure (.word (if value then 1 else 0))
  | .empty => pure (.word 0)
  | .double value => emit (.cast .bitcast (.const (.double value)) .word)
  | .string value => do
    let (name, ty) ← onUnit (·.stringConstant value)
    let address ← emit (.elementPtr ty (.global name ty) (.word 0))
    emit (.ofPointer address)

/-- A variable, local names coming before top level ones. A function is a word by its address. -/
def lowerVariable (name : Name) : Lower Operand := do
  match ← local? name with
  | some (.value value) => toWord value
  | some (.slot pointer) => emit (.load .word pointer)
  | none =>
    match ← global? name with
    | some .var => emit (.load .word (.global name .word))
    | some (.function arity) => toWord (.global name (.wordFunction arity))
    | none => throw (.unresolved name)

/-- Stores to a top level variable. -/
def assignGlobal (name : Name) (value : Operand) : Lower Unit := do
  match ← global? name with
  | some .var => store value (.global name .word)
  | some (.function _) => throw (.notAssignable name)
  | none => throw (.unresolved name)

/-- Assigns to a name, local names coming before top level ones. -/
def lowerAssignment (name : Name) (value : Operand) : Lower Unit := do
  match ← local? name with
  | some (.slot pointer) => store value pointer
  | some (.value _) => onScope (·.rebind name (.value value))
  | none => assignGlobal name value

/-- Binds a local name, in a cell if it is assigned to. -/
def bindLocal (assigned : List Name) (name : Name) (value : Operand) : Lower Unit := do
  if assigned.contains name then
    let value ← toWord value
    let pointer ← emit (.alloca .word)
    store value pointer
    onScope (·.bind name (.slot pointer))
  else
    onScope (·.bind name (.value value))

/-- Moves the parameters that are assigned to into cells. -/
def spillParams (assigned : List Name) : List Name → Lower Unit
  | [] => pure ()
  | name :: names => do
    if assigned.contains name then
      let pointer ← emit (.alloca .word)
      store (.param name .word) pointer
      onScope (·.rebind name (.slot pointer))
    spillParams assigned names

/-! ### Operators -/

/-- The instruction for an operation on words. -/
def WordOp.opcode : WordOp → Opcode
  | .add => .add
  | .subtract => .sub
  | .multiply => .mul
  | .divide => .sdiv
  | .shiftLeft => .shl
  | .shiftRight => .lshr
  | .bitOr => .or

/-- The instruction for an operation on doubles. -/
def FloatOp.opcode : FloatOp → Opcode
  | .add => .fadd
  | .subtract => .fsub
  | .multiply => .fmul
  | .divide => .fdiv

/-- A comparison of signed words. -/
def Comparison.intPredicate : Comparison → IntPredicate
  | .equal => .eq
  | .less => .slt
  | .lessOrEqual => .sle
  | .greater => .sgt
  | .greaterOrEqual => .sge

/-- A comparison of doubles. -/
def Comparison.floatPredicate : Comparison → FloatPredicate
  | .equal => .oeq
  | .less => .olt
  | .lessOrEqual => .ole
  | .greater => .ogt
  | .greaterOrEqual => .oge

/-- An operator on two words. Doubles are words with the same bits. -/
def lowerOperator (op : BinaryOp) (lhs rhs : Operand) : Lower Operand :=
  match op with
  | .word op => emit (.binary op.opcode lhs rhs)
  | .compare c => do
    let flag ← emit (.icmp c.intPredicate lhs rhs)
    emit (.cast .zext flag .word)
  | .float op => do
    let lhs ← emit (.cast .bitcast lhs .double)
    let rhs ← emit (.cast .bitcast rhs .double)
    let result ← emit (.binary op.opcode lhs rhs)
    toWord result
  | .floatCompare c => do
    let lhs ← emit (.cast .bitcast lhs .double)
    let rhs ← emit (.cast .bitcast rhs .double)
    let flag ← emit (.fcmp c.floatPredicate lhs rhs)
    toWord flag

/-! ### Conditionals -/

/-- One arm of a conditional, in a frame of its own. Unless it leaves the function it goes on to the
merge block, and gives that its value and the block in which it ended. -/
def lowerArm (block merge : BlockRef) (arm : Lower Operand) : Lower (List (Operand × Name)) := do
  moveTo block
  onScope Scope.push
  let value ← arm
  onScope Scope.pop
  if ← terminated then return []
  let last ← ofDraft FunctionDraft.currentRef
  terminate (.branch merge.label)
  return [(value, last.label)]

/-- Branches on whether a word is not zero, and joins the values of the two arms. -/
def lowerBranches (stem : String) (condition : Operand) (positive negative : Lower Operand) :
    Lower Operand := do
  if ← terminated then return .word 0
  let flag ← emit (.icmp .ne condition (.word 0))
  let thenBlock ← addBlock (stem ++ ".then")
  let elseBlock ← addBlock (stem ++ ".else")
  let merge ← addBlock (stem ++ ".merge")
  terminate (.condBranch flag thenBlock.label elseBlock.label)
  let fromThen ← lowerArm thenBlock merge positive
  let fromElse ← lowerArm elseBlock merge negative
  moveTo merge
  match fromThen ++ fromElse with
  | [] =>
    terminate .unreachable
    return .word 0
  | incoming => emit (.phi .word incoming)

/-! ### Functions -/

/-- Makes a lambda a function of its own, to be compiled later, and gives its address. -/
def liftLambda (lambda : Lambda) : Lower Operand := do
  let globals ← ofDraft FunctionDraft.globals
  let name ← onUnit (·.freshLambdaName globals)
  onUnit fun u => ((), { u.ensure (ModuleDraft.placeholder name lambda.params) with
    lifted := u.lifted ++ [name] })
  onDraft fun d => ((), d.enqueue ⟨name, lambda, globals⟩)
  return .global name (.wordFunction lambda.params.length)

/-- A variable as the target of a call: a name bound to a known function is called directly. -/
def lowerCalleeVariable (name : Name) : Lower Operand := do
  match ← local? name with
  | some (.value (.global f (.function result params))) =>
    return .global f (.function result params)
  | some _ => lowerVariable name
  | none =>
    match ← global? name with
    | some (.function arity) => return .global name (.wordFunction arity)
    | _ => lowerVariable name

/-- The target of a call. A lambda or a name may be called directly; any other target is lowered
like a value. -/
def lowerCallee (target : Expr) (lowered : Lower Operand) : Lower Operand :=
  match target with
  | .lambda params body => liftLambda ⟨params, body⟩
  | .var name => lowerCalleeVariable name
  | _ => lowered

/-- Calls a function. The arguments of a known function are counted; anything else is an address. -/
def lowerApplication (callee : Operand) (args : List Operand) : Lower Operand := do
  match callee with
  | .global name (.function _ params) =>
    if params.length = args.length then emit (.callWord callee args)
    else throw (.argumentCount name params.length args.length)
  | _ =>
    let pointer ← emit (.toPointer callee)
    emit (.callWord pointer args)

/-- Stores values to the elements of an array, from an index on. -/
def storeElements (ty : Ty) (base : Operand) : Nat → List Operand → Lower Unit
  | _, [] => pure ()
  | index, value :: values => do
    let element ← emit (.elementPtr ty base (.word (.ofNat index)))
    store value element
    storeElements ty base (index + 1) values

/-- An array of the given values. -/
def lowerElements (values : List Operand) : Lower Operand := do
  let ty ← onUnit (·.arrayType values.length)
  let base ← emit (.alloca ty)
  storeElements ty base 0 values
  emit (.ofPointer base)

/-! ### Expressions -/

mutual

/-- Lowers an expression of a function that assigns to the given names. -/
def lower (assigned : List Name) : Expr → Lower Operand
  | .literal value => lowerLiteral value
  | .var name => lowerVariable name
  | .binary op lhs rhs => do
    let lhs ← lower assigned lhs
    let rhs ← lower assigned rhs
    lowerOperator op lhs rhs
  | .primitive (.library f) args => do
    if args.length ≠ f.arity then
      throw (.argumentCount (Primitive.library f).text f.arity args.length)
    let args ← lowerAll assigned args
    let callee ← onUnit (·.libraryFunction f)
    emit (.callWord callee args)
  | .primitive .vectorRef [vector, index] => do
    let vector ← lower assigned vector
    let index ← lower assigned index
    let base ← emit (.toPointer vector)
    let element ← emit (.elementPtr (.array .word 0) base index)
    emit (.load .word element)
  | .primitive .exactToInexact [value] => do
    let value ← lower assigned value
    let double ← emit (.toDouble value)
    emit (.cast .bitcast double .word)
  | .primitive p args => throw (.argumentCount p.text p.arity args.length)
  | .ifElse condition positive negative => do
    let condition ← lower assigned condition
    lowerBranches "if" condition (lower assigned positive) (lower assigned negative)
  | .cond clauses => lowerClauses assigned clauses
  | .and operands => lowerAnd assigned operands
  | .or operands => lowerOr assigned operands
  | .not operand => do
    let value ← lower assigned operand
    lowerBranches "not" value (pure (.word 0)) (pure (.word 1))
  | .letIn bindings body => do
    let callee ← liftLambda ⟨bindings.map Prod.fst, body⟩
    let args ← lowerBindings assigned bindings
    emit (.callWord callee args)
  | .define name (.lambda params body) => do
    let function ← liftLambda ⟨params, body⟩
    bindLocal assigned name function
    return .word 0
  | .define name value => do
    let value ← lower assigned value
    bindLocal assigned name value
    return .word 0
  | .lambda params body => do
    let function ← liftLambda ⟨params, body⟩
    toWord function
  | .call target args => do
    let callee ← lowerCallee target (lower assigned target)
    let args ← lowerAll assigned args
    lowerApplication callee args
  | .array elements => do
    let values ← lowerAll assigned elements
    lowerElements values
  | .assign name value => do
    let value ← lower assigned value
    lowerAssignment name value
    return .word 0
  | .sequence forms => lowerSequence assigned (.word 0) forms
  | .ret value => do
    let value ← lower assigned value
    unless ← terminated do
      terminate (.ret value)
    return .word 0
termination_by structural e => e

/-- Lowers several expressions, from left to right. -/
def lowerAll (assigned : List Name) : List Expr → Lower (List Operand)
  | [] => pure []
  | e :: es => do
    let value ← lower assigned e
    let values ← lowerAll assigned es
    return value :: values
termination_by structural e => e

/-- Lowers the values of several bindings, from left to right. -/
def lowerBindings (assigned : List Name) : List (Name × Expr) → Lower (List Operand)
  | [] => pure []
  | (_, e) :: bs => do
    let value ← lower assigned e
    let values ← lowerBindings assigned bs
    return value :: values
termination_by structural e => e

/-- Lowers the forms of a body up to the first that leaves the function; the last value counts. -/
def lowerSequence (assigned : List Name) : Operand → List Expr → Lower Operand
  | value, [] => pure value
  | _, e :: es => do
    let value ← lower assigned e
    if ← terminated then return value
    lowerSequence assigned value es
termination_by structural _ es => es

/-- Lowers clauses: the first whose test is not zero counts, and zero if there is none. -/
def lowerClauses (assigned : List Name) : List Clause → Lower Operand
  | [] => pure (.word 0)
  | .otherwise body :: clauses =>
    lowerBranches "cond" (.word 1) (lower assigned body) (lowerClauses assigned clauses)
  | .test predicate body :: clauses => do
    let condition ← lower assigned predicate
    lowerBranches "cond" condition (lower assigned body) (lowerClauses assigned clauses)
termination_by structural e => e

/-- Lowers a conjunction: the last value counts, and zero as soon as one is zero. -/
def lowerAnd (assigned : List Name) : List Expr → Lower Operand
  | [] => pure (.word 1)
  | [e] => lower assigned e
  | e :: es => do
    let condition ← lower assigned e
    lowerBranches "and" condition (lowerAnd assigned es) (pure (.word 0))
termination_by structural e => e

/-- Lowers a disjunction: the first value that is not zero counts. -/
def lowerOr (assigned : List Name) : List Expr → Lower Operand
  | [] => pure (.word 0)
  | [e] => lower assigned e
  | e :: es => do
    let value ← lower assigned e
    lowerBranches "or" value (pure value) (lowerOr assigned es)
termination_by structural e => e

end

/-! ### Bodies -/

/-- A top level form. A definition stores to the global that its name stands for. -/
def lowerForm (assigned : List Name) : Expr → Lower Operand
  | .define name value => do
    let value ← lower assigned value
    assignGlobal name value
    return .word 0
  | form => lower assigned form

/-- The top level forms from an index on, without those at the skipped indices, up to the first
that leaves the function. -/
def lowerForms (assigned : List Name) (skipped : List Nat) :
    (index : Nat) → Operand → List Expr → Lower Operand
  | _, value, [] => pure value
  | index, value, form :: forms => do
    if skipped.contains index then lowerForms assigned skipped (index + 1) value forms
    else
      let value ← lowerForm assigned form
      if ← terminated then return value
      lowerForms assigned skipped (index + 1) value forms

/-- The body of a function, in a frame inside that of its parameters. -/
def lowerBody (assigned : List Name) (lambda : Lambda) : Lower Operand := do
  spillParams assigned lambda.params
  onScope Scope.push
  let value ← lowerSequence assigned (.word 0) lambda.body
  onScope Scope.pop
  return value

/-- The given steps and the end of the function: their value is returned unless they left it
already, and the draft is checked. -/
def lowerWhole (steps : Lower Operand) : Lower FinishedFunction := do
  let value ← steps
  unless ← terminated do
    terminate (.ret value)
  match (← get).draft.finish with
  | .ok finished => return finished
  | .error e => throw e

/-- Builds a function with the given steps. The unit is kept also when that fails. -/
def buildFunction (unit : CompileUnit) (draft : FunctionDraft) (steps : Lower Operand) :
    Except CompileError FinishedFunction × CompileUnit :=
  match (lowerWhole steps).run ⟨{ unit with lifted := [] }, draft⟩ with
  | .ok finished s => (.ok finished, s.unit)
  | .error e s => (.error e, s.unit)

/-- Builds the entry function from the top level forms. The forms at the skipped indices define
functions that are compiled apart. -/
def lowerEntry (unit : CompileUnit) (forms : List Expr) (skipped : List Nat) (globals : Globals) :
    Except CompileError FinishedFunction × CompileUnit :=
  buildFunction unit (.start unit.entry [] globals)
    (lowerForms (assignedAll forms) skipped 0 (.word 0) forms)

/-- Builds a function from its parameters and body. -/
def lowerFunction (unit : CompileUnit) (pending : PendingFunction) :
    Except CompileError FinishedFunction × CompileUnit :=
  buildFunction unit (.start pending.name pending.lambda.params pending.globals)
    (lowerBody (assignedAll pending.lambda.body) pending.lambda)

end WordScheme
