import Mathlib
import WordScheme.Scope

/-!
# The meaning of first-order programs

A direct evaluator for the part of the language whose values are all words: integers, characters,
truth values and the empty list; local and top level variables; operators on words; conditionals,
definitions, assignments, `return`; calls of library functions and of other functions. Lambdas,
`let`, arrays, doubles and strings are left out, and `Expr.isFirstOrder` says so.

Local variables live in a stack of frames, one for the parameters, one for the body and one for each
arm of a conditional that is under way. What a call does is not known here: it is up to a `World`,
which turns the callee, the arguments and the values of the top level variables into a word and new
values, and every call is recorded. Arithmetic has no result where the operation on words has none:
for a divisor of zero, for the least word divided by minus one, and for shifts by 64 or more.
-/

namespace WordScheme

/-! ### The world -/

/-- The values of the top level variables. -/
abbrev Store := Name → Int64

/-- What is called: a function by its name, or whatever is at an address. -/
inductive Callee where
  | named (name : Name)
  | address (word : Int64)
deriving DecidableEq, Repr

/-- A call and the store that it found. -/
structure Event where
  callee : Callee
  args : List Int64
  store : Store

/-- What a function does not know: where functions are, and what calls do. -/
structure World where
  address : Name → Int64
  call : Callee → List Int64 → Store → Int64 × Store

/-- What a function gives: its word, the store it leaves, and the calls it made. -/
structure Answer where
  word : Int64
  store : Store
  trace : List Event

/-! ### Operators on words -/

/-- The word that a literal stands for, if it is a word. -/
def Literal.word? : Literal → Option Int64
  | .integer value => some value
  | .character value => some (.ofNat value.toNat)
  | .boolean value => some (if value then 1 else 0)
  | .empty => some 0
  | .double _ => none
  | .string _ => none

/-- Whether a word is an amount by which words can be shifted. -/
def isShiftAmount (amount : Int64) : Bool :=
  0 ≤ amount && amount < 64

/-- The result of an operation, if it has one. Shifts to the right fill up with zeros. -/
def WordOp.eval (a b : Int64) : WordOp → Option Int64
  | .add => some (a + b)
  | .subtract => some (a - b)
  | .multiply => some (a * b)
  | .divide => if b = 0 || (a = Int64.minValue && b = -1) then none else some (a / b)
  | .shiftLeft => if isShiftAmount b then some (a <<< b) else none
  | .shiftRight => if isShiftAmount b then some (a.toUInt64 >>> b.toUInt64).toInt64 else none
  | .bitOr => some (a ||| b)

/-- Whether a comparison of signed words holds. -/
def Comparison.holds (a b : Int64) : Comparison → Bool
  | .equal => a == b
  | .less => a < b
  | .lessOrEqual => a ≤ b
  | .greater => b < a
  | .greaterOrEqual => b ≤ a

/-- A truth value as a word. -/
def wordOfBool (b : Bool) : Int64 :=
  if b then 1 else 0

/-! ### Evaluation -/

/-- The state of a function that is being evaluated: local variables, in frames of which the
innermost comes first, top level variables, and the calls so far. -/
structure Activation where
  locals : List (Assoc Name Int64)
  store : Store
  trace : List Event

/-- Why the evaluation of an expression ends without a value. -/
inductive Exit where
  /-- The function has been left with this word. -/
  | returned (word : Int64)
  /-- There is no result. -/
  | undefined
deriving DecidableEq, Repr

/-- Evaluation of something that may leave the function. -/
abbrev Eval := EStateM Exit Activation

namespace Eval

/-- The value of a local variable, from the innermost frame that has it. -/
def lookupIn? (name : Name) : List (Assoc Name Int64) → Option Int64
  | [] => none
  | frame :: frames => (frame.get? name).or (lookupIn? name frames)

/-- Gives a variable a value in the innermost frame. -/
def bindIn (name : Name) (value : Int64) : List (Assoc Name Int64) → List (Assoc Name Int64)
  | [] => []
  | frame :: frames => frame.put name value :: frames

/-- Gives a variable a new value in the innermost frame that has it. -/
def assignIn (name : Name) (value : Int64) : List (Assoc Name Int64) → List (Assoc Name Int64)
  | [] => []
  | frame :: frames =>
    if frame.has name then frame.put name value :: frames
    else frame :: assignIn name value frames

/-- There is no result. -/
def undefined {α : Type} : Eval α :=
  throw .undefined

/-- A result that may be missing. -/
def ofOption {α : Type} : Option α → Eval α
  | some a => pure a
  | none => undefined

/-- The value of a local variable. -/
def local? (name : Name) : Eval (Option Int64) := do
  return lookupIn? name (← get).locals

/-- Gives a local variable a value. -/
def bindLocal (name : Name) (value : Int64) : Eval Unit :=
  modify fun a => { a with locals := bindIn name value a.locals }

/-- Evaluation in a frame of its own. -/
def inFrame {α : Type} (body : Eval α) : Eval α := do
  modify fun a => { a with locals := [] :: a.locals }
  let value ← body
  modify fun a => { a with locals := a.locals.tail }
  return value

/-- A call. -/
def call (world : World) (callee : Callee) (args : List Int64) : Eval Int64 :=
  modifyGet fun a =>
    let result := world.call callee args a.store
    (result.1, { a with store := result.2, trace := a.trace ++ [⟨callee, args, a.store⟩] })

/-- The value of a variable, local ones coming before top level ones. The value of a function is its
address. -/
def variableValue (world : World) (globals : Globals) (name : Name) : Eval Int64 := do
  match ← local? name with
  | some value => return value
  | none =>
    match globals.get? name with
    | some .var => return (← get).store name
    | some (.function _) => return world.address name
    | none => undefined

/-- Gives a top level variable a value. -/
def assignGlobal (globals : Globals) (name : Name) (value : Int64) : Eval Unit :=
  match globals.get? name with
  | some .var => modify fun a => { a with store := Function.update a.store name value }
  | _ => undefined

/-- Gives a variable a value, local ones coming before top level ones. -/
def assign (globals : Globals) (name : Name) (value : Int64) : Eval Unit := do
  match ← local? name with
  | some _ => modify fun a => { a with locals := assignIn name value a.locals }
  | none => assignGlobal globals name value

/-- What a name calls: a top level function, unless a local variable comes before it. -/
def calleeVariable (world : World) (globals : Globals) (name : Name) : Eval Callee := do
  match ← local? name with
  | some value => return .address value
  | none =>
    match globals.get? name with
    | some (.function _) => return .named name
    | _ => return .address (← variableValue world globals name)

/-- What the target of a call calls; `value` is the evaluation of the target. -/
def calleeOf (world : World) (globals : Globals) (target : Expr) (value : Eval Int64) :
    Eval Callee :=
  match target with
  | .var name => calleeVariable world globals name
  | _ => return .address (← value)

/-- Calls a function; top level functions take a fixed number of arguments. -/
def apply (world : World) (globals : Globals) (callee : Callee) (args : List Int64) : Eval Int64 :=
  match callee with
  | .named name =>
    if globals.get? name = some (.function args.length) then call world callee args else undefined
  | .address _ => call world callee args

end Eval

mutual

/-- The value of an expression. -/
def eval (world : World) (globals : Globals) : Expr → Eval Int64
  | .literal value => Eval.ofOption value.word?
  | .var name => Eval.variableValue world globals name
  | .binary (.word op) lhs rhs => do
    let a ← eval world globals lhs
    let b ← eval world globals rhs
    Eval.ofOption (op.eval a b)
  | .binary (.compare c) lhs rhs => do
    let a ← eval world globals lhs
    let b ← eval world globals rhs
    return wordOfBool (c.holds a b)
  | .binary _ _ _ => Eval.undefined
  | .primitive (.library f) args => do
    if args.length ≠ f.arity then Eval.undefined
    let args ← evalAll world globals args
    Eval.call world (.named f.symbol) args
  | .primitive _ _ => Eval.undefined
  | .ifElse condition positive negative => do
    let test ← eval world globals condition
    if test ≠ 0 then Eval.inFrame (eval world globals positive)
    else Eval.inFrame (eval world globals negative)
  | .cond clauses => evalClauses world globals clauses
  | .and operands => evalAnd world globals operands
  | .or operands => evalOr world globals operands
  | .not operand => do
    let value ← eval world globals operand
    return wordOfBool (value == 0)
  | .letIn _ _ => Eval.undefined
  | .define name value => do
    let value ← eval world globals value
    Eval.bindLocal name value
    return 0
  | .lambda _ _ => Eval.undefined
  | .call target args => do
    let callee ← Eval.calleeOf world globals target (eval world globals target)
    let args ← evalAll world globals args
    Eval.apply world globals callee args
  | .array _ => Eval.undefined
  | .assign name value => do
    let value ← eval world globals value
    Eval.assign globals name value
    return 0
  | .sequence forms => evalSequence world globals 0 forms
  | .ret value => do
    let value ← eval world globals value
    throw (.returned value)
termination_by structural e => e

/-- The values of several expressions, from left to right. -/
def evalAll (world : World) (globals : Globals) : List Expr → Eval (List Int64)
  | [] => pure []
  | e :: es => do
    let value ← eval world globals e
    let values ← evalAll world globals es
    return value :: values
termination_by structural e => e

/-- The value of the last of several forms. -/
def evalSequence (world : World) (globals : Globals) : Int64 → List Expr → Eval Int64
  | value, [] => pure value
  | _, e :: es => do
    let value ← eval world globals e
    evalSequence world globals value es
termination_by structural _ es => es

/-- The value of the first clause whose test is not zero, and zero if there is none. The tests after
the first are evaluated in the frame of what is left of the `cond`. -/
def evalClauses (world : World) (globals : Globals) : List Clause → Eval Int64
  | [] => pure 0
  | .otherwise body :: _ => Eval.inFrame (eval world globals body)
  | .test predicate body :: clauses => do
    let test ← eval world globals predicate
    if test ≠ 0 then Eval.inFrame (eval world globals body)
    else Eval.inFrame (evalClauses world globals clauses)
termination_by structural e => e

/-- The last value of a conjunction, and zero as soon as one is zero. -/
def evalAnd (world : World) (globals : Globals) : List Expr → Eval Int64
  | [] => pure 1
  | [e] => eval world globals e
  | e :: es => do
    let test ← eval world globals e
    if test ≠ 0 then Eval.inFrame (evalAnd world globals es) else return 0
termination_by structural e => e

/-- The first value of a disjunction that is not zero. -/
def evalOr (world : World) (globals : Globals) : List Expr → Eval Int64
  | [] => pure 0
  | [e] => eval world globals e
  | e :: es => do
    let value ← eval world globals e
    if value ≠ 0 then return value else Eval.inFrame (evalOr world globals es)
termination_by structural e => e

end

/-- A top level form. A definition gives a top level variable its value. -/
def evalForm (world : World) (globals : Globals) : Expr → Eval Int64
  | .define name value => do
    let value ← eval world globals value
    Eval.assignGlobal globals name value
    return 0
  | form => eval world globals form

/-- The value of the last of the top level forms from an index on that are not skipped. -/
def evalForms (world : World) (globals : Globals) (skipped : List Nat) :
    (index : Nat) → Int64 → List Expr → Eval Int64
  | _, value, [] => pure value
  | index, value, form :: forms => do
    if skipped.contains index then evalForms world globals skipped (index + 1) value forms
    else
      let value ← evalForm world globals form
      evalForms world globals skipped (index + 1) value forms

/-! ### Answers -/

/-- What the evaluation of a body answers: its value, or the word with which it left. -/
def answerOf : EStateM.Result Exit Activation Int64 → Option Answer
  | .ok word a => some ⟨word, a.store, a.trace⟩
  | .error (.returned word) a => some ⟨word, a.store, a.trace⟩
  | .error .undefined _ => none

/-- The answer of a function to its arguments. -/
def Lambda.answer? (lambda : Lambda) (world : World) (globals : Globals) (args : List Int64)
    (store : Store) : Option Answer :=
  if args.length = lambda.params.length then
    answerOf (evalSequence world globals 0 lambda.body ⟨[[], lambda.params.zip args], store, []⟩)
  else none

/-- The answer of the top level forms of a program. -/
def programAnswer? (forms : List Expr) (skipped : List Nat) (world : World) (globals : Globals)
    (store : Store) : Option Answer :=
  answerOf (evalForms world globals skipped 0 0 forms ⟨[[]], store, []⟩)

/-! ### The fragment -/

mutual

/-- Whether an expression is made of words only. -/
def Expr.isFirstOrder : Expr → Bool
  | .literal value => value.word?.isSome
  | .var _ => true
  | .binary (.word _) lhs rhs => lhs.isFirstOrder && rhs.isFirstOrder
  | .binary (.compare _) lhs rhs => lhs.isFirstOrder && rhs.isFirstOrder
  | .binary _ _ _ => false
  | .primitive (.library _) args => areFirstOrder args
  | .primitive _ _ => false
  | .ifElse c p n => c.isFirstOrder && p.isFirstOrder && n.isFirstOrder
  | .cond clauses => clausesAreFirstOrder clauses
  | .and operands => areFirstOrder operands
  | .or operands => areFirstOrder operands
  | .not operand => operand.isFirstOrder
  | .letIn _ _ => false
  | .define _ value => value.isFirstOrder
  | .lambda _ _ => false
  | .call target args => target.isFirstOrder && areFirstOrder args
  | .array _ => false
  | .assign _ value => value.isFirstOrder
  | .sequence forms => areFirstOrder forms
  | .ret value => value.isFirstOrder

/-- Whether several expressions are made of words only. -/
def areFirstOrder : List Expr → Bool
  | [] => true
  | e :: es => e.isFirstOrder && areFirstOrder es

/-- Whether several clauses are made of words only. -/
def clausesAreFirstOrder : List Clause → Bool
  | [] => true
  | .test p b :: cs => p.isFirstOrder && b.isFirstOrder && clausesAreFirstOrder cs
  | .otherwise b :: cs => b.isFirstOrder && clausesAreFirstOrder cs

end

/-- Whether the top level forms from an index on that are not skipped are made of words only. -/
def formsAreFirstOrder (skipped : List Nat) : (index : Nat) → List Expr → Bool
  | _, [] => true
  | index, form :: forms =>
    (skipped.contains index || form.isFirstOrder) && formsAreFirstOrder skipped (index + 1) forms

end WordScheme
