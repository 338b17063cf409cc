import WordScheme.Double
import WordScheme.Operator

/-!
# Expressions

The abstract syntax of a program: a program is a list of top level forms, each an `Expr`. The empty
list doubles as the value of forms that have none of their own.
-/

namespace WordScheme

/-- A name of a program or of its output. -/
abbrev Name := String

/-- Literal values. -/
inductive Literal where
  | integer (value : Int64)
  | double (value : Double)
  | character (value : Char)
  | boolean (value : Bool)
  | string (value : String)
  | empty
deriving Repr

mutual

/-- An expression. -/
inductive Expr where
  | literal (value : Literal)
  | var (name : Name)
  | binary (op : BinaryOp) (lhs rhs : Expr)
  | primitive (p : Primitive) (args : List Expr)
  | ifElse (condition positive negative : Expr)
  | cond (clauses : List Clause)
  | and (operands : List Expr)
  | or (operands : List Expr)
  | not (operand : Expr)
  | letIn (bindings : List (Name × Expr)) (body : List Expr)
  | define (name : Name) (value : Expr)
  | lambda (params : List Name) (body : List Expr)
  | call (target : Expr) (args : List Expr)
  | array (elements : List Expr)
  | assign (name : Name) (value : Expr)
  | sequence (forms : List Expr)
  /-- Leaves the enclosing function early. -/
  | ret (value : Expr)

/-- A clause of a `cond`. -/
inductive Clause where
  | test (predicate body : Expr)
  | otherwise (body : Expr)

end

/-- Parameters and body of a function. -/
structure Lambda where
  params : List Name
  body : List Expr

namespace Expr

/-- An integer as an expression. -/
def integer (value : Int64) : Expr :=
  .literal (.integer value)

/-- The empty list as an expression. -/
def empty : Expr :=
  .literal .empty

end Expr

/-! ### Functions within expressions -/

mutual

/-- The number of functions that an expression gives rise to: one for each lambda and each `let`. -/
def Expr.functionCount : Expr → Nat
  | .literal _ => 0
  | .var _ => 0
  | .binary _ lhs rhs => lhs.functionCount + rhs.functionCount
  | .primitive _ args => functionCounts args
  | .ifElse c p n => c.functionCount + p.functionCount + n.functionCount
  | .cond clauses => clauseFunctionCounts clauses
  | .and operands => functionCounts operands
  | .or operands => functionCounts operands
  | .not operand => operand.functionCount
  | .letIn bindings body => 1 + bindingFunctionCounts bindings + functionCounts body
  | .define _ value => value.functionCount
  | .lambda _ body => 1 + functionCounts body
  | .call target args => target.functionCount + functionCounts args
  | .array elements => functionCounts elements
  | .assign _ value => value.functionCount
  | .sequence forms => functionCounts forms
  | .ret value => value.functionCount

/-- The functions that a list of expressions gives rise to. -/
def functionCounts : List Expr → Nat
  | [] => 0
  | e :: es => e.functionCount + functionCounts es

/-- The functions that a list of clauses gives rise to. -/
def clauseFunctionCounts : List Clause → Nat
  | [] => 0
  | .test p b :: cs => p.functionCount + b.functionCount + clauseFunctionCounts cs
  | .otherwise b :: cs => b.functionCount + clauseFunctionCounts cs

/-- The functions that the values of a list of bindings give rise to. -/
def bindingFunctionCounts : List (Name × Expr) → Nat
  | [] => 0
  | (_, e) :: bs => e.functionCount + bindingFunctionCounts bs

end

end WordScheme
