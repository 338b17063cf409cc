import Mathlib
import WordScheme.Proofs.CompileCalls
import WordScheme.Proofs.LambdaNodes

/-!
# A static check of programs

Which names a function body may use is decided without lowering it. The check goes through the body
in the order of lowering and carries the local names that can be seen, the latest first:
`Expr.after` says which can be seen behind an expression, and `Expr.wellFormed` whether all names
and numbers of arguments in the expression are right. Definitions inside an arm of a conditional are
gone behind it, as only what comes before the branch is carried on. A lambda or `let` body is a
function of its own, which sees its parameters alone, so expressions are checked without those.

`isWellFormed` puts the checks of all functions of a program together.
-/

namespace WordScheme

/-! ### Local names -/

/-- The local names that can be seen, the latest first. A name that can only be one known function
comes with the number of its parameters. -/
abbrev Locals := Assoc Name (Option Nat)

/-- The number of parameters of a lambda. -/
def Expr.arity? : Expr → Option Nat
  | .lambda params _ => some params.length
  | _ => none

mutual

/-- The local names that can be seen behind an expression of a function that assigns to the given
names. -/
def Expr.after (assigned : List Name) : Expr → Locals → Locals
  | .literal _, locals => locals
  | .var _, locals => locals
  | .binary _ lhs rhs, locals => rhs.after assigned (lhs.after assigned locals)
  | .primitive _ args, locals => afterAll assigned args locals
  | .ifElse condition _ _, locals => condition.after assigned locals
  | .cond (.test predicate _ :: _), locals => predicate.after assigned locals
  | .cond _, locals => locals
  | .and (operand :: _), locals => operand.after assigned locals
  | .and [], locals => locals
  | .or (operand :: _), locals => operand.after assigned locals
  | .or [], locals => locals
  | .not operand, locals => operand.after assigned locals
  | .letIn bindings _, locals => afterBindings assigned bindings locals
  | .define name value, locals =>
    (name, if assigned.contains name then none else value.arity?) :: value.after assigned locals
  | .lambda _ _, locals => locals
  | .call target args, locals => afterAll assigned args (target.after assigned locals)
  | .array elements, locals => afterAll assigned elements locals
  | .assign _ value, locals => value.after assigned locals
  | .sequence forms, locals => afterAll assigned forms locals
  | .ret value, locals => value.after assigned locals
termination_by structural e => e

/-- The local names that can be seen behind several expressions. -/
def afterAll (assigned : List Name) : List Expr → Locals → Locals
  | [], locals => locals
  | e :: es, locals => afterAll assigned es (e.after assigned locals)
termination_by structural es => es

/-- The local names that can be seen behind the values of several bindings. -/
def afterBindings (assigned : List Name) : List (Name × Expr) → Locals → Locals
  | [], locals => locals
  | (_, e) :: bs, locals => afterBindings assigned bs (e.after assigned locals)
termination_by structural bs => bs

end

/-! ### Names and calls -/

section Check

variable (top : Name → Option GlobalKind)

/-- A name that means something: a local name or one of the top level. -/
def isKnown (locals : Locals) (name : Name) : Bool :=
  locals.has name || (top name).isSome

/-- A name that may be assigned to: a local name or a variable of the top level. -/
def isAssignable (locals : Locals) (name : Name) : Bool :=
  locals.has name || top name == some .var

/-- The number of parameters of the function that a call is known to go to: a lambda, a local name
for a known function, or a function of the top level that no local name hides. -/
def calleeArity? (locals : Locals) : Expr → Option Nat
  | .lambda params _ => some params.length
  | .var name =>
    match locals.get? name, top name with
    | some arity?, _ => arity?
    | none, some (.function arity) => some arity
    | none, _ => none
  | _ => none

/-! ### Expressions and functions -/

mutual

/-- Every name in an expression means something where it stands, no function is assigned to, and
every primitive and every known function has as many arguments as parameters. -/
def Expr.wellFormed (assigned : List Name) : Expr → Locals → Bool
  | .literal _, _ => true
  | .var name, locals => isKnown top locals name
  | .binary _ lhs rhs, locals =>
    lhs.wellFormed assigned locals && rhs.wellFormed assigned (lhs.after assigned locals)
  | .primitive p args, locals => args.length == p.arity && wellFormedAll assigned args locals
  | .ifElse condition positive negative, locals =>
    condition.wellFormed assigned locals &&
      (positive.wellFormed assigned (condition.after assigned locals) &&
        negative.wellFormed assigned (condition.after assigned locals))
  | .cond clauses, locals => wellFormedClauses assigned clauses locals
  | .and operands, locals => wellFormedAll assigned operands locals
  | .or operands, locals => wellFormedAll assigned operands locals
  | .not operand, locals => operand.wellFormed assigned locals
  | .letIn bindings _, locals => wellFormedBindings assigned bindings locals
  | .define _ value, locals => value.wellFormed assigned locals
  | .lambda _ _, _ => true
  | .call target args, locals =>
    target.wellFormed assigned locals &&
      (wellFormedAll assigned args (target.after assigned locals) &&
        (calleeArity? top locals target).all (· == args.length))
  | .array elements, locals => wellFormedAll assigned elements locals
  | .assign name value, locals =>
    value.wellFormed assigned locals && isAssignable top (value.after assigned locals) name
  | .sequence forms, locals => wellFormedAll assigned forms locals
  | .ret value, locals => value.wellFormed assigned locals

/-- Each of several expressions is well formed behind those before it. -/
def wellFormedAll (assigned : List Name) : List Expr → Locals → Bool
  | [], _ => true
  | e :: es, locals =>
    e.wellFormed assigned locals && wellFormedAll assigned es (e.after assigned locals)

/-- Each of several values is well formed behind those before it. -/
def wellFormedBindings (assigned : List Name) : List (Name × Expr) → Locals → Bool
  | [], _ => true
  | (_, e) :: bs, locals =>
    e.wellFormed assigned locals && wellFormedBindings assigned bs (e.after assigned locals)

/-- The body of a clause and the clauses behind it are arms of the branch at its test. -/
def wellFormedClauses (assigned : List Name) : List Clause → Locals → Bool
  | [], _ => true
  | .test predicate body :: clauses, locals =>
    predicate.wellFormed assigned locals &&
      (body.wellFormed assigned (predicate.after assigned locals) &&
        wellFormedClauses assigned clauses (predicate.after assigned locals))
  | .otherwise body :: clauses, locals =>
    body.wellFormed assigned locals && wellFormedClauses assigned clauses locals

end

/-- A function is well formed if its body is, in which its parameters can be seen. -/
def Lambda.wellFormed (l : Lambda) : Bool :=
  wellFormedAll top (assignedAll l.body) l.body (l.params.map (·, none))

/-- The forms of a program are well formed, as the body of the entry function, behind those that
define the given names. A definition after the first must not be of a function. -/
def wellFormedForms (assigned : List Name) : (defined : List Name) → List Expr → Locals → Bool
  | _, [], _ => true
  | defined, .define name value :: forms, locals =>
    value.wellFormed top assigned locals &&
      ((!defined.contains name || top name == some .var) &&
        wellFormedForms assigned (name :: defined) forms (value.after assigned locals))
  | defined, form :: forms, locals =>
    form.wellFormed top assigned locals &&
      wellFormedForms assigned defined forms (form.after assigned locals)

end Check

/-! ### Programs -/

/-- What a name becomes that is defined as the given value. -/
def Expr.kind (value : Expr) : GlobalKind :=
  match value.arity? with
  | some arity => .function arity
  | none => .var

/-- How the top level of a program defines a name: the first definition decides. -/
def topKind? (forms : List Expr) (name : Name) : Option GlobalKind :=
  (firstDefinition? name forms).map Expr.kind

/-- The name that a form defines is not reserved. -/
def Expr.isAllowed (entry : Name) : Expr → Bool
  | .define name _ => !TopLevel.isReserved entry name
  | _ => true

/-- No reserved name is defined, and the forms and all functions inside of them are well formed. -/
def isWellFormed (entry : Name) (forms : List Expr) : Bool :=
  forms.all (Expr.isAllowed entry) &&
    (wellFormedForms (topKind? forms) (assignedAll forms) [] forms [] &&
      (lambdasAll true forms).all (Lambda.wellFormed (topKind? forms)))

/-! ### Programs without a return -/

mutual

/-- Nothing in an expression leaves the function early, the bodies of other functions apart. -/
def Expr.returnFree : Expr → Bool
  | .literal _ => true
  | .var _ => true
  | .binary _ lhs rhs => lhs.returnFree && rhs.returnFree
  | .primitive _ args => returnFreeAll args
  | .ifElse c p n => c.returnFree && (p.returnFree && n.returnFree)
  | .cond clauses => returnFreeClauses clauses
  | .and operands => returnFreeAll operands
  | .or operands => returnFreeAll operands
  | .not operand => operand.returnFree
  | .letIn bindings _ => returnFreeBindings bindings
  | .define _ value => value.returnFree
  | .lambda _ _ => true
  | .call target args => target.returnFree && returnFreeAll args
  | .array elements => returnFreeAll elements
  | .assign _ value => value.returnFree
  | .sequence forms => returnFreeAll forms
  | .ret _ => false

@[inherit_doc Expr.returnFree]
def returnFreeAll : List Expr → Bool
  | [] => true
  | e :: es => e.returnFree && returnFreeAll es

@[inherit_doc Expr.returnFree]
def returnFreeClauses : List Clause → Bool
  | [] => true
  | .test p b :: cs => p.returnFree && (b.returnFree && returnFreeClauses cs)
  | .otherwise b :: cs => b.returnFree && returnFreeClauses cs

@[inherit_doc Expr.returnFree]
def returnFreeBindings : List (Name × Expr) → Bool
  | [] => true
  | (_, e) :: bs => e.returnFree && returnFreeBindings bs

end

/-- No form and no function inside of the forms has a return. -/
def isReturnFree (forms : List Expr) : Bool :=
  returnFreeAll forms && (lambdasAll true forms).all fun l => returnFreeAll l.body

end WordScheme
