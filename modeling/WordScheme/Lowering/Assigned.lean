import WordScheme.Expr

/-!
# Assigned names

The names that a function body assigns to. Lambda and `let` bodies are functions of their own and
are not searched; the values that a `let` binds belong to the enclosing function.
-/

namespace WordScheme

mutual

/-- The names that an expression assigns to, as part of one function. -/
def Expr.assigned : Expr → List Name
  | .literal _ => []
  | .var _ => []
  | .binary _ lhs rhs => lhs.assigned ++ rhs.assigned
  | .primitive _ args => assignedAll args
  | .ifElse c p n => c.assigned ++ p.assigned ++ n.assigned
  | .cond clauses => assignedClauses clauses
  | .and operands => assignedAll operands
  | .or operands => assignedAll operands
  | .not operand => operand.assigned
  | .letIn bindings _ => assignedBindings bindings
  | .define _ value => value.assigned
  | .lambda _ _ => []
  | .call target args => target.assigned ++ assignedAll args
  | .array elements => assignedAll elements
  | .assign name value => name :: value.assigned
  | .sequence forms => assignedAll forms
  | .ret value => value.assigned

/-- The names that a list of expressions assigns to. -/
def assignedAll : List Expr → List Name
  | [] => []
  | e :: es => e.assigned ++ assignedAll es

/-- The names that a list of clauses assigns to. -/
def assignedClauses : List Clause → List Name
  | [] => []
  | .test p b :: cs => p.assigned ++ b.assigned ++ assignedClauses cs
  | .otherwise b :: cs => b.assigned ++ assignedClauses cs

/-- The names that the values of a list of bindings assign to. -/
def assignedBindings : List (Name × Expr) → List Name
  | [] => []
  | (_, e) :: bs => e.assigned ++ assignedBindings bs

end

end WordScheme
