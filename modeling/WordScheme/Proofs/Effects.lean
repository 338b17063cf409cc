import Mathlib
import WordScheme.Lowering

/-!
# What code does besides giving a value

Lowering an expression leaves traces outside of its own instructions. The expression alone tells
which: `Expr.strings` are the strings that get constants, `Expr.lambdas` the functions that its
lambdas and `let`s stand for, and `Expr.demands` what it asks of its module, in the order of
lowering and without lowering anything. Code behind a return demands nothing where it is not
lowered: the forms of a body behind the one that leaves the function, and the arms of a conditional.
So the list depends on whether the function has been left already, and `Expr.leaves` says whether it
has been behind an expression.

An `Effect` has the functions, their number, the leaving and the demands together. It is put
together as code is: one part after another, a part that is left out where the function has been
left, and the two arms of a conditional. `Expr.effect` is the effect of an expression, and the
equations below give it from those of the parts.
-/

namespace WordScheme

/-! ### Strings -/

/-- The string of a literal, if it is one. -/
def Literal.string? : Literal → Option String
  | .string value => some value
  | _ => none

mutual

/-- The strings of an expression, those in the bodies of its functions included. -/
def Expr.strings : Expr → List String
  | .literal value => value.string?.toList
  | .var _ => []
  | .binary _ lhs rhs => lhs.strings ++ rhs.strings
  | .primitive _ args => stringsAll args
  | .ifElse c p n => c.strings ++ p.strings ++ n.strings
  | .cond clauses => clauseStrings clauses
  | .and operands => stringsAll operands
  | .or operands => stringsAll operands
  | .not operand => operand.strings
  | .letIn bindings body => bindingStrings bindings ++ stringsAll body
  | .define _ value => value.strings
  | .lambda _ body => stringsAll body
  | .call target args => target.strings ++ stringsAll args
  | .array elements => stringsAll elements
  | .assign _ value => value.strings
  | .sequence forms => stringsAll forms
  | .ret value => value.strings

/-- The strings of a list of expressions. -/
def stringsAll : List Expr → List String
  | [] => []
  | e :: es => e.strings ++ stringsAll es

/-- The strings of a list of clauses. -/
def clauseStrings : List Clause → List String
  | [] => []
  | .test p b :: cs => p.strings ++ b.strings ++ clauseStrings cs
  | .otherwise b :: cs => b.strings ++ clauseStrings cs

/-- The strings in the values of a list of bindings. -/
def bindingStrings : List (Name × Expr) → List String
  | [] => []
  | (_, e) :: bs => e.strings ++ bindingStrings bs

end

/-! ### Functions -/

mutual

/-- The functions that the lambdas and `let`s of an expression stand for, with or without those
inside of their bodies. -/
def Expr.lambdas (inner : Bool) : Expr → List Lambda
  | .literal _ => []
  | .var _ => []
  | .binary _ lhs rhs => lhs.lambdas inner ++ rhs.lambdas inner
  | .primitive _ args => lambdasAll inner args
  | .ifElse c p n => c.lambdas inner ++ (p.lambdas inner ++ n.lambdas inner)
  | .cond clauses => clauseLambdas inner clauses
  | .and operands => lambdasAll inner operands
  | .or operands => lambdasAll inner operands
  | .not operand => operand.lambdas inner
  | .letIn bindings body =>
    ⟨bindings.map Prod.fst, body⟩ ::
      (bindingLambdas inner bindings ++ if inner then lambdasAll inner body else [])
  | .define _ value => value.lambdas inner
  | .lambda params body => ⟨params, body⟩ :: if inner then lambdasAll inner body else []
  | .call target args => target.lambdas inner ++ lambdasAll inner args
  | .array elements => lambdasAll inner elements
  | .assign _ value => value.lambdas inner
  | .sequence forms => lambdasAll inner forms
  | .ret value => value.lambdas inner

/-- The functions of a list of expressions. -/
def lambdasAll (inner : Bool) : List Expr → List Lambda
  | [] => []
  | e :: es => e.lambdas inner ++ lambdasAll inner es

/-- The functions of a list of clauses. -/
def clauseLambdas (inner : Bool) : List Clause → List Lambda
  | [] => []
  | .test p b :: cs => p.lambdas inner ++ (b.lambdas inner ++ clauseLambdas inner cs)
  | .otherwise b :: cs => b.lambdas inner ++ clauseLambdas inner cs

/-- The functions of the values of a list of bindings. -/
def bindingLambdas (inner : Bool) : List (Name × Expr) → List Lambda
  | [] => []
  | (_, e) :: bs => e.lambdas inner ++ bindingLambdas inner bs

end

/-! ### Demands -/

/-- Something that code asks for outside of its function. -/
inductive Demand where
  | library (f : LibraryFunction)
  | string (value : String)
  | function (lambda : Lambda)

def Literal.demands (value : Literal) : List Demand :=
  value.string?.toList.map .string

def Primitive.demands : Primitive → List Demand
  | .library f => [.library f]
  | _ => []

mutual

/-- The function has been left behind the expression. -/
def Expr.leaves : Expr → Bool
  | .literal _ => false
  | .var _ => false
  | .binary _ lhs rhs => lhs.leaves || rhs.leaves
  | .primitive _ args => leavesAny args
  | .ifElse c p n => c.leaves || (p.leaves && n.leaves)
  | .cond clauses => leavesClauses clauses
  | .and [] => false
  | .and (operand :: _) => operand.leaves
  | .or [] => false
  | .or (operand :: _) => operand.leaves
  | .not operand => operand.leaves
  | .letIn bindings _ => leavesBindings bindings
  | .define _ value => value.leaves
  | .lambda _ _ => false
  | .call target args => target.leaves || leavesAny args
  | .array elements => leavesAny elements
  | .assign _ value => value.leaves
  | .sequence forms => leavesAny forms
  | .ret _ => true

/-- The function has been left behind several expressions. -/
def leavesAny : List Expr → Bool
  | [] => false
  | e :: es => e.leaves || leavesAny es

@[inherit_doc leavesAny]
def leavesBindings : List (Name × Expr) → Bool
  | [] => false
  | (_, e) :: bs => e.leaves || leavesBindings bs

/-- The function has been left behind clauses, each of which is an arm of the branch at its test. -/
def leavesClauses : List Clause → Bool
  | [] => false
  | .test predicate body :: cs => predicate.leaves || (body.leaves && leavesClauses cs)
  | .otherwise body :: cs => body.leaves && leavesClauses cs

end

mutual

/-- What an expression demands, if the function has been left before it or not. -/
def Expr.demands : (left : Bool) → Expr → List Demand
  | _, .literal value => value.demands
  | _, .var _ => []
  | left, .binary _ lhs rhs => lhs.demands left ++ rhs.demands (left || lhs.leaves)
  | left, .primitive p args => demandsAll left args ++ p.demands
  | left, .ifElse c p n =>
    c.demands left ++ if left || c.leaves then [] else p.demands false ++ n.demands false
  | left, .cond clauses => demandsClauses left clauses
  | left, .and operands => demandsChain left operands
  | left, .or operands => demandsChain left operands
  | left, .not operand => operand.demands left
  | left, .letIn bindings body =>
    .function ⟨bindings.map Prod.fst, body⟩ :: demandsBindings left bindings
  | left, .define _ value => value.demands left
  | _, .lambda params body => [.function ⟨params, body⟩]
  | left, .call target args => target.demands left ++ demandsAll (left || target.leaves) args
  | left, .array elements => demandsAll left elements
  | left, .assign _ value => value.demands left
  | left, .sequence forms => demandsChain left forms
  | left, .ret value => value.demands left

/-- What several expressions demand that are all lowered. -/
def demandsAll : (left : Bool) → List Expr → List Demand
  | _, [] => []
  | left, e :: es => e.demands left ++ demandsAll (left || e.leaves) es

@[inherit_doc demandsAll]
def demandsBindings : (left : Bool) → List (Name × Expr) → List Demand
  | _, [] => []
  | left, (_, e) :: bs => e.demands left ++ demandsBindings (left || e.leaves) bs

/-- What several expressions demand of which each is lowered if the function has not been left
behind the one before it. -/
def demandsChain : (left : Bool) → List Expr → List Demand
  | _, [] => []
  | left, e :: es => e.demands left ++ if left || e.leaves then [] else demandsChain false es

/-- What clauses demand. -/
def demandsClauses : (left : Bool) → List Clause → List Demand
  | _, [] => []
  | left, .test predicate body :: cs => predicate.demands left ++
      if left || predicate.leaves then [] else body.demands false ++ demandsClauses false cs
  | left, .otherwise body :: cs =>
    if left then [] else body.demands false ++ demandsClauses false cs

end

/-- What the body of a function demands. -/
def Lambda.demands (l : Lambda) : List Demand :=
  demandsChain false l.body

/-! ### Effects -/

/-- What code does besides giving a value. -/
structure Effect where
  /-- The functions that it may find. -/
  lambdas : List Lambda
  /-- The functions that these give rise to, themselves included. -/
  count : Nat
  /-- The function has been left behind the code. -/
  leaves : Bool
  /-- What the code demands, if the function has been left before it or not. -/
  demands : Bool → List Demand

namespace Effect

/-- Nothing happens. -/
def quiet : Effect :=
  ⟨[], 0, false, fun _ => []⟩

/-- One part after another. -/
def seq (ε δ : Effect) : Effect :=
  ⟨ε.lambdas ++ δ.lambdas, ε.count + δ.count, ε.leaves || δ.leaves,
    fun left => ε.demands left ++ δ.demands (left || ε.leaves)⟩

/-- A part that is left out where the function has been left. -/
def unlessLeft (ε : Effect) : Effect :=
  { ε with demands := fun left => if left then [] else ε.demands false }

/-- The two arms of a conditional. -/
def branches (ε δ : Effect) : Effect :=
  ⟨ε.lambdas ++ δ.lambdas, ε.count + δ.count, ε.leaves && δ.leaves,
    fun left => if left then [] else ε.demands false ++ δ.demands false⟩

/-- The function is left. -/
def leaving : Effect :=
  { quiet with leaves := true }

/-- A lambda becomes a function of its own. -/
def lift (l : Lambda) : Effect :=
  ⟨[l], 1 + functionCounts l.body, false, fun _ => [.function l]⟩

/-- The value of a literal is taken. -/
def literal (value : Literal) : Effect :=
  { quiet with demands := fun _ => value.demands }

/-- A primitive is applied. -/
def primitive (p : Primitive) : Effect :=
  { quiet with demands := fun _ => p.demands }

@[simp]
theorem quiet_seq (ε : Effect) : quiet.seq ε = ε := by
  simp [quiet, seq]

@[simp]
theorem seq_quiet (ε : Effect) : ε.seq quiet = ε := by
  simp [quiet, seq]

end Effect

/-- What an expression does besides giving its value. -/
def Expr.effect (e : Expr) : Effect :=
  ⟨e.lambdas false, e.functionCount, e.leaves, fun left => e.demands left⟩

/-- What several expressions do that are all lowered. -/
def effectAll (es : List Expr) : Effect :=
  ⟨lambdasAll false es, functionCounts es, leavesAny es, fun left => demandsAll left es⟩

/-- What the values of several bindings do. -/
def effectBindings (bs : List (Name × Expr)) : Effect :=
  ⟨bindingLambdas false bs, bindingFunctionCounts bs, leavesBindings bs,
    fun left => demandsBindings left bs⟩

/-- What several expressions do of which each is lowered if the function has not been left behind
the one before it. -/
def effectChain (es : List Expr) : Effect :=
  ⟨lambdasAll false es, functionCounts es, leavesAny es, fun left => demandsChain left es⟩

/-- What clauses do. -/
def effectClauses (cs : List Clause) : Effect :=
  ⟨clauseLambdas false cs, clauseFunctionCounts cs, leavesClauses cs,
    fun left => demandsClauses left cs⟩

/-! ### The effects of expressions, part by part -/

section Equations

open Effect

theorem effectAll_nil : effectAll [] = .quiet := rfl

/-- Expressions in a list take effect from the first on. -/
theorem effectAll_cons (e : Expr) (es : List Expr) :
    effectAll (e :: es) = e.effect.seq (effectAll es) := rfl

theorem effectBindings_nil : effectBindings [] = .quiet := rfl

/-- The values of bindings take effect from the first on. -/
theorem effectBindings_cons (name : Name) (e : Expr) (bs : List (Name × Expr)) :
    effectBindings ((name, e) :: bs) = e.effect.seq (effectBindings bs) := rfl

theorem effectChain_nil : effectChain [] = .quiet := rfl

/-- The rest of a chain takes effect unless its first form left. -/
theorem effectChain_cons (e : Expr) (es : List Expr) :
    effectChain (e :: es) = e.effect.seq (effectChain es).unlessLeft := rfl

theorem effectClauses_nil : effectClauses [] = .quiet := rfl

/-- An `else` clause is a branch against the clauses behind it. -/
theorem effectClauses_otherwise (body : Expr) (cs : List Clause) :
    effectClauses (.otherwise body :: cs) = body.effect.branches (effectClauses cs) := rfl

/-- The predicate of a clause takes effect before its body or the clauses behind it do. -/
theorem effectClauses_test (predicate body : Expr) (cs : List Clause) :
    effectClauses (.test predicate body :: cs) =
      predicate.effect.seq (body.effect.branches (effectClauses cs)) := by
  simp [effectClauses, Expr.effect, seq, branches, clauseLambdas, clauseFunctionCounts,
    leavesClauses, demandsClauses, Nat.add_assoc]

namespace Expr

/-- A literal has the effect of its constant. -/
theorem effect_literal (value : Literal) : (Expr.literal value).effect = .literal value := rfl

theorem effect_var (name : Name) : (Expr.var name).effect = .quiet := rfl

/-- The operands of an operator take effect from left to right. -/
theorem effect_binary (op : BinaryOp) (lhs rhs : Expr) :
    (Expr.binary op lhs rhs).effect = lhs.effect.seq rhs.effect := rfl

/-- The arguments of a primitive take effect before it does. -/
theorem effect_primitive (p : Primitive) (args : List Expr) :
    (Expr.primitive p args).effect = (effectAll args).seq (.primitive p) := by
  simp [effect, effectAll, seq, Effect.primitive, quiet, lambdas, functionCount, leaves, demands]

/-- The condition takes effect first, and then one of the branches does. -/
theorem effect_ifElse (c p n : Expr) :
    (Expr.ifElse c p n).effect = c.effect.seq (p.effect.branches n.effect) := by
  simp [effect, seq, branches, lambdas, functionCount, leaves, demands, Nat.add_assoc]

/-- A conditional has the effect of its clauses. -/
theorem effect_cond (clauses : List Clause) : (Expr.cond clauses).effect = effectClauses clauses :=
  rfl

theorem effect_and_nil : (Expr.and []).effect = .quiet := rfl

/-- A conjunction of one operand has that operand's effect. -/
theorem effect_and_singleton (e : Expr) : (Expr.and [e]).effect = e.effect := by
  simp [effect, lambdas, lambdasAll, functionCount, functionCounts, leaves, demands, demandsChain]

/-- Behind a conjunction the function has been left if it has been behind the first operand, since
one arm of the branch that follows does not leave it. -/
theorem effect_and_cons_cons (e d : Expr) (es : List Expr) : (Expr.and (e :: d :: es)).effect =
    e.effect.seq ((Expr.and (d :: es)).effect.branches quiet) := by
  simp [effect, seq, branches, quiet, lambdas, lambdasAll, functionCount, functionCounts, leaves,
    demands, demandsChain]

theorem effect_or_nil : (Expr.or []).effect = .quiet := rfl

theorem effect_or_singleton (e : Expr) : (Expr.or [e]).effect = e.effect := by
  simp [effect, lambdas, lambdasAll, functionCount, functionCounts, leaves, demands, demandsChain]

@[inherit_doc effect_and_cons_cons]
theorem effect_or_cons_cons (e d : Expr) (es : List Expr) : (Expr.or (e :: d :: es)).effect =
    e.effect.seq (quiet.branches (Expr.or (d :: es)).effect) := by
  simp [effect, seq, branches, quiet, lambdas, lambdasAll, functionCount, functionCounts, leaves,
    demands, demandsChain]

/-- A negation branches on its operand, and neither branch has an effect. -/
theorem effect_not (operand : Expr) :
    (Expr.not operand).effect = operand.effect.seq (quiet.branches quiet) := by
  simp [effect, seq, branches, quiet, lambdas, functionCount, leaves, demands]

/-- A `let` lifts its body as a lambda and then evaluates what it binds. -/
theorem effect_letIn (bindings : List (Name × Expr)) (body : List Expr) :
    (Expr.letIn bindings body).effect =
      (Effect.lift ⟨bindings.map Prod.fst, body⟩).seq (effectBindings bindings) := by
  simp [effect, effectBindings, seq, lift, lambdas, functionCount, leaves, demands,
    Nat.add_right_comm]

/-- A definition has the effect of its value. -/
theorem effect_define (name : Name) (value : Expr) :
    (Expr.define name value).effect = value.effect := rfl

/-- A lambda is lifted. -/
theorem effect_lambda (params : List Name) (body : List Expr) :
    (Expr.lambda params body).effect = .lift ⟨params, body⟩ := by
  simp [effect, lift, lambdas, functionCount, leaves, demands]

/-- The callee takes effect before the arguments do. -/
theorem effect_call (target : Expr) (args : List Expr) :
    (Expr.call target args).effect = target.effect.seq (effectAll args) := rfl

/-- An array has the effect of its elements. -/
theorem effect_array (elements : List Expr) : (Expr.array elements).effect = effectAll elements :=
  rfl

/-- An assignment has the effect of its value. -/
theorem effect_assign (name : Name) (value : Expr) :
    (Expr.assign name value).effect = value.effect := rfl

/-- A sequence has the effect of its forms, up to the first that leaves. -/
theorem effect_sequence (forms : List Expr) : (Expr.sequence forms).effect = effectChain forms :=
  rfl

/-- A return evaluates its value and leaves. -/
theorem effect_ret (value : Expr) : (Expr.ret value).effect = value.effect.seq .leaving := by
  simp [effect, seq, leaving, quiet, lambdas, functionCount, leaves, demands]

end Expr

end Equations

end WordScheme
