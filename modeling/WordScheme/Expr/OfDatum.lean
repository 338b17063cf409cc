import WordScheme.Datum
import WordScheme.Expr
import WordScheme.Text.Numeral

/-!
# Data as expressions

`Datum.toExpr` gives a datum its meaning. An atom is a literal or a variable; a list is a special
form, an operator at work or a call, as its head decides. Operands are read from left to right and
the first error is reported.
-/

namespace WordScheme

/-- A form with a defect, at a span. -/
def malformed {α : Type} (form : Form) (defect : Defect) (span : Span) : Except ReadError α :=
  .error ⟨.malformed form defect, span⟩

/-! ### Atoms -/

/-- The character that a literal without its `#\` denotes: itself, or one with a name. -/
def characterNamed? : List Char → Option Char
  | [c] => some c
  | cs =>
    [("space", ' '), ("newline", '\n'), ("tab", '\t'), ("nul", '\x00')].lookup (String.ofList cs)

/-- The text of a string behind its opening quote. A quote ends it; a backslash stands before `n`,
`t`, a backslash or a quote. -/
def unescape : List Char → Except ReadFault (List Char)
  | [] => .error .unterminatedString
  | '\x22' :: _ => .ok []
  | ['\\'] => .error .unterminatedString
  | '\\' :: 'n' :: cs => (unescape cs).map ('\n' :: ·)
  | '\\' :: 't' :: cs => (unescape cs).map ('\t' :: ·)
  | '\\' :: '\\' :: cs => (unescape cs).map ('\\' :: ·)
  | '\\' :: '\x22' :: cs => (unescape cs).map ('\x22' :: ·)
  | '\\' :: c :: _ => .error (.invalidEscape c)
  | c :: cs => (unescape cs).map (c :: ·)

/-- The meaning of an atom. -/
def atomExpr (kind : AtomKind) (text : String) : Except ReadFault Expr :=
  match kind with
  | .integer =>
    match Numeral.word? text.toList with
    | some value => .ok (.literal (.integer value))
    | none => .error (.invalidAtom text)
  | .decimal =>
    match Numeral.double? text.toList with
    | some value => .ok (.literal (.double value))
    | none => .error (.invalidAtom text)
  | .boolean => .ok (.literal (.boolean (text == "#t" || text == "#true")))
  | .character =>
    let name := text.toList.drop 2
    match characterNamed? name with
    | some value => .ok (.literal (.character value))
    | none => .error (.unknownCharacterName (String.ofList name))
  | .string => (unescape (text.toList.drop 1)).map fun cs => .literal (.string (String.ofList cs))
  | .identifier => if isOperatorName text then .error (.operatorAsValue text) else .ok (.var text)

/-! ### Parts of forms -/

/-- The name that a form expects here. -/
def Datum.name (form : Keyword) (d : Datum) : Except ReadError Name :=
  match d.identifier? with
  | some text => .ok text
  | none => malformed (.keyword form) .notIdentifier d.span

/-- The parameter list that a lambda expects here. -/
def Datum.params (form : Keyword) : Datum → Except ReadError (List Name)
  | .list items _ => items.mapM (Datum.name form)
  | d => malformed (.keyword form) .parameterList d.span

/-- One expression for a body of one or more. -/
def bodyExpr : List Expr → Expr
  | [e] => e
  | es => .sequence es

/-- What the head of a list makes of it. -/
inductive Head where
  | keyword (k : Keyword)
  | binary (op : BinaryOp)
  | primitive (p : Primitive)
  | value
deriving DecidableEq, Repr

/-- Keywords come before operators, and any other head is an expression to call. -/
def Head.ofDatum (d : Datum) : Head :=
  match d.identifier? with
  | none => .value
  | some name =>
    match Keyword.ofText? name, BinaryOp.ofText? name, Primitive.ofText? name with
    | some k, _, _ => .keyword k
    | none, some op, _ => .binary op
    | none, none, some p => .primitive p
    | none, none, none => .value

/-- An operator on its operands: one operand only for negation, more than two only where the
operator folds from the left. -/
def operatorExpr (op : BinaryOp) (span : Span) : List Expr → Except ReadError Expr
  | [e] =>
    if op == .word .subtract then .ok (.binary op (.integer 0) e)
    else malformed .operator .operandCount span
  | [lhs, rhs] => .ok (.binary op lhs rhs)
  | lhs :: rhs :: rest =>
    if op.foldable then .ok ((rhs :: rest).foldl (.binary op) lhs)
    else malformed .operator .operandCount span
  | [] => malformed .operator .operandCount span

/-! ### Lists -/

mutual

/-- The meaning of a datum. Only the empty list may be quoted. -/
def Datum.toExpr : Datum → Except ReadError Expr
  | .atom kind text span => (atomExpr kind text).mapError (⟨·, span⟩)
  | .vector items _ => do
    return .array (← toExprs items)
  | .quoted (.list [] _) _ => .ok .empty
  | .quoted _ span => .error ⟨.unsupportedQuote, span⟩
  | .list [] span => malformed .application .emptyCombination span
  | .list (head :: rest) span =>
    match Head.ofDatum head with
    | .keyword .define => defineExpr span rest
    | .keyword .lambda =>
      match rest with
      | [] => malformed (.keyword .lambda) .parameterList span
      | params :: body => do
        let params ← params.params .lambda
        let body ← bodyExprs .lambda span body
        return .lambda params body
    | .keyword .ifElse =>
      match rest with
      | [condition, positive] => do
        let condition ← condition.toExpr
        let positive ← positive.toExpr
        return .ifElse condition positive .empty
      | [condition, positive, negative] => do
        let condition ← condition.toExpr
        let positive ← positive.toExpr
        let negative ← negative.toExpr
        return .ifElse condition positive negative
      | _ => malformed (.keyword .ifElse) .twoOrThreeOperands span
    | .keyword .cond => do
      return .cond (← clauseExprs rest)
    | .keyword .and => do
      return .and (← toExprs rest)
    | .keyword .or => do
      return .or (← toExprs rest)
    | .keyword .not =>
      match rest with
      | [operand] => do
        return .not (← operand.toExpr)
      | _ => malformed (.keyword .not) .oneOperand span
    | .keyword .letIn =>
      match rest with
      | .list bindings _ :: body => do
        let bindings ← bindingExprs bindings
        let body ← bodyExprs .letIn span body
        return .letIn bindings body
      | _ => malformed (.keyword .letIn) .bindingList span
    | .keyword .assign =>
      match rest with
      | [name, value] => do
        let name ← name.name .assign
        let value ← value.toExpr
        return .assign name value
      | _ => malformed (.keyword .assign) .nameAndValue span
    | .keyword .sequence => do
      return .sequence (← toExprs rest)
    | .keyword .ret =>
      match rest with
      | [] => .ok (.ret .empty)
      | [value] => do
        return .ret (← value.toExpr)
      | _ => malformed (.keyword .ret) .atMostOneOperand span
    | .binary op => do
      operatorExpr op span (← toExprs rest)
    | .primitive p => do
      return .primitive p (← toExprs rest)
    | .value => do
      let target ← head.toExpr
      let args ← toExprs rest
      return .call target args
termination_by structural d => d

/-- The meanings of several data. -/
def toExprs : List Datum → Except ReadError (List Expr)
  | [] => .ok []
  | d :: ds => do
    let e ← d.toExpr
    let es ← toExprs ds
    return e :: es
termination_by structural d => d

/-- The body of a form, which must not be empty. -/
def bodyExprs (form : Keyword) (span : Span) : List Datum → Except ReadError (List Expr)
  | [] => malformed (.keyword form) .emptyBody span
  | d :: ds => do
    let e ← d.toExpr
    let es ← toExprs ds
    return e :: es
termination_by structural d => d

/-- A definition behind its keyword: of a function, with its parameters beside the name, or of a
value. -/
def defineExpr (span : Span) : List Datum → Except ReadError Expr
  | .list [] signature :: _ => malformed (.keyword .define) .missingFunctionName signature
  | .list (name :: params) _ :: body => do
    let name ← name.name .define
    let params ← params.mapM (Datum.name .define)
    let body ← bodyExprs .define span body
    return .define name (.lambda params body)
  | [name, value] => do
    let name ← name.name .define
    let value ← value.toExpr
    return .define name value
  | _ => malformed (.keyword .define) .nameAndValue span
termination_by structural d => d

/-- The clauses of a `cond`. A clause is a list of a test, or the word `else`, and a body. -/
def clauseExprs : List Datum → Except ReadError (List Clause)
  | [] => .ok []
  | .list [] span :: _ => malformed (.keyword .cond) .emptyClause span
  | .list (predicate :: body) span :: clauses => do
    let clause ←
      if predicate.identifier? == some "else" then do
        let body ← bodyExprs .cond span body
        pure (Clause.otherwise (bodyExpr body))
      else do
        let predicate ← predicate.toExpr
        let body ← bodyExprs .cond span body
        pure (Clause.test predicate (bodyExpr body))
    let clauses ← clauseExprs clauses
    return clause :: clauses
  | d :: _ => malformed (.keyword .cond) .clauseNotList d.span
termination_by structural d => d

/-- The bindings of a `let`, each a list of a name and a value. -/
def bindingExprs : List Datum → Except ReadError (List (Name × Expr))
  | [] => .ok []
  | .list [name, value] _ :: bindings => do
    let name ← name.name .letIn
    let value ← value.toExpr
    let bindings ← bindingExprs bindings
    return (name, value) :: bindings
  | d :: _ => malformed (.keyword .letIn) .bindingNotPair d.span
termination_by structural d => d

end

end WordScheme
