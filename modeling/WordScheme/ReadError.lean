import WordScheme.Source

/-!
# What can be wrong with a source

A `ReadFault` is a cause, and `ReadFault.message` words it. A `ReadError` adds the span to blame.
-/

namespace WordScheme

/-- The construct in which a text ended too early. -/
inductive Unfinished where
  | characterLiteral
  | list
  | vector
  | quotation
deriving DecidableEq, Repr

/-- How messages name an unfinished construct. -/
def Unfinished.text : Unfinished → String
  | .characterLiteral => "a character literal"
  | .list => "a list"
  | .vector => "a vector literal"
  | .quotation => "a quoted datum"

/-- The words that begin a special form. -/
inductive Keyword where
  | define
  | lambda
  | ifElse
  | cond
  | and
  | or
  | not
  | letIn
  | assign
  | sequence
  | ret
deriving DecidableEq, Repr

/-- The spelling of a keyword. -/
def Keyword.text : Keyword → String
  | .define => "define"
  | .lambda => "lambda"
  | .ifElse => "if"
  | .cond => "cond"
  | .and => "and"
  | .or => "or"
  | .not => "not"
  | .letIn => "let"
  | .assign => "set!"
  | .sequence => "begin"
  | .ret => "return"

/-- All keywords. -/
def Keyword.all : List Keyword :=
  [.define, .lambda, .ifElse, .cond, .and, .or, .not, .letIn, .assign, .sequence, .ret]

/-- The keyword with this spelling. -/
def Keyword.ofText? (text : String) : Option Keyword :=
  Keyword.all.find? fun k => k.text == text

/-- The kind of form that is not as it should be. -/
inductive Form where
  | keyword (k : Keyword)
  | application
  | operator
deriving DecidableEq, Repr

/-- How messages name a form. -/
def Form.text : Form → String
  | .keyword k => k.text
  | .application => "application"
  | .operator => "operator"

/-- What a malformed form lacks. -/
inductive Defect where
  | emptyCombination
  | missingFunctionName
  | emptyBody
  | nameAndValue
  | parameterList
  | twoOrThreeOperands
  | clauseNotList
  | emptyClause
  | oneOperand
  | bindingList
  | bindingNotPair
  | atMostOneOperand
  | notIdentifier
  | operandCount
deriving DecidableEq, Repr

/-- How messages put a defect. -/
def Defect.text : Defect → String
  | .emptyCombination => "empty combination"
  | .missingFunctionName => "missing function name"
  | .emptyBody => "body must not be empty"
  | .nameAndValue => "expected a name and a value"
  | .parameterList => "expected a parameter list"
  | .twoOrThreeOperands => "expected 2 or 3 operands"
  | .clauseNotList => "clauses must be lists"
  | .emptyClause => "empty clause"
  | .oneOperand => "expected exactly 1 operand"
  | .bindingList => "expected a binding list"
  | .bindingNotPair => "bindings must be (name value) pairs"
  | .atMostOneOperand => "expected at most 1 operand"
  | .notIdentifier => "expected an identifier"
  | .operandCount => "wrong number of operands"

/-- Why a source cannot be read. -/
inductive ReadFault where
  | unterminatedString
  | unexpectedEnd (inside : Unfinished)
  | unexpectedClose
  | invalidAtom (text : String)
  | unknownCharacterName (name : String)
  | invalidEscape (c : Char)
  | malformed (form : Form) (defect : Defect)
  | operatorAsValue (name : String)
  | unsupportedQuote
deriving DecidableEq, Repr

/-- The wording of a fault. -/
def ReadFault.message : ReadFault → String
  | .unterminatedString => "unterminated string literal"
  | .unexpectedEnd inside => "unexpected end of file while reading " ++ inside.text
  | .unexpectedClose => "unexpected closing parenthesis"
  | .invalidAtom text => "invalid atom `" ++ text ++ "`"
  | .unknownCharacterName name => "unknown character name `" ++ name ++ "`"
  | .invalidEscape c => "invalid escape sequence `\\" ++ c.toString ++ "` in string literal"
  | .malformed form defect => "malformed `" ++ form.text ++ "`: " ++ defect.text
  | .operatorAsValue name => "operator `" ++ name ++ "` cannot be used as a value"
  | .unsupportedQuote => "only the empty list may be quoted"

/-- A fault and where it is. -/
structure ReadError where
  fault : ReadFault
  span : Span
deriving DecidableEq, Repr

end WordScheme
