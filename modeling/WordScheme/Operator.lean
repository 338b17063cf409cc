/-!
# Operators

Operators are names with a fixed meaning at the head of a combination. A `BinaryOp` becomes
instructions on words or on doubles; a `Primitive` is a function of the run-time library, or one of
two that are expanded in place. Neither is a value.
-/

namespace WordScheme

/-- Operations on two words that give a word. -/
inductive WordOp where
  | add
  | subtract
  | multiply
  | divide
  | shiftLeft
  | shiftRight
  | bitOr
deriving DecidableEq, Repr

/-- Operations on two doubles that give a double. -/
inductive FloatOp where
  | add
  | subtract
  | multiply
  | divide
deriving DecidableEq, Repr

/-- Comparisons, of signed words or of doubles. -/
inductive Comparison where
  | equal
  | less
  | lessOrEqual
  | greater
  | greaterOrEqual
deriving DecidableEq, Repr

/-- Operators of two operands. -/
inductive BinaryOp where
  | word (op : WordOp)
  | compare (c : Comparison)
  | float (op : FloatOp)
  | floatCompare (c : Comparison)
deriving DecidableEq, Repr

/-- The spelling of a comparison of words. -/
def Comparison.text : Comparison → String
  | .equal => "="
  | .less => "<"
  | .lessOrEqual => "<="
  | .greater => ">"
  | .greaterOrEqual => ">="

namespace BinaryOp

/-- The spelling of an operator; those on doubles start with `fl`. -/
def text : BinaryOp → String
  | .word .add => "+"
  | .word .subtract => "-"
  | .word .multiply => "*"
  | .word .divide => "/"
  | .word .shiftLeft => "shl"
  | .word .shiftRight => "shr"
  | .word .bitOr => "bitor"
  | .compare c => c.text
  | .float .add => "fl+"
  | .float .subtract => "fl-"
  | .float .multiply => "fl*"
  | .float .divide => "fl/"
  | .floatCompare c => "fl" ++ c.text

/-- All operators of two operands. -/
def all : List BinaryOp :=
  let comparisons := [.equal, .less, .lessOrEqual, .greater, .greaterOrEqual]
  [.add, .subtract, .multiply, .divide, .shiftLeft, .shiftRight, .bitOr].map .word
    ++ comparisons.map .compare
    ++ [.add, .subtract, .multiply, .divide].map .float
    ++ comparisons.map .floatCompare

/-- The operator with this spelling. -/
def ofText? (text : String) : Option BinaryOp :=
  all.find? fun op => op.text == text

/-- Whether more than two operands are taken from left to right: arithmetic and `bitor`. -/
def foldable : BinaryOp → Bool
  | .word .shiftLeft => false
  | .word .shiftRight => false
  | .word _ => true
  | .float _ => true
  | .compare _ => false
  | .floatCompare _ => false

end BinaryOp

/-- Functions of the run-time library. -/
inductive LibraryFunction where
  | cons
  | car
  | cdr
  | setCar
  | setCdr
  | isNull
  | isPair
  | isEq
  | display
  | newline
  | makeVector
deriving DecidableEq, Repr

namespace LibraryFunction

/-- The symbol under which the library exports a function. -/
def symbol : LibraryFunction → String
  | .cons => "scm_cons"
  | .car => "scm_car"
  | .cdr => "scm_cdr"
  | .setCar => "scm_set_car"
  | .setCdr => "scm_set_cdr"
  | .isNull => "scm_is_null"
  | .isPair => "scm_is_pair"
  | .isEq => "scm_is_eq"
  | .display => "scm_display"
  | .newline => "scm_newline"
  | .makeVector => "scm_make_vector"

/-- The number of words that a function takes. -/
def arity : LibraryFunction → Nat
  | .cons => 2
  | .car => 1
  | .cdr => 1
  | .setCar => 2
  | .setCdr => 2
  | .isNull => 1
  | .isPair => 1
  | .isEq => 2
  | .display => 1
  | .newline => 0
  | .makeVector => 2

/-- All functions of the library. -/
def all : List LibraryFunction :=
  [.cons, .car, .cdr, .setCar, .setCdr, .isNull, .isPair, .isEq, .display, .newline, .makeVector]

end LibraryFunction

/-- Whether the library claims this symbol, which a program may then not define. -/
def isLibrarySymbol (name : String) : Bool :=
  LibraryFunction.all.any fun f => f.symbol == name

/-- Operators with any fixed number of operands. -/
inductive Primitive where
  | library (f : LibraryFunction)
  | vectorRef
  | exactToInexact
deriving DecidableEq, Repr

namespace Primitive

/-- The spelling of a primitive. -/
def text : Primitive → String
  | .library .cons => "cons"
  | .library .car => "car"
  | .library .cdr => "cdr"
  | .library .setCar => "set-car!"
  | .library .setCdr => "set-cdr!"
  | .library .isNull => "null?"
  | .library .isPair => "pair?"
  | .library .isEq => "eq?"
  | .library .display => "display"
  | .library .newline => "newline"
  | .library .makeVector => "make-vector"
  | .vectorRef => "vector-ref"
  | .exactToInexact => "exact->inexact"

/-- All primitives. -/
def all : List Primitive :=
  LibraryFunction.all.map .library ++ [.vectorRef, .exactToInexact]

/-- The primitive with this spelling. -/
def ofText? (text : String) : Option Primitive :=
  all.find? fun p => p.text == text

/-- The number of operands that a primitive takes. -/
def arity : Primitive → Nat
  | .library f => f.arity
  | .vectorRef => 2
  | .exactToInexact => 1

/-- The library symbol behind a primitive that is not expanded in place. -/
def symbol? : Primitive → Option String
  | .library f => some f.symbol
  | .vectorRef => none
  | .exactToInexact => none

end Primitive

/-- Whether a name is an operator, and so no value. -/
def isOperatorName (name : String) : Bool :=
  (BinaryOp.ofText? name).isSome || (Primitive.ofText? name).isSome

end WordScheme
