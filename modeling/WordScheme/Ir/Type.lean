import WordScheme.Expr
import WordScheme.Text.Escaped

/-!
# Types

The types of values in generated code. Every value of a program is one word; the other types occur
between instructions.
-/

namespace WordScheme

/-- The widths of integers. -/
inductive Width where
  | i1
  | i8
  | i64
deriving DecidableEq, Repr, Inhabited

/-- The name of the integer type of a width. -/
def Width.text : Width → String
  | .i1 => "i1"
  | .i8 => "i8"
  | .i64 => "i64"

/-- A type. -/
inductive Ty where
  | int (width : Width)
  | double
  | ptr
  | array (element : Ty) (length : Nat)
  /-- A type that a definition of the module names. -/
  | named (name : Name)
  | function (result : Ty) (params : List Ty)
  | void
deriving Repr, Inhabited

namespace Ty

/-- The type of every value of a program. -/
def word : Ty :=
  .int .i64

/-- The type of a truth value between instructions. -/
def flag : Ty :=
  .int .i1

/-- The type shared by all compiled functions: words in, one word out. -/
def wordFunction (arity : Nat) : Ty :=
  .function .word (.replicate arity .word)

mutual

/-- Whether two types are the same. -/
def same : Ty → Ty → Bool
  | .int v, .int w => v == w
  | .double, .double => true
  | .ptr, .ptr => true
  | .array s m, .array t n => s.same t && m == n
  | .named a, .named b => a == b
  | .function r ps, .function s qs => r.same s && sameAll ps qs
  | .void, .void => true
  | _, _ => false

/-- Whether two lists of types are the same. -/
def sameAll : List Ty → List Ty → Bool
  | [], [] => true
  | s :: ss, t :: ts => s.same t && sameAll ss ts
  | _, _ => false

end

mutual

theorem same_iff : (s t : Ty) → (s.same t = true ↔ s = t)
  | .int v, t => by cases t <;> simp [same]
  | .double, t => by cases t <;> simp [same]
  | .ptr, t => by cases t <;> simp [same]
  | .array s m, t => by cases t <;> simp [same, same_iff s]
  | .named a, t => by cases t <;> simp [same]
  | .function r ps, t => by cases t <;> simp [same, same_iff r, sameAll_iff ps]
  | .void, t => by cases t <;> simp [same]

theorem sameAll_iff : (ss ts : List Ty) → (sameAll ss ts = true ↔ ss = ts)
  | [], ts => by cases ts <;> simp [sameAll]
  | s :: ss, ts => by cases ts <;> simp [sameAll, same_iff s, sameAll_iff ss]

end

instance : DecidableEq Ty := fun s t =>
  decidable_of_iff (s.same t = true) (same_iff s t)

mutual

/-- A type as it is printed. -/
def text : Ty → String
  | .int width => width.text
  | .double => "double"
  | .ptr => "ptr"
  | .array element length => "[" ++ toString length ++ " x " ++ element.text ++ "]"
  | .named name => sigilName "%" name
  | .function result params => result.text ++ " (" ++ ", ".intercalate (texts params) ++ ")"
  | .void => "void"

/-- Several types as they are printed. -/
def texts : List Ty → List String
  | [] => []
  | t :: ts => t.text :: texts ts

end

end Ty

end WordScheme
