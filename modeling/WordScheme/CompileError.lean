import WordScheme.Expr

/-!
# What can go wrong in compilation

A `CompileError` is a cause, worded by `CompileError.message`; a `Diagnostic` adds the function
that could not be compiled.
-/

namespace WordScheme

/-- Why a function cannot be built. -/
inductive CompileError where
  | missingTerminator (label : Name)
  | secondTerminator (label : Name)
  | unresolved (name : Name)
  | unknownFunction (name : Name)
  | unreachableBlock (label : Name)
  | notAssignable (name : Name)
  | unknownBlock (index : Nat)
  | argumentCount (callee : String) (expected actual : Nat)
  | reservedName (name : Name)
deriving DecidableEq, Repr

/-- The wording of an error. -/
def CompileError.message : CompileError → String
  | .missingTerminator label => "block `" ++ label ++ "` has no terminator"
  | .secondTerminator label => "block `" ++ label ++ "` already has a terminator"
  | .unresolved name => "cannot find `" ++ name ++ "` in this scope"
  | .unknownFunction name => "no function named `" ++ name ++ "` in the module"
  | .unreachableBlock label => "block `" ++ label ++ "` cannot be reached from the entry block"
  | .notAssignable name => "`" ++ name ++ "` names a function and cannot be assigned"
  | .unknownBlock index =>
    "no block with id " ++ toString index ++ " exists in this function"
  | .argumentCount callee expected actual =>
    "`" ++ callee ++ "` takes " ++ toString expected ++ " argument(s) but " ++ toString actual
      ++ " were supplied"
  | .reservedName name => "`" ++ name ++ "` is reserved and cannot be defined"

/-- An error and the function in which it arose. -/
structure Diagnostic where
  function : Name
  error : CompileError
deriving DecidableEq, Repr

/-- The wording of a diagnostic. -/
def Diagnostic.message (d : Diagnostic) : String :=
  "in function `" ++ d.function ++ "`: " ++ d.error.message

end WordScheme
