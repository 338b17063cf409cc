import WordScheme.Ir.Instruction

/-!
# Functions and modules

A function is a list of labelled blocks, the first of which is entered. A function without blocks
is a placeholder: it is declared and has no body yet. A module is a list of definitions in the order
in which they are printed.
-/

namespace WordScheme

/-- A labelled run of statements with its terminator. -/
structure Block where
  label : Name
  statements : List Statement
  terminator : Terminator
deriving BEq, Repr, Inhabited

/-- A parameter of a function. -/
structure Param where
  name : Name
  ty : Ty
deriving DecidableEq, Repr, Inhabited

/-- A function. -/
structure Function where
  name : Name
  result : Ty
  params : List Param
  blocks : List Block
deriving BEq, Repr, Inhabited

namespace Function

/-- A function that is declared and has no body. -/
def isPlaceholder (f : Function) : Bool :=
  f.blocks.isEmpty

/-- The first block with a label. -/
def block? (f : Function) (label : Name) : Option Block :=
  f.blocks.find? fun b => b.label == label

end Function

/-- Parameters that are words. -/
def wordParams (names : List Name) : List Param :=
  names.map fun name => ⟨name, .word⟩

/-- A top level definition. -/
inductive Definition where
  | globalVariable (name : Name) (ty : Ty) (zeroed : Bool)
  | function (f : Function)
  | external (name : Name) (result : Ty) (params : List Ty)
  | alias (name : Name) (ty : Ty)
  /-- Private bytes. -/
  | stringConstant (name : Name) (bytes : List UInt8)
deriving BEq, Repr, Inhabited

namespace Definition

/-- The name that a definition defines. -/
def name : Definition → Name
  | .globalVariable name _ _ => name
  | .function f => f.name
  | .external name _ _ => name
  | .alias name _ => name
  | .stringConstant name _ => name

/-- The function that a definition is, if it is one. -/
def function? : Definition → Option Function
  | .function f => some f
  | _ => none

end Definition

/-- A module. -/
structure Module where
  name : String
  definitions : List Definition
deriving BEq, Repr, Inhabited

namespace Module

/-- The functions of a module. -/
def functions (m : Module) : List Function :=
  m.definitions.filterMap Definition.function?

/-- The first function with a name. -/
def function? (m : Module) (name : Name) : Option Function :=
  m.functions.find? fun f => f.name == name

end Module

end WordScheme
