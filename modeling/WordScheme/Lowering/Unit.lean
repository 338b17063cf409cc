import WordScheme.Ir.ModuleDraft
import WordScheme.Naming
import WordScheme.Scope

/-!
# Compile units

What the functions of one program share while they are compiled: the module, the names given to
lambdas and string constants, and the constants made so far. `lifted` lists the lambdas that the
function at hand has turned into functions; when it fails they are taken back.
-/

namespace WordScheme

/-- The shared state of a compilation. -/
structure CompileUnit where
  module : ModuleDraft
  /-- The name of the function that holds the top level forms. -/
  entry : Name
  lambdaNames : NameSupply
  stringNames : NameSupply
  /-- The constant made for each string. -/
  strings : Assoc String Name
  lifted : List Name
deriving Repr

namespace CompileUnit

/-- A unit in which nothing has been compiled. -/
def start (moduleName : String) (entry : Name) : CompileUnit :=
  ⟨.empty moduleName, entry, .empty, .empty, [], []⟩

/-- Adds a definition to the module unless it is there. -/
def ensure (u : CompileUnit) (d : Definition) : CompileUnit :=
  { u with module := u.module.ensure d }

/-- Takes back the lambdas of a function that failed, and says which. -/
def discardLifted (u : CompileUnit) : List Name × CompileUnit :=
  (u.lifted, { u with
    module := u.lifted.foldl ModuleDraft.dropFunction u.module
    lifted := [] })

/-- A name for a lambda that is neither the entry function's nor a top level one. Each of those is
skipped at most once, which bounds the search. -/
def freshLambdaName (u : CompileUnit) (globals : Globals) : Name × CompileUnit :=
  let taken := fun name => name == u.entry || globals.has name
  let (name, lambdaNames) := u.lambdaNames.freshAvoiding taken "lambda" (globals.length + 1)
  (name, { u with lambdaNames })

/-- The constant that holds a string and its terminating zero, shared by equal strings, and the type
of those bytes. -/
def stringConstant (u : CompileUnit) (value : String) : (Name × Ty) × CompileUnit :=
  let bytes := utf8Bytes value
  let ty := Ty.array (.int .i8) (bytes.length + 1)
  match u.strings.get? value with
  | some name => ((name, ty), u)
  | none =>
    let (name, stringNames) := u.stringNames.fresh ".str"
    let u := u.ensure (.stringConstant name (bytes ++ [0]))
    ((name, ty), { u with stringNames, strings := u.strings.put value name })

/-- The named type of arrays of so many words. -/
def arrayType (u : CompileUnit) (length : Nat) : Ty × CompileUnit :=
  let name := "array." ++ toString length
  (.named name, u.ensure (.alias name (.array .word length)))

/-- A library function, declared in the module. -/
def libraryFunction (u : CompileUnit) (f : LibraryFunction) : Operand × CompileUnit :=
  (.global f.symbol (.wordFunction f.arity),
    u.ensure (.external f.symbol .word (.replicate f.arity .word)))

end CompileUnit

end WordScheme
