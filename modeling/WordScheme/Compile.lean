import WordScheme.Lowering
import WordScheme.Program

/-!
# Compiling a program

The top level definitions come first, so that every function can refer to every one of them: a name
is a function if its first definition is a lambda, and else a variable. Then the entry function is
built from the forms, and the functions found on the way are built first in, first out. A function
that fails either stops the compilation or is skipped and stays a placeholder.
-/

namespace WordScheme

/-- What to do when a function fails. -/
inductive ErrorPolicy where
  | abort
  | keepGoing
deriving DecidableEq, Repr

/-- Choices of a compilation. -/
structure CompileOptions where
  moduleName : String
  /-- The name of the function that holds the top level forms. -/
  entry : Name
  policy : ErrorPolicy
deriving DecidableEq, Repr

/-- A compiled module and the functions that were skipped, in the order in which they failed. -/
structure CompileOutput where
  module : Module
  diagnostics : List Diagnostic

/-! ### Top level definitions -/

/-- The definitions found so far among the top level forms. -/
structure TopLevel where
  unit : CompileUnit
  globals : Globals
  /-- The names that are functions, with parameters and body. -/
  functions : List (Name × Lambda)
  /-- The indices of the forms that define them. -/
  functionForms : List Nat

namespace TopLevel

/-- A name that no program may define: the entry function, a library symbol, or a name that starts
with a point, as the names of generated constants do. -/
def isReserved (entry name : Name) : Bool :=
  name == entry || isLibrarySymbol name || name.toList.head? == some '.'

/-- Notes the first definition of a name. -/
def define (t : TopLevel) (index : Nat) (name : Name) : Expr → TopLevel
  | .lambda params body =>
    { unit := t.unit.ensure (ModuleDraft.placeholder name params)
      globals := t.globals.put name (.function params.length)
      functions := t.functions ++ [(name, ⟨params, body⟩)]
      functionForms := t.functionForms ++ [index] }
  | _ =>
    { t with
      unit := t.unit.ensure (ModuleDraft.wordVariable name)
      globals := t.globals.put name .var }

/-- Notes the definitions among the forms from an index on. -/
def collect : TopLevel → (index : Nat) → List Expr → Except CompileError TopLevel
  | t, _, [] => .ok t
  | t, index, .define name value :: forms =>
    if isReserved t.unit.entry name then .error (.reservedName name)
    else if t.globals.has name then t.collect (index + 1) forms
    else (t.define index name value).collect (index + 1) forms
  | t, index, _ :: forms => t.collect (index + 1) forms

/-- The functions among the definitions, ready to be compiled. -/
def pending (t : TopLevel) : List PendingFunction :=
  t.functions.map fun (name, lambda) => ⟨name, lambda, t.globals⟩

end TopLevel

/-! ### The queue -/

/-- Puts a finished function in the place of its placeholder. -/
def CompileUnit.install (u : CompileUnit) (f : Function) : CompileUnit :=
  { u with module := (u.module.dropFunction f.name).ensure (.function f) }

/-- A compilation under way. -/
structure Progress where
  unit : CompileUnit
  diagnostics : List Diagnostic
  /-- The functions that wait, first in front. -/
  queue : List PendingFunction

namespace Progress

/-- Takes in the result of building a function. -/
def record (p : Progress) (policy : ErrorPolicy) (name : Name) :
    Except CompileError FinishedFunction × CompileUnit → Except Diagnostic Progress
  | (.ok finished, unit) =>
    .ok { p with
      unit := unit.install finished.function
      queue := p.queue ++ finished.pending }
  | (.error e, unit) =>
    match policy with
    | .abort => .error ⟨name, e⟩
    | .keepGoing =>
      .ok { p with
        unit := unit.discardLifted.2
        diagnostics := p.diagnostics ++ [⟨name, e⟩] }

/-- Builds the waiting functions, those they give rise to included, `limit` of them at most. -/
def drain (policy : ErrorPolicy) : (limit : Nat) → Progress → Except Diagnostic Progress
  | 0, p => .ok p
  | limit + 1, p =>
    match p.queue with
    | [] => .ok p
    | f :: queue => do
      let p ← { p with queue }.record policy f.name (lowerFunction p.unit f)
      drain policy limit p

end Progress

/-- Compiles the forms of a program. Each function comes from its own lambda or `let`, so there are
never more functions to build than the program has of these. -/
def compileProgram (forms : List Expr) (options : CompileOptions) :
    Except Diagnostic CompileOutput := do
  let entry := options.entry
  let unit := (CompileUnit.start options.moduleName entry).ensure
    (ModuleDraft.placeholder entry [])
  let top ← (TopLevel.collect ⟨unit, [], [], []⟩ 0 forms).mapError (⟨entry, ·⟩)
  let begun ← Progress.record ⟨top.unit, [], top.pending⟩ options.policy entry
    (lowerEntry top.unit forms top.functionForms top.globals)
  let done ← begun.drain options.policy (functionCounts forms)
  return ⟨done.unit.module.finish, done.diagnostics⟩

/-- Why a source cannot be compiled. -/
inductive SourceError where
  | read (error : ReadError)
  | compile (diagnostic : Diagnostic)
deriving DecidableEq, Repr

/-- Reads and compiles a text. -/
def compileText (text : String) (options : CompileOptions) : Except SourceError CompileOutput := do
  let forms ← (readProgram text).mapError .read
  (compileProgram forms options).mapError .compile

end WordScheme
