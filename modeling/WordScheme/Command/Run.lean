import WordScheme.Command.Disk
import WordScheme.Command.Invocation
import WordScheme.Compile
import WordScheme.Ir.Print

/-!
# Running the command

A run has two steps. `Invocation.prepare` compiles the source files, one module each, and gives the
text to write; `Emission.conclude` says how the run ends once that has been written, or could not
be. What a run shows is an `Outcome`. `runOnDisk` puts the two together on a disk in memory.
-/

namespace WordScheme

/-- What a run leaves behind. -/
structure Outcome where
  exitCode : Nat
  stdout : String
  stderr : String
deriving DecidableEq, Repr

/-- What is found under the path of a source. -/
inductive SourceFile where
  | missing
  | unreadable (reason : String)
  | contents (bytes : ByteArray)

/-- The text of a source file. -/
def SourceFile.text (path : String) : SourceFile → Except UsageError String
  | .missing => .error (.noSuchSource path)
  | .unreadable reason => .error (.unreadable path reason)
  | .contents bytes =>
    match String.fromUTF8? bytes with
    | some text => .ok text
    | none => .error (.unreadable path "stream did not contain valid UTF-8")

/-- The last part of a path without its last extension. A point in front is no extension. -/
def fileStem (path : String) : String :=
  let file := (path.toList.reverse.takeWhile (· != '/')).reverse
  match (file.reverse.dropWhile (· != '.')).drop 1 with
  | [] => String.ofList file
  | stem => String.ofList stem.reverse

/-- The module text that a run is to write, and what it has said so far. -/
structure Emission where
  stderr : Styled
  text : String
  skipped : Nat

/-! ### Messages -/

/-- An error message up to the place where it arose. -/
def errorLine (message place : String) : Styled :=
  Colour.red.paintBold "error:" ++ raw (" " ++ message ++ " (" ++ place ++ ")\n")

/-- Why a source cannot be compiled. A fault of the text is shown in its line. -/
def SourceError.report (source : Source) : SourceError → Styled
  | .read e =>
    errorLine e.fault.message ((source.position? e.span).getD source.origin.text)
      ++ source.highlight e.span
  | .compile d => errorLine d.message source.origin.text

/-- A function that was skipped. -/
def warningLine (source : Source) (d : Diagnostic) : Styled :=
  Colour.yellow.paintBold "warning:"
    ++ raw (" " ++ d.message ++ " (" ++ source.origin.text ++ ")\n")

/-- The end of a run that a usage error stops, after what has been said. -/
def UsageError.outcome (e : UsageError) (colours : Bool) (said : Styled) : Outcome :=
  ⟨2, "", said.shown colours ++ e.shown colours⟩

/-- The end of a run that stops before anything is compiled. -/
def EarlyEnd.outcome (colours : Bool) : EarlyEnd → Outcome
  | .usage e => e.outcome colours []
  | .help => ⟨0, helpText, ""⟩
  | .version => ⟨0, versionText, ""⟩

/-! ### The two steps -/

namespace Invocation

/-- How a source is compiled; the module is named after its file. -/
def options (i : Invocation) (path : String) : CompileOptions :=
  { moduleName := fileStem path
    entry := i.entry.getD "main"
    policy := if i.keepGoing then .keepGoing else .abort }

/-- The text of a module, coloured only on request. -/
def moduleText (i : Invocation) (colours : Bool) (m : Module) : String :=
  if i.pretty then m.text.shown colours else m.render colours

/-- Compiles sources one after the other, on top of what has been said, written and skipped. The
first that fails ends the run. -/
def compileAll (i : Invocation) (colours : Bool) (files : String → SourceFile) :
    (said : Styled) → (texts : List String) → (skipped : Nat) → List String →
      Except Outcome Emission
  | said, texts, skipped, [] => .ok ⟨said, "\n".intercalate texts, skipped⟩
  | said, texts, skipped, path :: paths =>
    match (files path).text path with
    | .error e => .error (e.outcome colours said)
    | .ok text =>
      let source : Source := ⟨.file path, text⟩
      match compileText text (i.options path) with
      | .error e => .error ⟨1, "", (said ++ e.report source).shown colours⟩
      | .ok output =>
        i.compileAll colours files (said ++ output.diagnostics.flatMap (warningLine source))
          (texts ++ [i.moduleText colours output.module])
          (skipped + output.diagnostics.length) paths

/-- Compiles the sources. All of them must be there before the first is read. -/
def prepare (i : Invocation) (colours : Bool) (files : String → SourceFile) :
    Except Outcome Emission :=
  let absent := i.sources.find? fun path =>
    match files path with
    | .missing => true
    | _ => false
  match i.sources, absent with
  | [], _ => .error (UsageError.missingSources.outcome colours [])
  | _, some path => .error ((UsageError.noSuchSource path).outcome colours [])
  | sources, none => i.compileAll colours files [] [] 0 sources

end Invocation

/-- How a run ends after its text has been written to where it belongs, or could not be. -/
def Emission.conclude (e : Emission) (colours : Bool) (output : Option String)
    (fault : Option String) : Outcome :=
  match output, fault with
  | some path, some reason => (UsageError.unwritable path reason).outcome colours e.stderr
  | _, _ =>
    let stdout := if output.isNone then e.text else ""
    if e.skipped = 0 then ⟨0, stdout, e.stderr.shown colours⟩
    else
      let last := Colour.red.paintBold "error:"
        ++ raw (" " ++ toString e.skipped ++ " function(s) could not be compiled\n")
      ⟨1, stdout, (e.stderr ++ last).shown colours⟩

/-- What is found under a path of a disk. -/
def Disk.source (disk : Disk) (path : String) : SourceFile :=
  match disk.read? path with
  | some bytes => .contents bytes
  | none => .missing

/-- Runs the command on a disk. -/
def runOnDisk (disk : Disk) (colours : Bool) (args : List String) : Outcome × Disk :=
  match Invocation.parse args with
  | .error e => (e.outcome colours, disk)
  | .ok i =>
    match i.prepare colours disk.source with
    | .error outcome => (outcome, disk)
    | .ok emission =>
      match i.output with
      | none => (emission.conclude colours none none, disk)
      | some path =>
        match disk.write path emission.text.toUTF8 with
        | .error fault => (emission.conclude colours (some path) (some fault.reason), disk)
        | .ok disk => (emission.conclude colours (some path) none, disk)

end WordScheme
