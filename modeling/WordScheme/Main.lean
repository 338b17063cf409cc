import WordScheme.Command.Run

/-!
# The command

Reads the source files, lets `Invocation.prepare` compile them, writes the text and reports. All
decisions are made by the functions it calls.
-/

namespace WordScheme

/-- The system's own words for a failure. -/
def ioReason (e : IO.Error) : String :=
  match e with
  | .permissionDenied _ code details => details ++ " (os error " ++ toString code ++ ")"
  | .noFileOrDirectory _ code details => details ++ " (os error " ++ toString code ++ ")"
  | .inappropriateType _ code details => details ++ " (os error " ++ toString code ++ ")"
  | e => toString e

/-- Whether a path leads to no regular file. -/
def isMissing (e : IO.Error) : Bool :=
  match e with
  | .noFileOrDirectory _ _ _ => true
  | .inappropriateType _ _ _ => true
  | _ => false

/-- What is found under a path. -/
def loadSource (path : String) : IO SourceFile := do
  try
    return .contents (← IO.FS.readBinFile path)
  catch e =>
    return if isMissing e then .missing else .unreadable (ioReason e)

/-- Whether output is to be coloured: when the environment forces it, else on a terminal unless the
environment forbids it. -/
def wantsColours : IO Bool := do
  let forced := ((← IO.getEnv "CLICOLOR_FORCE").getD "0") != "0"
  if forced then return true
  if (← IO.getEnv "NO_COLOR").isSome then return false
  let allowed := ((← IO.getEnv "CLICOLOR").getD "1") != "0"
  return allowed && (← (← IO.getStdout).isTty)

/-- Shows an outcome and gives its exit code. -/
def Outcome.show (o : Outcome) : IO UInt32 := do
  IO.print o.stdout
  IO.eprint o.stderr
  return o.exitCode.toUInt32

/-- Runs the command. -/
def runCommand (args : List String) : IO UInt32 := do
  let colours ← wantsColours
  match Invocation.parse args with
  | .error e => (e.outcome colours).show
  | .ok i =>
    let files ← i.sources.mapM fun path => return (path, ← loadSource path)
    match i.prepare colours fun path => (Assoc.get? files path).getD .missing with
    | .error outcome => outcome.show
    | .ok emission =>
      let fault ← match i.output with
        | none => pure none
        | some path =>
          try
            IO.FS.writeFile path emission.text
            pure none
          catch e => pure (some (ioReason e))
      (emission.conclude colours i.output fault).show

end WordScheme

/-- The entry point of the command. -/
def main (args : List String) : IO UInt32 :=
  WordScheme.runCommand args
