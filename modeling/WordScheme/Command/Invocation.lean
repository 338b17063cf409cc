import WordScheme.Text.Styled
import WordScheme.Text.Visible

/-!
# The command line

An `Invocation` is what the arguments of the command ask for. Options may stand anywhere; after `--`
every argument is a source file. An option with a value takes it from the next argument, or behind
an equals sign, and the short one also directly behind its letter. A request for help, or for the
version, is answered as soon as it is met.
-/

namespace WordScheme

/-- What a run of the command is to do. -/
structure Invocation where
  sources : List String
  output : Option String
  entry : Option String
  keepGoing : Bool
  pretty : Bool
  verbosity : Nat
deriving DecidableEq, Repr

/-- What can be wrong with the arguments, or with the files they name. -/
inductive UsageError where
  | missingSources
  | noSuchSource (path : String)
  | unreadable (path reason : String)
  | unwritable (path reason : String)
  | unexpectedArgument (text : String)
  | missingValue (option : String)
  | repeatedOption (option : String)
deriving DecidableEq, Repr

namespace UsageError

/-- The wording of an error. -/
def message : UsageError → String
  | .missingSources => "Missing source files!"
  | .noSuchSource path => "Source file '" ++ path ++ "' does not exist!"
  | .unreadable path reason => "Failed to read '" ++ path ++ "': " ++ reason
  | .unwritable path reason => "Failed to write '" ++ path ++ "': " ++ reason
  | .unexpectedArgument text => "unexpected argument '" ++ text ++ "' found"
  | .missingValue option => "a value is required for '" ++ option ++ "' but none was supplied"
  | .repeatedOption option => "the argument '" ++ option ++ "' cannot be used multiple times"

/-- The error with a reminder of how the command is used. -/
def report (e : UsageError) : Styled :=
  marked [.bold, .colour .red] "error:" ++ raw (" " ++ e.message ++ "\n\n")
    ++ marked [.bold, .underline] "Usage:" ++ raw " " ++ marked [.bold] "schemec"
    ++ raw " [OPTIONS] [SOURCE_FILES]...\n\nFor more information, try '"
    ++ marked [.bold] "--help" ++ raw "'.\n"

/-- The report as it is shown. Without colours everything goes that is not visible, also what a path
brings along. -/
def shown (e : UsageError) (colours : Bool) : String :=
  if colours then e.report.ansi else visible e.report.ansi

end UsageError

/-- Why a run ends before anything is compiled. -/
inductive EarlyEnd where
  | usage (error : UsageError)
  | help
  | version
deriving DecidableEq, Repr

/-- How the command is used, at length. -/
def helpText : String :=
  "Ahead-of-time compiler backend for a small Scheme dialect\n\n"
    ++ "Usage: schemec [OPTIONS] [SOURCE_FILES]...\n\n"
    ++ "Arguments:\n"
    ++ "  [SOURCE_FILES]...  Source files to compile, one module each\n\n"
    ++ "Options:\n"
    ++ "  -o, --output <OUTPUT>  Write the IR to this file instead of stdout\n"
    ++ "      --entry <ENTRY>    Name of the function holding the top level forms"
    ++ " [default: main]\n"
    ++ "      --keep-going       Skip functions that fail to compile and report them at the end\n"
    ++ "      --pretty           Colorize the emitted IR\n"
    ++ "  -v, --verbose...       Log more; repeat for more detail\n"
    ++ "  -h, --help             Print help\n"
    ++ "  -V, --version          Print version\n"

/-- The name and version of the command. -/
def versionText : String :=
  "schemec 0.1.0\n"

namespace Invocation

/-- Nothing asked for. -/
def empty : Invocation :=
  ⟨[], none, none, false, false, 0⟩

/-- Adds a source file. -/
def addSource (i : Invocation) (path : String) : Invocation :=
  { i with sources := i.sources ++ [path] }

/-- Sets the output file. -/
def setOutput (i : Invocation) (path : String) : Except EarlyEnd Invocation :=
  match i.output with
  | none => .ok { i with output := some path }
  | some _ => .error (.usage <| .repeatedOption "--output <OUTPUT>")

/-- Sets the name of the entry function. -/
def setEntry (i : Invocation) (name : String) : Except EarlyEnd Invocation :=
  match i.entry with
  | none => .ok { i with entry := some name }
  | some _ => .error (.usage <| .repeatedOption "--entry <ENTRY>")

/-- Sets an option that has no value. -/
def setFlag (i : Invocation) (option : String) : Except EarlyEnd Invocation :=
  match option with
  | "--keep-going" =>
    if i.keepGoing then .error (.usage <| .repeatedOption option)
    else .ok { i with keepGoing := true }
  | "--pretty" =>
    if i.pretty then .error (.usage <| .repeatedOption option) else .ok { i with pretty := true }
  | "--verbose" => .ok { i with verbosity := i.verbosity + 1 }
  | "--help" => .error .help
  | "--version" => .error .version
  | _ => .error (.usage <| .unexpectedArgument option)

/-- What an argument is: a bundle of short options may end in the option with a value. -/
inductive Argument where
  | source (path : String)
  | endOfOptions
  | flag (option : String)
  /-- So many times `-v`. -/
  | verbose (count : Nat)
  | output (verbose : Nat) (value : Option String)
  | entry (value : Option String)
  | unknown (text : String)
deriving DecidableEq, Repr

/-- A text up to the first equals sign, and what follows that sign. -/
def splitValue (cs : List Char) : List Char × Option (List Char) :=
  (cs.takeWhile (· != '='),
    match cs.dropWhile (· != '=') with
    | [] => none
    | _ :: value => some value)

/-- A bundle of short options behind its hyphen, after so many times `v`. -/
def Argument.ofShort (text : String) : (verbose : Nat) → List Char → Argument
  | n, [] => .verbose n
  | _, 'h' :: _ => .flag "--help"
  | _, 'V' :: _ => .flag "--version"
  | n, 'v' :: cs => ofShort text (n + 1) cs
  | n, ['o'] => .output n none
  | n, 'o' :: '=' :: cs => .output n (some (String.ofList cs))
  | n, 'o' :: cs => .output n (some (String.ofList cs))
  | _, _ => .unknown text

/-- The kind of an argument. -/
def Argument.ofText (text : String) : Argument :=
  match text.toList with
  | ['-', '-'] => .endOfOptions
  | '-' :: '-' :: cs =>
    match splitValue cs with
    | (option, value) =>
      match String.ofList option, value with
      | "output", value => .output 0 (value.map String.ofList)
      | "entry", value => .entry (value.map String.ofList)
      | _, none => .flag text
      | _, some _ => .unknown text
  | ['-'] => .source text
  | '-' :: cs => .ofShort text 0 cs
  | _ => .source text

/-- Whether an argument can be the value of the option in front of it. -/
def isValue (text : String) : Bool :=
  match text.toList with
  | ['-'] => true
  | '-' :: _ => false
  | _ => true

/-- Reads arguments on top of those read before. -/
def parseFrom : Invocation → List String → Except EarlyEnd Invocation
  | i, [] => .ok i
  | i, text :: rest =>
    match Argument.ofText text with
    | .source path => parseFrom (i.addSource path) rest
    | .endOfOptions => .ok { i with sources := i.sources ++ rest }
    | .flag option => do
      let i ← i.setFlag option
      parseFrom i rest
    | .verbose count => parseFrom { i with verbosity := i.verbosity + count } rest
    | .output count (some value) => do
      let i ← { i with verbosity := i.verbosity + count }.setOutput value
      parseFrom i rest
    | .output count none =>
      match rest with
      | value :: rest =>
        if isValue value then do
          let i ← { i with verbosity := i.verbosity + count }.setOutput value
          parseFrom i rest
        else .error (.usage <| .missingValue "--output <OUTPUT>")
      | [] => .error (.usage <| .missingValue "--output <OUTPUT>")
    | .entry (some value) => do
      let i ← i.setEntry value
      parseFrom i rest
    | .entry none =>
      match rest with
      | value :: rest =>
        if isValue value then do
          let i ← i.setEntry value
          parseFrom i rest
        else .error (.usage <| .missingValue "--entry <ENTRY>")
      | [] => .error (.usage <| .missingValue "--entry <ENTRY>")
    | .unknown text => .error (.usage <| .unexpectedArgument text)

/-- What the arguments of the command ask for. -/
def parse (args : List String) : Except EarlyEnd Invocation :=
  parseFrom empty args

end Invocation

end WordScheme
