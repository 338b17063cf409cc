import WordScheme.Assoc

/-!
# A disk in memory

A `Disk` is a working directory with files in it, held in memory, so that a run of the command can
be followed without touching a real one. A file is known by its `Place`, and a directory is there
when some file lies below it. The root and the directories above the working directory are there as
well, with nothing else in them. Reading and writing fail as they would on a real disk, with the
same words.
-/

namespace WordScheme

/-! ### Places -/

/-- Where the way to a place starts. -/
inductive Base where
  /-- So many levels above the working directory. -/
  | above (levels : Nat)
  | root
deriving DecidableEq, Repr

/-- A base, and the names on the way down from it. -/
structure Place where
  base : Base
  names : List String
deriving DecidableEq, Repr

namespace Place

/-- The directory that holds a place. The root holds itself. -/
def parent (p : Place) : Place :=
  match p.names, p.base with
  | [], .above levels => ⟨.above (levels + 1), []⟩
  | [], .root => p
  | names, base => ⟨base, names.dropLast⟩

/-- The place that one part of a path leads to. -/
def step (p : Place) (part : String) : Place :=
  if part == "" || part == "." then p
  else if part == ".." then p.parent
  else ⟨p.base, p.names ++ [part]⟩

/-- Where a path starts. -/
def start (path : String) : Place :=
  ⟨if path.toList.head? == some '/' then .root else .above 0, []⟩

/-- Whether a place lies somewhere below another. -/
def isBelow (p top : Place) : Bool :=
  p.base == top.base && top.names.isPrefixOf p.names && top.names.length < p.names.length

end Place

/-- The parts between the slashes of a path. -/
def pathParts : List Char → List (List Char)
  | [] => [[]]
  | '/' :: cs => [] :: pathParts cs
  | c :: cs =>
    match pathParts cs with
    | [] => [[c]]
    | part :: rest => (c :: part) :: rest

/-- The parts that take a step. An empty one, between or behind slashes, takes none. -/
def pathSteps (path : String) : List String :=
  ((pathParts path.toList).filter (!·.isEmpty)).map String.ofList

/-- Whether a path can only mean a directory. -/
def endsInSlash (path : String) : Bool :=
  path.toList.getLast? == some '/'

/-! ### Files -/

/-- Why a path cannot be followed or written. -/
inductive DiskFault where
  | missing
  | notDirectory
  | directory
deriving DecidableEq, Repr

/-- The system's words for a fault. -/
def DiskFault.reason : DiskFault → String
  | .missing => "No such file or directory (os error 2)"
  | .notDirectory => "Not a directory (os error 20)"
  | .directory => "Is a directory (os error 21)"

/-- Files by their places. -/
structure Disk where
  files : Assoc Place ByteArray

namespace Disk

/-- A disk with the given files, by their paths. -/
def ofFiles (files : List (String × ByteArray)) : Disk :=
  ⟨files.foldl
    (fun m (path, bytes) => m.put ((pathSteps path).foldl Place.step (.start path)) bytes) []⟩

/-- Whether a place is a directory: a base, or one with a file below it. -/
def isDirectory (disk : Disk) (place : Place) : Bool :=
  place.names.isEmpty || disk.files.any fun (other, _) => other.isBelow place

/-- Follows the parts of a path. Every step must start from a directory. -/
def follow (disk : Disk) (place : Place) : List String → Except DiskFault Place
  | [] => .ok place
  | part :: rest =>
    if disk.isDirectory place then disk.follow (place.step part) rest
    else if (disk.files.get? place).isSome then .error .notDirectory
    else .error .missing

/-- The place that a path names. The empty path names none. -/
def locate (disk : Disk) (path : String) : Except DiskFault Place :=
  if path.isEmpty then .error .missing else disk.follow (.start path) (pathSteps path)

/-- The contents of a file. -/
def read? (disk : Disk) (path : String) : Option ByteArray :=
  match disk.locate path with
  | .ok place => if endsInSlash path then none else disk.files.get? place
  | .error _ => none

/-- Replaces or makes a file, or says why it cannot. -/
def write (disk : Disk) (path : String) (bytes : ByteArray) : Except DiskFault Disk := do
  let place ← disk.locate path
  if endsInSlash path || disk.isDirectory place then .error .directory
  else .ok ⟨disk.files.put place bytes⟩

end Disk

end WordScheme
