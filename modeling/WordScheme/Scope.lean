import WordScheme.Assoc
import WordScheme.Ir.Instruction

/-!
# Scopes

The local names of a function, in frames of which the innermost comes first. Names are looked up
from the innermost frame outwards. The outermost frame is never left, and the type says so: a scope
always has a frame.

The top level names, `Globals`, are kept apart: they are the same throughout a program.
-/

namespace WordScheme

/-- What a local name stands for. -/
inductive Binding where
  /-- A value that is used directly. -/
  | value (operand : Operand)
  /-- The address of a cell that holds the value, for names that are assigned to. -/
  | slot (pointer : Operand)
deriving BEq, Repr, Inhabited

/-- Frames of bindings. -/
structure Scope where
  inner : Assoc Name Binding
  outer : List (Assoc Name Binding)
deriving Repr, Inhabited

namespace Scope

/-- A scope of one empty frame. -/
def empty : Scope :=
  ⟨[], []⟩

/-- The frames from the innermost outwards. -/
def frames (s : Scope) : List (Assoc Name Binding) :=
  s.inner :: s.outer

/-- The number of frames. -/
def depth (s : Scope) : Nat :=
  s.frames.length

/-- Opens a frame. -/
def push (s : Scope) : Scope :=
  ⟨[], s.frames⟩

/-- Closes the innermost frame, unless it is the outermost. -/
def pop (s : Scope) : Scope :=
  match s.outer with
  | [] => s
  | frame :: outer => ⟨frame, outer⟩

/-- Binds a name in the innermost frame. -/
def bind (s : Scope) (name : Name) (binding : Binding) : Scope :=
  { s with inner := s.inner.put name binding }

/-- The binding of a name in the innermost of these frames that has one. -/
def lookupIn? (name : Name) : List (Assoc Name Binding) → Option Binding
  | [] => none
  | frame :: frames => (frame.get? name).or (lookupIn? name frames)

/-- The binding of a name. -/
def lookup? (s : Scope) (name : Name) : Option Binding :=
  lookupIn? name s.frames

/-- Changes the binding of a name in the innermost of these frames that has one, and says whether
there is such a frame. -/
def rebindIn? (name : Name) (binding : Binding) :
    List (Assoc Name Binding) → Bool × List (Assoc Name Binding)
  | [] => (false, [])
  | frame :: frames =>
    if frame.has name then (true, frame.put name binding :: frames)
    else
      let (bound, changed) := rebindIn? name binding frames
      (bound, frame :: changed)

/-- Changes the binding of a name where it is bound, and says whether it is. -/
def rebind? (s : Scope) (name : Name) (binding : Binding) : Bool × Scope :=
  if s.inner.has name then (true, { s with inner := s.inner.put name binding })
  else
    let (bound, changed) := rebindIn? name binding s.outer
    (bound, { s with outer := changed })

/-- Changes the binding of a name where it is bound. -/
def rebind (s : Scope) (name : Name) (binding : Binding) : Scope :=
  (s.rebind? name binding).2

/-- The frames after the binding of a name is changed in the innermost one that has it. -/
def rebindIn (name : Name) (binding : Binding) (frames : List (Assoc Name Binding)) :
    List (Assoc Name Binding) :=
  (rebindIn? name binding frames).2

@[simp]
theorem rebindIn_nil (name : Name) (binding : Binding) : rebindIn name binding [] = [] := rfl

theorem rebindIn_cons (name : Name) (binding : Binding) (frame : Assoc Name Binding)
    (frames : List (Assoc Name Binding)) : rebindIn name binding (frame :: frames) =
      if frame.has name then frame.put name binding :: frames
      else frame :: rebindIn name binding frames := by
  rw [rebindIn, rebindIn?, rebindIn]
  split <;> rfl

/-- The scope after a change has the frames of the search from the innermost one on. -/
theorem rebind_eq (s : Scope) (name : Name) (binding : Binding) : s.rebind name binding =
    if s.inner.has name then { s with inner := s.inner.put name binding }
    else { s with outer := rebindIn name binding s.outer } := by
  rw [rebind, rebind?, rebindIn]
  split <;> rfl

/-- A scope always has a frame. -/
theorem one_le_depth (s : Scope) : 1 ≤ s.depth := by
  simp [depth, frames]

@[simp]
theorem pop_push (s : Scope) : s.push.pop = s := rfl

end Scope

/-! ### Top level names -/

/-- How a top level name is defined. -/
inductive GlobalKind where
  /-- A variable that holds a word. -/
  | var
  | function (arity : Nat)
deriving DecidableEq, Repr

/-- The top level names of a program. -/
abbrev Globals := Assoc Name GlobalKind

end WordScheme
