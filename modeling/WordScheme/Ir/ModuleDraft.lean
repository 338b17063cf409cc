import WordScheme.Assoc
import WordScheme.CompileError
import WordScheme.Ir.Module

/-!
# Modules in the making

A `ModuleDraft` collects definitions in the order in which they are added. A definition equal to one
already there is not added again, so the same declaration may be asked for as often as it is needed.
An index from names to positions keeps the comparison to definitions of the same name.
-/

namespace WordScheme

/-! ### Positions by name -/

/-- For each name the ascending positions at which it is defined. -/
abbrev NameIndex := Assoc Name (List Nat)

namespace NameIndex

/-- The positions of a name. -/
def positions (index : NameIndex) (name : Name) : List Nat :=
  (index.get? name).getD []

/-- Enters a position, beyond all earlier ones, for a name. -/
def insert (index : NameIndex) (name : Name) (position : Nat) : NameIndex :=
  index.put name (index.positions name ++ [position])

/-- The position of a definition after the one at `removed` has gone. -/
def shift (removed position : Nat) : Nat :=
  if removed < position then position - 1 else position

/-- Forgets a position and moves down those behind it; names without positions go too. -/
def erase (index : NameIndex) (removed : Nat) : NameIndex :=
  (index.map fun (name, positions) =>
    (name, (positions.filter (· != removed)).map (shift removed))).filter
      fun (_, positions) => !positions.isEmpty

end NameIndex

/-! ### Drafts -/

/-- The definitions of a module so far, with their index. -/
structure ModuleDraft where
  name : String
  definitions : List Definition
  index : NameIndex
deriving Repr, Inhabited

namespace ModuleDraft

/-- A module without definitions. -/
def empty (name : String) : ModuleDraft :=
  ⟨name, [], []⟩

/-- The definitions of a name with their positions, in order. -/
def defining (m : ModuleDraft) (name : Name) : List (Nat × Definition) :=
  (m.index.positions name).filterMap fun position =>
    m.definitions[position]?.map fun d => (position, d)

/-- Whether an equal definition is there. -/
def contains (m : ModuleDraft) (d : Definition) : Bool :=
  (m.defining d.name).any fun (_, other) => other == d

/-- The first function of a name. -/
def function? (m : ModuleDraft) (name : Name) : Option Function :=
  (m.defining name).findSome? fun (_, d) => d.function?

/-- Adds a definition at the end unless an equal one is there, and says whether it did. -/
def add (m : ModuleDraft) (d : Definition) : Bool × ModuleDraft :=
  if m.contains d then (false, m)
  else
    (true, { m with
      definitions := m.definitions ++ [d]
      index := m.index.insert d.name m.definitions.length })

/-- Removes the first function of a name, and gives the draft that it leaves in either case. -/
def removeFunction (m : ModuleDraft) (name : Name) :
    EStateM.Result CompileError ModuleDraft Function :=
  let found := (m.defining name).findSome? fun (position, d) =>
    d.function?.map fun f => (position, f)
  match found with
  | none => .error (.unknownFunction name) m
  | some (position, f) =>
    .ok f { m with
      definitions := m.definitions.eraseIdx position
      index := m.index.erase position }

/-- Removes the first function of a name, if there is one. -/
def dropFunction (m : ModuleDraft) (name : Name) : ModuleDraft :=
  match m.removeFunction name with
  | .ok _ m => m
  | .error _ m => m

/-- Adds a definition, whether or not it is new. -/
def ensure (m : ModuleDraft) (d : Definition) : ModuleDraft :=
  (m.add d).2

/-- A global variable that holds one word, zero at first. -/
def wordVariable (name : Name) : Definition :=
  .globalVariable name .word true

/-- A function that is declared and has no body yet. -/
def placeholder (name : Name) (params : List Name) : Definition :=
  .function ⟨name, .word, wordParams params, []⟩

/-- The finished module. -/
def finish (m : ModuleDraft) : Module :=
  ⟨m.name, m.definitions⟩

end ModuleDraft

end WordScheme
