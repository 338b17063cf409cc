import WordScheme.Ir.Module

/-!
# What code reads and defines

The operands that instructions and terminators read, and the registers that blocks define. A phi
reads its operands at the ends of the blocks it names, not where it stands, so it is told apart
from the other instructions.
-/

namespace WordScheme

/-- The operands that an instruction reads. -/
def Instruction.operands : Instruction → List Operand
  | .binary _ lhs rhs => [lhs, rhs]
  | .icmp _ lhs rhs => [lhs, rhs]
  | .fcmp _ lhs rhs => [lhs, rhs]
  | .alloca _ => []
  | .load _ pointer => [pointer]
  | .store value pointer => [value, pointer]
  | .elementPtr _ base index => [base, index]
  | .cast _ operand _ => [operand]
  | .call _ callee args => callee :: args
  | .phi _ incoming => incoming.map Prod.fst

/-- The values that a phi chooses from, each with the block it comes from. -/
def Instruction.incoming? : Instruction → Option (List (Operand × Name))
  | .phi _ incoming => some incoming
  | _ => none

/-- Whether an instruction is a phi. -/
def Instruction.isPhi (i : Instruction) : Bool :=
  i.incoming?.isSome

theorem Instruction.eq_phi_of_incoming? {i : Instruction} {incoming : List (Operand × Name)}
    (h : i.incoming? = some incoming) : ∃ ty, i = .phi ty incoming := by
  cases i with
  | phi ty incoming' =>
    cases h
    exact ⟨ty, rfl⟩
  | _ => cases h

theorem Instruction.incoming?_ne_some (i : Instruction) (h : i.isPhi = false)
    {incoming : List (Operand × Name)} : i.incoming? ≠ some incoming := by
  intro hincoming
  rw [isPhi, hincoming] at h
  cases h

/-- The operands that a terminator reads. -/
def Terminator.operands : Terminator → List Operand
  | .branch _ => []
  | .condBranch condition _ _ => [condition]
  | .ret value => [value]
  | .unreachable => []

/-- Whether an operand is a constant, a global, or one of these parameters and registers. -/
def Operand.Within (params : List Name) (registers : List Nat) : Operand → Prop
  | .register number _ => number ∈ registers
  | .param name _ => name ∈ params
  | .const _ => True
  | .global _ _ => True

theorem Operand.Within.mono {params : List Name} {registers more : List Nat} {o : Operand}
    (h : o.Within params registers) (hmore : registers ⊆ more) : o.Within params more := by
  cases o with
  | register number ty => exact hmore h
  | _ => exact h

/-- The registers that statements define, in order. -/
def destinations (statements : List Statement) : List Nat :=
  statements.filterMap Statement.dest

end WordScheme
