import WordScheme.Proofs.Uses

/-!
# Types of instructions

Every operand carries its type, and nothing compares the types when an instruction is written. This
file says when they fit: `Instruction.WellTyped` and `Terminator.WellTyped` give the types that each
instruction and each terminator asks of its operands, `Instruction.Saturated` the number of
arguments that a direct call asks for. A call goes to an address, so the callee of a direct call,
which is a global, passes as one.

`Instruction.types` and `Operand.types` are the types that are written down, and `Ty.typeNames` the
names among them that need a definition in the module.
-/

namespace WordScheme

/-! ### Types that fit -/

/-- The type of both operands of an operation. -/
def Opcode.operandTy (op : Opcode) : Ty :=
  if op.isFloat then .double else .word

/-- The types between which a conversion goes. -/
def CastOp.Converts : CastOp → (source target : Ty) → Prop
  | .sitofp, source, target => source = .word ∧ target = .double
  | .inttoptr, source, target => source = .word ∧ target = .ptr
  | .ptrtoint, source, target => source = .ptr ∧ target = .word
  | .zext, source, target => source = .flag ∧ target = .word
  | .bitcast, source, target =>
    (source = .double ∧ target = .word) ∨ (source = .word ∧ target = .double)

/-- The operands of an instruction have the types that it works on. -/
def Instruction.WellTyped : Instruction → Prop
  | .binary op lhs rhs => lhs.ty = op.operandTy ∧ rhs.ty = op.operandTy
  | .icmp _ lhs rhs => lhs.ty = .word ∧ rhs.ty = .word
  | .fcmp _ lhs rhs => lhs.ty = .double ∧ rhs.ty = .double
  | .alloca _ => True
  | .load ty pointer => ty = .word ∧ pointer.ty = .ptr
  | .store value pointer => value.ty = .word ∧ pointer.ty = .ptr
  | .elementPtr _ base index => base.ty = .ptr ∧ index.ty = .word
  | .cast op operand target => op.Converts operand.ty target
  | .call result callee args => result = .word ∧ callee.ty = .ptr ∧ ∀ arg ∈ args, arg.ty = .word
  | .phi ty incoming => ty = .word ∧ ∀ x ∈ incoming, x.1.ty = .word

/-- The operand of a terminator has the type that it asks for. -/
def Terminator.WellTyped : Terminator → Prop
  | .branch _ => True
  | .condBranch condition _ _ => condition.ty = .flag
  | .ret value => value.ty = .word
  | .unreachable => True

/-- A direct call goes to a function of as many words as there are arguments. -/
def Instruction.Saturated (i : Instruction) : Prop :=
  ∀ result name ty args, i = .call result (.global name ty) args → ty = .wordFunction args.length

/-! ### Types that are written down -/

mutual

/-- The names that a type mentions. -/
def Ty.typeNames : Ty → List Name
  | .int _ => []
  | .double => []
  | .ptr => []
  | .array element _ => element.typeNames
  | .named name => [name]
  | .function result params => result.typeNames ++ typeNamesAll params
  | .void => []

/-- The names that several types mention. -/
def typeNamesAll : List Ty → List Name
  | [] => []
  | t :: ts => t.typeNames ++ typeNamesAll ts

end

/-- The types that an instruction names itself, those of its operands aside. -/
def Instruction.types : Instruction → List Ty
  | .binary _ _ _ => []
  | .icmp _ _ _ => []
  | .fcmp _ _ _ => []
  | .alloca ty => [ty]
  | .load ty _ => [ty]
  | .store _ _ => []
  | .elementPtr ty _ _ => [ty]
  | .cast _ _ target => [target]
  | .call result _ _ => [result]
  | .phi ty _ => [ty]

/-- The type that an operand is written with. -/
def Operand.types : Operand → List Ty
  | .register _ ty => [ty]
  | .const _ => []
  | .global _ ty => [ty]
  | .param _ ty => [ty]

@[simp]
theorem typeNames_word : Ty.word.typeNames = [] := rfl

@[simp]
theorem typeNamesAll_replicate_word (n : Nat) : typeNamesAll (.replicate n .word) = [] := by
  induction n with
  | zero => rfl
  | succ n ih => simp [List.replicate_succ, typeNamesAll, ih]

@[simp]
theorem typeNames_wordFunction (n : Nat) : (Ty.wordFunction n).typeNames = [] := by
  simp [Ty.wordFunction, Ty.typeNames]

/-- No result of a well typed instruction is of a named type. -/
theorem Instruction.WellTyped.typeNames_resultTy {i : Instruction} (h : i.WellTyped) :
    i.resultTy.typeNames = [] := by
  cases i with
  | binary op lhs rhs =>
    obtain ⟨hl, -⟩ := h
    rw [resultTy, hl, Opcode.operandTy]
    split <;> rfl
  | load ty pointer => rw [resultTy, h.1, typeNames_word]
  | cast op operand target =>
    cases op with
    | bitcast => rcases h with ⟨-, ht⟩ | ⟨-, ht⟩ <;> rw [resultTy, ht] <;> rfl
    | _ =>
      rw [resultTy, h.2]
      rfl
  | call result callee args => rw [resultTy, h.1, typeNames_word]
  | phi ty incoming => rw [resultTy, h.1, typeNames_word]
  | _ => rfl

end WordScheme
