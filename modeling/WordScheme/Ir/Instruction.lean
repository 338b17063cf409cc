import WordScheme.Ir.Type

/-!
# Operands, instructions and terminators

Code is made of instructions that write virtual registers, in blocks that end in a terminator.
Operands carry their type. Equality of constants is equality of numbers, so that the instructions
around a NaN never compare equal.
-/

namespace WordScheme

/-- A constant. -/
inductive Constant where
  | int (width : Width) (value : Int64)
  | double (value : Double)
deriving BEq, Repr, Inhabited

/-- An operand of an instruction. -/
inductive Operand where
  /-- The result of an instruction, by the number of its register. -/
  | register (number : Nat) (ty : Ty)
  | const (value : Constant)
  /-- The address of a global, with the type of what is there. -/
  | global (name : Name) (ty : Ty)
  | param (name : Name) (ty : Ty)
deriving BEq, Repr, Inhabited

namespace Operand

/-- A word as an operand. -/
def word (value : Int64) : Operand :=
  .const (.int .i64 value)

/-- The type of an operand; a global is used by its address. -/
def ty : Operand → Ty
  | .register _ ty => ty
  | .const (.int width _) => .int width
  | .const (.double _) => .double
  | .global _ _ => .ptr
  | .param _ ty => ty

end Operand

/-- Comparisons of integers. -/
inductive IntPredicate where
  | eq
  | ne
  | slt
  | sle
  | sgt
  | sge
deriving DecidableEq, Repr

/-- Comparisons of doubles that are false on a NaN. -/
inductive FloatPredicate where
  | oeq
  | olt
  | ole
  | ogt
  | oge
deriving DecidableEq, Repr

/-- Operations on two operands. -/
inductive Opcode where
  | add
  | sub
  | mul
  | sdiv
  | fadd
  | fsub
  | fmul
  | fdiv
  | shl
  | lshr
  | or
deriving DecidableEq, Repr

/-- Conversions between types. -/
inductive CastOp where
  | sitofp
  | inttoptr
  | ptrtoint
  | zext
  | bitcast
deriving DecidableEq, Repr

/-- The mnemonic of a comparison of integers. -/
def IntPredicate.text : IntPredicate → String
  | .eq => "eq"
  | .ne => "ne"
  | .slt => "slt"
  | .sle => "sle"
  | .sgt => "sgt"
  | .sge => "sge"

/-- The mnemonic of a comparison of doubles. -/
def FloatPredicate.text : FloatPredicate → String
  | .oeq => "oeq"
  | .olt => "olt"
  | .ole => "ole"
  | .ogt => "ogt"
  | .oge => "oge"

/-- The mnemonic of an operation. -/
def Opcode.text : Opcode → String
  | .add => "add"
  | .sub => "sub"
  | .mul => "mul"
  | .sdiv => "sdiv"
  | .fadd => "fadd"
  | .fsub => "fsub"
  | .fmul => "fmul"
  | .fdiv => "fdiv"
  | .shl => "shl"
  | .lshr => "lshr"
  | .or => "or"

/-- Whether an operation works on doubles. -/
def Opcode.isFloat : Opcode → Bool
  | .fadd => true
  | .fsub => true
  | .fmul => true
  | .fdiv => true
  | _ => false

/-- The mnemonic of a conversion. -/
def CastOp.text : CastOp → String
  | .sitofp => "sitofp"
  | .inttoptr => "inttoptr"
  | .ptrtoint => "ptrtoint"
  | .zext => "zext"
  | .bitcast => "bitcast"

/-- An instruction. -/
inductive Instruction where
  | binary (op : Opcode) (lhs rhs : Operand)
  | icmp (predicate : IntPredicate) (lhs rhs : Operand)
  | fcmp (predicate : FloatPredicate) (lhs rhs : Operand)
  | alloca (ty : Ty)
  | load (ty : Ty) (pointer : Operand)
  | store (value pointer : Operand)
  /-- The address of an element of the aggregate that `base` points to. -/
  | elementPtr (ty : Ty) (base index : Operand)
  | cast (op : CastOp) (operand : Operand) (target : Ty)
  | call (result : Ty) (callee : Operand) (args : List Operand)
  /-- The value that belongs to the block from which control came. -/
  | phi (ty : Ty) (incoming : List (Operand × Name))
deriving BEq, Repr, Inhabited

/-- The type of the value that an instruction defines. -/
def Instruction.resultTy : Instruction → Ty
  | .binary op lhs _ => if op.isFloat then .double else lhs.ty
  | .icmp _ _ _ => .flag
  | .fcmp _ _ _ => .flag
  | .alloca _ => .ptr
  | .load ty _ => ty
  | .store _ _ => .void
  | .elementPtr _ _ _ => .ptr
  | .cast _ _ target => target
  | .call result _ _ => result
  | .phi ty _ => ty

namespace Instruction

/-! ### Conversions and calls with their usual types -/

/-- A word as the double of the same value. -/
def toDouble (operand : Operand) : Instruction :=
  .cast .sitofp operand .double

/-- A word as an address. -/
def toPointer (operand : Operand) : Instruction :=
  .cast .inttoptr operand .ptr

/-- An address as a word. -/
def ofPointer (operand : Operand) : Instruction :=
  .cast .ptrtoint operand .word

/-- A call that gives a word. The callee is a global function or an address. -/
def callWord (callee : Operand) (args : List Operand) : Instruction :=
  .call .word callee args

end Instruction

/-- How a block ends. -/
inductive Terminator where
  | branch (target : Name)
  | condBranch (condition : Operand) (positive negative : Name)
  | ret (value : Operand)
  /-- Control never gets here. -/
  | unreachable
deriving BEq, Repr, Inhabited

/-- The labels to which control may go. -/
def Terminator.successors : Terminator → List Name
  | .branch target => [target]
  | .condBranch _ positive negative => [positive, negative]
  | .ret _ => []
  | .unreachable => []

/-- An instruction and the register it defines, if it defines one. -/
structure Statement where
  dest : Option Nat
  instruction : Instruction
deriving BEq, Repr, Inhabited

end WordScheme
