import WordScheme.Ir.Module
import WordScheme.Text.Strip
import WordScheme.Text.Styled

/-!
# The text of a module

Each part of a module prints as styled text: registers and parameters yellow, constants and top
level keywords magenta, globals blue, mnemonics cyan, labels bright red. `Module.render` is the form
for tools, with every escape sequence removed.
-/

namespace WordScheme

/-- A register as it is printed. -/
def registerText (number : Nat) : Styled :=
  Colour.yellow.paint ("%r" ++ toString number)

/-- A global as it is printed. -/
def globalText (name : Name) : Styled :=
  Colour.blue.paint (sigilName "@" name)

/-- A parameter as it is printed, apart from every register. -/
def paramText (name : Name) : Styled :=
  Colour.yellow.paint (sigilName "%" ("arg." ++ name))

/-- The name of a block as it is printed. -/
def labelText (label : Name) : Styled :=
  Colour.brightRed.paint (sigilName "%" label)

/-- A block as the target of a branch. -/
def labelReference (label : Name) : Styled :=
  Colour.cyan.paint "label" ++ raw " " ++ labelText label

/-- The digits of a constant; doubles are hexadecimal, the one exact spelling for all of them. -/
def Constant.digits : Constant → String
  | .int .i1 value => if value != 0 then "true" else "false"
  | .int _ value => toString value.toInt
  | .double value => "0x" ++ value.hex

/-- A constant as it is printed. -/
def Constant.text (c : Constant) : Styled :=
  Colour.magenta.paint c.digits

namespace Operand

/-- An operand as it is printed. -/
def text : Operand → Styled
  | .register number _ => registerText number
  | .const value => value.text
  | .global name _ => globalText name
  | .param name _ => paramText name

/-- An operand with its type in front. -/
def typed (o : Operand) : Styled :=
  raw o.ty.text ++ raw " " ++ o.text

end Operand

/-- One source of a phi, and the value that comes from there. -/
def incomingText (source : Operand × Name) : Styled :=
  raw "[ " ++ source.1.text ++ raw ", " ++ labelText source.2 ++ raw " ]"

/-- An instruction as it is printed. -/
def Instruction.text : Instruction → Styled
  | .binary op lhs rhs =>
    Colour.cyan.paint op.text ++ raw " " ++ lhs.typed ++ raw ", " ++ rhs.text
  | .icmp predicate lhs rhs =>
    Colour.cyan.paint "icmp" ++ raw (" " ++ predicate.text ++ " ") ++ lhs.typed ++ raw ", "
      ++ rhs.text
  | .fcmp predicate lhs rhs =>
    Colour.cyan.paint "fcmp" ++ raw (" " ++ predicate.text ++ " ") ++ lhs.typed ++ raw ", "
      ++ rhs.text
  | .alloca ty => Colour.cyan.paint "alloca" ++ raw (" " ++ ty.text)
  | .load ty pointer =>
    Colour.cyan.paint "load" ++ raw (" " ++ ty.text ++ ", ") ++ pointer.typed
  | .store value pointer =>
    Colour.cyan.paint "store" ++ raw " " ++ value.typed ++ raw ", " ++ pointer.typed
  | .elementPtr ty base index =>
    Colour.cyan.paint "getelementptr" ++ raw (" " ++ ty.text ++ ", ") ++ base.typed ++ raw ", "
      ++ (Operand.word 0).typed ++ raw ", " ++ index.typed
  | .cast op operand target =>
    Colour.cyan.paint op.text ++ raw " " ++ operand.typed ++ raw " " ++ Colour.cyan.paint "to"
      ++ raw (" " ++ target.text)
  | .call result callee args =>
    Colour.cyan.paint "call" ++ raw (" " ++ result.text ++ " ") ++ callee.text ++ raw "("
      ++ Styled.joinWith ", " (args.map Operand.typed) ++ raw ")"
  | .phi ty incoming =>
    Colour.brightGreen.paint "phi" ++ raw (" " ++ ty.text ++ " ")
      ++ Styled.joinWith ", " (incoming.map incomingText)

/-- A statement as it is printed. -/
def Statement.text (s : Statement) : Styled :=
  match s.dest with
  | some number => registerText number ++ raw " = " ++ s.instruction.text
  | none => s.instruction.text

/-- A terminator as it is printed. -/
def Terminator.text : Terminator → Styled
  | .branch target => Colour.cyan.paint "br" ++ raw " " ++ labelReference target
  | .condBranch condition positive negative =>
    Colour.cyan.paint "br" ++ raw " " ++ condition.typed ++ raw ", " ++ labelReference positive
      ++ raw ", " ++ labelReference negative
  | .ret value => Colour.cyan.paint "ret" ++ raw " " ++ value.typed
  | .unreachable => Colour.cyan.paint "unreachable"

/-- A line inside a block. -/
def indented (line : Styled) : Styled :=
  raw "  " ++ line ++ raw "\n"

/-- A block as it is printed, its label without the sigil. -/
def Block.text (b : Block) : Styled :=
  Colour.brightRed.paint (quotedName b.label ++ ":") ++ raw "\n"
    ++ b.statements.flatMap (fun s => indented s.text) ++ indented b.terminator.text

/-- A parameter with its type in front. -/
def Param.text (p : Param) : Styled :=
  raw (p.ty.text ++ " ") ++ paramText p.name

/-- The declaration of something defined elsewhere, or later. -/
def declarationText (name : Name) (result : Ty) (params : List Ty) : Styled :=
  Colour.magenta.paint "declare" ++ raw (" " ++ result.text ++ " ") ++ globalText name
    ++ raw ("(" ++ ", ".intercalate (params.map Ty.text) ++ ")\n")

/-- A function as it is printed; a placeholder is declared. -/
def Function.text (f : Function) : Styled :=
  if f.isPlaceholder then declarationText f.name f.result (f.params.map Param.ty)
  else
    Colour.magenta.paint "define" ++ raw (" " ++ f.result.text ++ " ") ++ globalText f.name
      ++ raw "(" ++ Styled.joinWith ", " (f.params.map Param.text) ++ raw ") \x7b\n"
      ++ f.blocks.flatMap Block.text ++ raw "\x7d\n"

/-- The initial value of a global variable as it is printed. -/
def initialText : (zeroed : Bool) → Ty → String
  | true, .int _ => "0"
  | true, _ => "zeroinitializer"
  | false, _ => "undef"

/-- A definition as it is printed. -/
def Definition.text : Definition → Styled
  | .globalVariable name ty zeroed =>
    globalText name ++ raw " = " ++ Colour.magenta.paint "global" ++ raw (" " ++ ty.text ++ " ")
      ++ Colour.magenta.paint (initialText zeroed ty) ++ raw "\n"
  | .function f => f.text
  | .external name result params => declarationText name result params
  | .alias name ty =>
    raw (sigilName "%" name ++ " = ") ++ Colour.magenta.paint "type" ++ raw (" " ++ ty.text ++ "\n")
  | .stringConstant name bytes =>
    globalText name ++ raw " = " ++ Colour.magenta.paint "private unnamed_addr constant"
      ++ raw (" " ++ (Ty.array (.int .i8) bytes.length).text ++ " c\"")
      ++ Colour.magenta.paint (escapeBytes bytes) ++ raw "\"\n"

/-- A module as it is printed: its name, then each definition after an empty line. -/
def Module.text (m : Module) : Styled :=
  Colour.white.paint ("; ModuleID = '" ++ m.name ++ "'") ++ raw "\n"
    ++ m.definitions.flatMap fun d => raw "\n" ++ d.text

/-- The text of a module for other tools: as shown, without escape sequences. -/
def Module.render (m : Module) (colours : Bool) : String :=
  strip (m.text.shown colours)

end WordScheme
