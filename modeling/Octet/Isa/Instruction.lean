import Octet.Isa.Opcode
import Octet.Isa.Register
/-!
Instructions: an operation with its operands, and the text that shows one.
-/

namespace Octet

open Text (byteHex)

/-- An operand that is a register or a byte. -/
inductive Source where
  | reg (r : Register)
  | imm (v : UInt8)
deriving DecidableEq, Repr

namespace Source

/-- The byte that stands for the source in machine code. -/
def byte : Source → UInt8
  | reg r => r.code
  | imm v => v

/-- Whether the immediate bit has to be set. -/
def isImmediate : Source → Bool
  | reg _ => false
  | imm _ => true

/-- The source in assembler text. -/
def text : Source → String
  | reg r => r.name
  | imm v => "0X" ++ byteHex v

end Source

/-- Operands, one form for each shape. -/
inductive Operands where
  | reg (r : Register)
  | source (s : Source)
  | address (hi lo : UInt8)
  | regImm (r : Register) (v : UInt8)
  | regSource (r : Register) (s : Source)
  | regReg (dest src : Register)
  | packedReg (r : Register) (hi lo : UInt8)
deriving DecidableEq, Repr

namespace Operands

/-- The shape of an operand form. -/
def shape : Operands → Shape
  | reg _ => .reg
  | source _ => .source
  | address .. => .address
  | regImm .. => .regImm
  | regSource .. => .regSource
  | regReg .. => .regReg
  | packedReg .. => .packedReg

/-- The operands in assembler text. -/
def texts : Operands → List String
  | reg r => [r.name]
  | source s => [s.text]
  | address hi lo => ["0X" ++ byteHex hi, "0X" ++ byteHex lo]
  | regImm r v => [r.name, "0X" ++ byteHex v]
  | regSource r s => [r.name, s.text]
  | regReg dest src => [dest.name, src.name]
  | packedReg r hi lo => [r.name, "0X" ++ byteHex hi, "0X" ++ byteHex lo]

end Operands

/-- An operation with operands. Nothing forces the operands into the operation's shape; that is `Valid`. -/
structure Instruction where
  op : Opcode
  operands : Operands
deriving DecidableEq, Repr

namespace Instruction

/-- Whether the operands have the shape that the operation asks for. -/
def Valid (i : Instruction) : Prop := i.operands.shape = i.op.shape

instance (i : Instruction) : Decidable i.Valid := inferInstanceAs (Decidable (_ = _))

/-- The number of bytes of the instruction, as its operation says. -/
def length (i : Instruction) : Nat := i.op.shape.length

/-- The instruction in assembler text. -/
def text (i : Instruction) : String :=
  String.intercalate " " (i.op.name :: i.operands.texts)

/-- The number of bytes of a program. -/
def totalLength (program : List Instruction) : Nat := (program.map length).foldr (· + ·) 0

theorem length_pos (i : Instruction) : 0 < i.length := i.op.shape.length_pos

end Instruction

end Octet
