/-!
The sixteen operations of the machine and the shape of their operands: the one table that encoder, decoder,
assembler and machine share.
-/

namespace Octet

/-- What follows an opcode byte. -/
inductive Shape where
  /-- a register -/
  | reg
  /-- a register, or a byte if the immediate bit is set -/
  | source
  /-- an address, high byte first -/
  | address
  /-- a register and a byte -/
  | regImm
  /-- a register, then a register or a byte as for `source` -/
  | regSource
  /-- two registers, destination first -/
  | regReg
  /-- an address; the register is packed into bits 4 to 6 of the opcode byte -/
  | packedReg
deriving DecidableEq, Repr

namespace Shape

/-- Whether two operand bytes follow the opcode byte, rather than one. -/
def hasSecondByte : Shape → Bool
  | reg | source => false
  | address | regImm | regSource | regReg | packedReg => true

/-- The number of bytes of an instruction, opcode byte included. -/
def length (s : Shape) : Nat := if s.hasSecondByte then 3 else 2

/-- Whether the immediate bit chooses between a register and a byte. -/
def hasImmediate : Shape → Bool
  | source | regSource => true
  | reg | address | regImm | regReg | packedReg => false

theorem length_pos (s : Shape) : 0 < s.length := by cases s <;> decide

end Shape

/-- An operation of the machine. `H:L` is the pointer, `SP` the stack pointer. -/
inductive Opcode where
  /-- `reg ← mem[H:L]` -/
  | lw
  /-- `mem[H:L] ← source` -/
  | sw
  /-- `H:L ← address` -/
  | lda
  /-- `reg ← byte` -/
  | lc
  /-- `reg ← reg + source`; the carry and the comparison are added to `F` -/
  | add
  /-- `reg ← reg or source` -/
  | or
  /-- `reg ← not (reg or source)` -/
  | nor
  /-- `reg ← reg and source` -/
  | and
  /-- `PC ← H:L` if the source is not zero -/
  | jnz
  /-- `reg ← reg` -/
  | mw
  /-- `F ← comparison of reg and source` -/
  | ldf
  /-- `reg ← mem[address]` -/
  | lwa
  /-- `reg ← reg + source + carry`; the carry and the comparison are added to `F` -/
  | adc
  /-- `mem[address] ← reg` -/
  | swa
  /-- `mem[SP] ← source`, then the low byte of `SP` goes down by one -/
  | push
  /-- the low byte of `SP` goes up by one, then `reg ← mem[SP]` -/
  | pop
deriving DecidableEq, Repr, Inhabited

namespace Opcode

/-- All operations in the order of their numbers. -/
def all : List Opcode :=
  [lw, sw, lda, lc, add, or, nor, and, jnz, mw, ldf, lwa, adc, swa, push, pop]

/-- The low four bits of the opcode byte. -/
def number : Opcode → UInt8
  | lw => 0
  | sw => 1
  | lda => 2
  | lc => 3
  | add => 4
  | or => 5
  | nor => 6
  | and => 7
  | jnz => 8
  | mw => 9
  | ldf => 10
  | lwa => 11
  | adc => 12
  | swa => 13
  | push => 14
  | pop => 15

/-- The name in assembler text. -/
def name : Opcode → String
  | lw => "LW"
  | sw => "SW"
  | lda => "LDA"
  | lc => "LC"
  | add => "ADD"
  | or => "OR"
  | nor => "NOR"
  | and => "AND"
  | jnz => "JNZ"
  | mw => "MW"
  | ldf => "LDF"
  | lwa => "LWA"
  | adc => "ADC"
  | swa => "SWA"
  | push => "PUSH"
  | pop => "POP"

/-- The shape of the operands. -/
def shape : Opcode → Shape
  | lw | pop => .reg
  | sw | jnz | push => .source
  | lda => .address
  | lc => .regImm
  | add | or | nor | and | ldf | adc => .regSource
  | mw => .regReg
  | lwa | swa => .packedReg

/-- The operation that an opcode byte asks for: the low four bits alone decide. -/
def ofByte (byte : UInt8) : Opcode :=
  match byte.toNat % 16 with
  | 0 => lw
  | 1 => sw
  | 2 => lda
  | 3 => lc
  | 4 => add
  | 5 => or
  | 6 => nor
  | 7 => and
  | 8 => jnz
  | 9 => mw
  | 10 => ldf
  | 11 => lwa
  | 12 => adc
  | 13 => swa
  | 14 => push
  | _ => pop

/-- The operation with the given name, in upper case. -/
def ofName? (text : String) : Option Opcode := all.find? fun op => op.name = text

@[simp] theorem ofByte_number (op : Opcode) : ofByte op.number = op := by cases op <;> rfl

end Opcode

end Octet
