import Octet.Isa.Opcode
/-!
The instructions that source text can name: the operations of the machine, and compounds of them.
-/

namespace Octet

/-- An instruction that stands for several operations of the machine. Most of them use `H` and `L` for scratch. -/
inductive Compound where
  /-- goes to an address, or to the one in a register pair -/
  | jmp
  /-- goes there if the carry flag is set -/
  | jc
  /-- goes there if the carry flag is clear -/
  | jnc
  | not
  | nand
  | xor
  | xnor
  /-- sets the carry flag -/
  | stc
  /-- `reg ← reg - source` -/
  | sub
  /-- `reg ← 0x02` if greater than the source, else 0 -/
  | gtn
  /-- `reg ← 0x08` if less than the source, else 0 -/
  | ltn
  /-- `reg ← 0x04` if equal to the source, else 0 -/
  | equ
  /-- moves between registers, from a byte, and from and to an address -/
  | mov
  /-- `reg ← mem[pair]` -/
  | movmr
  /-- `mem[pair] ← source` -/
  | movrm
  /-- pushes the return address, high byte first, and goes to an address -/
  | call
  /-- pops the return address and goes there -/
  | ret
  | nop
  | inc
  | dec
deriving DecidableEq, Repr

namespace Compound

/-- All compounds. -/
def all : List Compound :=
  [jmp, jc, jnc, not, nand, xor, xnor, stc, sub, gtn, ltn, equ, mov, movmr, movrm, call, ret, nop, inc, dec]

/-- The name in source text. -/
def name : Compound → String
  | jmp => "JMP"
  | jc => "JC"
  | jnc => "JNC"
  | not => "NOT"
  | nand => "NAND"
  | xor => "XOR"
  | xnor => "XNOR"
  | stc => "STC"
  | sub => "SUB"
  | gtn => "GTN"
  | ltn => "LTN"
  | equ => "EQU"
  | mov => "MOV"
  | movmr => "MOVMR"
  | movrm => "MOVRM"
  | call => "CALL"
  | ret => "RET"
  | nop => "NOP"
  | inc => "INC"
  | dec => "DEC"

/-- The least number of operands; an address written as one word counts as one. -/
def minOperands : Compound → Nat
  | stc | ret | nop => 0
  | jmp | jc | jnc | not | call | inc | dec => 1
  | nand | xor | xnor | sub | gtn | ltn | equ | mov => 2
  | movmr | movrm => 3

/-- The greatest number of operands. -/
def maxOperands : Compound → Nat
  | stc | ret | nop => 0
  | not | inc | dec => 1
  | jmp | jc | jnc | nand | xor | xnor | sub | gtn | ltn | equ | call => 2
  | mov | movmr | movrm => 3

end Compound

/-- An instruction that source text can name. -/
inductive Mnemonic where
  | primitive (op : Opcode)
  | compound (c : Compound)
deriving DecidableEq, Repr

namespace Mnemonic

/-- The name in source text. -/
def name : Mnemonic → String
  | primitive op => op.name
  | compound c => c.name

/-- The instruction with the given name, in upper case. -/
def ofName? (text : String) : Option Mnemonic :=
  (Opcode.ofName? text).map primitive <|> (Compound.all.find? fun c => c.name = text).map compound

/-- Whether the instruction needs the address that follows it. -/
def isCall (m : Mnemonic) : Bool := m = compound .call

end Mnemonic

end Octet
