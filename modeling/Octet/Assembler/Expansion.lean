import Octet.Assembler.Mnemonic
import Octet.Assembler.Operand
/-!
Instructions of the source text as operations of the machine.

`Mnemonic.expand` gives the operations for a mnemonic with literal operands, or `none` if the operands do not fit.
Which operands fit, and which operations come of them, depends on the values of bytes and words nowhere: they are
only copied.
-/

namespace Octet

/-! ## Operands of operations -/

/-- A register or a byte; a word is neither. -/
def Operand.source? : Operand → Option Source
  | reg r => some (.reg r)
  | byte v => some (.imm v)
  | word _ => none

/-- An address, as one word or as two bytes, high byte first. -/
def address? : List Operand → Option (UInt8 × UInt8)
  | [.word w] => some (highByte w, lowByte w)
  | [.byte hi, .byte lo] => some (hi, lo)
  | _ => none

/-- The operands of an operation of the given shape. -/
def Shape.operands? : Shape → List Operand → Option Operands
  | .reg, [.reg r] => some (.reg r)
  | .source, [s] => s.source?.map .source
  | .address, ops => (address? ops).map fun (hi, lo) => .address hi lo
  | .regImm, [.reg r, .byte v] => some (.regImm r v)
  | .regSource, [.reg r, s] => s.source?.map (.regSource r)
  | .regReg, [.reg dest, .reg src] => some (.regReg dest src)
  | .packedReg, .reg r :: ops => (address? ops).map fun (hi, lo) => .packedReg r hi lo
  | _, _ => none

/-! ## Single operations -/

namespace Instruction

/-- An operation on a register and a source. -/
def onSource (op : Opcode) (r : Register) (s : Source) : Instruction := ⟨op, .regSource r s⟩

/-- Copies a register. -/
def move (dest src : Register) : Instruction := ⟨.mw, .regReg dest src⟩

/-- Loads a byte into a register. -/
def constant (dest : Register) (v : UInt8) : Instruction := ⟨.lc, .regImm dest v⟩

/-- Goes to `H:L` if the source is not zero. -/
def jump (s : Source) : Instruction := ⟨.jnz, .source s⟩

/-- Copies a source into `H`. -/
def loadH : Source → Instruction
  | .reg r => move .h r
  | .imm v => constant .h v

end Instruction

open Instruction

/-- The byte that counts as true, and the mask of the carry flag. -/
def one : Source := .imm 0x01

/-! ## Targets -/

/-- Where an address comes from. -/
inductive Target where
  | literal (hi lo : UInt8)
  | pair (hi lo : Register)
deriving DecidableEq, Repr

namespace Target

/-- A register pair. One whose low register is `H` and whose high register is another one is refused: `H` is
written before the low register is read. -/
def pair? : List Operand → Option Target
  | [.reg hi, .reg lo] => if lo = .h ∧ hi ≠ .h then none else some (pair hi lo)
  | _ => none

/-- A register pair or an address. -/
def ofOperands? (ops : List Operand) : Option Target :=
  match ops with
  | [.reg _, .reg _] => pair? ops
  | _ => (address? ops).map fun (hi, lo) => literal hi lo

/-- Puts the target into `H:L`. -/
def load : Target → List Instruction
  | literal hi lo => [⟨.lda, .address hi lo⟩]
  | pair hi lo => [move .h hi, move .l lo]

end Target

/-! ## Compounds -/

/-- A register and a source. -/
def regSource? : List Operand → Option (Register × Source)
  | [.reg r, s] => s.source?.map (r, ·)
  | _ => none

/-- A register and a source, for expansions that use `H` for scratch: the register is not `H`. -/
def regSourceNotH? (ops : List Operand) : Option (Register × Source) :=
  (regSource? ops).filter fun p => p.1 ≠ .h

/-- A single register. -/
def reg? : List Operand → Option Register
  | [.reg r] => some r
  | _ => none

/-- The start of `XOR` and `XNOR`: `H` holds the bits that are in both, and the register those in neither. -/
def bothAndNeither (r : Register) (s : Source) : List Instruction :=
  [loadH s, onSource .and .h (.reg r), onSource .nor r s]

/-- Compares, and keeps one of the flags in the register. -/
def keepFlag (mask : UInt8) (ops : List Operand) : Option (List Instruction) :=
  (regSource? ops).map fun (r, s) =>
    [onSource .ldf r s, onSource .and .f (.imm mask), move r .f]

/-- The operations of a jump to a target in `H:L`. -/
def jumpTo (target : Target) : List Instruction := target.load ++ [jump one]

/-- The operations of a move. -/
def expandMov : List Operand → Option (List Instruction)
  | [.reg dest, .reg src] => some [move dest src]
  | [.reg dest, .byte v] => some [constant dest v]
  | .reg dest :: address => (address? address).map fun (hi, lo) => [⟨.lwa, .packedReg dest hi lo⟩]
  | ops =>
    match ops.getLast? with
    | some (.reg src) => (address? ops.dropLast).map fun (hi, lo) => [⟨.swa, .packedReg src hi lo⟩]
    | _ => none

/-- The operations of a load from the address in a pair. -/
def expandMovmr : List Operand → Option (List Instruction)
  | .reg dest :: pair => (Target.pair? pair).map fun target => target.load ++ [⟨.lw, .reg dest⟩]
  | _ => none

/-- The operations of a store to the address in a pair. The source is not `H` or `L`, which hold the address by
then. -/
def expandMovrm (ops : List Operand) : Option (List Instruction) := do
  let s ← (← ops.getLast?).source?
  if s = .reg .h ∨ s = .reg .l then none
  let target ← Target.pair? ops.dropLast
  return target.load ++ [⟨.sw, .source s⟩]

/-- The operations of a compound. `returnAddress` is the address after it. -/
def Compound.expand (c : Compound) (ops : List Operand) (returnAddress : UInt16) :
    Option (List Instruction) :=
  match c with
  | jmp => (Target.ofOperands? ops).map jumpTo
  | jc => (Target.ofOperands? ops).map fun target =>
    let carry := onSource .and .f one
    match target with
    | .literal .. => carry :: target.load ++ [jump (.reg .f)]
    | .pair .. => target.load ++ [carry, jump (.reg .f)]
  | jnc => (Target.ofOperands? ops).map fun target =>
    target.load ++ [onSource .nor .f (.reg .f), onSource .and .f one, jump (.reg .f)]
  | not => (reg? ops).map fun r => [onSource .nor r (.reg r)]
  | nand => (regSource? ops).map fun (r, s) => [onSource .and r s, onSource .nor r (.reg r)]
  | xor => ((regSourceNotH? ops).filter fun p => p.2 ≠ .reg .h).map fun (r, s) =>
    bothAndNeither r s ++ [onSource .nor r (.reg .h)]
  | xnor => ((regSourceNotH? ops).filter fun p => p.2 ≠ .reg .h).map fun (r, s) =>
    bothAndNeither r s ++ [onSource .or r (.reg .h)]
  | stc => if ops = [] then some [onSource .or .f one] else none
  | sub => (regSourceNotH? ops).map fun (r, s) =>
    [loadH s, onSource .nor .h (.reg .h), onSource .or .f one, onSource .adc r (.reg .h)]
  | gtn => keepFlag 0x02 ops
  | ltn => keepFlag 0x08 ops
  | equ => keepFlag 0x04 ops
  | mov => expandMov ops
  | movmr => expandMovmr ops
  | movrm => expandMovrm ops
  | call => (Target.ofOperands? ops).map fun target =>
    ⟨.push, .source (.imm (highByte returnAddress))⟩ ::
      ⟨.push, .source (.imm (lowByte returnAddress))⟩ :: jumpTo target
  | ret => if ops = [] then some [⟨.pop, .reg .l⟩, ⟨.pop, .reg .h⟩, jump one] else none
  | nop => if ops = [] then some [move .f .f] else none
  | inc => (reg? ops).map fun r => [onSource .add r one]
  | dec => (reg? ops).map fun r => [onSource .or .f one, onSource .adc r (.imm 0xFE)]

/-- The operations of an instruction of the source text. -/
def Mnemonic.expand (m : Mnemonic) (ops : List Operand) (returnAddress : UInt16) :
    Option (List Instruction) :=
  match m with
  | primitive op => (op.shape.operands? ops).map fun operands => [⟨op, operands⟩]
  | compound c => c.expand ops returnAddress

end Octet
