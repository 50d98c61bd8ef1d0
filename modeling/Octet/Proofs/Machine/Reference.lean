import Octet.Machine.Cpu
import Mathlib
/-!
The machine as its instruction table describes it: one instruction after the other, without phases.

* `Machine`: what a program can see between two instructions;
* `Machine.perform`: the effect of an instruction;
* `Machine.run?`: the first instructions from a state on, if the bytes at `PC` are one each time;
* `Cpu.machine`: what a program can see of a processor.
-/

namespace Octet

/-- What a program can see between two instructions. -/
structure Machine where
  file : RegisterFile
  pc : UInt16
  spHigh : UInt8
  spLow : UInt8
  memory : Memory
deriving DecidableEq

namespace Machine

variable (m : Machine)

/-! ## Operands -/

/-- The content of a register. -/
def get (r : Register) : UInt8 := m.file.get r

/-- A new content of a register. -/
def set (r : Register) (v : UInt8) : Machine := { m with file := m.file.set r v }

/-- The value of a source operand. -/
def value : Source → UInt8
  | .reg r => m.get r
  | .imm v => v

/-- The memory pointer `H:L`. -/
def pointer : UInt16 := wordOf (m.get .h) (m.get .l)

/-- The stack pointer. -/
def sp : UInt16 := wordOf m.spHigh m.spLow

/-- The byte at an address. -/
def load (address : UInt16) : UInt8 := m.memory.read address

/-- Puts a byte in memory. At the two stack pointer ports it also goes to the stack pointer. -/
def store (address : UInt16) (v : UInt8) : Machine :=
  { m with
    memory := m.memory.write address v
    spLow := if address = 0xFF08 then v else m.spLow
    spHigh := if address = 0xFF09 then v else m.spHigh }

/-! ## Effects -/

/-- Sets flags and clears none. -/
def raise (flags : UInt8) : Machine := m.set .f (m.get .f ||| flags)

/-- The flag that tells how two bytes compare: greater, equal or less. -/
def comparison (left right : UInt8) : UInt8 :=
  if right < left then 0x02 else if left = right then 0x04 else 0x08

/-- Adds a source and a carry to a register. The carry out is raised before the register is written, and the
comparison reads the operands again. -/
def addition (r : Register) (s : Source) (carryIn : Nat) : Machine :=
  let sum := (m.get r).toNat + (m.value s).toNat + carryIn
  let raised := m.raise (if 0xFF < sum then 0x01 else 0x00)
  let written := raised.set r (UInt8.ofNat sum)
  written.raise (comparison (written.get r) (written.value s))

/-- The effect of an instruction, with `PC` behind it already. -/
def perform (i : Instruction) : Machine :=
  match i.op, i.operands with
  | .lw, .reg r => m.set r (m.load m.pointer)
  | .sw, .source s => m.store m.pointer (m.value s)
  | .lda, .address hi lo => (m.set .h hi).set .l lo
  | .lc, .regImm r v => m.set r v
  | .add, .regSource r s => m.addition r s 0
  | .or, .regSource r s => m.set r (m.get r ||| m.value s)
  | .nor, .regSource r s => m.set r (~~~(m.get r ||| m.value s))
  | .and, .regSource r s => m.set r (m.get r &&& m.value s)
  | .jnz, .source s => if m.value s ≠ 0 then { m with pc := m.pointer } else m
  | .mw, .regReg dest src => m.set dest (m.get src)
  | .ldf, .regSource r s => m.set .f (comparison (m.get r) (m.value s))
  | .lwa, .packedReg r hi lo => m.set r (m.load (wordOf hi lo))
  | .adc, .regSource r s => m.addition r s (m.get .f &&& 0x01).toNat
  | .swa, .packedReg r hi lo => m.store (wordOf hi lo) (m.get r)
  | .push, .source s =>
    let stored := m.store m.sp (m.value s)
    { stored with spLow := stored.spLow - 1 }
  | .pop, .reg r =>
    let raised := { m with spLow := m.spLow + 1 }
    raised.set r (raised.load raised.sp)
  | _, _ => m

/-! ## Runs -/

/-- The instruction at `PC`, if the three bytes there start with one. Addresses wrap at the end of memory. -/
def fetch : Except CodeFault Instruction := Instruction.decode (m.memory.readMany m.pc 3)

/-- The state after an instruction. -/
def execute (i : Instruction) : Machine := { m with pc := m.pc + UInt16.ofNat i.length }.perform i

/-- The first `n` instructions from a state on, and the state after them, if there are as many. -/
def run? : Nat → Machine → Option (List Instruction × Machine)
  | 0, m => some ([], m)
  | n + 1, m => do
    let i ← m.fetch.toOption
    let (program, last) ← run? n (m.execute i)
    return (i :: program, last)

end Machine

/-- What a program can see of a processor. -/
def Cpu.machine (cpu : Cpu) : Machine where
  file := cpu.registers.file
  pc := cpu.registers.pc
  spHigh := cpu.registers.spHigh
  spLow := cpu.registers.spLow
  memory := cpu.memory

end Octet
