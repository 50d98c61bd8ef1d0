import Octet.Machine.Memory
import Octet.Machine.MicroOp
import Octet.Machine.Registers
/-!
The processor with its memory, and what a micro-operation does to it.

* `Cpu.write` is the one way to memory: a write to a stack pointer port also sets that byte of the stack pointer;
* `Cpu.load` writes an image, or changes nothing if the image does not fit;
* `Cpu.execute` runs a micro-operation. Reading a code that names no register gives `0xFF`, writing to one does
  nothing; `MicroOp.anomalies` lists such codes.
-/

namespace Octet

open Text (byteHex wordHex bracketedBytes)

/-- The state of the machine between two phases. -/
structure Cpu where
  registers : Registers := {}
  memory : Memory := .zero
  /-- The phase that runs next; 0 starts an instruction. -/
  phase : Nat := 0
  /-- Whether the current instruction has a second operand byte, as found when its opcode byte was fetched. -/
  hasSecondByte : Bool := false
  /-- What port 0 held when it was last looked at. -/
  watched : UInt8 := 0
deriving DecidableEq, Inhabited

/-- An image that would run past the end of memory. -/
structure LoadFault where
  origin : UInt16
  size : Nat
deriving DecidableEq, Repr

/-- The wording of the fault. -/
def LoadFault.message (f : LoadFault) : String :=
  s!"image of {f.size} bytes at 0x" ++ wordHex f.origin ++ " does not fit in memory"

/-- A register code that names no register, met while an instruction ran. -/
structure Anomaly where
  code : UInt8
  /-- The opcode byte and the two operand bytes. -/
  fetched : List UInt8
  /-- The address after the instruction. -/
  pc : UInt16
deriving DecidableEq, Repr

/-- The wording of an anomaly. -/
def Anomaly.message (x : Anomaly) : String :=
  "invalid register code 0x" ++ byteHex x.code ++ " in instruction " ++ bracketedBytes x.fetched ++
    " at 0x" ++ wordHex x.pc

namespace Cpu

/-! ## Memory -/

/-- The byte at an address. -/
def read (cpu : Cpu) (address : UInt16) : UInt8 := cpu.memory.read address

/-- Writes a byte. -/
def write (cpu : Cpu) (address : UInt16) (v : UInt8) : Cpu :=
  let registers := match StackPort.of? address with
    | none => cpu.registers
    | some .low => { cpu.registers with spLow := v }
    | some .high => { cpu.registers with spHigh := v }
  { cpu with registers := registers, memory := cpu.memory.write address v }

/-- Writes bytes to consecutive addresses from `origin` on, first one first. -/
def writeMany (cpu : Cpu) (origin : UInt16) : List UInt8 → Cpu
  | [] => cpu
  | b :: bs => writeMany (cpu.write origin b) (origin + 1) bs

/-- Writes an image to memory. -/
def load (cpu : Cpu) (origin : UInt16) (image : List UInt8) : Except LoadFault Cpu :=
  if 0x10000 < origin.toNat + image.length then .error ⟨origin, image.length⟩
  else .ok (cpu.writeMany origin image)

/-! ## Registers -/

/-- The content of a register. -/
def get (cpu : Cpu) (r : Register) : UInt8 := cpu.registers.get r

/-- A new content of a register. -/
def set (cpu : Cpu) (r : Register) (v : UInt8) : Cpu := { cpu with registers := cpu.registers.set r v }

/-- A new address to fetch from. -/
def setPc (cpu : Cpu) (pc : UInt16) : Cpu := { cpu with registers := { cpu.registers with pc := pc } }

/-- The content of the register with a code, `0xFF` if there is none. -/
def readCode (cpu : Cpu) (code : UInt8) : UInt8 :=
  match Register.ofCode? code with
  | some r => cpu.get r
  | none => 0xFF

/-- A new content of the register with a code; nothing changes if there is none. -/
def writeCode (cpu : Cpu) (code v : UInt8) : Cpu :=
  match Register.ofCode? code with
  | some r => cpu.set r v
  | none => cpu

/-- Whether the current opcode byte has the immediate bit set. -/
def isImmediate (cpu : Cpu) : Bool := cpu.registers.ir &&& immediateBit ≠ 0

/-- The value of a source operand: the byte itself, or the content of the register with that code. -/
def source (cpu : Cpu) (byte : UInt8) : UInt8 := if cpu.isImmediate then byte else cpu.readCode byte

/-- The code packed into bits 4 to 6 of the current opcode byte. -/
def packedCode (cpu : Cpu) : UInt8 := (cpu.registers.ir >>> 4) &&& 0x07

/-- The instruction in the opcode byte and the operand bytes last fetched. -/
def currentInstruction (cpu : Cpu) : Except CodeFault Instruction :=
  Instruction.decode cpu.registers.fetched

/-! ## Micro-operations -/

/-- The state after a micro-operation. -/
def execute (cpu : Cpu) (op : MicroOp) : Cpu :=
  let regs := cpu.registers
  match op with
  | .loadPointer => cpu.writeCode regs.arg1 (cpu.read regs.pointer)
  | .storePointer => cpu.write regs.pointer (cpu.source regs.arg1)
  | .loadAbsolute => cpu.writeCode cpu.packedCode (cpu.read regs.operandAddress)
  | .storeAbsolute => cpu.write regs.operandAddress (cpu.readCode cpu.packedCode)
  | .loadAddress => (cpu.set .h regs.arg1).set .l regs.arg2
  | .loadConstant => cpu.writeCode regs.arg1 regs.arg2
  | .move => cpu.writeCode regs.arg1 (cpu.readCode regs.arg2)
  | .alu mode =>
    let (result, flags) := mode.apply (cpu.readCode regs.arg1) (cpu.source regs.arg2) regs.flags
    let cpu := { cpu with registers := regs.setFlags flags }
    if mode = .compare then cpu else cpu.writeCode regs.arg1 result
  | .compareFlags =>
    let flags := regs.flags.union (compareBytes (cpu.readCode regs.arg1) (cpu.source regs.arg2))
    { cpu with registers := regs.setFlags flags }
  | .jumpIfNotZero => if cpu.source regs.arg1 = 0 then cpu else cpu.setPc regs.pointer
  | .push =>
    let cpu := cpu.write regs.sp (cpu.source regs.arg1)
    { cpu with registers := { cpu.registers with spLow := cpu.registers.spLow - 1 } }
  | .pop =>
    let cpu := { cpu with registers := { regs with spLow := regs.spLow + 1 } }
    cpu.writeCode regs.arg1 (cpu.read cpu.registers.sp)

end Cpu

namespace MicroOp

/-- The register codes among the operand bytes that a micro-operation reads or writes, in that order. A packed
code is left out, as it is below eight. -/
def codes (op : MicroOp) (regs : Registers) : List UInt8 :=
  let source (byte : UInt8) : List UInt8 := if regs.ir &&& immediateBit ≠ 0 then [] else [byte]
  match op with
  | loadPointer | loadConstant | pop => [regs.arg1]
  | storePointer | jumpIfNotZero | push => source regs.arg1
  | loadAbsolute | storeAbsolute | loadAddress => []
  | move => [regs.arg2, regs.arg1]
  | alu .compare | compareFlags => regs.arg1 :: source regs.arg2
  | alu _ => regs.arg1 :: source regs.arg2 ++ [regs.arg1]

/-- One anomaly for each time a micro-operation reads or writes a code that names no register. -/
def anomalies (op : MicroOp) (regs : Registers) : List Anomaly :=
  ((op.codes regs).filter fun code => (Register.ofCode? code).isNone).map fun code =>
    ⟨code, regs.fetched, regs.pc⟩

end MicroOp

end Octet
