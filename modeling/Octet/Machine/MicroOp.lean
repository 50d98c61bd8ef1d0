import Octet.Isa.Opcode
import Octet.Machine.Arithmetic
/-!
Micro-operations: what one execute phase does, and which of them make up an operation.
-/

namespace Octet

/-- The work of one execute phase. `arg1` and `arg2` are the operand bytes; a source is the register with that
code, or the byte itself if the immediate bit is set. -/
inductive MicroOp where
  /-- `reg(arg1) ← mem[H:L]` -/
  | loadPointer
  /-- `mem[H:L] ← source(arg1)` -/
  | storePointer
  /-- `packed register ← mem[arg1:arg2]` -/
  | loadAbsolute
  /-- `mem[arg1:arg2] ← packed register` -/
  | storeAbsolute
  /-- `H:L ← arg1:arg2` -/
  | loadAddress
  /-- `reg(arg1) ← arg2` -/
  | loadConstant
  /-- `reg(arg1) ← reg(arg2)` -/
  | move
  /-- The arithmetic unit on `reg(arg1)` and `source(arg2)`: flags first, then the result into `reg(arg1)` unless
  the mode is a comparison. -/
  | alu (mode : AluMode)
  /-- Adds the comparison of `reg(arg1)` and `source(arg2)` to the flags. -/
  | compareFlags
  /-- `PC ← H:L` if `source(arg1)` is not zero -/
  | jumpIfNotZero
  /-- `mem[SP] ← source(arg1)`, then the low byte of `SP` goes down by one -/
  | push
  /-- the low byte of `SP` goes up by one, then `reg(arg1) ← mem[SP]` -/
  | pop
deriving DecidableEq, Repr

/-- The name in traces. -/
def MicroOp.name : MicroOp → String
  | loadPointer => "LoadPointer"
  | storePointer => "StorePointer"
  | loadAbsolute => "LoadAbsolute"
  | storeAbsolute => "StoreAbsolute"
  | loadAddress => "LoadAddress"
  | loadConstant => "LoadConstant"
  | move => "Move"
  | alu mode => "Alu(" ++ mode.name ++ ")"
  | compareFlags => "CompareFlags"
  | jumpIfNotZero => "JumpIfNotZero"
  | push => "Push"
  | pop => "Pop"

namespace Opcode

/-- The execute phases of an operation, in order. -/
def microcode : Opcode → List MicroOp
  | lw => [.loadPointer]
  | sw => [.storePointer]
  | lda => [.loadAddress]
  | lc => [.loadConstant]
  | add => [.alu .add, .compareFlags]
  | or => [.alu .or]
  | nor => [.alu .nor]
  | and => [.alu .and]
  | jnz => [.jumpIfNotZero]
  | mw => [.move]
  | ldf => [.alu .compare]
  | lwa => [.loadAbsolute]
  | adc => [.alu .adc, .compareFlags]
  | swa => [.storeAbsolute]
  | push => [.push]
  | pop => [.pop]

/-- The number of phases of an operation, fetches included. -/
def cycles (op : Opcode) : Nat := op.shape.length + op.microcode.length

theorem cycles_le (op : Opcode) : op.cycles ≤ 5 := by cases op <;> decide

end Opcode

end Octet
