import Octet.Isa.Encoding
import Octet.Machine.Flags
/-!
The registers: the eight that instructions name, and those of the fetch and the stack.

* `RegisterFile.get_set`: a write changes the named register and no other.
-/

namespace Octet

open Text (byteHex wordHex)

/-- The contents of the eight registers that instructions name. -/
structure RegisterFile where
  b : UInt8 := 0
  c : UInt8 := 0
  h : UInt8 := 0
  l : UInt8 := 0
  d : UInt8 := 0
  e : UInt8 := 0
  a : UInt8 := 0
  f : UInt8 := 0
deriving DecidableEq, Repr, Inhabited

namespace RegisterFile

/-- The content of a register. -/
def get (file : RegisterFile) : Register → UInt8
  | .b => file.b
  | .c => file.c
  | .h => file.h
  | .l => file.l
  | .d => file.d
  | .e => file.e
  | .a => file.a
  | .f => file.f

/-- The file with a new content of a register. -/
def set (file : RegisterFile) (r : Register) (v : UInt8) : RegisterFile :=
  match r with
  | .b => { file with b := v }
  | .c => { file with c := v }
  | .h => { file with h := v }
  | .l => { file with l := v }
  | .d => { file with d := v }
  | .e => { file with e := v }
  | .a => { file with a := v }
  | .f => { file with f := v }

theorem get_set (file : RegisterFile) (r s : Register) (v : UInt8) :
    (file.set r v).get s = if r = s then v else file.get s := by
  cases r <;> cases s <;> rfl

end RegisterFile

/-- All registers of the machine. -/
structure Registers where
  file : RegisterFile := {}
  /-- The opcode byte of the current instruction. -/
  ir : UInt8 := 0
  /-- The first operand byte. -/
  arg1 : UInt8 := 0
  /-- The second operand byte. An instruction that has none leaves the previous one here. -/
  arg2 : UInt8 := 0
  /-- The address of the next byte to fetch. -/
  pc : UInt16 := 0
  spHigh : UInt8 := 0
  spLow : UInt8 := 0
deriving DecidableEq, Repr, Inhabited

namespace Registers

/-- The content of a named register. -/
def get (regs : Registers) (r : Register) : UInt8 := regs.file.get r

/-- A new content of a named register. -/
def set (regs : Registers) (r : Register) (v : UInt8) : Registers :=
  { regs with file := regs.file.set r v }

/-- The content of the register with a code. -/
def read (regs : Registers) (code : UInt8) : Except CodeFault UInt8 :=
  regs.get <$> Register.ofCode code

/-- A new content of the register with a code. -/
def write (regs : Registers) (code v : UInt8) : Except CodeFault Registers :=
  (regs.set · v) <$> Register.ofCode code

/-- The flag register. -/
def flags (regs : Registers) : Flags := ⟨regs.get .f⟩

/-- A new content of the flag register. -/
def setFlags (regs : Registers) (flags : Flags) : Registers := regs.set .f flags.bits

/-- The stack pointer. -/
def sp (regs : Registers) : UInt16 := wordOf regs.spHigh regs.spLow

/-- A new stack pointer. -/
def setSp (regs : Registers) (sp : UInt16) : Registers :=
  { regs with spHigh := highByte sp, spLow := lowByte sp }

/-- The memory pointer `H:L`. -/
def pointer (regs : Registers) : UInt16 := wordOf (regs.get .h) (regs.get .l)

/-- The address in the two operand bytes. -/
def operandAddress (regs : Registers) : UInt16 := wordOf regs.arg1 regs.arg2

/-- The opcode byte and the two operand bytes. -/
def fetched (regs : Registers) : List UInt8 := [regs.ir, regs.arg1, regs.arg2]

/-- The two lines of the register display. -/
def lines (regs : Registers) : List String :=
  let named := Register.all.map fun r => r.name ++ "=" ++ byteHex (regs.get r) ++ " "
  [String.join named,
    "PC=" ++ wordHex regs.pc ++ " SP=" ++ wordHex regs.sp ++ " IR=" ++ byteHex regs.ir ++
      " ARG1=" ++ byteHex regs.arg1 ++ " ARG2=" ++ byteHex regs.arg2 ++ " FLAGS=" ++ regs.flags.text]

/-- The register display. -/
def text (regs : Registers) : String := String.intercalate "\n" regs.lines

end Registers

end Octet
