import Octet.Isa.Instruction
/-!
Machine code: the bytes of an instruction, and the instruction at the front of some bytes.

* `Instruction.encode` gives the bytes of a valid instruction, `Instruction.length` of them (`length_encode`);
* `Instruction.decode` reads one instruction and ignores what follows. It checks the number of bytes, then the
  bits of the opcode byte that carry no meaning, then the register codes.
-/

namespace Octet

open Text (byteHex)

/-- Why there are no bytes for an instruction, or no instruction for some bytes. -/
inductive CodeFault where
  /-- The opcode byte has a bit set that the operation gives no meaning to. -/
  | invalidOpcode (byte : UInt8)
  /-- No register has the code. -/
  | invalidRegister (code : UInt8)
  /-- The operands do not have the operation's shape. -/
  | invalidOperands (op : Opcode)
  /-- There are fewer bytes than the operation needs. -/
  | truncated (op : Opcode)
deriving DecidableEq, Repr

/-- The wording of a fault. -/
def CodeFault.message : CodeFault → String
  | .invalidOpcode byte => "invalid opcode byte 0x" ++ byteHex byte
  | .invalidRegister code => "invalid register code 0x" ++ byteHex code
  | .invalidOperands op => "invalid operands for " ++ op.name
  | .truncated op => "instruction " ++ op.name ++ " is truncated"

/-- Set in an opcode byte whose source operand is a byte. -/
def immediateBit : UInt8 := 0x80

/-- The register with a code, or the fault that there is none. -/
def Register.ofCode (code : UInt8) : Except CodeFault Register :=
  match ofCode? code with
  | some r => .ok r
  | none => .error (.invalidRegister code)

namespace Source

/-- The opcode byte of an operation with this source operand. -/
def mark (s : Source) (op : Opcode) : UInt8 :=
  if s.isImmediate then op.number ||| immediateBit else op.number

/-- The source operand that `byte` is after the given opcode byte. -/
def decode (first byte : UInt8) : Except CodeFault Source :=
  if first &&& immediateBit ≠ 0 then .ok (.imm byte) else reg <$> Register.ofCode byte

end Source

namespace Shape

/-- The bits of an opcode byte that carry no meaning: bit 7 has one only where there is an immediate form, bits
4 to 6 only where a register is packed into the byte. -/
def strayBits : Shape → UInt8
  | source | regSource => 0x70
  | packedReg => 0x80
  | reg | address | regImm | regReg => 0xF0

end Shape

namespace Operands

/-- The opcode byte and the operand bytes. -/
def bytes (op : Opcode) : Operands → List UInt8
  | reg r => [op.number, r.code]
  | source s => [s.mark op, s.byte]
  | address hi lo => [op.number, hi, lo]
  | regImm r v => [op.number, r.code, v]
  | regSource r s => [s.mark op, r.code, s.byte]
  | regReg dest src => [op.number, dest.code, src.code]
  | packedReg r hi lo => [op.number ||| (r.code <<< 4), hi, lo]

/-- The operands of a shape in an opcode byte and the operand bytes after it; `y` is not looked at where there is
one operand byte. -/
def decode (first x y : UInt8) : Shape → Except CodeFault Operands
  | .reg => reg <$> Register.ofCode x
  | .source => source <$> Source.decode first x
  | .address => .ok (address x y)
  | .regImm => do
    let r ← Register.ofCode x
    return regImm r y
  | .regSource => do
    let r ← Register.ofCode x
    let s ← Source.decode first y
    return regSource r s
  | .regReg => do
    let dest ← Register.ofCode x
    let src ← Register.ofCode y
    return regReg dest src
  | .packedReg => do
    let r ← Register.ofCode (first >>> 4)
    return packedReg r x y

end Operands

namespace Instruction

/-- The machine code of a valid instruction. -/
def encode (i : Instruction) : Except CodeFault (List UInt8) :=
  if i.Valid then .ok (i.operands.bytes i.op) else .error (.invalidOperands i.op)

/-- The instruction at the front of some bytes. -/
def decode (bytes : List UInt8) : Except CodeFault Instruction :=
  match bytes with
  | [] => .error (.invalidOpcode 0)
  | first :: rest =>
    let op := Opcode.ofByte first
    if bytes.length < op.shape.length then .error (.truncated op)
    else if first &&& op.shape.strayBits ≠ 0 then .error (.invalidOpcode first)
    else do
      let operands ← Operands.decode first (rest.getD 0 0) (rest.getD 1 0) op.shape
      return ⟨op, operands⟩

theorem length_encode {i : Instruction} {bytes : List UInt8} (h : i.encode = .ok bytes) :
    bytes.length = i.length := by
  unfold encode at h
  split at h
  · rename_i hv
    cases h
    rw [length, ← hv]
    cases i.operands <;> rfl
  · cases h

theorem length_le_of_decode {bytes : List UInt8} {i : Instruction} (h : decode bytes = .ok i) :
    i.length ≤ bytes.length := by
  unfold decode at h
  split at h
  · cases h
  · simp only at h
    split at h
    · cases h
    · split at h
      · cases h
      · rename_i hlen _
        cases hd : Operands.decode _ _ _ _ with
        | error e => rw [hd] at h; cases h
        | ok o => rw [hd] at h; cases h; exact Nat.le_of_not_lt hlen

end Instruction

end Octet
