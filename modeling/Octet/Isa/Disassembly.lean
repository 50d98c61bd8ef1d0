import Octet.Isa.Encoding
/-!
Machine code as a listing: instructions with their addresses, up to the first byte that starts none.

* `disassemble` finds the instructions;
* `disassemblyLines` is the listing as lines, with the bytes that are left over.
-/

namespace Octet

open Text (wordHex bracketedBytes)

/-- A listing of machine code. -/
structure Disassembly where
  /-- The instructions with the addresses of their opcode bytes. -/
  entries : List (UInt16 × Instruction)
  /-- The number of bytes that the instructions take; what follows starts with no instruction. -/
  decoded : Nat
deriving DecidableEq, Repr

/-- Lists machine code whose first byte is at `origin`. Addresses wrap at the end of memory. -/
def disassemble (origin : UInt16) (bytes : List UInt8) : Disassembly :=
  match _h : Instruction.decode bytes with
  | .error _ => ⟨[], 0⟩
  | .ok i =>
    let rest := disassemble (origin + UInt16.ofNat i.length) (bytes.drop i.length)
    ⟨(origin, i) :: rest.entries, i.length + rest.decoded⟩
termination_by bytes.length
decreasing_by
  have h₁ := i.length_pos
  have h₂ := Instruction.length_le_of_decode _h
  rw [List.length_drop]; omega

/-- Bytes in rows of eight, each row with the address of its first byte. -/
def byteRows (origin : UInt16) (bytes : List UInt8) : List String :=
  if _h : bytes = [] then []
  else (wordHex origin ++ ": " ++ bracketedBytes (bytes.take 8)) :: byteRows (origin + 8) (bytes.drop 8)
termination_by bytes.length
decreasing_by
  have := List.length_pos_iff.2 _h
  rw [List.length_drop]; omega

/-- The lines of a listing: a line for each instruction, then the bytes behind the last one. -/
def disassemblyLines (origin : UInt16) (bytes : List UInt8) : List String :=
  let listing := disassemble origin bytes
  (listing.entries.map fun (address, i) => wordHex address ++ ": " ++ i.text) ++
    byteRows (origin + UInt16.ofNat listing.decoded) (bytes.drop listing.decoded)

end Octet
