import Octet.Machine.Flags
/-!
The arithmetic and logic of the machine on bytes.
-/

namespace Octet

/-- What the arithmetic unit does with its two operands. -/
inductive AluMode where
  | add
  /-- Addition with the carry flag as carry in. -/
  | adc
  | and
  | or
  | nor
  /-- Replaces all flags by the comparison; the result is the left operand. -/
  | compare
deriving DecidableEq, Repr

/-- Which of `greater`, `equal` and `less` holds of two bytes, read as unsigned numbers. -/
def compareBytes (left right : UInt8) : Flags :=
  if right < left then .greater else if left < right then .less else .equal

/-- The sum modulo 256 of two bytes and a carry; the carry flag is set if it did not fit, and kept otherwise. -/
def addBytes (left right : UInt8) (carryIn : Nat) (flags : Flags) : UInt8 × Flags :=
  let sum := left.toNat + right.toNat + carryIn
  (UInt8.ofNat sum, if 0xFF < sum then flags.union .carry else flags)

namespace AluMode

/-- The result and the new flags. -/
def apply (mode : AluMode) (left right : UInt8) (flags : Flags) : UInt8 × Flags :=
  match mode with
  | add => addBytes left right 0 flags
  | adc => addBytes left right (if flags.contains .carry then 1 else 0) flags
  | and => (left &&& right, flags)
  | or => (left ||| right, flags)
  | nor => (~~~(left ||| right), flags)
  | compare => (left, compareBytes left right)

/-- The name in traces. -/
def name : AluMode → String
  | add => "Add"
  | adc => "Adc"
  | and => "And"
  | or => "Or"
  | nor => "Nor"
  | compare => "Compare"

end AluMode

end Octet
