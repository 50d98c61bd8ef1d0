import Octet.Text.Hex
/-!
The status flags, which live in register `F`.
-/

namespace Octet

/-- The bits of the flag register. Bits without a meaning are kept as they are. -/
structure Flags where
  bits : UInt8
deriving DecidableEq, Repr

namespace Flags

/-- Set when a sum did not fit into a byte; no addition clears it. -/
def carry : Flags := ⟨0x01⟩

/-- The left operand was greater. -/
def greater : Flags := ⟨0x02⟩

/-- The operands were equal. -/
def equal : Flags := ⟨0x04⟩

/-- The left operand was less. -/
def less : Flags := ⟨0x08⟩

/-- The flags of either. -/
def union (x y : Flags) : Flags := ⟨x.bits ||| y.bits⟩

/-- Whether all flags of `y` are among those of `x`. -/
def contains (x y : Flags) : Bool := x.bits &&& y.bits = y.bits

/-- The flags with a meaning, with their names, in the order of their bits. -/
def named : List (Flags × String) :=
  [(carry, "CARRY"), (greater, "GREATER"), (equal, "EQUAL"), (less, "LESS")]

/-- The flags as the register display shows them: the names, then the bits without a meaning as one number. -/
def text (x : Flags) : String :=
  let names := (named.filter fun p => x.contains p.1).map (·.2)
  let rest := x.bits &&& 0xF0
  let hex := String.ofList (Nat.toDigits 16 rest.toNat)
  let parts := if x.bits = 0 ∨ rest ≠ 0 then names ++ ["0x" ++ hex] else names
  "Fl(" ++ String.intercalate " | " parts ++ ")"

end Flags

end Octet
