/-!
Bytes and words as hexadecimal digits, and the two halves of a word.

* `byteHex`, `wordHex`: two and four upper-case digits;
* `digit?`, `digitsValue`: the value of a digit and of a run of digits;
* `highByte`, `lowByte`, `wordOf`: a word and its bytes, high byte first.
-/

namespace Octet

/-! ## Words and bytes -/

/-- The byte that a big-endian reader meets first. -/
def highByte (w : UInt16) : UInt8 := UInt8.ofNat (w.toNat / 256)

/-- The byte that a big-endian reader meets second. -/
def lowByte (w : UInt16) : UInt8 := UInt8.ofNat w.toNat

/-- The word with the given high and low byte. -/
def wordOf (hi lo : UInt8) : UInt16 := UInt16.ofNat (hi.toNat * 256 + lo.toNat)

@[simp] theorem wordOf_toNat (hi lo : UInt8) : (wordOf hi lo).toNat = hi.toNat * 256 + lo.toNat := by
  have := hi.toNat_lt; have := lo.toNat_lt
  simp only [wordOf, UInt16.toNat_ofNat']; omega

@[simp] theorem highByte_wordOf (hi lo : UInt8) : highByte (wordOf hi lo) = hi := by
  have := hi.toNat_lt; have := lo.toNat_lt
  apply UInt8.toNat_inj.1
  simp only [highByte, wordOf_toNat, UInt8.toNat_ofNat']; omega

@[simp] theorem lowByte_wordOf (hi lo : UInt8) : lowByte (wordOf hi lo) = lo := by
  have := hi.toNat_lt; have := lo.toNat_lt
  apply UInt8.toNat_inj.1
  simp only [lowByte, wordOf_toNat, UInt8.toNat_ofNat']; omega

@[simp] theorem wordOf_highByte_lowByte (w : UInt16) : wordOf (highByte w) (lowByte w) = w := by
  have := w.toNat_lt
  apply UInt16.toNat_inj.1
  simp only [wordOf_toNat, highByte, lowByte, UInt8.toNat_ofNat']; omega

namespace Text

/-! ## Writing -/

/-- The upper-case digit of a value below sixteen. -/
def hexDigit (n : Nat) : Char :=
  if n < 10 then Char.ofNat (48 + n) else Char.ofNat (55 + n)

/-- A byte as two digits. -/
def byteHex (b : UInt8) : String :=
  String.ofList [hexDigit (b.toNat / 16), hexDigit (b.toNat % 16)]

/-- A word as four digits. -/
def wordHex (w : UInt16) : String := byteHex (highByte w) ++ byteHex (lowByte w)

/-- Bytes in brackets, as diagnostics show them. -/
def bracketedBytes (bytes : List UInt8) : String :=
  "[" ++ String.intercalate ", " (bytes.map byteHex) ++ "]"

/-! ## Reading -/

/-- The value of a digit in the given base, in either case. -/
def digit? (base : Nat) (c : Char) : Option Nat :=
  let value? :=
    if '0' ≤ c ∧ c ≤ '9' then some (c.toNat - '0'.toNat)
    else if 'a' ≤ c ∧ c ≤ 'f' then some (c.toNat - 'a'.toNat + 10)
    else if 'A' ≤ c ∧ c ≤ 'F' then some (c.toNat - 'A'.toNat + 10)
    else none
  value?.filter (· < base)

/-- Whether a character is one of `0-9`, `a-f` and `A-F`. -/
def isHexDigit (c : Char) : Bool := (digit? 16 c).isSome

/-- Whether a character is one of `0-9`. -/
def isDecimalDigit (c : Char) : Bool := (digit? 10 c).isSome

/-- The number that a run of digits denotes, most significant digit first. -/
def digitsValue (base : Nat) (cs : List Char) : Nat :=
  cs.foldl (fun n c => n * base + (digit? base c).getD 0) 0

end Text

end Octet
