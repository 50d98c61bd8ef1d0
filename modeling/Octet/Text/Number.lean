import Octet.Text.Hex
/-!
Unsigned numbers written by people: one leading plus sign is allowed, the digits are those of the base, and
a number above the limit is told apart from a text that is no number.
-/

namespace Octet.Text

/-- Why a text is no number. -/
inductive NumberFault where
  /-- There is no character at all. -/
  | empty
  /-- A character is no digit of the base; a sign alone counts as one. -/
  | invalidDigit
  /-- The number is above the limit. -/
  | tooLarge
deriving DecidableEq, Repr

/-- The wording of a fault. -/
def NumberFault.message : NumberFault → String
  | .empty => "cannot parse integer from empty string"
  | .invalidDigit => "invalid digit found in string"
  | .tooLarge => "number too large to fit in target type"

/-- Reads digits onto the number read so far. The first character that is no digit, or that takes the number
above the limit, decides the fault. -/
def readDigits (base limit : Nat) : Nat → List Char → Except NumberFault Nat
  | n, [] => .ok n
  | n, c :: cs =>
    match digit? base c with
    | none => .error .invalidDigit
    | some d => if limit < n * base + d then .error .tooLarge else readDigits base limit (n * base + d) cs

/-- Reads a number that is at most `limit`. -/
def readNumber (base limit : Nat) : List Char → Except NumberFault Nat
  | [] => .error .empty
  | ['+'] => .error .invalidDigit
  | '+' :: cs => readDigits base limit 0 cs
  | cs => readDigits base limit 0 cs

/-- Why a text is no 16-bit hexadecimal number: the text and the fault. -/
structure HexFault where
  text : String
  fault : NumberFault
deriving DecidableEq, Repr

/-- The short wording, which names the text only. -/
def HexFault.summary (f : HexFault) : String := "Invalid hex number: " ++ f.text

/-- The full wording, with the reason. -/
def HexFault.message (f : HexFault) : String := f.summary ++ ": " ++ f.fault.message

/-- Reads `8000`, `0x8000` or `0X8000` as a 16-bit number. -/
def readHexWord (text : String) : Except HexFault UInt16 :=
  let digits := match text.toList with
    | '0' :: 'x' :: ds => ds
    | '0' :: 'X' :: ds => ds
    | ds => ds
  match readNumber 16 0xFFFF digits with
  | .ok n => .ok (UInt16.ofNat n)
  | .error fault => .error ⟨text, fault⟩

end Octet.Text
