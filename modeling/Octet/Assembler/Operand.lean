import Octet.Isa.Instruction
import Octet.Text.Blank
/-!
Literal operands, numbers and names, as they are written in source text.

A scanner takes the characters in front of it and gives back a value and the rest, or, if it fails, the
characters from the place of the failure on. A text is read as a whole by `parseOperand`, `parseNumber` and
`isIdentifier`, which accept it if the scanner leaves no rest.
-/

namespace Octet

open Text (byteHex wordHex isHexDigit isDecimalDigit digitsValue isBlank splitRuns)

/-- A literal operand. -/
inductive Operand where
  | reg (r : Register)
  /-- `0XNN` -/
  | byte (v : UInt8)
  /-- `0XNNNN`, always an address -/
  | word (v : UInt16)
deriving DecidableEq, Repr

/-- A byte as a token. -/
def byteToken (v : UInt8) : String := "0X" ++ byteHex v

/-- A word as a token. -/
def wordToken (v : UInt16) : String := "0X" ++ wordHex v

/-- The token that stands for the operand. -/
def Operand.text : Operand → String
  | reg r => r.name
  | byte v => byteToken v
  | word v => wordToken v

/-! ## Scanners -/

/-- A scanner: a value and the rest, or the rest from the place of the failure on. -/
abbrev Scanner (α : Type) := List Char → Except (List Char) (α × List Char)

/-- The whole text, if the scanner accepts it and leaves nothing. -/
def Scanner.whole? {α : Type} (scan : Scanner α) (text : String) : Option α :=
  match scan text.toList with
  | .ok (x, []) => some x
  | _ => none

/-- What stands after `0x` or `0X`. -/
def afterHexMark? : List Char → Option (List Char)
  | '0' :: 'x' :: cs => some cs
  | '0' :: 'X' :: cs => some cs
  | _ => none

/-- Scans a register letter, in either case. -/
def scanRegister : Scanner Register := fun cs =>
  match cs with
  | [] => .error []
  | c :: rest =>
    match Register.ofLetter? c with
    | some r => .ok (r, rest)
    | none => .error cs

/-- Scans a marked hexadecimal literal: up to two digits are a byte, three and four are a word, more are refused
where the digits start. -/
def scanHex : Scanner Operand := fun cs =>
  match afterHexMark? cs with
  | none => .error cs
  | some ds =>
    let digits := ds.takeWhile isHexDigit
    let rest := ds.dropWhile isHexDigit
    if digits = [] ∨ 4 < digits.length then .error ds
    else if digits.length ≤ 2 then .ok (.byte (UInt8.ofNat (digitsValue 16 digits)), rest)
    else .ok (.word (UInt16.ofNat (digitsValue 16 digits)), rest)

/-- Scans a register or a hexadecimal literal. -/
def scanOperand : Scanner Operand := fun cs =>
  match scanRegister cs with
  | .ok (r, rest) => .ok (.reg r, rest)
  | .error _ => scanHex cs

/-- Whether a character can start a name: an ASCII letter or an underscore. -/
def startsName (c : Char) : Bool := c.isAlpha || c = '_'

/-- Whether a character can go on a name. -/
def continuesName (c : Char) : Bool := c.isAlphanum || c = '_'

/-- Scans a name: a letter or underscore, then letters, digits and underscores. -/
def scanIdentifier : Scanner String := fun cs =>
  match cs with
  | [] => .error []
  | c :: rest =>
    if startsName c then
      .ok (String.ofList (c :: rest.takeWhile continuesName), rest.dropWhile continuesName)
    else .error cs

/-- The greatest number that source text can hold. -/
def numberLimit : Nat := 0xFFFFFFFF

/-- Scans a number: marked hexadecimal digits if they fit, decimal digits otherwise. -/
def scanNumber : Scanner Nat := fun cs =>
  let hex? : Option (Nat × List Char) := do
    let ds ← afterHexMark? cs
    let digits := ds.takeWhile isHexDigit
    let n := digitsValue 16 digits
    if digits ≠ [] ∧ n ≤ numberLimit then some (n, ds.dropWhile isHexDigit) else none
  match hex? with
  | some found => .ok found
  | none =>
    let digits := cs.takeWhile isDecimalDigit
    let n := digitsValue 10 digits
    if digits ≠ [] ∧ n ≤ numberLimit then .ok (n, cs.dropWhile isDecimalDigit) else .error cs

/-! ## Whole texts -/

/-- The operand that a token stands for. -/
def parseOperand (token : String) : Option Operand := Scanner.whole? scanOperand token

/-- The number that a text stands for. -/
def parseNumber (text : String) : Option Nat := Scanner.whole? scanNumber text

/-- Whether a text can name a symbol. -/
def isIdentifier (text : String) : Bool := (Scanner.whole? scanIdentifier text).isSome

/-- The tokens of an instruction or of a constant: what stands between blanks and commas. -/
def splitTokens (text : String) : List String :=
  (splitRuns (fun c => isBlank c || c = ',') text.toList).map String.ofList

end Octet
