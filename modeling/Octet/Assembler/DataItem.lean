import Octet.Assembler.Error
import Octet.Assembler.Operand
/-!
The item lists of data directives: their grammar, and the bytes that they stand for.

An item is a text in single or double quotes, a marked hexadecimal number or a decimal number. Items are
separated by blanks, tabs and commas, which may also stand before the first and after the last item.

* `scanItems` reads a list; if it fails, it fails at the first character that belongs to no item;
* `DataItem.bytes` are the bytes of an item, `dataBytes` those of a list.
-/

namespace Octet

open Text (isHexDigit isDecimalDigit digitsValue)

/-- The form of an item. -/
inductive DataForm where
  /-- in single quotes -/
  | chars
  /-- in double quotes; a zero byte follows it in memory -/
  | string
  | hex
  | decimal
deriving DecidableEq, Repr

/-- An item of a data list. -/
structure DataItem where
  form : DataForm
  /-- The characters of the item; of a quoted one, those between the quotes, with escapes as written. -/
  text : List Char
  /-- The rest of the list from `text` on, which tells where the item stands. -/
  start : List Char
deriving DecidableEq, Repr

/-! ## Places in a text -/

/-- The number of bytes of a text in UTF-8. -/
def utf8Length (cs : List Char) : Nat := (cs.map Char.utf8Size).foldr (· + ·) 0

/-- The column, from 1 on, of the first character of `rest`, which is the end of `whole`. A line feed starts a
new row of columns. -/
def columnOf (whole rest : List Char) : Nat :=
  let before := whole.take (whole.length - rest.length)
  (before.reverse.takeWhile (· ≠ '\n')).length + 1

/-! ## Scanning -/

/-- Whether a character separates items. -/
def isSeparator (c : Char) : Bool := c = ' ' || c = ',' || c = '\t'

/-- What stands before the closing quote `q`, and what stands after it; a backslash hides the character that
follows it. -/
def quotedBody (q : Char) : List Char → Option (List Char × List Char)
  | [] => none
  | c :: cs =>
    if c = q then some ([], cs)
    else if c = '\\' then
      match cs with
      | [] => none
      | e :: cs => (quotedBody q cs).map fun (body, rest) => (c :: e :: body, rest)
    else (quotedBody q cs).map fun (body, rest) => (c :: body, rest)

/-- Scans a number: marked hexadecimal digits, or decimal digits with an optional minus sign. -/
def scanNumberItem : Scanner DataItem := fun cs =>
  let hexCount := (((afterHexMark? cs).getD []).takeWhile isHexDigit).length
  let sign := if cs.head? = some '-' then 1 else 0
  let count := ((cs.drop sign).takeWhile isDecimalDigit).length
  if hexCount ≠ 0 then .ok (⟨.hex, cs.take (2 + hexCount), cs⟩, cs.drop (2 + hexCount))
  else if count ≠ 0 then .ok (⟨.decimal, cs.take (sign + count), cs⟩, cs.drop (sign + count))
  else .error (cs.drop sign)

/-- Scans one item. A quoted text without its closing quote is no item. -/
def scanItem : Scanner DataItem := fun cs =>
  let quoted? : Option (DataItem × List Char) :=
    match cs with
    | [] => none
    | q :: inner =>
      if q = '\'' then (quotedBody q inner).map fun (body, rest) => (⟨.chars, body, inner⟩, rest)
      else if q = '"' then (quotedBody q inner).map fun (body, rest) => (⟨.string, body, inner⟩, rest)
      else none
  match quoted? with
  | some found => .ok found
  | none => scanNumberItem cs

theorem quotedBody_length {q : Char} {cs body rest : List Char}
    (h : quotedBody q cs = some (body, rest)) : rest.length < cs.length := by
  fun_induction quotedBody q cs generalizing body rest with
  | case1 | case3 => cases h
  | case2 cs =>
    cases h
    exact Nat.lt_succ_self _
  | case4 _ c cs ih =>
    obtain ⟨⟨_, _⟩, hbody, he⟩ := Option.map_eq_some_iff.1 h
    cases he
    exact Nat.lt_succ_of_lt (Nat.lt_succ_of_lt (ih hbody))
  | case5 c cs _ _ ih =>
    obtain ⟨⟨_, _⟩, hbody, he⟩ := Option.map_eq_some_iff.1 h
    cases he
    exact Nat.lt_succ_of_lt (ih hbody)

theorem scanNumberItem_length {cs rest : List Char} {item : DataItem}
    (h : scanNumberItem cs = .ok (item, rest)) : rest.length < cs.length := by
  have pos : cs ≠ [] := by
    rintro rfl; simp [scanNumberItem, afterHexMark?] at h
  have := List.length_pos_iff.2 pos
  simp only [scanNumberItem] at h
  generalize (if cs.head? = some '-' then 1 else 0 : Nat) = sign at h
  split at h
  · cases h; rw [List.length_drop]; omega
  · split at h
    · cases h; rw [List.length_drop]; omega
    · cases h

theorem scanItem_length {cs rest : List Char} {item : DataItem}
    (h : scanItem cs = .ok (item, rest)) : rest.length < cs.length := by
  unfold scanItem at h
  simp only at h
  split at h
  · rename_i found hq
    cases h
    split at hq
    · cases hq
    · rename_i q inner
      split at hq
      · obtain ⟨⟨b, r⟩, hb, he⟩ := Option.map_eq_some_iff.1 hq
        cases he
        have := quotedBody_length hb
        simp only [List.length_cons]; omega
      · split at hq
        · obtain ⟨⟨b, r⟩, hb, he⟩ := Option.map_eq_some_iff.1 hq
          cases he
          have := quotedBody_length hb
          simp only [List.length_cons]; omega
        · cases hq
  · exact scanNumberItem_length h

/-- Scans further items, each with separators before it, and gives back what follows the last one. -/
def scanMoreItems (cs : List Char) : List DataItem × List Char :=
  if (cs.dropWhile isSeparator).length = cs.length then ([], cs)
  else
    match _h : scanItem (cs.dropWhile isSeparator) with
    | .error _ => ([], cs)
    | .ok (item, rest) =>
      let (items, rest) := scanMoreItems rest
      (item :: items, rest)
termination_by cs.length
decreasing_by
  have h₁ := (List.dropWhile_sublist isSeparator : (cs.dropWhile _).Sublist cs).length_le
  have h₂ := scanItem_length _h
  omega

/-- Scans a list of at least one item that takes up the whole text. -/
def scanItems (cs : List Char) : Except (List Char) (List DataItem) := do
  let (first, rest) ← scanItem (cs.dropWhile isSeparator)
  let (items, rest) := scanMoreItems rest
  match rest.dropWhile isSeparator with
  | [] => return first :: items
  | leftover => .error leftover

/-! ## Escapes -/

/-- What is wrong with the escapes of a quoted text. -/
inductive EscapeFault where
  | invalid (char : Char)
  /-- A backslash with nothing behind it. -/
  | atEnd
deriving DecidableEq, Repr

/-- The byte that a letter stands for after a backslash. -/
def escapedByte? (c : Char) : Option UInt8 :=
  if c = '0' then some 0x00
  else if c = 'a' then some 0x07
  else if c = 'b' then some 0x08
  else if c = 't' then some 0x09
  else if c = 'n' then some 0x0A
  else if c = 'v' then some 0x0B
  else if c = 'f' then some 0x0C
  else if c = 'r' then some 0x0D
  else if c = 'e' then some 0x1B
  else if c = '\\' then some 0x5C
  else if c = '\'' then some 0x27
  else if c = '"' then some 0x22
  else none

/-- The bytes of a quoted text: UTF-8, with escapes replaced. -/
def unescape : List Char → Except EscapeFault (List UInt8)
  | [] => .ok []
  | c :: cs =>
    if c = '\\' then
      match cs with
      | [] => .error .atEnd
      | e :: cs =>
        match escapedByte? e with
        | none => .error (.invalid e)
        | some b => (b :: ·) <$> unescape cs
    else (String.utf8EncodeChar c ++ ·) <$> unescape cs

/-- The fault in the line that holds the escape. -/
def EscapeFault.toFault : EscapeFault → Fault
  | invalid c => .invalidEscape c
  | atEnd => .escapeAtEnd

/-! ## Bytes -/

/-- Whether items of a list take one byte or two. -/
inductive DataWidth where
  | byte
  | word
deriving DecidableEq, Repr

namespace DataWidth

/-- The most hexadecimal digits that an item of this width may have. -/
def maxDigits : DataWidth → Nat
  | byte => 2
  | word => 4

/-- The number of values that the width tells apart. -/
def modulus : DataWidth → Nat
  | byte => 0x100
  | word => 0x10000

/-- The bytes of a value, high byte first. -/
def bytesOf (width : DataWidth) (v : Nat) : List UInt8 :=
  match width with
  | byte => [UInt8.ofNat v]
  | word => [UInt8.ofNat (v / 256), UInt8.ofNat v]

end DataWidth

/-- The value of a decimal item. -/
def decimalValue : List Char → Int
  | '-' :: ds => -(digitsValue 10 ds : Int)
  | ds => digitsValue 10 ds

namespace DataItem

/-- The value of a numeric item modulo the number of values, if it is one that the width can hold: up to its
number of hexadecimal digits, or a decimal number from the least signed to the greatest unsigned value. -/
def value? (item : DataItem) (width : DataWidth) : Option Nat :=
  let m : Int := width.modulus
  match item.form with
  | .hex =>
    let digits := item.text.drop 2
    if digits.length ≤ width.maxDigits then some (digitsValue 16 digits) else none
  | .decimal =>
    let v := decimalValue item.text
    if -(m / 2) ≤ v ∧ v < m then some (v % m).toNat else none
  | .chars | .string => none

/-- The bytes of an item of a list that starts at byte `offset` of its line. -/
def bytes (item : DataItem) (width : DataWidth) (offset : Nat) (list : List Char) :
    Except Fault (List UInt8) :=
  match item.form with
  | .chars => (unescape item.text).mapError EscapeFault.toFault
  | .string => (· ++ [0]) <$> (unescape item.text).mapError EscapeFault.toFault
  | .hex | .decimal =>
    match item.value? width with
    | some v => .ok (width.bytesOf v)
    | none => .error (.invalidLiteral (String.ofList item.text) (offset + columnOf list item.start))

end DataItem

/-- Whether a text that no item starts with is a quoted text whose last quote, or whose end, follows a
backslash. -/
def endsInEscape : List Char → Bool
  | [] => false
  | q :: body =>
    if q = '"' ∨ q = '\'' then
      body.getLast? = some '\\' ||
        (body.getLast? = some q && body.dropLast.getLast? = some '\\')
    else false

/-- The bytes of a list that starts at byte `offset` of its line. -/
def dataBytes (width : DataWidth) (offset : Nat) (list : List Char) : Except Fault (List UInt8) :=
  match scanItems list with
  | .error rest =>
    if endsInEscape rest then .error .escapeAtEnd
    else
      let text := String.ofList (rest.takeWhile (!isSeparator ·))
      .error (.invalidLiteral text (offset + columnOf list rest))
  | .ok items => List.flatten <$> items.mapM fun item => item.bytes width offset list

end Octet
