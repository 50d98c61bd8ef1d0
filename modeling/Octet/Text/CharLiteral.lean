/-!
A character between apostrophes, with escapes for what a terminal would not show.
-/

namespace Octet.Text

/-- Whether a character with a code below 256 leaves no visible mark of its own: the controls, the no-break
space and the soft hyphen. -/
def isInvisible (c : Char) : Bool :=
  let n := c.toNat
  n < 0x20 || (0x7F ≤ n && n ≤ 0xA0) || n == 0xAD

/-- The character in apostrophes. Five characters have a named escape, invisible ones are written by their
code, all others stand for themselves. Made for characters with a code below 256. -/
def charLiteral (c : Char) : String :=
  let body :=
    if c = Char.ofNat 0 then "\\0"
    else if c = '\t' then "\\t"
    else if c = '\n' then "\\n"
    else if c = '\r' then "\\r"
    else if c = '\'' then "\\'"
    else if c = '\\' then "\\\\"
    else if isInvisible c then "\\u\x7b" ++ String.ofList (Nat.toDigits 16 c.toNat) ++ "\x7d"
    else c.toString
  "'" ++ body ++ "'"

end Octet.Text
