/-!
White space, and text cut at it.

White space is the property of that name in the Unicode standard; `trim` removes it at both ends, `cutWord`
splits off the first word, `lines` cuts a text at its line feeds.
-/

namespace Octet.Text

/-- Whether a character has the Unicode property White_Space. -/
def isBlank (c : Char) : Bool :=
  let n := c.toNat
  (9 ≤ n && n ≤ 13) || n == 0x20 || n == 0x85 || n == 0xA0 || n == 0x1680 ||
    (0x2000 ≤ n && n ≤ 0x200A) || n == 0x2028 || n == 0x2029 || n == 0x202F || n == 0x205F || n == 0x3000

/-- Drops the white space in front. -/
def trimStart (cs : List Char) : List Char := cs.dropWhile isBlank

/-- Drops the white space behind. -/
def trimEnd (cs : List Char) : List Char := (cs.reverse.dropWhile isBlank).reverse

/-- Drops the white space at both ends. -/
def trim (cs : List Char) : List Char := trimEnd (trimStart cs)

/-- The first word of a text, and what stands after it from the next word on. -/
def cutWord (cs : List Char) : List Char × List Char :=
  let cs := trimStart cs
  (cs.takeWhile (!isBlank ·), trimStart (cs.dropWhile (!isBlank ·)))

/-- The maximal runs of characters that are no separators. -/
def splitRuns (isSeparator : Char → Bool) (cs : List Char) : List (List Char) :=
  match _h : cs.dropWhile isSeparator with
  | [] => []
  | c :: rest =>
    (c :: rest.takeWhile (!isSeparator ·)) :: splitRuns isSeparator (rest.dropWhile (!isSeparator ·))
termination_by cs.length
decreasing_by
  have h₁ := (List.dropWhile_sublist isSeparator : (cs.dropWhile _).Sublist cs).length_le
  have h₂ := (List.dropWhile_sublist (!isSeparator ·) : (rest.dropWhile _).Sublist rest).length_le
  rw [_h] at h₁; simp only [List.length_cons] at h₁; omega

/-- The lines of a text. A line ends at a line feed, with the carriage return in front of it if there is one;
text after the last line feed is a line of its own. -/
def lines (cs : List Char) : List (List Char) :=
  match cs with
  | [] => []
  | c :: r =>
    let line := (c :: r).takeWhile (· != '\n')
    match _h : (c :: r).dropWhile (· != '\n') with
    | [] => [line]
    | _ :: rest =>
      (if line.getLast? = some '\r' then line.dropLast else line) :: lines rest
termination_by cs.length
decreasing_by
  have := (List.dropWhile_sublist (· != '\n') : ((c :: r).dropWhile _).Sublist (c :: r)).length_le
  rw [_h] at this; simp only [List.length_cons] at this ⊢; omega

end Octet.Text
