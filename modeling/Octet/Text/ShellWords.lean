/-!
Words of a command line, split as a POSIX shell splits them: blanks separate words, single quotes keep
everything, double quotes keep everything but a backslash before one of four characters, a backslash
elsewhere keeps the next character, and a hash sign between words starts a comment.
-/

namespace Octet.Text.ShellWords

/-- Where in a command line the reader stands. -/
inductive Place where
  /-- Between words. -/
  | between
  /-- Inside a word, outside quotes. -/
  | word
  | singleQuoted
  | doubleQuoted
  /-- After a hash sign, up to the end of the line. -/
  | comment
deriving DecidableEq, Repr

/-- The characters that separate words. -/
def isDelimiter (c : Char) : Bool := c = ' ' || c = '\t' || c = '\n'

/-- The characters that a backslash keeps inside double quotes: dollar, grave accent, quote, backslash. -/
def isKeptInDoubleQuotes (c : Char) : Bool :=
  c = '$' || c = Char.ofNat 0x60 || c = '"' || c = '\\'

/-- The words from a place on, `w` holding the current word's characters, last one first; `none` where a
quote is missing. -/
def wordsFrom : Place → List Char → List Char → Option (List String)
  | .between, _, [] => some []
  | .between, w, c :: cs =>
    if c = '\'' then wordsFrom .singleQuoted w cs
    else if c = '"' then wordsFrom .doubleQuoted w cs
    else if c = '\\' then
      match cs with
      | [] => some ["\\"]
      | e :: cs => if e = '\n' then wordsFrom .between w cs else wordsFrom .word (e :: w) cs
    else if isDelimiter c then wordsFrom .between w cs
    else if c = '#' then wordsFrom .comment w cs
    else wordsFrom .word (c :: w) cs
  | .word, w, [] => some [String.ofList w.reverse]
  | .word, w, c :: cs =>
    if c = '\'' then wordsFrom .singleQuoted w cs
    else if c = '"' then wordsFrom .doubleQuoted w cs
    else if c = '\\' then
      match cs with
      | [] => some [String.ofList ('\\' :: w).reverse]
      | e :: cs => if e = '\n' then wordsFrom .word w cs else wordsFrom .word (e :: w) cs
    else if isDelimiter c then (wordsFrom .between [] cs).map (String.ofList w.reverse :: ·)
    else wordsFrom .word (c :: w) cs
  | .singleQuoted, _, [] => none
  | .singleQuoted, w, c :: cs =>
    if c = '\'' then wordsFrom .word w cs else wordsFrom .singleQuoted (c :: w) cs
  | .doubleQuoted, _, [] => none
  | .doubleQuoted, w, c :: cs =>
    if c = '"' then wordsFrom .word w cs
    else if c = '\\' then
      match cs with
      | [] => none
      | e :: cs =>
        if e = '\n' then wordsFrom .doubleQuoted w cs
        else if isKeptInDoubleQuotes e then wordsFrom .doubleQuoted (e :: w) cs
        else wordsFrom .doubleQuoted (e :: '\\' :: w) cs
    else wordsFrom .doubleQuoted (c :: w) cs
  | .comment, _, [] => some []
  | .comment, w, c :: cs => if c = '\n' then wordsFrom .between w cs else wordsFrom .comment w cs

/-- The words of a line, or `none` if a quote is missing. -/
def split (line : String) : Option (List String) := wordsFrom .between [] line.toList

end Octet.Text.ShellWords
