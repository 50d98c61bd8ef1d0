import Octet.Assembler.DataItem
/-!
The lines of source text: what remains of one when case and comments are taken out, and what it says.

* `normalize` takes out the case of everything outside quotes, the comment, and the white space at both ends;
* `Statement.parse` reads a normalized line that is not empty.
-/

namespace Octet

open Text (isBlank trim cutWord)

/-! ## Normal form -/

/-- A line from a place on: `quote` is the quote that is open, `escaped` tells whether a backslash stands right
before. A backslash hides the next character, in quotes or not; an open quote ends at the next one like it; a
semicolon outside quotes ends the line. -/
def normalizeFrom (quote : Option Char) (escaped : Bool) : List Char → List Char
  | [] => []
  | c :: cs =>
    match quote with
    | some q =>
      let closes := !escaped && c = q
      c :: normalizeFrom (if closes then none else some q) (!escaped && c = '\\') cs
    | none =>
      if escaped then c.toUpper :: normalizeFrom none false cs
      else if c = '\\' then c :: normalizeFrom none true cs
      else if c = ';' then []
      else if c = '"' ∨ c = '\'' then c :: normalizeFrom (some c) false cs
      else c.toUpper :: normalizeFrom none false cs

/-- The normal form of a line. -/
def normalize (raw : String) : String := String.ofList (trim (normalizeFrom none false raw.toList))

/-! ## Statements -/

/-- What a line says. -/
inductive Statement where
  /-- Names the address of the next instruction. -/
  | label (name : String)
  /-- A mnemonic and its operands. -/
  | instruction (tokens : List String)
  /-- Puts bytes after the code, and names their address. -/
  | data (name : String) (bytes : List UInt8)
  /-- Puts zero bytes after the code, and names their address. -/
  | reserve (name : String) (count : Nat)
  /-- Sets the address of the program. -/
  | origin (address : UInt16)
  /-- Names a text that stands for operands. -/
  | constant (name text : String)
  /-- The lines of another file. -/
  | splice (path : String)
deriving DecidableEq, Repr

namespace Statement

/-- Refuses a text that cannot name a symbol, or that names a register. -/
def checkName (name : String) : Except Fault Unit :=
  if isIdentifier name && (Register.ofName? name).isNone then .ok () else .error (.illegalName name)

/-- The name in a label line: what stands before the colon at the end, without a hash sign in front. A line with
a blank in it is no label. -/
def labelName? (line : List Char) : Option String :=
  if line.getLast? = some ':' then
    let name := match line.dropLast with
      | '#' :: rest => rest
      | rest => rest
    if name.any isBlank then none else some (String.ofList name)
  else none

/-- A data directive: a name and a list of items. -/
def parseData (width : DataWidth) (directive : String) (line arguments : List Char) :
    Except Fault Statement := do
  let (name, items) := cutWord arguments
  let name := String.ofList name
  checkName name
  if items = [] then throw (.invalidDirective directive)
  let bytes ← dataBytes width (utf8Length line - utf8Length items) items
  return data name bytes

/-- A reservation: a name and a number of bytes, at most the size of the memory. -/
def parseReserve (arguments : List Char) : Except Fault Statement := do
  let (name, count) := cutWord arguments
  let name := String.ofList name
  checkName name
  match parseNumber (String.ofList count) with
  | some n => if n ≤ 0x10000 then return reserve name n else throw (.invalidDirective "RESB")
  | none => throw (.invalidDirective "RESB")

/-- An origin: an address. -/
def parseOrigin (arguments : List Char) : Except Fault Statement :=
  match parseNumber (String.ofList arguments) with
  | some n => if n ≤ 0xFFFF then .ok (origin (UInt16.ofNat n)) else .error (.invalidDirective "ORG")
  | none => .error (.invalidDirective "ORG")

/-- A definition: a name and a text. -/
def parseConstant (arguments : List Char) : Except Fault Statement := do
  let (name, text) := cutWord arguments
  let name := String.ofList name
  checkName name
  if text = [] then throw (.invalidDirective "DEFINE")
  return constant name (String.ofList text)

/-- What stands between double quotes at both ends, or the text itself if they are not there. -/
def unquoted : List Char → List Char
  | '"' :: rest => if rest.getLast? = some '"' then rest.dropLast else '"' :: rest
  | cs => cs

/-- An include: the path of a file, in double quotes or not. -/
def parseSplice (arguments : List Char) : Except Fault Statement :=
  let path := unquoted arguments
  if path = [] then .error (.invalidDirective "INCLUDE") else .ok (splice (String.ofList path))

/-- A directive: `body` is the line without the hash sign. -/
def parseDirective (line body : List Char) : Except Fault Statement :=
  let (command, arguments) := cutWord body
  match String.ofList command with
  | "DB" => parseData .byte "DB" line arguments
  | "DW" => parseData .word "DW" line arguments
  | "RESB" => parseReserve arguments
  | "ORG" => parseOrigin arguments
  | "DEFINE" => parseConstant arguments
  | "INCLUDE" => parseSplice arguments
  | other => .error (.unknownDirective other)

/-- Reads a normalized line that is not empty: a label, a directive, or an instruction. -/
def parse (line : String) : Except Fault Statement :=
  match labelName? line.toList with
  | some name => do
    checkName name
    return label name
  | none =>
    match line.toList with
    | '#' :: body => parseDirective line.toList body
    | _ => .ok (instruction (splitTokens line))

end Statement

end Octet
