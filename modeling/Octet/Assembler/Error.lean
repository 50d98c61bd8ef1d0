import Octet.Text.Hex
/-!
What can go wrong in an assembly.

A `Fault` is a cause found in one line; an `AsmError` is a fault with its line, or a failure of the program as a
whole. `AsmError.message` is the wording.
-/

namespace Octet

open Text (wordHex)

/-- A line of a source file. -/
structure Location where
  file : String
  /-- The number of the line, from 1 on. -/
  line : Nat
deriving DecidableEq, Repr

/-- The location in messages. -/
def Location.text (loc : Location) : String := s!"line {loc.line} of " ++ loc.file

/-- Why a file cannot be read as text, or cannot be written. -/
inductive FileFault where
  | missing
  /-- The path leads through something that is no directory. -/
  | notDirectory
  /-- The path is that of a directory. -/
  | directory
  /-- The path, or a name in it, is longer than any can be. -/
  | nameTooLong
  /-- There is a NUL in the path. -/
  | nulInPath
  /-- There is no room for the bytes. -/
  | noSpace
  /-- What the path names is not there to be opened. -/
  | noDevice
  /-- No file can be made there. -/
  | notAllowed
  /-- The bytes are not UTF-8. -/
  | notText
deriving DecidableEq, Repr

/-- The wording of a fault. -/
def FileFault.message : FileFault → String
  | missing => "No such file or directory (os error 2)"
  | notDirectory => "Not a directory (os error 20)"
  | directory => "Is a directory (os error 21)"
  | nameTooLong => "File name too long (os error 36)"
  | nulInPath => "file name contained an unexpected NUL byte"
  | noSpace => "No space left on device (os error 28)"
  | noDevice => "No such device or address (os error 6)"
  | notAllowed => "Permission denied (os error 13)"
  | notText => "stream did not contain valid UTF-8"

/-- What is wrong with a line. -/
inductive Fault where
  | unknownDirective (name : String)
  /-- `column` counts from 1, from the start of the trimmed line. -/
  | invalidLiteral (text : String) (column : Nat)
  | invalidEscape (char : Char)
  /-- A quoted text ends in the middle of an escape. -/
  | escapeAtEnd
  | illegalName (name : String)
  /-- No instruction follows a label. -/
  | danglingLabel (name : String)
  | duplicateSymbol (name : String)
  /-- The arguments of a directive do not fit. -/
  | invalidDirective (name : String)
  | unknownMnemonic (name : String)
  | invalidSymbol (token : String)
  /-- The operands of an instruction do not fit. -/
  | invalidOperands (mnemonic : String)
  | unreadableInclude (path : String) (cause : FileFault)
  /-- Includes are nested too deeply. -/
  | includeDepth
deriving DecidableEq, Repr

/-- Why an assembly fails. -/
inductive AsmError where
  | inLine (fault : Fault) (loc : Location)
  /-- The program does not fit between its origin and the end of memory. -/
  | imageTooLarge (origin : UInt16) (size : Nat)
  /-- The bytes emitted are not as many as the layout has room for. -/
  | sizeMismatch (expected actual : Nat)
deriving DecidableEq, Repr

/-- The wording of a fault in a line. -/
def Fault.message (fault : Fault) (loc : Location) : String :=
  let on := " on " ++ loc.text
  let quote (s : String) := "\"" ++ s ++ "\""
  match fault with
  | unknownDirective name => "unrecognized assembler command " ++ quote name ++ on
  | invalidLiteral text column => "invalid literal " ++ quote text ++ on ++ s!", column {column}"
  | invalidEscape char => "invalid escaped character '" ++ char.toString ++ "'" ++ on
  | escapeAtEnd => "escape sequence at string end" ++ on
  | illegalName name => "illegal character in symbol " ++ quote name ++ on
  | danglingLabel name => "procedure " ++ quote name ++ " declared" ++ on ++ " is not followed by an instruction"
  | duplicateSymbol name => "symbol " ++ quote name ++ on ++ " is already defined"
  | invalidDirective name => "invalid " ++ name ++ on
  | unknownMnemonic name => "unrecognized instruction " ++ quote name ++ on
  | invalidSymbol token => "invalid symbol " ++ quote token ++ on
  | invalidOperands mnemonic => "invalid " ++ mnemonic ++ on
  | unreadableInclude path _ => "included file " ++ quote path ++ on ++ " could not be read"
  | includeDepth => "includes nested too deeply" ++ on

/-- The wording of an error. -/
def AsmError.message : AsmError → String
  | inLine fault loc => fault.message loc
  | imageTooLarge origin size =>
    s!"program of {size} bytes at origin 0x" ++ wordHex origin ++ " runs past the end of memory"
  | sizeMismatch expected actual => s!"layout assumed {expected} bytes but {actual} were emitted"

end Octet
