import Octet.Assembler.Error
import Octet.Assembler.Operand
/-!
Instruction lines on their way from source text to operations.
-/

namespace Octet

/-- An instruction line. -/
structure Line where
  loc : Location
  mnemonic : String
  /-- The operand tokens. -/
  operands : List String := []
  /-- The labels that name the address of the line. -/
  labels : List String := []
  /-- The address after the line, if its instruction needs it. -/
  returnAddress : Option UInt16 := none
deriving DecidableEq, Repr

namespace Line

/-- The line that some tokens make; without tokens the mnemonic is empty. -/
def ofTokens (loc : Location) (tokens : List String) : Line :=
  { loc := loc, mnemonic := tokens.headD "", operands := tokens.tail }

/-- The mnemonic and the operand tokens. -/
def tokens (line : Line) : List String := line.mnemonic :: line.operands

/-- The line with other tokens. -/
def withTokens (line : Line) (tokens : List String) : Line :=
  { line with mnemonic := tokens.headD "", operands := tokens.tail }

/-- The line in listings. -/
def text (line : Line) : String :=
  String.intercalate " " line.tokens ++
    String.join (line.labels.map (" : PROC " ++ ·)) ++
    match line.returnAddress with
    | some address => " : " ++ wordToken address
    | none => ""

end Line

end Octet
