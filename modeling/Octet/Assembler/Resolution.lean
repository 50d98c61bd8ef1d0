import Octet.Assembler.Layout
/-!
Lines with literal operands only, and the operations that they stand for.

* `Layout.resolve` replaces every symbol by the literal tokens that it stands for;
* `Line.operations` reads the tokens of a resolved line and expands them.
-/

namespace Octet

namespace Line

/-- Replaces one operand token. -/
def resolveToken (symbols : Symbols) (loc : Location) (token : String) :
    Traced AsmEvent AsmError (List String) := do
  let tokens ← Traced.lift (Program.faultIn loc (symbols.substitute token))
  if tokens ≠ [token] then Traced.emit (.tokenReplaced token tokens loc)
  return tokens

/-- Replaces the operand tokens of a line. -/
def resolve (symbols : Symbols) (line : Line) : Traced AsmEvent AsmError Line := do
  let operands ← Traced.mapList (resolveToken symbols line.loc) line.operands
  return { line with operands := operands.flatten }

/-- The operations of a line whose operands are literal. -/
def operations (line : Line) : Except AsmError (List Instruction) := do
  let m ← line.mnemonic?
  let operands ← Program.faultIn line.loc (line.operands.mapM Symbols.literal)
  line.expandWith m operands (line.returnAddress.getD 0)

end Line

/-- The lines of a layout with literal operands. -/
def Layout.resolve (layout : Layout) : Traced AsmEvent AsmError (List Line) :=
  Traced.mapList (Line.resolve layout.symbols) layout.lines

/-- The operations of some lines whose operands are literal. -/
def expandLines (lines : List Line) : Except AsmError (List Instruction) :=
  List.flatten <$> lines.mapM Line.operations

end Octet
