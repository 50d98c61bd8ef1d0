import Octet.Assembler.Event
import Octet.Assembler.Line
import Octet.Assembler.SourceTree
import Octet.Assembler.Symbols
/-!
Programs: the instruction lines and the symbols that the statements of a source tree make.

A label waits for the next instruction line and then names its address; a label after which no instruction comes
is an error. `Program.ofStream` collects a stream, `Program.ofSource` collects a file while it reads, and
`ofSource_eq` says that they agree.
-/

namespace Octet

/-- A program whose addresses are not known yet. -/
structure Program where
  origin : UInt16
  lines : List Line := []
  symbols : Symbols := {}
deriving DecidableEq, Repr

namespace Program

/-- What has been collected so far. -/
structure Collection where
  origin : UInt16
  symbols : Symbols := {}
  /-- The instruction lines, last one first. -/
  reversed : List Line := []
  /-- The labels that wait for an instruction, last one first. -/
  waiting : List (String × Location) := []
deriving DecidableEq, Repr

/-- A fault that arises in a line. -/
def faultIn {α : Type} (loc : Location) (result : Except Fault α) : Except AsmError α :=
  result.mapError fun fault => .inLine fault loc

/-- Adds a statement. -/
def collect (c : Collection) (s : LocatedStatement) : Traced AsmEvent AsmError Collection := do
  match s.statement with
  | .label name =>
    let symbols ← Traced.lift (faultIn s.loc (c.symbols.declareProcedure name))
    Traced.emit (.labelFound name s.loc)
    return { c with symbols := symbols, waiting := (name, s.loc) :: c.waiting }
  | .instruction tokens =>
    let line := { Line.ofTokens s.loc tokens with labels := (c.waiting.map (·.1)).reverse }
    return { c with reversed := line :: c.reversed, waiting := [] }
  | .data name bytes =>
    Traced.emit (.dataStored name bytes.length)
    let datum : Datum := { name := name, bytes := bytes, loc := s.loc }
    let symbols ← Traced.lift (faultIn s.loc (c.symbols.addDatum datum))
    return { c with symbols := symbols }
  | .reserve name count =>
    Traced.emit (.dataReserved name count)
    let datum : Datum := { name := name, bytes := List.replicate count 0, loc := s.loc }
    let symbols ← Traced.lift (faultIn s.loc (c.symbols.addDatum datum))
    return { c with symbols := symbols }
  | .origin address =>
    Traced.emit (.originSet address s.loc)
    return { c with origin := address }
  | .constant name text =>
    Traced.emit (.constantDefined name text)
    let symbols ← Traced.lift (faultIn s.loc (c.symbols.defineConstant name text))
    return { c with symbols := symbols }
  | .splice path =>
    Traced.emit (.spliced path s.loc)
    return c

/-- The program, unless a label still waits. -/
def finish (c : Collection) : Except AsmError Program :=
  match c.waiting.getLast? with
  | some (name, loc) => .error (.inLine (.danglingLabel name) loc)
  | none => .ok { origin := c.origin, lines := c.reversed.reverse, symbols := c.symbols }

/-- The program that a stream of statements makes. An error that ends the stream comes after what the statements
before it did. -/
def ofStream (origin : UInt16) (stream : SourceTree.Stream) : Traced AsmEvent AsmError Program := do
  let (collection, _) ← stream.foldReports collect { origin := origin }
  Traced.lift (finish collection)

/-- The program in a file and in those that it includes. -/
def ofSource (files : SourceFiles) (origin : UInt16) (path text : String) :
    Traced AsmEvent AsmError Program := do
  let (collection, _) ← SourceTree.walk files collect path text { origin := origin }
  Traced.lift (finish collection)

/-- The program in a file is that of its stream. -/
theorem ofSource_eq (files : SourceFiles) (origin : UInt16) (path text : String) :
    ofSource files origin path text = ofStream origin (SourceTree.read files path text) := by
  rw [ofSource, SourceTree.walk_eq]; rfl

end Program

end Octet
