import Octet.Assembler.Expansion
import Octet.Assembler.Program
/-!
Layouts: programs in which every instruction line and every datum has its address.

The lines stand one after the other from the origin on, then the data. How long a line is can be told before any
address is known, from the forms of its operands. `Program.layOut` gives the layout, or an error if an address
lies beyond the end of memory.
-/

namespace Octet

/-- A program with its addresses. -/
structure Layout where
  origin : UInt16
  lines : List Line
  symbols : Symbols
  /-- The number of bytes of all instruction lines. -/
  codeSize : Nat
  /-- The number of bytes of instruction lines and data. -/
  totalSize : Nat
deriving DecidableEq, Repr

/-- The token that stands for the address of its own line. -/
def currentAddressToken : String := "$"

namespace Line

/-- The mnemonic of a line. -/
def mnemonic? (line : Line) : Except AsmError Mnemonic :=
  match Mnemonic.ofName? line.mnemonic with
  | some m => .ok m
  | none => .error (.inLine (.unknownMnemonic line.mnemonic) line.loc)

/-- The operations of a line, given its mnemonic and its operands. -/
def expandWith (line : Line) (m : Mnemonic) (operands : List Operand) (returnAddress : UInt16) :
    Except AsmError (List Instruction) :=
  match m.expand operands returnAddress with
  | some operations => .ok operations
  | none => .error (.inLine (.invalidOperands m.name) line.loc)

/-- The mnemonic of a line and the number of bytes that the line takes. -/
def measure (symbols : Symbols) (line : Line) : Except AsmError (Mnemonic × Nat) := do
  let m ← line.mnemonic?
  let operands ← Program.faultIn line.loc (line.operands.mapM symbols.operands)
  let operations ← line.expandWith m operands.flatten 0
  return (m, Instruction.totalLength operations)

/-- The line with its own address in place of the tokens that stand for it. -/
def replaceCurrentAddress (line : Line) (address : UInt16) : Line :=
  line.withTokens (line.tokens.flatMap fun token =>
    if token = currentAddressToken then [byteToken (highByte address), byteToken (lowByte address)]
    else [token])

end Line

namespace Program

/-- The address `offset` bytes after the origin. -/
def addressAt (origin : UInt16) (offset : Nat) : Except AsmError UInt16 :=
  if origin.toNat + offset ≤ 0xFFFF then .ok (UInt16.ofNat (origin.toNat + offset))
  else .error (.imageTooLarge origin offset)

/-- A line with its address, and the labels that name it. -/
structure PlacedLine where
  line : Line
  address : UInt16
  labels : List String
deriving DecidableEq, Repr

/-- Places a line `offset` bytes after the origin, and tells the number of its bytes. -/
def placeLine (origin : UInt16) (symbols : Symbols) (offset : Nat) (line : Line) :
    Traced AsmEvent AsmError (PlacedLine × Nat) := do
  let address ← Traced.lift (addressAt origin offset)
  Traced.emitAll (line.labels.map fun label => .labelBound label address)
  let replaced := line.replaceCurrentAddress address
  if currentAddressToken ∈ line.tokens then Traced.emit (.currentAddressReplaced address line.loc)
  let (m, size) ← Traced.lift (replaced.measure symbols)
  let mut returnAddress := none
  if m.isCall then
    let after ← Traced.lift (addressAt origin (offset + size))
    Traced.emit (.returnAddressSet after line.loc)
    returnAddress := some after
  let placed := { replaced with labels := [], returnAddress := returnAddress }
  return (⟨placed, address, line.labels⟩, size)

/-- Places lines one after the other, and tells the offset after the last one. -/
def placeLines (origin : UInt16) (symbols : Symbols) :
    Nat → List Line → Traced AsmEvent AsmError (List PlacedLine × Nat)
  | offset, [] => return ([], offset)
  | offset, line :: rest => do
    let (placed, size) ← placeLine origin symbols offset line
    let (more, offset) ← placeLines origin symbols (offset + size) rest
    return (placed :: more, offset)

/-- Places data one after the other, and tells the offset after the last ones. -/
def placeData (origin : UInt16) : Nat → List Datum → Traced AsmEvent AsmError (List Datum × Nat)
  | offset, [] => return ([], offset)
  | offset, datum :: rest => do
    let address ← Traced.lift (addressAt origin offset)
    Traced.emit (.dataPlaced datum.name address datum.bytes.length)
    let (more, offset) ← placeData origin (offset + datum.bytes.length) rest
    return ({ datum with address := address } :: more, offset)

/-- The symbols with the addresses of the procedures that name placed lines. -/
def bindLabels (symbols : Symbols) (placed : List PlacedLine) : Symbols :=
  let bindings := placed.flatMap fun p => p.labels.map fun label => (label, p.address)
  bindings.foldl (fun symbols (label, address) => symbols.bindProcedure label address) symbols

/-- Gives every line and every datum its address. -/
def layOut (program : Program) : Traced AsmEvent AsmError Layout := do
  let origin := program.origin
  let (placed, codeSize) ← placeLines origin program.symbols 0 program.lines
  let (data, totalSize) ← placeData origin codeSize program.symbols.data
  if 0x10000 < origin.toNat + totalSize then Traced.fail (.imageTooLarge origin totalSize)
  Traced.emit (.layoutComplete codeSize totalSize)
  return {
    origin := origin
    lines := placed.map (·.line)
    symbols := { bindLabels program.symbols placed with data := data }
    codeSize := codeSize
    totalSize := totalSize }

end Program

end Octet
