import Octet.Assembler.Error
import Octet.Assembler.Operand
import Octet.Isa.Encoding
import Octet.Log
/-!
What an assembly reports on its way: one constructor for each kind of report, with its log entry.
-/

namespace Octet

open Text (wordHex)

/-- A stage of an assembly that can be listed. -/
inductive Stage where
  /-- the instruction lines with their labels -/
  | preprocess
  /-- the lines with their addresses worked in -/
  | layout
  /-- the lines with literal operands -/
  | symbols
  /-- the operations -/
  | expand
deriving DecidableEq, Repr

namespace Stage

/-- All stages, first one first. -/
def all : List Stage := [preprocess, layout, symbols, expand]

/-- The name of the stage. -/
def name : Stage → String
  | preprocess => "preprocess"
  | layout => "layout"
  | symbols => "symbols"
  | expand => "expand"

end Stage

/-- A report of an assembly. -/
inductive AsmEvent where
  | labelFound (name : String) (loc : Location)
  | dataStored (name : String) (size : Nat)
  | dataReserved (name : String) (size : Nat)
  | originSet (origin : UInt16) (loc : Location)
  | constantDefined (name text : String)
  | spliced (path : String) (loc : Location)
  | linesCollected (count : Nat)
  /-- A stage is done; its listing has the given lines. -/
  | stageDone (stage : Stage) (listing : List String)
  | labelBound (name : String) (address : UInt16)
  | currentAddressReplaced (address : UInt16) (loc : Location)
  | returnAddressSet (address : UInt16) (loc : Location)
  | dataPlaced (name : String) (address : UInt16) (size : Nat)
  | layoutComplete (codeSize totalSize : Nat)
  | tokenReplaced (token : String) (tokens : List String) (loc : Location)
  | operationsExpanded (count : Nat)
  /-- An operation that has no machine code is left out. -/
  | operationSkipped (operation : Instruction) (fault : CodeFault)
  | dataEmitted (name : String) (address : UInt16) (size : Nat)
  | assembled (origin : UInt16) (codeSize dataSize : Nat)
deriving DecidableEq, Repr

namespace AsmEvent

/-- The log entry of a report. `listingName` names the listings that are written; the others leave no entry. -/
def entry? (listingName : Stage → Option String) : AsmEvent → Option LogEntry
  | labelFound name loc => some ⟨.debug, "Found procedure " ++ name ++ " on " ++ loc.text⟩
  | dataStored name size => some ⟨.debug, s!"Stored {size} bytes for data symbol " ++ name⟩
  | dataReserved name size => some ⟨.debug, s!"Reserved {size} bytes for data symbol " ++ name⟩
  | originSet origin loc => some ⟨.debug, "Origin set to 0x" ++ wordHex origin ++ " on " ++ loc.text⟩
  | constantDefined name text => some ⟨.debug, "Defined constant " ++ name ++ " as \"" ++ text ++ "\""⟩
  | spliced path loc => some ⟨.debug, "Including " ++ path ++ " from " ++ loc.text⟩
  | linesCollected count => some ⟨.debug, s!"Preprocessing produced {count} lines"⟩
  | stageDone stage listing =>
    (listingName stage).map fun name => ⟨.debug, s!"Wrote {listing.length} lines to " ++ name⟩
  | labelBound name address => some ⟨.debug, "Procedure " ++ name ++ " is at 0x" ++ wordHex address⟩
  | currentAddressReplaced address loc =>
    some ⟨.debug, "Replaced $ on " ++ loc.text ++ " with 0x" ++ wordHex address⟩
  | returnAddressSet address loc =>
    some ⟨.debug, "Return address of call on " ++ loc.text ++ " is 0x" ++ wordHex address⟩
  | dataPlaced name address size =>
    some ⟨.debug, "Data " ++ name ++ " is at 0x" ++ wordHex address ++ s!", {size} bytes"⟩
  | layoutComplete codeSize totalSize =>
    some ⟨.debug, s!"Layout complete: {codeSize} bytes of code, {totalSize} bytes total"⟩
  | tokenReplaced token tokens loc =>
    some ⟨.trace, "Replaced " ++ token ++ " with " ++ String.intercalate " " tokens ++ " on " ++ loc.text⟩
  | operationsExpanded count => some ⟨.debug, s!"Expanded into {count} primitive instructions"⟩
  | operationSkipped operation fault =>
    some ⟨.error, "Skipping " ++ operation.text ++ ": " ++ fault.message⟩
  | dataEmitted name address size =>
    some ⟨.debug, s!"Allocating {size} bytes for " ++ name ++ " at 0x" ++ wordHex address⟩
  | assembled origin codeSize dataSize =>
    some ⟨.info, s!"Assembled {codeSize} bytes of code and {dataSize} bytes of data at 0x" ++ wordHex origin⟩

end AsmEvent

end Octet
