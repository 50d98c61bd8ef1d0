import Octet.Assembler.Image
import Octet.Assembler.Resolution
/-!
Assembling: from source text to an image.
-/

namespace Octet

namespace Layout

/-- The image of a layout, given its operations. -/
def emit (layout : Layout) (program : List Instruction) : Traced AsmEvent AsmError Image :=
  Image.emit layout.origin layout.codeSize layout.totalSize layout.symbols.data program

end Layout

/-- Assembles the text of a file. Each stage that can be listed is reported when it is done. -/
def assemble (files : SourceFiles) (origin : UInt16) (path text : String) :
    Traced AsmEvent AsmError Image := do
  let program ← Program.ofSource files origin path text
  Traced.emit (.linesCollected program.lines.length)
  Traced.emit (.stageDone .preprocess (program.lines.map (·.text)))
  let layout ← program.layOut
  Traced.emit (.stageDone .layout (layout.lines.map (·.text)))
  let lines ← layout.resolve
  Traced.emit (.stageDone .symbols (lines.map (·.text)))
  let operations ← Traced.lift (expandLines lines)
  Traced.emit (.operationsExpanded operations.length)
  Traced.emit (.stageDone .expand (operations.map (·.text)))
  let image ← layout.emit operations
  Traced.emit (.assembled image.origin image.code.length image.data.length)
  return image

/-- Assembles text that is in no file. Its includes are looked up from the working directory. -/
def assembleText (files : SourceFiles) (origin : UInt16) (text : String) : Traced AsmEvent AsmError Image :=
  assemble files origin "<input>" text

/-- Why a file could not be assembled. -/
inductive AssemblyFault where
  /-- The file itself cannot be read. -/
  | unreadable (path : String) (cause : FileFault)
  | source (error : AsmError)
deriving DecidableEq, Repr

/-- The wording of a fault, without its cause. -/
def AssemblyFault.message : AssemblyFault → String
  | unreadable path _ => "Error reading source file " ++ path
  | source error => error.message

/-- The cause of a fault, if it is a file that cannot be read. -/
def AssemblyFault.cause? : AssemblyFault → Option FileFault
  | unreadable _ cause => some cause
  | source (.inLine (.unreadableInclude _ cause) _) => some cause
  | source _ => none

/-- Assembles a file. -/
def assembleFile (files : SourceFiles) (origin : UInt16) (path : String) :
    Traced AsmEvent AssemblyFault Image :=
  match files.load path with
  | .error cause => Traced.fail (.unreadable path cause)
  | .ok (text, files) =>
    let assembly := assemble files origin path text
    ⟨assembly.reports, assembly.result.mapError .source⟩

end Octet
