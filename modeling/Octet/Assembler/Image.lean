import Octet.Assembler.Event
import Octet.Assembler.Symbols
import Octet.Traced
/-!
Images: the bytes of a program, code first and data after it.
-/

namespace Octet

/-- A program as it will stand in memory. -/
structure Image where
  origin : UInt16
  code : List UInt8
  data : List UInt8
deriving DecidableEq, Repr

namespace Image

/-- All bytes, from the origin on. -/
def bytes (image : Image) : List UInt8 := image.code ++ image.data

/-- The number of bytes. -/
def size (image : Image) : Nat := image.code.length + image.data.length

/-- The machine code of an operation; one that has none is reported and left out. -/
def emitOperation (operation : Instruction) : Traced AsmEvent AsmError (List UInt8) :=
  match operation.encode with
  | .ok bytes => Pure.pure bytes
  | .error fault => do
    Traced.emit (.operationSkipped operation fault)
    return []

/-- The image of a program. Code, and code with data, have to take as many bytes as the layout says. -/
def emit (origin : UInt16) (codeSize totalSize : Nat) (data : List Datum) (program : List Instruction) :
    Traced AsmEvent AsmError Image := do
  let code := (← Traced.mapList emitOperation program).flatten
  if code.length ≠ codeSize then Traced.fail (.sizeMismatch codeSize code.length)
  Traced.emitAll (data.map fun d => .dataEmitted d.name d.address d.bytes.length)
  let image : Image := ⟨origin, code, data.flatMap (·.bytes)⟩
  if image.size ≠ totalSize then Traced.fail (.sizeMismatch totalSize image.size)
  return image

end Image

end Octet
