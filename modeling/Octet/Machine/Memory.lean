import Octet.Text.Hex
/-!
The memory: one byte at each of 65536 addresses, every one readable and writable.

* `read_write`: a write changes the byte at its address and no other;
* `Region.of` names the part of memory that an address lies in;
* `StackPort.of?`: the two ports whose writes also set the stack pointer.
-/

namespace Octet

/-! ## The address space -/

/-- A part of the address space. -/
inductive Region where
  /-- below `0x8000` -/
  | rom
  /-- from `0x8000` to `0xFEFF` -/
  | ram
  /-- from `0xFF00` on: the ports -/
  | ports
deriving DecidableEq, Repr

namespace Region

/-- The first address of the region. -/
def start : Region → Nat
  | rom => 0
  | ram => 0x8000
  | ports => 0xFF00

/-- The number of addresses in the region. -/
def size : Region → Nat
  | rom => 0x8000
  | ram => 0x7F00
  | ports => 0x100

/-- The name of the region. -/
def name : Region → String
  | rom => "Rom"
  | ram => "Ram"
  | ports => "Io"

/-- The region of an address, and the offset in it. -/
def of (address : UInt16) : Region × Nat :=
  let n := address.toNat
  if n < 0x8000 then (rom, n) else if n < 0xFF00 then (ram, n - 0x8000) else (ports, n - 0xFF00)

end Region

/-- A port whose writes also go to a byte of the stack pointer. -/
inductive StackPort where
  | low
  | high
deriving DecidableEq, Repr

namespace StackPort

/-- The address of the port. -/
def address : StackPort → UInt16
  | low => 0xFF08
  | high => 0xFF09

/-- The stack pointer port at an address, if there is one. -/
def of? (address : UInt16) : Option StackPort :=
  if address = low.address then some low else if address = high.address then some high else none

end StackPort

/-- Where a program is loaded unless told otherwise. -/
def defaultOrigin : UInt16 := 0x8000

/-- The address of port 0, the one that devices watch. -/
def watchedPort : UInt16 := 0xFF00

/-! ## The store -/

/-- The bytes of the memory. -/
structure Memory where
  cells : Vector UInt8 65536
deriving DecidableEq

namespace Memory

/-- The memory that holds 0 everywhere. -/
def zero : Memory := ⟨Vector.replicate 65536 0⟩

instance : Inhabited Memory := ⟨zero⟩

/-- The byte at an address. -/
def read (m : Memory) (address : UInt16) : UInt8 := m.cells[address.toFin]

/-- The memory with a new byte at an address. -/
def write (m : Memory) (address : UInt16) (v : UInt8) : Memory :=
  ⟨m.cells.set address.toNat v address.toNat_lt⟩

/-- The bytes from `start` on, `count` of them; addresses wrap at the end of memory. -/
def readMany (m : Memory) (start : UInt16) (count : Nat) : List UInt8 :=
  (List.range count).map fun i => m.read (start + UInt16.ofNat i)

/-- All bytes, in the order of their addresses. -/
def toList (m : Memory) : List UInt8 := m.cells.toList

/-- The bytes of a region. -/
def region (m : Memory) (r : Region) : List UInt8 := (m.toList.drop r.start).take r.size

@[simp] theorem read_zero (address : UInt16) : zero.read address = 0 := by
  simp [read, zero]

theorem read_write (m : Memory) (x y : UInt16) (v : UInt8) :
    (m.write x v).read y = if x = y then v else m.read y := by
  simp only [read, write, Fin.getElem_fin, UInt16.toFin_val, Vector.getElem_set, UInt16.toNat_inj]

@[simp] theorem read_write_self (m : Memory) (x : UInt16) (v : UInt8) : (m.write x v).read x = v := by
  simp [read_write]

theorem read_write_of_ne (m : Memory) {x y : UInt16} (v : UInt8) (h : x ≠ y) :
    (m.write x v).read y = m.read y := by
  simp [read_write, h]

/-- Memories that agree at every address are equal. -/
theorem ext_read {m n : Memory} (h : ∀ a, m.read a = n.read a) : m = n := by
  obtain ⟨m⟩ := m; obtain ⟨n⟩ := n
  congr 1
  apply Vector.ext
  intro i hi
  have := h (UInt16.ofNat i)
  simpa [read, UInt16.toNat_ofNat', Nat.mod_eq_of_lt hi] using this

end Memory

end Octet
