import Octet.Proofs.Machine.Stores
/-!
Memory as one store, as three regions, and as a history of writes.

* `Region.of_eq_iff`: addresses and offsets in regions correspond, with no gap and nothing that is there twice;
* `region_write`: a write changes one region, at one offset;
* `Cpu.Store`, `Cpu.storeAll`: calls that write bytes and images, in any order;
* `Cpu.written`: the bytes that they write, one after the other;
* `lastAt`: what was written last to an address;
* `store_is_flat`: what calls leave in memory, in its regions and in the registers.
-/

namespace Octet

/-! ## Regions -/

namespace Region

/-- An address is the start of its region and the offset in it. -/
theorem start_add_of (address : UInt16) : (of address).1.start + (of address).2 = address.toNat := by
  unfold of
  dsimp only
  split
  · exact Nat.zero_add _
  · split
    · show 0x8000 + (address.toNat - 0x8000) = address.toNat
      omega
    · show 0xFF00 + (address.toNat - 0xFF00) = address.toNat
      omega

/-- **An offset is in range.** -/
theorem of_lt (address : UInt16) : (of address).2 < (of address).1.size := by
  have hlt := address.toNat_lt
  unfold of
  dsimp only
  split
  · assumption
  · split
    · show address.toNat - 0x8000 < 0x7F00
      omega
    · show address.toNat - 0xFF00 < 0x100
      omega

/-- The regions lie behind each other. -/
theorem eq_of_start_add {r s : Region} {m n : Nat} (hm : m < r.size) (hn : n < s.size)
    (h : r.start + m = s.start + n) : r = s ∧ m = n := by
  cases r <;> cases s <;> simp only [start, size, reduceCtorEq, false_and, true_and] at hm hn h ⊢ <;> omega

/-- **Every offset of a region is that of one address.** -/
theorem of_eq_iff {address : UInt16} {r : Region} {n : Nat} (hn : n < r.size) :
    of address = (r, n) ↔ r.start + n = address.toNat := by
  constructor
  · intro h
    rw [← start_add_of, h]
  · intro h
    obtain ⟨hr, hoffset⟩ := eq_of_start_add hn (of_lt address) (h.trans (start_add_of address).symm)
    rw [hr, hoffset]

theorem end_le (r : Region) : r.start + r.size ≤ 0x10000 := by cases r <;> decide

theorem existsUnique_of {r : Region} {n : Nat} (hn : n < r.size) : ∃! address, of address = (r, n) := by
  have hend := r.end_le
  have hlt : r.start + n < 2 ^ 16 := by omega
  refine ⟨UInt16.ofNat (r.start + n), (of_eq_iff hn).2 (UInt16.toNat_ofNat_of_lt' hlt).symm, fun address h => ?_⟩
  rw [(of_eq_iff hn).1 h, UInt16.ofNat_toNat]

/-- The bytes of a region after a write to memory. -/
def update (r : Region) (bytes : List UInt8) (p : UInt16 × UInt8) : List UInt8 :=
  if (of p.1).1 = r then bytes.set (of p.1).2 p.2 else bytes

end Region

namespace Memory

variable (m : Memory)

theorem length_toList : m.toList.length = 65536 := Vector.length_toList

theorem getElem?_toList (address : UInt16) : m.toList[address.toNat]? = some (m.read address) := by
  rw [List.getElem?_eq_getElem (by rw [length_toList]; exact address.toNat_lt)]
  exact congrArg some (Vector.getElem_toList _)

theorem toList_write (address : UInt16) (v : UInt8) : (m.write address v).toList = m.toList.set address.toNat v :=
  Vector.toList_set address.toNat_lt

theorem length_region (r : Region) : (m.region r).length = r.size := by
  have hend := r.end_le
  rw [region, List.length_take, List.length_drop, length_toList]
  omega

/-- The byte at an address stands in its region, at its offset. -/
theorem getElem?_region (address : UInt16) :
    (m.region (Region.of address).1)[(Region.of address).2]? = some (m.read address) := by
  rw [region, List.getElem?_take_of_lt (Region.of_lt address), List.getElem?_drop, Region.start_add_of, getElem?_toList]

/-- **A write changes one region, at one offset.** -/
theorem region_write (address : UInt16) (v : UInt8) (r : Region) :
    (m.write address v).region r = r.update (m.region r) (address, v) := by
  have hend := r.end_le
  rw [region, toList_write, List.drop_set, Region.update]
  by_cases hin : (Region.of address).1 = r
  · have hstart := Region.start_add_of address
    rw [hin] at hstart
    have hnot : ¬ address.toNat < r.start := by omega
    have hoffset : address.toNat - r.start = (Region.of address).2 := by omega
    rw [if_neg hnot, if_pos hin, List.take_set, hoffset]
    rfl
  · rw [if_neg hin]
    split
    · rfl
    · rename_i hle
      -- an offset within the size would be that of the address
      have hbehind : r.size ≤ address.toNat - r.start := by
        by_contra hlt
        have hof : Region.of address = (r, address.toNat - r.start) :=
          (Region.of_eq_iff (Nat.lt_of_not_le hlt)).2 (by omega)
        exact hin (congrArg Prod.fst hof)
      rw [List.take_set]
      exact List.set_eq_of_length_le (Nat.le_trans (List.length_take_le _ _) hbehind)

end Memory

/-! ## Histories of writes -/

/-- The value that was written last to an address. -/
def lastAt (writes : List (UInt16 × UInt8)) (address : UInt16) : Option UInt8 := writes.reverse.lookup address

theorem lastAt_concat (writes : List (UInt16 × UInt8)) (target address : UInt16) (v : UInt8) :
    lastAt (writes ++ [(target, v)]) address = if target = address then some v else lastAt writes address := by
  rw [lastAt, List.reverse_append]
  show List.lookup address ((target, v) :: writes.reverse) = _
  rw [List.lookup_cons]
  by_cases h : target = address
  · rw [if_pos h, h, beq_self_eq_true]
  · have hne : (address == target) = false := beq_eq_false_iff_ne.2 (Ne.symm h)
    rw [if_neg h, hne]
    rfl

namespace Cpu

variable (cpu : Cpu)

/-- Writes bytes, each to its address, first one first. -/
def writeEach (writes : List (UInt16 × UInt8)) : Cpu := writes.foldl (fun cpu p => cpu.write p.1 p.2) cpu

theorem writeEach_concat (writes : List (UInt16 × UInt8)) (address : UInt16) (v : UInt8) :
    cpu.writeEach (writes ++ [(address, v)]) = (cpu.writeEach writes).write address v := by
  rw [writeEach, List.foldl_append]
  rfl

/-- **A write** changes one byte, and a byte of the stack pointer at the ports of it. -/
theorem write_eq (address : UInt16) (v : UInt8) :
    cpu.write address v = { cpu with
      memory := cpu.memory.write address v
      registers := { cpu.registers with
        spLow := if address = StackPort.low.address then v else cpu.registers.spLow
        spHigh := if address = StackPort.high.address then v else cpu.registers.spHigh } } := by
  unfold write StackPort.of?
  by_cases hlow : address = StackPort.low.address
  · have hhigh : ¬ address = StackPort.high.address := by
      rw [hlow]
      decide
    simp only [if_pos hlow, if_neg hhigh]
  · by_cases hhigh : address = StackPort.high.address
    · simp only [if_neg hlow, if_pos hhigh]
    · simp only [if_neg hlow, if_neg hhigh]

/-- **Of the writes to an address the last one counts.** -/
theorem read_writeEach (writes : List (UInt16 × UInt8)) (address : UInt16) :
    (cpu.writeEach writes).read address = (lastAt writes address).getD (cpu.read address) := by
  induction writes using List.reverseRecOn with
  | nil => rfl
  | append_singleton writes p ih =>
    obtain ⟨target, v⟩ := p
    rw [writeEach_concat, lastAt_concat]
    show ((cpu.writeEach writes).memory.write target v).read address = _
    rw [Memory.read_write]
    split
    · rfl
    · exact ih

/-- Nothing but memory and the stack pointer changes, and that as its ports do. -/
theorem writeEach_eq (writes : List (UInt16 × UInt8)) :
    cpu.writeEach writes = { cpu with
      memory := (cpu.writeEach writes).memory
      registers := { cpu.registers with
        spLow := (lastAt writes StackPort.low.address).getD cpu.registers.spLow
        spHigh := (lastAt writes StackPort.high.address).getD cpu.registers.spHigh } } := by
  induction writes using List.reverseRecOn with
  | nil => rfl
  | append_singleton writes p ih =>
    obtain ⟨address, v⟩ := p
    have hlast (port : UInt16) (old : UInt8) : (lastAt (writes ++ [(address, v)]) port).getD old =
        if address = port then v else (lastAt writes port).getD old := by
      rw [lastAt_concat]
      split <;> rfl
    obtain ⟨memory, hmemory⟩ : ∃ memory, memory = (cpu.writeEach writes).memory := ⟨_, rfl⟩
    rw [← hmemory] at ih
    rw [writeEach_concat, hlast, hlast, ih, write_eq]

theorem region_writeEach (writes : List (UInt16 × UInt8)) (r : Region) :
    (cpu.writeEach writes).memory.region r = writes.foldl r.update (cpu.memory.region r) := by
  induction writes using List.reverseRecOn with
  | nil => rfl
  | append_singleton writes p ih =>
    rw [List.foldl_append, ← ih, writeEach_concat]
    exact Memory.region_write _ p.1 p.2 r

/-! ## Calls -/

/-- Bytes with consecutive addresses. -/
def placed (origin : UInt16) (bytes : List UInt8) : List (UInt16 × UInt8) :=
  bytes.mapIdx fun i b => (origin + UInt16.ofNat i, b)

/-- An image is written byte by byte. -/
theorem writeMany_eq (origin : UInt16) (bytes : List UInt8) :
    cpu.writeMany origin bytes = cpu.writeEach (placed origin bytes) := by
  induction bytes generalizing cpu origin with
  | nil => rfl
  | cons b bytes ih =>
    have hplaced : placed origin (b :: bytes) = (origin, b) :: placed (origin + 1) bytes := by
      simp only [placed, List.mapIdx_cons, add_one_add_ofNat]
      rw [show UInt16.ofNat 0 = 0 from rfl, UInt16.add_zero]
    rw [hplaced, writeMany, ih]
    rfl

/-- Addresses of an image that fits do not wrap. -/
theorem map_toNat_placed {origin : UInt16} {bytes : List UInt8} (h : origin.toNat + bytes.length ≤ 0x10000) :
    (placed origin bytes).map (·.1.toNat) = List.range' origin.toNat bytes.length := by
  refine List.ext_getElem (by simp [placed]) fun i hi _ => ?_
  have hlt : i < bytes.length := by simpa [placed] using hi
  simp only [placed, List.getElem_map, List.getElem_mapIdx, List.getElem_range', Nat.one_mul]
  exact toNat_add_ofNat (by omega)

theorem map_snd_placed (origin : UInt16) (bytes : List UInt8) : (placed origin bytes).map (·.2) = bytes := by
  refine List.ext_getElem (by simp [placed]) fun i _ _ => ?_
  simp only [placed, List.getElem_map, List.getElem_mapIdx]

/-- A call that writes to memory. -/
inductive Store where
  | byte (address : UInt16) (v : UInt8)
  | image (origin : UInt16) (bytes : List UInt8)

/-- The processor after a call. One that fails leaves it as it was. -/
def store : Store → Cpu
  | .byte address v => cpu.write address v
  | .image origin bytes => (cpu.load origin bytes).toOption.getD cpu

def storeAll (stores : List Store) : Cpu := stores.foldl store cpu

/-- The bytes that a call writes. An image is written as a whole, or not at all. -/
def Store.writes : Store → List (UInt16 × UInt8)
  | .byte address v => [(address, v)]
  | .image origin bytes => if origin.toNat + bytes.length ≤ 0x10000 then placed origin bytes else []

/-- The bytes that calls write, one after the other. -/
def written (stores : List Store) : List (UInt16 × UInt8) := stores.flatMap Store.writes

/-- **An image is loaded iff it fits**, and is written byte by byte then. -/
theorem load_eq (origin : UInt16) (bytes : List UInt8) :
    cpu.load origin bytes =
      if origin.toNat + bytes.length ≤ 0x10000 then .ok (cpu.writeEach (placed origin bytes))
      else .error ⟨origin, bytes.length⟩ := by
  rw [load, ← writeMany_eq]
  split
  · rename_i hlarge
    rw [if_neg (Nat.not_le.2 hlarge)]
  · rename_i hfits
    rw [if_pos (Nat.not_lt.1 hfits)]

theorem store_eq (s : Store) : cpu.store s = cpu.writeEach s.writes := by
  cases s with
  | byte address v => rfl
  | image origin bytes =>
    rw [store, load_eq, Store.writes]
    split <;> rfl

theorem storeAll_eq (stores : List Store) : cpu.storeAll stores = cpu.writeEach (written stores) := by
  induction stores generalizing cpu with
  | nil => rfl
  | cons s stores ih =>
    rw [storeAll, List.foldl_cons, written, List.flatMap_cons, writeEach, List.foldl_append]
    show (cpu.store s).storeAll stores = _
    rw [ih, store_eq]
    rfl

end Cpu

/-- **Memory is one store.** Bytes and images may be written in any order. Then each address holds what was written last
to it, or what it held; the two bytes of the stack pointer are what was written last to their ports, or what they were;
and nothing else of the processor has changed. The three regions are as if each of them had been written to at the
offsets of its own addresses; they keep their sizes, each address has a place in one of them, where it is read, and no
place belongs to none or to two. An image that ends in memory is written byte by byte, from its origin on; one that does
not is rejected, and changes nothing. -/
theorem store_is_flat (cpu : Cpu) (stores : List Cpu.Store) :
    let last := cpu.storeAll stores
    let writes := Cpu.written stores
    (∀ address, last.read address = (lastAt writes address).getD (cpu.read address)) ∧
    last = { cpu with
      memory := last.memory
      registers := { cpu.registers with
        spLow := (lastAt writes 0xFF08).getD cpu.registers.spLow
        spHigh := (lastAt writes 0xFF09).getD cpu.registers.spHigh } } ∧
    (∀ r, last.memory.region r = writes.foldl r.update (cpu.memory.region r) ∧
      (last.memory.region r).length = r.size ∧ ∀ n, n < r.size → ∃! address, Region.of address = (r, n)) ∧
    (∀ address, (Region.of address).2 < (Region.of address).1.size ∧
      (last.memory.region (Region.of address).1)[(Region.of address).2]? = some (last.read address)) ∧
    ∀ origin bytes,
      if origin.toNat + bytes.length ≤ 0x10000 then
        last.load origin bytes = .ok (last.writeEach (Cpu.placed origin bytes)) ∧
          (Cpu.placed origin bytes).map (·.1.toNat) = List.range' origin.toNat bytes.length ∧
          (Cpu.placed origin bytes).map (·.2) = bytes
      else last.load origin bytes = .error ⟨origin, bytes.length⟩ ∧ last.store (.image origin bytes) = last := by
  intro last writes
  have heach : last = cpu.writeEach writes := cpu.storeAll_eq stores
  refine ⟨?_, ?_, ?_, ?_, ?_⟩
  · rw [heach]
    exact cpu.read_writeEach writes
  · rw [heach]
    exact cpu.writeEach_eq writes
  · intro r
    refine ⟨?_, last.memory.length_region r, fun n hn => Region.existsUnique_of hn⟩
    rw [heach]
    exact cpu.region_writeEach writes r
  · exact fun address => ⟨Region.of_lt address, last.memory.getElem?_region address⟩
  · intro origin bytes
    split
    · rename_i hfits
      rw [Cpu.load_eq, if_pos hfits]
      exact ⟨rfl, Cpu.map_toNat_placed hfits, Cpu.map_snd_placed origin bytes⟩
    · rename_i hlarge
      have hload : last.load origin bytes = .error ⟨origin, bytes.length⟩ := by rw [Cpu.load_eq, if_neg hlarge]
      refine ⟨hload, ?_⟩
      rw [Cpu.store, hload]
      rfl

end Octet
