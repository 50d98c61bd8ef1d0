import Octet.Proofs.Machine.Phases
/-!
Where micro-operations write, and where `PC` points after them.

* `MicroOp.target?`: the address that a micro-operation writes to;
* `Cpu.Jumps`: a micro-operation moves `PC`;
* `read_execute`, `pc_execute`: nothing else does;
* `target?_of_not_last`: an operation writes once, at its end;
* `read_writeMany`: what stands in memory after an image has been written.
-/

namespace Octet

/-- The address that a micro-operation writes to, if it writes to memory. -/
def MicroOp.target? (op : MicroOp) (regs : Registers) : Option UInt16 :=
  match op with
  | storePointer => some regs.pointer
  | storeAbsolute => some regs.operandAddress
  | push => some regs.sp
  | _ => none

namespace Cpu

variable {cpu : Cpu} {op : MicroOp} {address : UInt16}

/-- A micro-operation is a jump that is taken. -/
def Jumps (cpu : Cpu) (op : MicroOp) : Prop := op = .jumpIfNotZero ∧ cpu.source cpu.registers.arg1 ≠ 0

/-! ## Micro-operations -/

theorem memory_writeCode (cpu : Cpu) (code v : UInt8) : (cpu.writeCode code v).memory = cpu.memory := by
  unfold writeCode
  split <;> rfl

theorem pc_writeCode (cpu : Cpu) (code v : UInt8) : (cpu.writeCode code v).registers.pc = cpu.registers.pc := by
  unfold writeCode
  split <;> rfl

theorem pc_write (cpu : Cpu) (address : UInt16) (v : UInt8) :
    (cpu.write address v).registers.pc = cpu.registers.pc := by
  unfold write
  dsimp only
  split <;> rfl

theorem read_write_of_ne (cpu : Cpu) {target : UInt16} (v : UInt8) (h : target ≠ address) :
    (cpu.write target v).read address = cpu.read address :=
  cpu.memory.read_write_of_ne v h

/-- **A micro-operation writes to its target only.** -/
theorem read_execute (h : address ∉ op.target? cpu.registers) : (cpu.execute op).read address = cpu.read address := by
  have hcode (cpu : Cpu) (code v : UInt8) : (cpu.writeCode code v).read address = cpu.read address := by
    rw [read, memory_writeCode, read]
  cases op with
  | loadPointer | loadAbsolute | loadConstant | move => exact hcode _ _ _
  | loadAddress | compareFlags => rfl
  | storePointer | storeAbsolute => exact read_write_of_ne cpu _ fun he => h (congrArg some he)
  | push => exact read_write_of_ne cpu _ fun he => h (congrArg some he)
  | pop => exact hcode { cpu with registers := { cpu.registers with spLow := cpu.registers.spLow + 1 } } _ _
  | alu mode =>
    unfold execute
    dsimp only
    split
    · rfl
    · exact hcode { cpu with registers := cpu.registers.setFlags _ } _ _
  | jumpIfNotZero =>
    unfold execute
    dsimp only
    split <;> rfl

theorem memory_execute_of_none (h : op.target? cpu.registers = none) : (cpu.execute op).memory = cpu.memory := by
  refine Memory.ext_read fun address => ?_
  have hnot : address ∉ op.target? cpu.registers := by
    rw [h]
    exact Option.not_mem_none address
  exact read_execute hnot

theorem exists_memory_execute (h : op.target? cpu.registers = some address) :
    ∃ v, (cpu.execute op).memory = cpu.memory.write address v := by
  cases op with
  | storePointer | storeAbsolute | push =>
    cases h
    exact ⟨_, rfl⟩
  | loadPointer | loadAbsolute | loadAddress | loadConstant | move | alu | compareFlags | jumpIfNotZero | pop => cases h

/-- **No micro-operation but the last one of an operation writes to memory.** -/
theorem target?_of_not_last {operation : Opcode} {index : Nat} (h : operation.microcode[index]? = some op)
    (hmore : index + 1 < operation.microcode.length) (regs : Registers) : op.target? regs = none := by
  cases operation with
  | add | adc =>
    have hzero : index = 0 := Nat.lt_one_iff.1 (Nat.lt_of_succ_lt_succ hmore)
    subst hzero
    cases h
    rfl
  | lw | sw | lda | lc | or | nor | and | jnz | mw | ldf | lwa | swa | push | pop =>
    exact absurd (Nat.lt_of_succ_lt_succ hmore) (Nat.not_lt_zero index)

/-- A jump that is taken leads to `H:L`. -/
theorem pc_execute_of_jumps (h : cpu.Jumps op) : (cpu.execute op).registers.pc = cpu.registers.pointer := by
  obtain ⟨rfl, h⟩ := h
  unfold execute
  dsimp only
  rw [if_neg h]
  rfl

/-- Nothing but a jump that is taken moves `PC`. -/
theorem pc_execute_of_not_jumps (h : ¬ cpu.Jumps op) : (cpu.execute op).registers.pc = cpu.registers.pc := by
  cases op with
  | loadPointer | loadAbsolute | loadConstant | move => exact pc_writeCode _ _ _
  | loadAddress | compareFlags => rfl
  | storePointer | storeAbsolute => exact pc_write _ _ _
  | push => exact pc_write _ _ _
  | pop => exact pc_writeCode { cpu with registers := { cpu.registers with spLow := cpu.registers.spLow + 1 } } _ _
  | alu mode =>
    unfold execute
    dsimp only
    split
    · rfl
    · exact pc_writeCode { cpu with registers := cpu.registers.setFlags _ } _ _
  | jumpIfNotZero =>
    have hzero : cpu.source cpu.registers.arg1 = 0 := not_not.1 fun hne => h ⟨rfl, hne⟩
    unfold execute
    dsimp only
    rw [if_pos hzero]

/-! ## Images -/

theorem phase_writeMany (cpu : Cpu) (origin : UInt16) (bytes : List UInt8) :
    (cpu.writeMany origin bytes).phase = cpu.phase := by
  induction bytes generalizing cpu origin with
  | nil => rfl
  | cons b bytes ih => exact ih _ _

/-- Addresses from an origin on are in order as long as they do not wrap. -/
theorem toNat_add_ofNat {origin : UInt16} {k : Nat} (h : origin.toNat + k < 0x10000) :
    (origin + UInt16.ofNat k).toNat = origin.toNat + k := by
  rw [UInt16.toNat_add, UInt16.toNat_ofNat', Nat.mod_eq_of_lt (show k < 2 ^ 16 by omega)]
  exact Nat.mod_eq_of_lt h

theorem add_one_add_ofNat (origin : UInt16) (k : Nat) :
    origin + 1 + UInt16.ofNat k = origin + UInt16.ofNat (k + 1) := by
  rw [UInt16.ofNat_add, UInt16.add_assoc, UInt16.add_comm 1]
  rfl

theorem read_writeMany_of_ne {origin : UInt16} {bytes : List UInt8}
    (h : ∀ k, k < bytes.length → origin + UInt16.ofNat k ≠ address) :
    (cpu.writeMany origin bytes).read address = cpu.read address := by
  induction bytes generalizing cpu origin with
  | nil => rfl
  | cons b bytes ih =>
    have hrest : ∀ k, k < bytes.length → origin + 1 + UInt16.ofNat k ≠ address := by
      intro k hk
      rw [add_one_add_ofNat]
      exact h (k + 1) (Nat.succ_lt_succ hk)
    have hfirst : origin ≠ address := by simpa using h 0 (Nat.succ_pos _)
    rw [writeMany, ih hrest, read_write_of_ne cpu b hfirst]

/-- **An image stands in memory where it was written.** -/
theorem read_writeMany {origin : UInt16} {bytes : List UInt8} (hfits : origin.toNat + bytes.length ≤ 0x10000) {k : Nat}
    {b : UInt8} (hk : bytes[k]? = some b) : (cpu.writeMany origin bytes).read (origin + UInt16.ofNat k) = b := by
  induction bytes generalizing cpu origin k with
  | nil => cases hk
  | cons first bytes ih =>
    rw [List.length_cons] at hfits
    cases k with
    | zero =>
      cases hk
      have hne : ∀ n, n < bytes.length → origin + 1 + UInt16.ofNat n ≠ origin := by
        intro n hn heq
        have hlt : origin.toNat + (n + 1) < 0x10000 := by omega
        have := congrArg UInt16.toNat heq
        rw [add_one_add_ofNat, toNat_add_ofNat hlt] at this
        omega
      rw [writeMany, show origin + UInt16.ofNat 0 = origin from UInt16.add_zero origin, read_writeMany_of_ne hne]
      exact cpu.memory.read_write_self origin b
    | succ k =>
      rw [List.getElem?_cons_succ] at hk
      have hpos : 0 < bytes.length := Nat.zero_lt_of_lt (List.getElem?_eq_some_iff.1 hk).1
      have hnext : (origin + 1).toNat = origin.toNat + 1 := toNat_add_ofNat (k := 1) (by omega)
      rw [writeMany, ← add_one_add_ofNat]
      exact ih (by omega) hk

end Cpu

end Octet
