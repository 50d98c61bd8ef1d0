import Octet.Proofs.Isa.Codec
import Octet.Proofs.Machine.Reference
/-!
What the micro-operations of an instruction do together.

* `Cpu.machine_microcode`: they have the effect that the instruction table gives;
* `Cpu.anomalies_microcode`: none of them meets a code that names no register;
* `Cpu.Keeps`: they leave the fetched bytes alone.
-/

namespace Octet

namespace RegisterFile

theorem set_get_self (file : RegisterFile) (r : Register) : file.set r (file.get r) = file := by cases r <;> rfl

end RegisterFile

namespace Cpu

variable {cpu : Cpu}

/-! ## Operands -/

theorem readCode_code (cpu : Cpu) (r : Register) : cpu.readCode r.code = cpu.machine.get r := by
  rw [readCode, Register.ofCode?_code]
  rfl

theorem writeCode_code (cpu : Cpu) (r : Register) (v : UInt8) : cpu.writeCode r.code v = cpu.set r v := by
  rw [writeCode, Register.ofCode?_code]

/-- A source operand has the value that its byte and the immediate bit say. -/
theorem source_byte {s : Source} {op : Opcode} (h : cpu.registers.ir = s.mark op) :
    cpu.source s.byte = cpu.machine.value s := by
  have hi : cpu.isImmediate = s.isImmediate := by
    rw [isImmediate, h, Bool.eq_iff_iff, decide_eq_true_iff]
    exact Source.mark_and_immediateBit s op
  rw [source, hi]
  cases s with
  | reg r => exact cpu.readCode_code r
  | imm v => rfl

theorem packedCode_eq {r : Register} {op : Opcode} (h : cpu.registers.ir = op.number ||| (r.code <<< 4)) :
    cpu.packedCode = r.code := by
  rw [packedCode, h, Opcode.shiftRight_packed]
  cases r <;> decide

theorem machine_write (cpu : Cpu) (address : UInt16) (v : UInt8) :
    (cpu.write address v).machine = cpu.machine.store address v := by
  by_cases hl : address = 0xFF08
  · subst hl; rfl
  · by_cases hh : address = 0xFF09
    · subst hh; rfl
    · have hnone : StackPort.of? address = none := by
        simp [StackPort.of?, StackPort.address, hl, hh]
      simp only [machine, write, hnone, Machine.store, if_neg hl, if_neg hh]

theorem machine_set (cpu : Cpu) (r : Register) (v : UInt8) : (cpu.set r v).machine = cpu.machine.set r v := rfl

/-! ## What micro-operations leave alone -/

/-- The bytes that were fetched are the same, and so is whether there are three of them. -/
structure Keeps (cpu cpu' : Cpu) : Prop where
  fetched : cpu'.registers.fetched = cpu.registers.fetched
  second : cpu'.hasSecondByte = cpu.hasSecondByte

namespace Keeps

theorem refl (cpu : Cpu) : cpu.Keeps cpu := ⟨rfl, rfl⟩

theorem trans {cpu' cpu'' : Cpu} (h : cpu.Keeps cpu') (h' : cpu'.Keeps cpu'') : cpu.Keeps cpu'' :=
  ⟨h'.fetched.trans h.fetched, h'.second.trans h.second⟩

theorem set (cpu : Cpu) (r : Register) (v : UInt8) : cpu.Keeps (cpu.set r v) := ⟨rfl, rfl⟩

theorem writeCode (cpu : Cpu) (code v : UInt8) : cpu.Keeps (cpu.writeCode code v) := by
  unfold Cpu.writeCode
  split
  · exact set cpu _ v
  · exact refl cpu

theorem write (cpu : Cpu) (address : UInt16) (v : UInt8) : cpu.Keeps (cpu.write address v) := by
  unfold Cpu.write
  refine ⟨?_, rfl⟩
  split <;> rfl

theorem execute (cpu : Cpu) (op : MicroOp) : cpu.Keeps (cpu.execute op) := by
  cases op with
  | loadPointer | loadAbsolute | loadConstant | move => exact writeCode cpu _ _
  | storePointer | storeAbsolute => exact write cpu _ _
  | loadAddress => exact (set cpu .h _).trans (set _ .l _)
  | compareFlags => exact ⟨rfl, rfl⟩
  | alu mode =>
    unfold Cpu.execute
    dsimp only
    have hflags (flags : Flags) : cpu.Keeps { cpu with registers := cpu.registers.setFlags flags } := ⟨rfl, rfl⟩
    split
    · exact hflags _
    · exact (hflags _).trans (writeCode _ _ _)
  | jumpIfNotZero =>
    unfold Cpu.execute
    dsimp only
    split
    · exact refl cpu
    · exact ⟨rfl, rfl⟩
  | push =>
    have hwrite := write cpu cpu.registers.sp (cpu.source cpu.registers.arg1)
    exact ⟨hwrite.fetched, hwrite.second⟩
  | pop =>
    have hsp : cpu.Keeps { cpu with registers := { cpu.registers with spLow := cpu.registers.spLow + 1 } } := ⟨rfl, rfl⟩
    exact hsp.trans (writeCode _ _ _)

end Keeps

/-! ## The arithmetic unit -/

theorem bits_compareBytes (left right : UInt8) : (compareBytes left right).bits = Machine.comparison left right := by
  unfold compareBytes Machine.comparison
  by_cases hgt : right < left
  · rw [if_pos hgt, if_pos hgt]; rfl
  · rw [if_neg hgt, if_neg hgt]
    by_cases hlt : left < right
    · rw [if_pos hlt, if_neg (UInt8.ne_of_lt hlt)]; rfl
    · rw [if_neg hlt, if_pos (UInt8.le_antisymm (UInt8.not_lt.1 hgt) (UInt8.not_lt.1 hlt))]; rfl

/-- The carry flag as a number. -/
theorem carry_eq (flags : Flags) : (if flags.contains .carry then 1 else 0) = (flags.bits &&& 0x01).toNat := by
  obtain ⟨bits⟩ := flags
  exact forall_byte (P := fun bits => (if (Flags.mk bits).contains .carry then 1 else 0) = (bits &&& 0x01).toNat)
    (by decide +kernel) bits

section
variable {op : Opcode} {r : Register} {s : Source} (hir : cpu.registers.ir = s.mark op)
  (h₁ : cpu.registers.arg1 = r.code) (h₂ : cpu.registers.arg2 = s.byte)
include hir h₁ h₂

/-- Operations that change no flag write their result only. -/
theorem machine_alu_of_flags {mode : AluMode} {result : UInt8} (hm : mode ≠ .compare)
    (h : mode.apply (cpu.machine.get r) (cpu.machine.value s) cpu.registers.flags = (result, cpu.registers.flags)) :
    (cpu.execute (.alu mode)).machine = cpu.machine.set r result := by
  have hflags : cpu.registers.setFlags cpu.registers.flags = cpu.registers := by
    rw [Registers.setFlags, Registers.set, Registers.flags, Registers.get, RegisterFile.set_get_self]
  simp only [execute, h₁, h₂, readCode_code, source_byte hir, h, if_neg hm, writeCode_code, machine_set, hflags]

theorem machine_compare :
    (cpu.execute (.alu .compare)).machine =
      cpu.machine.set .f (Machine.comparison (cpu.machine.get r) (cpu.machine.value s)) := by
  simp only [execute, h₁, h₂, readCode_code, source_byte hir, AluMode.apply, if_pos, Registers.setFlags,
    bits_compareBytes]
  rfl

/-- A comparison adds its flag to those that are set. -/
theorem machine_compareFlags :
    (cpu.execute .compareFlags).machine =
      cpu.machine.raise (Machine.comparison (cpu.machine.get r) (cpu.machine.value s)) := by
  simp only [execute, h₁, h₂, readCode_code, source_byte hir, Registers.setFlags, Flags.union, bits_compareBytes]
  rfl

/-- An addition raises the carry, writes the sum, and raises the comparison of what the operands are then. -/
theorem machine_addition {mode : AluMode} {carryIn : Nat} (hm : mode ≠ .compare)
    (h : mode.apply (cpu.machine.get r) (cpu.machine.value s) cpu.registers.flags =
      addBytes (cpu.machine.get r) (cpu.machine.value s) carryIn cpu.registers.flags) :
    ((cpu.execute (.alu mode)).execute .compareFlags).machine = cpu.machine.addition r s carryIn := by
  let sum := (cpu.machine.get r).toNat + (cpu.machine.value s).toNat + carryIn
  have hfirst : (cpu.execute (.alu mode)).machine =
      (cpu.machine.raise (if 0xFF < sum then 0x01 else 0x00)).set r (UInt8.ofNat sum) := by
    simp only [execute, h₁, h₂, readCode_code, source_byte hir, h, if_neg hm, writeCode_code, machine_set, addBytes]
    refine congrArg (fun m : Machine => m.set r _) ?_
    split
    · rfl
    · show { cpu with registers := cpu.registers.setFlags cpu.registers.flags }.machine = cpu.machine.raise 0x00
      rw [Registers.setFlags, Machine.raise, UInt8.or_zero]
      rfl
  -- the comparison finds the same operand bytes, but reads the registers that the addition has written
  have hkeeps := (Keeps.execute cpu (.alu mode)).fetched
  simp only [Registers.fetched, List.cons.injEq, and_true] at hkeeps
  obtain ⟨kir, k₁, k₂⟩ := hkeeps
  rw [machine_compareFlags (kir.trans hir) (k₁.trans h₁) (k₂.trans h₂), hfirst]
  rfl

end

/-! ## Instructions -/

/-- The operand bytes of the instruction that is held. -/
theorem code_prefix {i : Instruction} (h : cpu.currentInstruction = .ok i) :
    i.Valid ∧ i.operands.bytes i.op <+: [cpu.registers.ir, cpu.registers.arg1, cpu.registers.arg2] :=
  Instruction.decode_eq_ok_iff.1 h

/-- Writing to the register that an operand byte names. -/
theorem machine_writeCode {code : UInt8} {r : Register} (h : r.code = code) (v : UInt8) :
    (cpu.writeCode code v).machine = cpu.machine.set r v := by
  rw [← h, writeCode_code]
  rfl

/-- A jump goes to `H:L` unless its source is zero. -/
theorem machine_jump {s : Source} (h : cpu.source cpu.registers.arg1 = cpu.machine.value s) :
    (cpu.execute .jumpIfNotZero).machine =
      if cpu.machine.value s ≠ 0 then { cpu.machine with pc := cpu.machine.pointer } else cpu.machine := by
  show (if cpu.source cpu.registers.arg1 = 0 then cpu else cpu.setPc cpu.registers.pointer).machine = _
  rw [h]
  by_cases hzero : cpu.machine.value s = 0
  · rw [if_pos hzero, if_neg (not_not.2 hzero)]
  · rw [if_neg hzero, if_pos hzero]
    rfl

/-- A push stores at the stack pointer first, which may change the stack pointer. -/
theorem machine_push {s : Source} (h : cpu.source cpu.registers.arg1 = cpu.machine.value s) :
    (cpu.execute .push).machine =
      { cpu.machine.store cpu.machine.sp (cpu.machine.value s) with
        spLow := (cpu.machine.store cpu.machine.sp (cpu.machine.value s)).spLow - 1 } := by
  let stored := (cpu.write cpu.registers.sp (cpu.source cpu.registers.arg1)).machine
  show { stored with spLow := stored.spLow - 1 } = _
  simp only [stored, h, machine_write]
  rfl

/-- **The micro-operations of an instruction have its effect.** -/
theorem machine_microcode {i : Instruction} (h : cpu.currentInstruction = .ok i) :
    (i.op.microcode.foldl Cpu.execute cpu).machine = cpu.machine.perform i := by
  obtain ⟨hv, hp⟩ := code_prefix h
  obtain ⟨op, o⟩ := i
  simp only [Instruction.Valid] at hv
  -- The operands are of the shape of the operation, which leaves few operations for each of their forms.
  cases o with
  | reg r =>
    simp only [Operands.bytes, List.cons_prefix_cons] at hp
    obtain ⟨-, h₁, -⟩ := hp
    cases op <;> cases hv
    · exact machine_writeCode h₁ _
    · exact machine_writeCode h₁ _
  | source s =>
    simp only [Operands.bytes, List.cons_prefix_cons] at hp
    obtain ⟨hir, h₁, -⟩ := hp
    have hs : cpu.source cpu.registers.arg1 = cpu.machine.value s := h₁ ▸ source_byte hir.symm
    cases op <;> cases hv
    · show (cpu.write _ (cpu.source cpu.registers.arg1)).machine = _
      rw [hs, machine_write]
      rfl
    · exact machine_jump hs
    · exact machine_push hs
  | address hi lo =>
    simp only [Operands.bytes, List.cons_prefix_cons] at hp
    obtain ⟨-, h₁, h₂, -⟩ := hp
    cases op <;> cases hv
    show ((cpu.set .h cpu.registers.arg1).set .l cpu.registers.arg2).machine = _
    rw [← h₁, ← h₂]
    rfl
  | regImm r v =>
    simp only [Operands.bytes, List.cons_prefix_cons] at hp
    obtain ⟨-, h₁, rfl, -⟩ := hp
    cases op <;> cases hv
    exact machine_writeCode h₁ _
  | regSource r s =>
    simp only [Operands.bytes, List.cons_prefix_cons] at hp
    obtain ⟨hir, h₁, h₂, -⟩ := hp
    cases op <;> cases hv
    · exact machine_addition hir.symm h₁.symm h₂.symm (by decide) rfl
    · show (cpu.execute (.alu .or)).machine = _
      exact machine_alu_of_flags hir.symm h₁.symm h₂.symm (by simp) rfl
    · show (cpu.execute (.alu .nor)).machine = _
      exact machine_alu_of_flags hir.symm h₁.symm h₂.symm (by simp) rfl
    · show (cpu.execute (.alu .and)).machine = _
      exact machine_alu_of_flags hir.symm h₁.symm h₂.symm (by simp) rfl
    · exact machine_compare hir.symm h₁.symm h₂.symm
    · refine machine_addition hir.symm h₁.symm h₂.symm (by decide) ?_
      rw [AluMode.apply, carry_eq]
      rfl
  | regReg dest src =>
    simp only [Operands.bytes, List.cons_prefix_cons] at hp
    obtain ⟨-, h₁, h₂, -⟩ := hp
    cases op <;> cases hv
    show (cpu.writeCode cpu.registers.arg1 (cpu.readCode cpu.registers.arg2)).machine = _
    rw [← h₂, readCode_code]
    exact machine_writeCode h₁ _
  | packedReg r hi lo =>
    simp only [Operands.bytes, List.cons_prefix_cons] at hp
    obtain ⟨hir, h₁, h₂, -⟩ := hp
    have hr := packedCode_eq hir.symm
    have ha : cpu.registers.operandAddress = wordOf hi lo := by rw [Registers.operandAddress, ← h₁, ← h₂]
    cases op <;> cases hv
    · show (cpu.writeCode cpu.packedCode (cpu.read cpu.registers.operandAddress)).machine = _
      rw [ha]
      exact machine_writeCode hr.symm _
    · show (cpu.write cpu.registers.operandAddress (cpu.readCode cpu.packedCode)).machine = _
      rw [hr, ha, readCode_code, machine_write]
      rfl

/-! ## Anomalies -/

/-- The code of a source operand is that of a register, if there is one. -/
theorem codes_source {regs : Registers} {s : Source} {op : Opcode} (h : regs.ir = s.mark op) :
    ∀ code ∈ (if regs.ir &&& immediateBit ≠ 0 then [] else [s.byte] : List UInt8), ∃ r : Register, code = r.code := by
  rw [h]
  simp only [Source.mark_and_immediateBit]
  cases s with
  | reg r => exact List.forall_mem_singleton.2 ⟨r, rfl⟩
  | imm v => exact List.forall_mem_nil _

/-- An instruction that is held names registers only. -/
theorem codes_microcode {i : Instruction} (h : cpu.currentInstruction = .ok i) {op : MicroOp}
    (ho : op ∈ i.op.microcode) : ∀ code ∈ op.codes cpu.registers, ∃ r : Register, code = r.code := by
  obtain ⟨hv, hp⟩ := code_prefix h
  obtain ⟨opcode, o⟩ := i
  simp only [Instruction.Valid] at hv
  cases o with
  | reg r =>
    simp only [Operands.bytes, List.cons_prefix_cons] at hp
    obtain ⟨-, h₁, -⟩ := hp
    cases opcode <;> cases hv <;> obtain rfl := List.mem_singleton.1 ho <;>
      exact List.forall_mem_singleton.2 ⟨r, h₁.symm⟩
  | source s =>
    simp only [Operands.bytes, List.cons_prefix_cons] at hp
    obtain ⟨hir, h₁, -⟩ := hp
    have hs := codes_source hir.symm
    rw [h₁] at hs
    cases opcode <;> cases hv <;> obtain rfl := List.mem_singleton.1 ho <;> exact hs
  | address hi lo =>
    cases opcode <;> cases hv
    obtain rfl := List.mem_singleton.1 ho
    exact List.forall_mem_nil _
  | regImm r v =>
    simp only [Operands.bytes, List.cons_prefix_cons] at hp
    obtain ⟨-, h₁, -⟩ := hp
    cases opcode <;> cases hv
    obtain rfl := List.mem_singleton.1 ho
    exact List.forall_mem_singleton.2 ⟨r, h₁.symm⟩
  | regSource r s =>
    simp only [Operands.bytes, List.cons_prefix_cons] at hp
    obtain ⟨hir, h₁, h₂, -⟩ := hp
    have hs := codes_source hir.symm
    rw [h₂] at hs
    have hread := List.forall_mem_cons.2 ⟨⟨r, h₁.symm⟩, hs⟩
    have hwritten := List.forall_mem_append.2 ⟨hread, List.forall_mem_singleton.2 ⟨r, h₁.symm⟩⟩
    cases opcode <;> cases hv
    · rcases List.mem_pair.1 ho with rfl | rfl
      · exact hwritten
      · exact hread
    · obtain rfl := List.mem_singleton.1 ho
      exact hwritten
    · obtain rfl := List.mem_singleton.1 ho
      exact hwritten
    · obtain rfl := List.mem_singleton.1 ho
      exact hwritten
    · obtain rfl := List.mem_singleton.1 ho
      exact hread
    · rcases List.mem_pair.1 ho with rfl | rfl
      · exact hwritten
      · exact hread
  | regReg dest src =>
    simp only [Operands.bytes, List.cons_prefix_cons] at hp
    obtain ⟨-, h₁, h₂, -⟩ := hp
    cases opcode <;> cases hv
    obtain rfl := List.mem_singleton.1 ho
    exact List.forall_mem_cons.2 ⟨⟨src, h₂.symm⟩, List.forall_mem_singleton.2 ⟨dest, h₁.symm⟩⟩
  | packedReg r hi lo =>
    cases opcode <;> cases hv <;> obtain rfl := List.mem_singleton.1 ho <;> exact List.forall_mem_nil _

/-- **An instruction that is held meets no anomaly.** -/
theorem anomalies_microcode {i : Instruction} (h : cpu.currentInstruction = .ok i) {op : MicroOp}
    (ho : op ∈ i.op.microcode) : op.anomalies cpu.registers = [] := by
  unfold MicroOp.anomalies
  rw [List.map_eq_nil_iff, List.filter_eq_nil_iff]
  intro code hcode
  obtain ⟨r, rfl⟩ := codes_microcode h ho code hcode
  simp

end Cpu

end Octet
