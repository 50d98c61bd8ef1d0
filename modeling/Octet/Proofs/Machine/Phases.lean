import Octet.Machine.Step
import Octet.Proofs.Machine.Effects
/-!
The phases of one instruction, without a device.

* `Cpu.Fetches`: some bytes of an instruction have been fetched;
* `Cpu.Executes`: all have been, and some micro-operations have run;
* `Fetches.step`, `Executes.step`: what one phase does then.
-/

namespace Octet

variable {σ : Type}

namespace Instruction

theorem length_eq (i : Instruction) : i.length = if i.op.shape.hasSecondByte then 3 else 2 := rfl

theorem length_eq_two_or_three (i : Instruction) : i.length = 2 ∨ i.length = 3 := by
  rw [length_eq]
  split
  · exact .inr rfl
  · exact .inl rfl

theorem microcode_ne_nil (i : Instruction) : i.op.microcode ≠ [] := by
  cases i.op <;> exact List.cons_ne_nil _ _

/-- The first byte decides the operation. -/
theorem ofByte_of_code {i : Instruction} (hv : i.Valid) {first : UInt8} (h : i.code[0]? = some first) :
    Opcode.ofByte first = i.op := by
  obtain ⟨byte, rest, hcode, hop, -⟩ := exists_code_eq_cons hv
  rw [hcode] at h
  cases h
  exact hop

end Instruction

namespace Cpu

variable {cpu : Cpu} {i : Instruction} {address : UInt16} {p index : Nat}

/-! ## Fetching -/

/-- The first `p` bytes of an instruction that starts at an address have been fetched. -/
structure Fetches (cpu : Cpu) (i : Instruction) (address : UInt16) (p : Nat) : Prop where
  phase : cpu.phase = p
  pc : cpu.registers.pc = address + UInt16.ofNat p
  bytes : cpu.registers.fetched.take p = i.code.take p
  second : 0 < p → cpu.hasSecondByte = i.op.shape.hasSecondByte

/-- Nothing has been fetched before the first phase. -/
theorem Fetches.start (h : cpu.phase = 0) : cpu.Fetches i cpu.registers.pc 0 :=
  ⟨h, (UInt16.add_zero _).symm, rfl, fun h => absurd h (Nat.lt_irrefl 0)⟩

/-- An instruction is held once all its bytes have been fetched. -/
theorem Fetches.currentInstruction (h : cpu.Fetches i address i.length) (hv : i.Valid) :
    cpu.currentInstruction = .ok i := by
  have hcode : i.code.take i.length = i.code := by rw [← Instruction.length_code hv, List.take_length]
  refine Instruction.decode_eq_ok_iff.2 ⟨hv, ?_⟩
  rw [← hcode, ← h.bytes]
  exact List.take_prefix _ _

/-- What a phase that fetches leaves. -/
structure FetchStep (cpu : Cpu) (next : Cpu) (step : Step) : Prop where
  machine : next.machine = { cpu.machine with pc := next.registers.pc }
  microOp : step.microOp = none
  completed : step.completed = false
  anomalies : step.anomalies = []

/-- **One byte more.** -/
theorem Fetches.step (h : cpu.Fetches i address p) (hv : i.Valid) (hp : p < i.length)
    (hb : i.code[p]? = some (cpu.read (address + UInt16.ofNat p))) (world : σ) :
    ∃ next step, cpu.step Device.none world = (world, next, step) ∧ next.Fetches i address (p + 1) ∧
      cpu.FetchStep next step := by
  have hbyte : cpu.fetched = cpu.read (address + UInt16.ofNat p) := by rw [fetched, h.pc]
  have hnext : cpu.registers.pc + 1 = address + UInt16.ofNat (p + 1) := by
    rw [h.pc, UInt16.ofNat_add, UInt16.add_assoc]
    rfl
  have htake : i.code.take (p + 1) = i.code.take p ++ [cpu.fetched] := by
    rw [List.take_add_one, hb, hbyte]
    rfl
  have hphase := h.phase
  have hbytes := h.bytes
  match p, hphase with
  | 0, hphase =>
    have hop : Opcode.ofByte cpu.fetched = i.op := Instruction.ofByte_of_code hv (hbyte ▸ hb)
    have hstep : cpu.step Device.none world = startInstruction Device.none world cpu := by rw [Cpu.step, hphase]
    have hdevice : (if cpu.read watchedPort ≠ cpu.watched then Device.none world cpu else (world, cpu, [])) =
        (world, cpu, ([] : List PortReport)) := ite_self _
    rw [startInstruction, hdevice] at hstep
    exact ⟨_, _, hstep, ⟨rfl, hnext, htake.symm, fun _ => by rw [← hop]⟩, rfl, rfl, rfl, rfl⟩
  | 1, hphase =>
    have hstep : cpu.step Device.none world = (world, cpu.fetchFirst, { phase := 1 }) := by rw [Cpu.step, hphase]
    refine ⟨_, _, hstep, ⟨rfl, hnext, ?_, fun _ => h.second Nat.one_pos⟩, rfl, rfl, rfl, rfl⟩
    rw [htake, ← hbytes]
    rfl
  | 2, hphase =>
    have hsecond : cpu.hasSecondByte = true := by
      rw [h.second Nat.two_pos]
      rw [Instruction.length_eq] at hp
      split at hp
      · assumption
      · omega
    have hstep : cpu.step Device.none world = (world, cpu.fetchSecond, { phase := 2 }) := by
      rw [Cpu.step, hphase]
      exact if_pos ⟨rfl, hsecond⟩
    refine ⟨_, _, hstep, ⟨rfl, hnext, ?_, fun _ => h.second Nat.two_pos⟩, rfl, rfl, rfl, rfl⟩
    rw [htake, ← hbytes]
    rfl
  | p + 3, _ =>
    have := i.length_eq_two_or_three
    omega

/-! ## Executing -/

/-- The instruction is held, and the first `index` of its micro-operations have run. -/
structure Executes (cpu : Cpu) (i : Instruction) (index : Nat) : Prop where
  phase : cpu.phase = i.length + index
  second : cpu.hasSecondByte = i.op.shape.hasSecondByte
  held : cpu.currentInstruction = .ok i

theorem Fetches.executes (h : cpu.Fetches i address i.length) (hv : i.Valid) : cpu.Executes i 0 :=
  ⟨h.phase, h.second i.length_pos, h.currentInstruction hv⟩

theorem ofByte_ir (h : cpu.currentInstruction = .ok i) : Opcode.ofByte cpu.registers.ir = i.op := by
  obtain ⟨hv, hp⟩ := Instruction.decode_eq_ok_iff.1 h
  obtain ⟨first, rest, hcode, hop, -⟩ := Instruction.exists_code_eq_cons hv
  rw [hcode] at hp
  rw [← hop, (List.cons_prefix_cons.1 hp).1]

/-- What a phase leaves that runs the micro-operation number `index`. -/
structure ExecuteStep (cpu : Cpu) (i : Instruction) (index : Nat) (op : MicroOp) (next : Cpu) (step : Step) : Prop where
  next : next = { cpu.execute op with phase := if index + 1 < i.op.microcode.length then cpu.phase + 1 else 0 }
  microOp : step.microOp = some op
  completed : step.completed = true ↔ index + 1 = i.op.microcode.length
  anomalies : step.anomalies = []

/-- **One micro-operation more.** -/
theorem Executes.step (h : cpu.Executes i index) {op : MicroOp} (ho : i.op.microcode[index]? = some op) (world : σ) :
    ∃ next step, cpu.step Device.none world = (world, next, step) ∧ cpu.ExecuteStep i index op next step := by
  have hfetches : cpu.fetches = i.length := by rw [fetches, h.second, Instruction.length_eq]
  have hindex : cpu.phase - cpu.fetches = index := by rw [h.phase, hfetches, Nat.add_sub_cancel_left]
  have hstep : cpu.step Device.none world = (world, cpu.executePhase.1, cpu.executePhase.2) := by
    obtain ⟨n, hn⟩ := Nat.exists_eq_add_of_le (show 2 ≤ i.length + index by have := i.length_eq_two_or_three; omega)
    have hphase : cpu.phase = n + 2 := by rw [h.phase, hn, Nat.add_comm]
    have hdone : ¬ (n = 0 ∧ cpu.hasSecondByte) := by
      rintro ⟨rfl, hsecond⟩
      rw [Instruction.length_eq, ← h.second, if_pos hsecond] at hn
      omega
    rw [Cpu.step, hphase]
    exact if_neg hdone
  have hlt := (List.getElem?_eq_some_iff.1 ho).1
  have hexecute : cpu.executePhase =
      ({ cpu.execute op with
          phase := if (i.op.microcode.length ≤ index + 1 : Bool) then 0 else cpu.phase + 1 },
        { phase := cpu.phase, microOp := some op, completed := i.op.microcode.length ≤ index + 1
          anomalies := op.anomalies cpu.registers }) := by
    simp only [executePhase, ofByte_ir h.held, hindex, ho]
  rw [hexecute] at hstep
  refine ⟨_, _, hstep, ?_, rfl, ?_, anomalies_microcode h.held (List.mem_of_getElem? ho)⟩
  · by_cases hlast : index + 1 < i.op.microcode.length
    · simp [hlast]
    · simp [hlast, Nat.le_of_not_lt hlast]
  · rw [decide_eq_true_iff]
    exact ⟨fun hle => Nat.le_antisymm hlt hle, fun he => Nat.le_of_eq he.symm⟩

/-- A micro-operation leaves the instruction that is held alone. -/
theorem ExecuteStep.currentInstruction {op : MicroOp} {next : Cpu} {step : Step}
    (hs : cpu.ExecuteStep i index op next step) : next.currentInstruction = cpu.currentInstruction := by
  rw [hs.next, Cpu.currentInstruction, Cpu.currentInstruction]
  exact congrArg Instruction.decode (Keeps.execute cpu op).fetched

/-- An instruction goes on being held while its micro-operations run. -/
theorem Executes.next {op : MicroOp} {next : Cpu} {step : Step} (h : cpu.Executes i index)
    (hs : cpu.ExecuteStep i index op next step) (hlt : index + 1 < i.op.microcode.length) :
    next.Executes i (index + 1) := by
  refine ⟨?_, ?_, hs.currentInstruction.trans h.held⟩
  · rw [← Nat.add_assoc, ← h.phase, hs.next]
    exact if_pos hlt
  · rw [hs.next]
    exact (Keeps.execute cpu op).second.trans h.second

/-- A micro-operation does not look at the phase. -/
theorem execute_setPhase (cpu : Cpu) (op : MicroOp) (phase : Nat) :
    ({ cpu with phase := phase }).execute op = { cpu.execute op with phase := phase } := by
  have hwrite (cpu : Cpu) (code v : UInt8) :
      writeCode { cpu with phase := phase } code v = { cpu.writeCode code v with phase := phase } := by
    unfold writeCode
    split <;> rfl
  cases op with
  | loadPointer | loadAbsolute | loadConstant | move => exact hwrite _ _ _
  | storePointer | storeAbsolute | loadAddress | compareFlags | push => rfl
  | pop => exact hwrite { cpu with registers := { cpu.registers with spLow := cpu.registers.spLow + 1 } } _ _
  | alu mode =>
    unfold execute
    dsimp only
    split
    · rfl
    · exact hwrite { cpu with registers := cpu.registers.setFlags _ } _ _
  | jumpIfNotZero =>
    unfold execute
    dsimp only
    show (if cpu.source cpu.registers.arg1 = 0 then _ else _) = _
    split <;> rfl

end Cpu

end Octet
