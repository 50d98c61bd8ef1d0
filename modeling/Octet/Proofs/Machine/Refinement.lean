import Octet.Proofs.Machine.Phases
/-!
The processor runs phase by phase what the instruction table says instruction by instruction.

* `Cpu.runPhases`: a number of phases, and what happened in them;
* `runPhases_instruction`: the phases of one instruction have its effect;
* `runPhases_of_run`: so do the phases of any number of instructions.
-/

namespace Octet

theorem Machine.fetch_eq_ok {m : Machine} {i : Instruction} (h : m.fetch.toOption = some i) : m.fetch = .ok i := by
  cases hf : m.fetch with
  | error fault => rw [hf] at h; cases h
  | ok found => rw [hf] at h; cases h; rfl

namespace Cpu

variable {σ : Type} {device : Device σ} {world : σ} {cpu : Cpu} {i : Instruction}

/-- Runs a number of phases and collects what happened. -/
def runPhases (device : Device σ) : Nat → σ → Cpu → σ × Cpu × List Step
  | 0, world, cpu => (world, cpu, [])
  | n + 1, world, cpu =>
    let (world, cpu, step) := cpu.step device world
    let (world, cpu, steps) := runPhases device n world cpu
    (world, cpu, step :: steps)

theorem runPhases_succ {n : Nat} {world' world'' : σ} {next last : Cpu} {step : Step} {steps : List Step}
    (h : cpu.step device world = (world', next, step))
    (hrest : runPhases device n world' next = (world'', last, steps)) :
    runPhases device (n + 1) world cpu = (world'', last, step :: steps) := by
  rw [runPhases, h]
  dsimp only
  rw [hrest]

/-- Some phases, and then some more. -/
theorem runPhases_add {m n : Nat} {world' world'' : σ} {next last : Cpu} {steps more : List Step}
    (h : runPhases device m world cpu = (world', next, steps))
    (hrest : runPhases device n world' next = (world'', last, more)) :
    runPhases device (m + n) world cpu = (world'', last, steps ++ more) := by
  induction m generalizing world cpu steps with
  | zero =>
    cases h
    rw [Nat.zero_add]
    exact hrest
  | succ m ih =>
    rcases hs : cpu.step device world with ⟨world₁, cpu₁, step⟩
    rcases hr : runPhases device m world₁ cpu₁ with ⟨world₂, cpu₂, steps'⟩
    rw [runPhases_succ hs hr] at h
    cases h
    rw [Nat.succ_add]
    exact runPhases_succ hs (ih hr)

/-! ## Runs without anomalies -/

/-- Without a device, some phases lead from one state to another, and none of them meets an anomaly. -/
def RunsClean (n : Nat) (world : σ) (cpu next : Cpu) : Prop :=
  ∃ steps, runPhases Device.none n world cpu = (world, next, steps) ∧ ∀ step ∈ steps, step.anomalies = []

namespace RunsClean

variable {m n : Nat} {next last : Cpu}

theorem zero (world : σ) (cpu : Cpu) : RunsClean 0 world cpu cpu := ⟨[], rfl, List.forall_mem_nil _⟩

theorem one {step : Step} (h : cpu.step Device.none world = (world, next, step)) (ha : step.anomalies = []) :
    RunsClean 1 world cpu next :=
  ⟨[step], runPhases_succ h rfl, List.forall_mem_singleton.2 ha⟩

theorem trans (h : RunsClean m world cpu next) (hrest : RunsClean n world next last) :
    RunsClean (m + n) world cpu last := by
  obtain ⟨steps, hs, ha⟩ := h
  obtain ⟨more, hm, hb⟩ := hrest
  exact ⟨steps ++ more, runPhases_add hs hm, List.forall_mem_append.2 ⟨ha, hb⟩⟩

end RunsClean

/-! ## One instruction -/

/-- The bytes of the instruction at `PC`. -/
theorem code_of_fetch (hi : cpu.machine.fetch = .ok i) :
    i.Valid ∧ ∀ p, p < i.length → i.code[p]? = some (cpu.read (cpu.registers.pc + UInt16.ofNat p)) := by
  obtain ⟨hv, hp⟩ := Instruction.decode_eq_ok_iff.1 hi
  refine ⟨hv, fun p hlt => ?_⟩
  have hthree : p < 3 := by have := i.length_eq_two_or_three; omega
  rw [← Instruction.length_code hv] at hlt
  rw [List.getElem?_eq_getElem hlt, hp.getElem hlt]
  simp only [Memory.readMany, List.getElem_map, List.getElem_range]
  rfl

/-- The phases that fetch an instruction move `PC` behind it. -/
theorem exists_fetches (hphase : cpu.phase = 0) (hi : cpu.machine.fetch = .ok i) (world : σ) {p : Nat}
    (hp : p ≤ i.length) :
    ∃ next, RunsClean p world cpu next ∧ next.Fetches i cpu.registers.pc p ∧
      next.machine = { cpu.machine with pc := next.registers.pc } := by
  obtain ⟨hv, hcode⟩ := code_of_fetch hi
  induction p with
  | zero => exact ⟨cpu, .zero world cpu, .start hphase, rfl⟩
  | succ p ih =>
    obtain ⟨next, hrun, hfetches, hmachine⟩ := ih (Nat.le_of_lt hp)
    have hmemory : next.memory = cpu.memory := congrArg Machine.memory hmachine
    have hb : i.code[p]? = some (next.read (cpu.registers.pc + UInt16.ofNat p)) := by
      rw [read, hmemory]
      exact hcode p hp
    obtain ⟨last, step, hstep, hlast, hfs⟩ := hfetches.step hv hp hb world
    refine ⟨last, hrun.trans (.one hstep hfs.anomalies), hlast, ?_⟩
    rw [hfs.machine, hmachine]

theorem getElem?_of_drop {index : Nat} {op : MicroOp} {all ops : List MicroOp} (h : all.drop index = op :: ops) :
    all[index]? = some op ∧ all.drop (index + 1) = ops := by
  refine ⟨?_, ?_⟩
  · rw [← List.head?_drop, h, List.head?_cons]
  · rw [← List.tail_drop, h, List.tail_cons]

theorem machine_foldl_setPhase (ops : List MicroOp) (cpu : Cpu) (phase : Nat) :
    (ops.foldl execute { cpu with phase := phase }).machine = (ops.foldl execute cpu).machine := by
  induction ops generalizing cpu with
  | nil => rfl
  | cons op ops ih =>
    rw [List.foldl_cons, List.foldl_cons, execute_setPhase]
    exact ih _

/-- The phases that are left of an instruction run the micro-operations that are left. -/
theorem exists_executes {index : Nat} {op : MicroOp} {ops : List MicroOp} (h : cpu.Executes i index)
    (hops : i.op.microcode.drop index = op :: ops) (world : σ) :
    ∃ next, RunsClean (1 + ops.length) world cpu next ∧ next.phase = 0 ∧
      next.machine = ((op :: ops).foldl execute cpu).machine := by
  -- on the micro-operations behind the one that is due: with none of them the instruction ends
  induction ops generalizing cpu index op with
  | nil =>
    obtain ⟨ho, hrest⟩ := getElem?_of_drop hops
    have hlast : ¬ index + 1 < i.op.microcode.length := Nat.not_lt.2 (List.drop_eq_nil_iff.1 hrest)
    obtain ⟨next, step, hstep, hs⟩ := h.step ho world
    refine ⟨next, .one hstep hs.anomalies, ?_, ?_⟩
    · rw [hs.next]
      exact if_neg hlast
    · rw [hs.next]
      exact machine_foldl_setPhase [] _ _
  | cons op' ops ih =>
    obtain ⟨ho, hrest⟩ := getElem?_of_drop hops
    have hlt : index + 1 < i.op.microcode.length := by
      refine Nat.lt_of_not_le fun hle => ?_
      rw [List.drop_eq_nil_of_le hle] at hrest
      cases hrest
    obtain ⟨next, step, hstep, hs⟩ := h.step ho world
    obtain ⟨last, hruns, hphase, hmachine⟩ := ih (h.next hs hlt) hrest
    refine ⟨last, ?_, hphase, ?_⟩
    · rw [List.length_cons, Nat.add_comm ops.length]
      exact .trans (.one hstep hs.anomalies) hruns
    · rw [hmachine, hs.next]
      exact machine_foldl_setPhase (op' :: ops) _ _

/-- **The phases of an instruction have its effect.** -/
theorem runPhases_instruction (hphase : cpu.phase = 0) (hi : cpu.machine.fetch = .ok i) (world : σ) :
    ∃ next, RunsClean i.op.cycles world cpu next ∧ next.phase = 0 ∧ next.machine = cpu.machine.execute i := by
  obtain ⟨hv, -⟩ := code_of_fetch hi
  obtain ⟨held, hfetch, hfetches, hmachine⟩ := exists_fetches hphase hi world (Nat.le_refl _)
  obtain ⟨op, ops, hops⟩ := List.exists_cons_of_ne_nil i.microcode_ne_nil
  obtain ⟨next, hexecute, hnext, heffect⟩ := exists_executes (hfetches.executes hv) hops world
  have hcycles : i.op.cycles = i.length + (1 + ops.length) := by
    rw [Opcode.cycles, hops, List.length_cons, Nat.add_comm ops.length]
    rfl
  refine ⟨next, hcycles ▸ hfetch.trans hexecute, hnext, ?_⟩
  rw [heffect, ← hops, machine_microcode (hfetches.currentInstruction hv), hmachine, hfetches.pc]
  rfl

/-! ## Any number of instructions -/

/-- **The processor refines the machine of the instruction table.** If the first `n` instructions from a state on can
be decoded, they take as many phases as their cycles say; then the registers, `PC`, the stack pointer and the memory are
what the instructions make of them, the next phase starts an instruction, and there was no anomaly. -/
theorem runPhases_of_run {n : Nat} {program : List Instruction} {last : Machine} (hphase : cpu.phase = 0)
    (hrun : cpu.machine.run? n = some (program, last)) (world : σ) :
    ∃ next steps, runPhases Device.none (program.map (·.op.cycles)).sum world cpu = (world, next, steps) ∧
      next.machine = last ∧ next.phase = 0 ∧ ∀ step ∈ steps, step.anomalies = [] := by
  suffices h : ∃ next, RunsClean (program.map (·.op.cycles)).sum world cpu next ∧ next.machine = last ∧ next.phase = 0 by
    obtain ⟨next, ⟨steps, hsteps, hanomalies⟩, hmachine, hnext⟩ := h
    exact ⟨next, steps, hsteps, hmachine, hnext, hanomalies⟩
  -- on the number of instructions; the state after the first one starts the others
  induction n generalizing cpu program with
  | zero =>
    cases hrun
    exact ⟨cpu, .zero world cpu, rfl, hphase⟩
  | succ n ih =>
    rw [Machine.run?] at hrun
    obtain ⟨i, hi, hrun⟩ := Option.bind_eq_some_iff.1 hrun
    obtain ⟨⟨rest, last'⟩, hrest, hrun⟩ := Option.bind_eq_some_iff.1 hrun
    cases hrun
    have hfetch : cpu.machine.fetch = .ok i := Machine.fetch_eq_ok hi
    obtain ⟨next, hfirst, hnext, hmachine⟩ := runPhases_instruction hphase hfetch world
    rw [← hmachine] at hrest
    obtain ⟨last, hruns, hlast, hzero⟩ := ih hnext hrest
    exact ⟨last, hfirst.trans hruns, hlast, hzero⟩

/-- Adds `0xFF` to `A`. -/
def addition : Instruction := ⟨.add, .regSource .a (.imm 0xFF)⟩

/-- Adds the flags to themselves, with the carry that is among them. -/
def doubling : Instruction := ⟨.adc, .regSource .f (.reg .f)⟩

/-- Holds 1 in `A`, and the addition and the doubling in memory. -/
def overflowing : Cpu where
  registers := { file := { a := 1 } }
  memory := (((((Memory.zero.write 0 0x84).write 1 0x06).write 2 0xFF).write 3 0x0C).write 4 0x07).write 5 0x07

/-- The second instruction has one register for its target, its source and its flags: the sum of the flags replaces
them, and the comparison finds the sum equal to itself. -/
theorem runPhases_of_run_overflowing :
    ∃ next steps, runPhases Device.none 10 () overflowing = ((), next, steps) ∧ next.machine.pc = 6 ∧
      next.machine.get .a = 0 ∧ next.machine.get .f = 0x17 ∧ next.phase = 0 ∧ ∀ step ∈ steps, step.anomalies = [] := by
  obtain ⟨hfirst, hsecond⟩ : overflowing.machine.memory.readMany 0 3 = [0x84, 0x06, 0xFF] ∧
      overflowing.machine.memory.readMany 3 3 = [0x0C, 0x07, 0x07] := by
    constructor <;> simp [Memory.readMany, Memory.read_write, overflowing, machine, List.range_succ]
  have hfetch : overflowing.machine.fetch = .ok addition := by
    rw [Machine.fetch, show overflowing.machine.pc = 0 from rfl, hfirst]
    rfl
  have hnext : (overflowing.machine.execute addition).fetch = .ok doubling := by
    rw [Machine.fetch, show (overflowing.machine.execute addition).pc = 3 from rfl,
      show (overflowing.machine.execute addition).memory = overflowing.machine.memory from rfl, hsecond]
    rfl
  have hrun : overflowing.machine.run? 2 =
      some ([addition, doubling], (overflowing.machine.execute addition).execute doubling) := by
    have hrest : (overflowing.machine.execute addition).run? 1 =
        some ([doubling], (overflowing.machine.execute addition).execute doubling) := by
      rw [Machine.run?, hnext]
      rfl
    rw [Machine.run?, hfetch]
    exact Option.bind_eq_some_iff.2 ⟨addition, rfl, Option.bind_eq_some_iff.2 ⟨_, hrest, rfl⟩⟩
  obtain ⟨next, steps, hsteps, hmachine, hphase, hanomalies⟩ := runPhases_of_run rfl hrun ()
  refine ⟨next, steps, hsteps, ?_, ?_, ?_, hphase, hanomalies⟩
  · exact congrArg Machine.pc hmachine
  · rw [hmachine]
    decide +kernel
  · rw [hmachine]
    decide +kernel

end Cpu

end Octet
