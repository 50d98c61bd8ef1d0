import Octet.Proofs.Machine.Refinement
/-!
The phases of an instruction whose bytes may be anything.

* `Cpu.Underway`: an instruction has been started;
* `Underway.fetch`, `Underway.execute`: what its next phase does;
* `Cpu.Completes`: the state after its last phase, and what was reported on the way;
* `exists_completes`: every instruction comes to its end, in the number of phases that its opcode byte says.
-/

namespace Octet

theorem Shape.length_eq_two_or_three (s : Shape) : s.length = 2 ∨ s.length = 3 := by cases s <;> decide

theorem Shape.two_le_length (s : Shape) : 2 ≤ s.length := by cases s <;> decide

theorem Shape.length_le_three (s : Shape) : s.length ≤ 3 := by cases s <;> decide

theorem Opcode.microcode_length_pos (op : Opcode) : 0 < op.microcode.length := by cases op <;> decide

theorem MicroOp.codes_congr {regs regs' : Registers} (h : regs'.fetched = regs.fetched) (micro : MicroOp) :
    micro.codes regs' = micro.codes regs := by
  simp only [Registers.fetched, List.cons.injEq, and_true] at h
  obtain ⟨hir, h₁, h₂⟩ := h
  unfold MicroOp.codes
  rw [hir, h₁, h₂]

/-- The codes of the registers that are missing. -/
def Step.missing (step : Step) : List UInt8 := step.anomalies.map (·.code)

theorem MicroOp.map_code_anomalies (micro : MicroOp) (regs : Registers) :
    (micro.anomalies regs).map (·.code) = (micro.codes regs).filter fun code => (Register.ofCode? code).isNone := by
  rw [anomalies, List.map_map]
  exact List.map_id _

namespace Cpu

variable {σ : Type} {cpu : Cpu} {op : Opcode} {p : Nat}

/-! ## Single phases -/

/-- An instruction with some operation has been started, and `p` of its phases have run. -/
structure Underway (cpu : Cpu) (op : Opcode) (p : Nat) : Prop where
  phase : cpu.phase = p
  operation : Opcode.ofByte cpu.registers.ir = op
  second : cpu.hasSecondByte = op.shape.hasSecondByte

def fetchNext (cpu : Cpu) : Cpu := if cpu.phase = 1 then cpu.fetchFirst else cpu.fetchSecond

theorem Underway.fetches (h : cpu.Underway op p) : cpu.fetches = op.shape.length := by
  rw [Cpu.fetches, h.second, Shape.length]

theorem Underway.fetch (h : cpu.Underway op p) (hpos : 0 < p) (hp : p < op.shape.length) (device : Device σ)
    (world : σ) :
    cpu.step device world = (world, cpu.fetchNext, { phase := p }) ∧ cpu.fetchNext.Underway op (p + 1) := by
  have hphase := h.phase
  have hone_or_two : p = 1 ∨ p = 2 := by
    have := op.shape.length_eq_two_or_three
    omega
  rcases hone_or_two with rfl | rfl
  · rw [fetchNext, if_pos hphase, step, hphase]
    exact ⟨rfl, rfl, h.operation, h.second⟩
  · have hsecond : cpu.hasSecondByte = true := by
      rw [h.second]
      by_contra hne
      rw [Shape.length, if_neg hne] at hp
      omega
    have hne : cpu.phase ≠ 1 := by omega
    rw [fetchNext, if_neg hne, step, hphase]
    exact ⟨if_pos ⟨rfl, hsecond⟩, rfl, h.operation, h.second⟩

/-- The processor after a micro-operation, with the next phase due. -/
def after (cpu : Cpu) (micro : MicroOp) (phase : Nat) : Cpu := { cpu.execute micro with phase := phase }

def reported (cpu : Cpu) (micro : MicroOp) (completed : Bool) : Step :=
  { phase := cpu.phase, microOp := some micro, completed := completed, anomalies := micro.anomalies cpu.registers }

theorem Underway.execute (h : cpu.Underway op p) (hp : op.shape.length ≤ p) (hlt : p < op.cycles) (device : Device σ)
    (world : σ) :
    ∃ micro, op.microcode[p - op.shape.length]? = some micro ∧
      cpu.step device world = (world, cpu.after micro (if p + 1 < op.cycles then p + 1 else 0),
        cpu.reported micro (decide (p + 1 = op.cycles))) := by
  have hcycles : op.cycles = op.shape.length + op.microcode.length := rfl
  have hlength := op.shape.length_eq_two_or_three
  have hindex : p - op.shape.length < op.microcode.length := by omega
  have hmicro := List.getElem?_eq_getElem hindex
  refine ⟨_, hmicro, ?_⟩
  have hexecute : cpu.step device world = (world, cpu.executePhase.1, cpu.executePhase.2) := by
    obtain ⟨n, rfl⟩ := Nat.exists_eq_add_of_le' (show 2 ≤ p by omega)
    have hdone : ¬ (n = 0 ∧ cpu.hasSecondByte) := by
      rintro ⟨rfl, hsecond⟩
      rw [h.second] at hsecond
      rw [Shape.length, if_pos hsecond] at hp
      omega
    rw [step, h.phase]
    exact if_neg hdone
  rw [hexecute]
  simp only [executePhase, h.operation, h.phase, h.fetches, hmicro]
  by_cases hlast : p + 1 < op.cycles
  · have hmore : ¬ op.microcode.length ≤ p - op.shape.length + 1 := by omega
    have hne : p + 1 ≠ op.cycles := by omega
    simp [hmore, hlast, hne, after, reported, h.phase]
  · have hdone : op.microcode.length ≤ p - op.shape.length + 1 := by omega
    have heq : p + 1 = op.cycles := by omega
    simp [hdone, heq, after, reported, h.phase]

theorem ir_execute (cpu : Cpu) (micro : MicroOp) : (cpu.execute micro).registers.ir = cpu.registers.ir :=
  (List.cons.inj (Keeps.execute cpu micro).fetched).1

theorem Underway.after (h : cpu.Underway op p) (micro : MicroOp) (q : Nat) : (cpu.after micro q).Underway op q := by
  refine ⟨rfl, ?_, ?_⟩
  · rw [← h.operation, ← ir_execute cpu micro]
    rfl
  · rw [← h.second, ← (Keeps.execute cpu micro).second]
    rfl

/-! ## Whole instructions -/

/-- The codes that micro-operations use and that no register has. -/
def unnamed (microcode : List MicroOp) (regs : Registers) : List UInt8 :=
  microcode.flatMap fun micro => (micro.codes regs).filter fun code => (Register.ofCode? code).isNone

theorem missing_reported {micro : MicroOp} {regs : Registers} (h : regs.fetched = cpu.registers.fetched)
    (completed : Bool) : (cpu.reported micro completed).missing = unnamed [micro] regs := by
  rw [unnamed, List.flatMap_singleton, MicroOp.codes_congr h]
  exact micro.map_code_anomalies cpu.registers

/-- What the execute phases of an instruction leave and report. -/
structure Ends (cpu : Cpu) (microcode : List MicroOp) (next : Cpu) (steps : List Step) : Prop where
  phase : next.phase = 0
  fetched : next.registers.fetched = cpu.registers.fetched
  completed : steps.map (·.completed) = List.replicate (microcode.length - 1) false ++ [true]
  missing : steps.flatMap (·.missing) = unnamed microcode next.registers

/-- **The execute phases that are left end the instruction.** -/
theorem Underway.exists_ends {n : Nat} (h : cpu.Underway op p) (hp : op.shape.length ≤ p)
    (hn : p + (n + 1) = op.cycles) (device : Device σ) (world : σ) :
    ∃ next steps, runPhases device (n + 1) world cpu = (world, next, steps) ∧
      cpu.Ends (op.microcode.drop (p - op.shape.length)) next steps := by
  have hcycles : op.cycles = op.shape.length + op.microcode.length := rfl
  -- on the phases behind this one
  induction n generalizing cpu p with
  | zero =>
    obtain ⟨micro, hmicro, hstep⟩ := h.execute hp (by omega) device world
    have hdrop : op.microcode.drop (p - op.shape.length) = [micro] := by
      obtain ⟨hlt, rfl⟩ := List.getElem?_eq_some_iff.1 hmicro
      rw [List.drop_eq_getElem_cons hlt, List.drop_eq_nil_of_le (by omega)]
    have hlast : ¬ p + 1 < op.cycles := by omega
    have heq : p + 1 = op.cycles := by omega
    rw [if_neg hlast, decide_eq_true heq] at hstep
    have hfetched := (Keeps.execute cpu micro).fetched
    rw [hdrop]
    refine ⟨_, _, runPhases_succ hstep rfl, rfl, hfetched, rfl, ?_⟩
    rw [List.flatMap_singleton]
    exact missing_reported hfetched true
  | succ n ih =>
    obtain ⟨micro, hmicro, hstep⟩ := h.execute hp (by omega) device world
    obtain ⟨hlt, hget⟩ := List.getElem?_eq_some_iff.1 hmicro
    have hdrop : op.microcode.drop (p - op.shape.length) = micro :: op.microcode.drop (p + 1 - op.shape.length) := by
      rw [List.drop_eq_getElem_cons hlt, hget, Nat.sub_add_comm hp]
    have hmore : p + 1 < op.cycles := by omega
    have hne : p + 1 ≠ op.cycles := by omega
    rw [if_pos hmore, decide_eq_false hne] at hstep
    obtain ⟨next, steps, hrun, hrest⟩ := ih (h.after micro (p + 1)) (by omega) (by omega)
    have hfetched : next.registers.fetched = cpu.registers.fetched :=
      hrest.fetched.trans (Keeps.execute cpu micro).fetched
    refine ⟨next, _, runPhases_succ hstep hrun, hrest.phase, hfetched, ?_, ?_⟩
    · have hlength : (op.microcode.drop (p - op.shape.length)).length - 1 =
          ((op.microcode.drop (p + 1 - op.shape.length)).length - 1) + 1 := by
        rw [List.length_drop, List.length_drop]
        omega
      rw [hlength, List.replicate_succ, List.map_cons, hrest.completed]
      rfl
    · rw [hdrop, List.flatMap_cons, hrest.missing, missing_reported hfetched]
      simp [unnamed]

/-- The bytes that the instruction at `PC` is fetched as. One without a second operand byte keeps the previous one. -/
def fetchedAtPc (cpu : Cpu) : List UInt8 :=
  [cpu.fetched, cpu.read (cpu.registers.pc + 1),
    if (Opcode.ofByte cpu.fetched).shape.hasSecondByte then cpu.read (cpu.registers.pc + 2) else cpu.registers.arg2]

/-- The opcode byte is fetched, and no device has run. -/
def started (cpu : Cpu) : Cpu :=
  { cpu with
    registers := { cpu.registers with ir := cpu.fetched, pc := cpu.registers.pc + 1 }
    phase := 1
    hasSecondByte := (Opcode.ofByte cpu.fetched).shape.hasSecondByte
    watched := cpu.read watchedPort }

theorem underway_started (cpu : Cpu) : cpu.started.Underway (Opcode.ofByte cpu.fetched) 1 := ⟨rfl, rfl, rfl⟩

theorem exists_step_started (hphase : cpu.phase = 0) (world : σ) :
    ∃ step, cpu.step Device.none world = (world, cpu.started, step) ∧ step.completed = false ∧ step.anomalies = [] := by
  have hdevice : (if cpu.read watchedPort ≠ cpu.watched then Device.none world cpu else (world, cpu, [])) =
      (world, cpu, ([] : List PortReport)) := ite_self _
  have hstep : cpu.step Device.none world = startInstruction Device.none world cpu := by rw [step, hphase]
  rw [startInstruction, hdevice] at hstep
  exact ⟨_, hstep, rfl, rfl⟩

/-- **The fetch phases** leave the bytes at `PC`, and report nothing. -/
theorem exists_underway (hphase : cpu.phase = 0) (world : σ) :
    ∃ next steps, runPhases Device.none (Opcode.ofByte cpu.fetched).shape.length world cpu = (world, next, steps) ∧
      next.Underway (Opcode.ofByte cpu.fetched) (Opcode.ofByte cpu.fetched).shape.length ∧
      next.registers.fetched = cpu.fetchedAtPc ∧
      steps.map (·.completed) = List.replicate (Opcode.ofByte cpu.fetched).shape.length false ∧
      steps.flatMap (·.missing) = [] := by
  obtain ⟨step, hstep, hcompleted, hanomalies⟩ := exists_step_started hphase world
  have hpos := (Opcode.ofByte cpu.fetched).shape.length_eq_two_or_three
  obtain ⟨hfirst, hone⟩ := cpu.underway_started.fetch Nat.one_pos (by omega) Device.none world
  by_cases hsecond : (Opcode.ofByte cpu.fetched).shape.hasSecondByte
  · have hlength : (Opcode.ofByte cpu.fetched).shape.length = 3 := if_pos hsecond
    rw [hlength]
    obtain ⟨hlast, htwo⟩ := hone.fetch Nat.two_pos (by omega) Device.none world
    refine ⟨_, _, runPhases_succ hstep (runPhases_succ hfirst (runPhases_succ hlast rfl)), htwo, ?_, ?_, ?_⟩
    · have hpc : cpu.registers.pc + 2 = cpu.registers.pc + 1 + 1 := (UInt16.add_assoc _ 1 1).symm
      rw [fetchedAtPc, if_pos hsecond, hpc]
      rfl
    · simp [hcompleted]
    · simp [Step.missing, hanomalies]
  · have hlength : (Opcode.ofByte cpu.fetched).shape.length = 2 := if_neg hsecond
    rw [hlength]
    refine ⟨_, _, runPhases_succ hstep (runPhases_succ hfirst rfl), hone, ?_, ?_, ?_⟩
    · rw [fetchedAtPc, if_neg hsecond]
      rfl
    · simp [hcompleted]
    · simp [Step.missing, hanomalies]

/-- What the phases of an instruction leave and report. -/
structure Completes (cpu next : Cpu) (steps : List Step) : Prop where
  phase : next.phase = 0
  fetched : next.registers.fetched = cpu.fetchedAtPc
  completed : steps.map (·.completed) = List.replicate ((Opcode.ofByte cpu.fetched).cycles - 1) false ++ [true]
  missing : steps.flatMap (·.missing) = unnamed (Opcode.ofByte cpu.fetched).microcode next.registers

/-- **Every instruction comes to its end** in the phases that its opcode byte says. -/
theorem exists_completes (hphase : cpu.phase = 0) (world : σ) :
    ∃ next steps, runPhases Device.none (Opcode.ofByte cpu.fetched).cycles world cpu = (world, next, steps) ∧
      cpu.Completes next steps := by
  have hpos := (Opcode.ofByte cpu.fetched).microcode_length_pos
  obtain ⟨middle, fetches, hfetches, hmiddle, hfetched, hcompleted, hmissing⟩ := exists_underway hphase world
  obtain ⟨n, hn⟩ := Nat.exists_eq_add_of_le' hpos
  have hcycles : (Opcode.ofByte cpu.fetched).shape.length + (n + 1) = (Opcode.ofByte cpu.fetched).cycles := by
    rw [← hn]
    rfl
  obtain ⟨next, steps, hrun, hends⟩ := hmiddle.exists_ends Nat.le.refl hcycles Device.none world
  rw [Nat.sub_self, List.drop_zero] at hends
  rw [← hcycles]
  refine ⟨next, _, runPhases_add hfetches hrun, hends.phase, hends.fetched.trans hfetched, ?_, ?_⟩
  · rw [List.map_append, hcompleted, hends.completed, ← List.append_assoc, ← List.replicate_add, ← hcycles, hn]
    rfl
  · rw [List.flatMap_append, hmissing, hends.missing]
    rfl

end Cpu

end Octet
