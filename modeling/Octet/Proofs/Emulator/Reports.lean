import Octet.Proofs.Emulator.Microstep
import Octet.Proofs.Machine.Anomalies
/-!
What an emulator reports and remembers of an instruction whose bytes may be anything.

* `microstep_eq_some`: what one phase of an emulator is, whatever its state, its budget and its breakpoints are;
* `microsteps`: a number of phases, and what was reported;
* `agrees_with_decoder`: reports, history and decoder agree on every instruction.
-/

namespace Octet

namespace Emulator

variable {σ : Type} {emu next : Emulator σ} {step : Step} {steps : List Step} {n : Nat}

/-! ## Single phases -/

/-- The processor and what belongs to it are the same. -/
structure Kept (emu next : Emulator σ) : Prop where
  cpu : next.cpu = emu.cpu
  world : next.world = emu.world
  device : next.device = emu.device
  started : next.started = emu.started

theorem Kept.executed (h : emu.Kept next) : next.executed = emu.executed := by
  rw [Emulator.executed, h.started, h.cpu]
  rfl

theorem kept_complete (emu : Emulator σ) :
    emu.Kept emu.complete ∧ emu.complete.history = emu.history.push emu.executed := by
  unfold complete
  simp only [noteText_eq]
  split
  · exact ⟨⟨rfl, rfl, rfl, rfl⟩, rfl⟩
  · exact ⟨⟨rfl, rfl, rfl, rfl⟩, rfl⟩

theorem kept_checkBudget (emu : Emulator σ) : emu.Kept emu.checkBudget ∧ emu.checkBudget.history = emu.history := by
  unfold checkBudget
  split
  · exact ⟨⟨rfl, rfl, rfl, rfl⟩, rfl⟩
  · split
    · exact ⟨⟨rfl, rfl, rfl, rfl⟩, rfl⟩
    · exact ⟨⟨rfl, rfl, rfl, rfl⟩, rfl⟩

theorem Kept.trans {last : Emulator σ} (h : emu.Kept next) (h' : next.Kept last) : emu.Kept last :=
  ⟨h'.cpu.trans h.cpu, h'.world.trans h.world, h'.device.trans h.device, h'.started.trans h.started⟩

/-- **A phase that an emulator runs** is one of its processor, and the last one of an instruction goes to the history. -/
theorem microstep_eq_some (h : emu.microstep = (next, some step)) :
    emu.cpu.step emu.device emu.world = (next.world, next.cpu, step) ∧ next.device = emu.device ∧
      next.history = if step.completed then emu.history.push next.executed else emu.history := by
  rcases hs : emu.cpu.step emu.device emu.world with ⟨world, cpu, report⟩
  obtain ⟨advanced, hadvance, hcpu, hworld, hdevice, hhistory⟩ : ∃ advanced : Emulator σ,
      emu.advance = (advanced, report) ∧ advanced.cpu = cpu ∧ advanced.world = world ∧
        advanced.device = emu.device ∧ advanced.history = emu.history := by
    rw [advance, hs]
    exact ⟨_, rfl, rfl, rfl, rfl, rfl⟩
  by_cases hhalted : emu.state = .halted
  · rw [microstep, if_pos hhalted] at h
    cases h
  · rw [microstep, if_neg hhalted, hadvance] at h
    obtain ⟨hnext, hreport⟩ := Prod.mk.inj h
    obtain rfl : report = step := Option.some.inj hreport
    -- what is left is the end of the instruction, if it is one, and the budget
    have hkept : advanced.Kept next ∧
        next.history = if report.completed then emu.history.push next.executed else emu.history := by
      rw [← hnext]
      cases hc : report.completed with
      | false =>
        obtain ⟨hbudget, hsame⟩ := kept_checkBudget advanced
        exact ⟨hbudget, hsame.trans hhistory⟩
      | true =>
        obtain ⟨hcomplete, hpush⟩ := kept_complete advanced
        obtain ⟨hbudget, hsame⟩ := kept_checkBudget advanced.complete
        refine ⟨hcomplete.trans hbudget, ?_⟩
        show advanced.complete.checkBudget.history = _
        rw [hsame, hpush, hhistory, ← (hcomplete.trans hbudget).executed]
        rfl
    obtain ⟨hkept, hpushed⟩ := hkept
    refine ⟨?_, hkept.device.trans hdevice, hpushed⟩
    rw [hkept.world, hkept.cpu, hworld, hcpu]

/-! ## Runs -/

/-- Some phases, and what was reported of each; nothing is reported when the emulator is halted. -/
def microsteps : Nat → Emulator σ → Emulator σ × List (Option Step)
  | 0, emu => (emu, [])
  | n + 1, emu =>
    let (emu, step) := emu.microstep
    let (emu, steps) := microsteps n emu
    (emu, step :: steps)

theorem microsteps_succ (h : microsteps (n + 1) emu = (next, steps.map some)) :
    ∃ middle step rest, emu.microstep = (middle, some step) ∧ microsteps n middle = (next, rest.map some) ∧
      steps = step :: rest := by
  rcases hm : emu.microstep with ⟨middle, report⟩
  rcases hr : microsteps n middle with ⟨last, reports⟩
  rw [microsteps, hm] at h
  dsimp only at h
  rw [hr] at h
  obtain ⟨rfl, hreports⟩ := Prod.mk.inj h
  cases steps with
  | nil => cases hreports
  | cons step rest =>
    obtain ⟨rfl, rfl⟩ := List.cons.inj hreports
    exact ⟨middle, step, rest, rfl, hr, rfl⟩

theorem runPhases_of_microsteps (h : microsteps n emu = (next, steps.map some)) :
    Cpu.runPhases emu.device n emu.world emu.cpu = (next.world, next.cpu, steps) := by
  induction n generalizing emu steps with
  | zero =>
    obtain ⟨rfl, hsteps⟩ := Prod.mk.inj h
    rw [List.map_eq_nil_iff.1 hsteps.symm]
    rfl
  | succ n ih =>
    obtain ⟨middle, step, rest, hstep, hrest, rfl⟩ := microsteps_succ h
    obtain ⟨hcpu, hdevice, -⟩ := microstep_eq_some hstep
    have hrun := ih hrest
    rw [hdevice] at hrun
    exact Cpu.runPhases_succ hcpu hrun

theorem microsteps_eq_nil (h : microsteps n emu = (next, [])) : next = emu := by
  cases n with
  | zero => exact (Prod.mk.inj h).1.symm
  | succ n => exact absurd (Prod.mk.inj h).2 (List.cons_ne_nil _ _)

/-- Phases of which the last one ends an instruction add one to the history. -/
theorem history_of_microsteps {k : Nat} (h : microsteps n emu = (next, steps.map some))
    (hcompleted : steps.map (·.completed) = List.replicate k false ++ [true]) :
    next.history = emu.history.push next.executed := by
  induction n generalizing emu steps k with
  | zero =>
    have hsteps : steps = [] := List.map_eq_nil_iff.1 (Prod.mk.inj h).2.symm
    rw [hsteps] at hcompleted
    exact absurd hcompleted.symm (by simp)
  | succ n ih =>
    obtain ⟨middle, step, rest, hstep, hrest, rfl⟩ := microsteps_succ h
    obtain ⟨-, -, hhistory⟩ := microstep_eq_some hstep
    cases k with
    | zero =>
      obtain ⟨hdone, hnil⟩ := List.cons.inj hcompleted
      rw [List.map_eq_nil_iff.1 hnil] at hrest
      rw [microsteps_eq_nil hrest, hhistory, if_pos hdone]
    | succ k =>
      obtain ⟨hmore, hcompleted⟩ := List.cons.inj hcompleted
      have hnot : ¬ step.completed = true := Bool.eq_false_iff.1 hmore
      rw [ih hrest hcompleted, hhistory, if_neg hnot]

/-- An emulator that nothing stops runs all phases. -/
theorem Unattended.exists_microsteps (h : emu.Unattended) (n : Nat) :
    ∃ (next : Emulator σ) (steps : List Step), microsteps n emu = (next, steps.map some) := by
  induction n generalizing emu with
  | zero => exact ⟨emu, [], rfl⟩
  | succ n ih =>
    rcases hs : emu.cpu.step Device.none emu.world with ⟨world, cpu, step⟩
    obtain ⟨middle, hstep, hmiddle, -⟩ := h.microstep hs
    obtain ⟨next, steps, hrun⟩ := ih hmiddle
    refine ⟨next, step :: steps, ?_⟩
    rw [microsteps, hstep]
    dsimp only
    rw [hrun]
    rfl

end Emulator

/-- **Processor and decoder agree on malformed instructions.** An instruction comes to its end in the phases that its
opcode byte says, whatever bytes stand at `PC`, and the two agree on it then. Bits of the opcode byte without a meaning
change nothing in the phases behind the first one, but the opcode byte itself and the copy of it that an anomaly shows.
An emulator that runs all phases of an instruction remembers it, as no instruction if the opcode byte has such bits or an
anomaly was reported, and only then. -/
theorem agrees_with_decoder {σ : Type} (world : σ) :
    (∀ cpu : Cpu, cpu.phase = 0 → ∃ next steps,
      Cpu.runPhases Device.none (Opcode.ofByte cpu.fetched).cycles world cpu = (world, next, steps) ∧
        cpu.Completes next steps ∧ next.Agrees steps) ∧
    (∀ (cpu : Cpu) (ir : UInt8), cpu.Underway (Opcode.ofByte cpu.registers.ir) 1 →
      Opcode.SameMeaning cpu.registers.ir ir → ∀ k, k < (Opcode.ofByte cpu.registers.ir).cycles → ∃ next steps,
        Cpu.runPhases Device.none k world cpu = (world, next, steps) ∧
          Cpu.runPhases Device.none k world (cpu.setIr ir) = (world, next.setIr ir, steps.map (·.setIr ir))) ∧
    ∀ (emu next : Emulator σ) (steps : List Step), emu.device = Device.none → emu.cpu.phase = 0 →
      emu.microsteps (Opcode.ofByte emu.cpu.fetched).cycles = (next, steps.map some) →
        emu.cpu.Completes next.cpu steps ∧
          ∃ entry : Executed, next.history = emu.history.push entry ∧ entry.fetched = next.cpu.registers.fetched ∧
            (entry.instruction = none ↔ next.cpu.HasStrayBits ∨ Cpu.Reported steps) := by
  refine ⟨?_, ?_, ?_⟩
  · intro cpu hphase
    obtain ⟨next, steps, hrun, hcompletes⟩ := Cpu.exists_completes hphase world
    exact ⟨next, steps, hrun, hcompletes, hcompletes.agrees⟩
  · intro cpu ir hunderway hsame k hk
    exact hunderway.exists_runPhases_setIr hsame Nat.one_pos (by omega) Device.none world
  · intro emu next steps hdevice hphase hmicrosteps
    obtain ⟨last, reports, hrun, hcompletes⟩ := Cpu.exists_completes hphase emu.world
    have hphases := Emulator.runPhases_of_microsteps hmicrosteps
    rw [hdevice, hrun] at hphases
    obtain ⟨-, hlast⟩ := Prod.mk.inj hphases
    obtain ⟨rfl, rfl⟩ := Prod.mk.inj hlast
    have hpush := Emulator.history_of_microsteps hmicrosteps hcompletes.completed
    exact ⟨hcompletes, next.executed, hpush, rfl, hcompletes.agrees.instruction⟩

/-- Holds `MW B` with the code 9, which no register has. -/
def misnaming : Emulator Unit := { cpu := ({} : Cpu).writeMany 0 [0x09, 0x00, 0x09], world := () }

theorem agrees_with_decoder_misnaming :
    ∃ next steps entry, misnaming.microsteps 4 = (next, steps.map some) ∧ Cpu.Reported steps ∧
      next.cpu.currentInstruction = .error (.invalidRegister 0x09) ∧ next.history = misnaming.history.push entry ∧
      entry.instruction = none := by
  obtain ⟨-, -, hemulator⟩ := agrees_with_decoder ()
  have hunattended : misnaming.Unattended := ⟨rfl, rfl, rfl, rfl⟩
  obtain ⟨next, steps, hrun⟩ := hunattended.exists_microsteps 4
  obtain ⟨hcompletes, entry, hpush, -, hnone⟩ := hemulator misnaming next steps rfl rfl hrun
  have hcurrent : next.cpu.currentInstruction = .error (.invalidRegister 0x09) := by
    rw [Cpu.currentInstruction, hcompletes.fetched]
    rfl
  have hstray : ¬ next.cpu.HasStrayBits := by
    have hir : next.cpu.registers.ir = 0x09 := (List.cons.inj hcompletes.fetched).1
    rw [Cpu.HasStrayBits, hir]
    decide
  have hreported : Cpu.Reported steps := (hcompletes.agrees.fails hstray).2 ⟨_, hcurrent⟩
  exact ⟨next, steps, entry, hrun, hreported, hcurrent, hpush, hnone.2 (.inr hreported)⟩

end Octet
