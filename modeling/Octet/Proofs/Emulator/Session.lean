import Octet.Proofs.Emulator.Microstep
/-!
Sessions: what is done with an emulator from its start on.

* `Emulator.Steps`: all that a phase does to an emulator;
* `Emulator.perform`: the calls to an emulator, and the changes that are made to it from outside;
* `Emulator.Session`: the states that calls lead to, each with the phases since the last reset.
-/

namespace Octet.Emulator

variable {σ : Type} {emu next : Emulator σ} {step : Step}

/-! ## Single phases -/

/-- Whether the budget is used up. -/
def exhausted (emu : Emulator σ) : Bool := emu.maxCycles.any fun limit => limit ≤ emu.cycles

theorem exists_checkBudget (emu : Emulator σ) :
    ∃ log, emu.checkBudget = { emu with state := if emu.exhausted then .halted else emu.state, log := log } := by
  unfold checkBudget
  split
  · rename_i hm
    have hnot : emu.exhausted = false := by rw [exhausted, hm]; rfl
    rw [hnot]
    exact ⟨emu.log, rfl⟩
  · rename_i limit hm
    have hlimit : emu.exhausted = decide (limit ≤ emu.cycles) := by rw [exhausted, hm]; rfl
    split
    · rename_i hle
      rw [hlimit, decide_eq_true hle]
      exact ⟨_, rfl⟩
    · rename_i hle
      rw [hlimit, decide_eq_false hle]
      exact ⟨emu.log, rfl⟩

theorem exists_complete (emu : Emulator σ) : ∃ log, emu.complete = { emu with
    history := emu.history.push emu.executed
    state := if emu.cpu.registers.pc ∈ emu.breakpoints then .paused else emu.state
    log := log } := by
  unfold complete
  simp only [noteText_eq]
  split
  · rename_i h
    have h : emu.cpu.registers.pc ∈ emu.breakpoints := h
    rw [if_pos h]
    exact ⟨_, rfl⟩
  · rename_i h
    have h : emu.cpu.registers.pc ∉ emu.breakpoints := h
    rw [if_neg h]
    exact ⟨_, rfl⟩

/-- All that one phase does. The budget comes before a breakpoint. -/
structure Steps (emu next : Emulator σ) (step : Step) : Prop where
  ran : emu.state ≠ .halted
  cpu : emu.cpu.step emu.device emu.world = (next.world, next.cpu, step)
  cycles : next.cycles = emu.cycles + 1
  history : next.history = if step.completed then emu.history.push next.executed else emu.history
  state : next.state =
    if next.exhausted then .halted
    else if step.completed ∧ next.cpu.registers.pc ∈ emu.breakpoints then .paused
    else emu.state
  started : next.started = if emu.cpu.phase = 0 then emu.cpu.registers.pc else emu.started
  breakpoints : next.breakpoints = emu.breakpoints
  maxCycles : next.maxCycles = emu.maxCycles
  entry : next.entry = emu.entry
  device : next.device = emu.device
  images : next.images = emu.images

/-- **A phase runs unless the emulator is halted.** -/
theorem microstep_cases (emu : Emulator σ) :
    (emu.state = .halted ∧ emu.microstep = (emu, none)) ∨
      ∃ next step, emu.microstep = (next, some step) ∧ emu.Steps next step := by
  by_cases hhalted : emu.state = .halted
  · exact .inl ⟨hhalted, if_pos hhalted⟩
  refine .inr ?_
  rcases hs : emu.cpu.step emu.device emu.world with ⟨world, cpu, step⟩
  obtain ⟨advanced, hadvance, hadvanced⟩ : ∃ advanced, emu.advance = (advanced, step) ∧ ∃ log, advanced = { emu with
      world := world
      cpu := cpu
      started := if emu.cpu.phase = 0 then emu.cpu.registers.pc else emu.started
      cycles := emu.cycles + 1
      log := log } := by
    rw [advance, hs]
    exact ⟨_, rfl, _, rfl⟩
  rw [microstep, if_neg hhalted, hadvance]
  refine ⟨_, step, rfl, ?_⟩
  obtain ⟨log, rfl⟩ := hadvanced
  cases hc : step.completed with
  | false =>
    rw [if_neg Bool.false_ne_true]
    obtain ⟨log', hbudget⟩ := exists_checkBudget (σ := σ) _
    rw [hbudget]
    exact {
      ran := hhalted, cpu := hs, cycles := rfl, history := by simp [hc], state := by simp [hc]; rfl, started := rfl
      breakpoints := rfl, maxCycles := rfl, entry := rfl, device := rfl, images := rfl }
  | true =>
    rw [if_pos rfl]
    obtain ⟨log', hcomplete⟩ := exists_complete (σ := σ) _
    rw [hcomplete]
    obtain ⟨log', hbudget⟩ := exists_checkBudget (σ := σ) _
    rw [hbudget]
    exact {
      ran := hhalted, cpu := hs, cycles := rfl, history := by simp [hc]; rfl, state := by simp [hc]; rfl
      started := rfl, breakpoints := rfl, maxCycles := rfl, entry := rfl, device := rfl, images := rfl }

theorem steps_of_microstep (h : emu.microstep = (next, some step)) : emu.Steps next step := by
  rcases emu.microstep_cases with ⟨-, hnone⟩ | ⟨next', step', hsome, hsteps⟩
  · rw [hnone] at h
    cases h
  · rw [hsome] at h
    cases h
    exact hsteps

/-! ## Runs of phases -/

section
variable {P : Emulator σ → Prop} (hstep : ∀ emu next step, emu.microstep = (next, some step) → P emu → P next)
include hstep

theorem microstep_induction (h : P emu) : P emu.microstep.1 := by
  rcases emu.microstep_cases with ⟨-, hnone⟩ | ⟨next, step, hsome, -⟩
  · rwa [hnone]
  · rw [hsome]
    exact hstep emu next step hsome h

/-- What a phase preserves, a run of phases preserves. -/
theorem run_induction (fuel : Nat) (h : P emu) : P (run fuel emu) := by
  induction fuel generalizing emu with
  | zero => exact h
  | succ fuel ih =>
    rw [run]
    split
    · exact ih (microstep_induction hstep h)
    · exact h

theorem stepUpTo_induction (n : Nat) (h : P emu) : P (stepUpTo n emu) := by
  induction n generalizing emu with
  | zero => exact h
  | succ n ih =>
    have hnext : P emu.microstep.1 := microstep_induction hstep h
    rw [stepUpTo]
    split
    · rename_i next step hm
      rw [hm] at hnext
      split
      · exact hnext
      · exact ih hnext
    · rename_i next hm
      rwa [hm] at hnext

end

/-! ## Calls -/

/-- A call to an emulator, or a change that is made to it from outside. -/
inductive Command where
  | load (origin : UInt16) (image : List UInt8)
  | setEntry (entry : UInt16)
  | microstep
  | stepInstruction
  | run (fuel : Nat)
  | resume (fuel : Nat)
  | poke (address : UInt16) (v : UInt8)
  | reset (reload : Bool)
  | setState (state : RunState)
  | setBreakpoints (breakpoints : List UInt16)
  | setMaxCycles (maxCycles : Option Nat)

/-- The emulator after a call. One that fails leaves it as it was. -/
def perform (emu : Emulator σ) : Command → Emulator σ
  | .load origin image => (emu.load origin image).toOption.getD emu
  | .setEntry entry => emu.setEntry entry
  | .microstep => emu.microstep.1
  | .stepInstruction => emu.stepInstruction
  | .run fuel => run fuel emu
  | .resume fuel => emu.resume fuel
  | .poke address v => { emu with cpu := emu.cpu.write address v }
  | .reset reload => (emu.reset reload).toOption.getD emu
  | .setState state => { emu with state := state }
  | .setBreakpoints breakpoints => { emu with breakpoints := breakpoints }
  | .setMaxCycles maxCycles => { emu with maxCycles := maxCycles }

def performAll (emu : Emulator σ) (commands : List Command) : Emulator σ := commands.foldl perform emu

/-- An emulator as it is made: nothing is loaded, and nothing has run. -/
def fresh (device : Device σ) (world : σ) (threshold : Level) : Emulator σ :=
  { device := device, world := world, threshold := threshold }

/-! ## Sessions -/

/-- A phase that has run, between two states. -/
structure Phase (σ : Type) where
  before : Emulator σ
  step : Step
  after : Emulator σ

/-- The states that calls lead to from some first one, each with the phases that have run since the last reset, last
one first. -/
inductive Session (first : Emulator σ) : Emulator σ → List (Phase σ) → Prop
  | start : Session first first []
  | microstep {emu next : Emulator σ} {step : Step} {phases : List (Phase σ)} :
      Session first emu phases → emu.microstep = (next, some step) → Session first next (⟨emu, step, next⟩ :: phases)
  | load {emu next : Emulator σ} {origin : UInt16} {image : List UInt8} {phases : List (Phase σ)} :
      Session first emu phases → emu.load origin image = .ok next → Session first next phases
  | setEntry {emu : Emulator σ} {phases : List (Phase σ)} (entry : UInt16) :
      Session first emu phases → Session first (emu.setEntry entry) phases
  | poke {emu : Emulator σ} {phases : List (Phase σ)} (address : UInt16) (v : UInt8) :
      Session first emu phases → Session first { emu with cpu := emu.cpu.write address v } phases
  | set {emu : Emulator σ} {phases : List (Phase σ)} (state : RunState) (breakpoints : List UInt16)
      (maxCycles : Option Nat) : Session first emu phases →
        Session first { emu with state := state, breakpoints := breakpoints, maxCycles := maxCycles } phases
  | reset {emu next : Emulator σ} {reload : Bool} {phases : List (Phase σ)} :
      Session first emu phases → emu.reset reload = .ok next → Session first next []

namespace Session

variable {first : Emulator σ} {phases : List (Phase σ)}

theorem perform (h : Session first emu phases) (command : Command) :
    ∃ phases, Session first (emu.perform command) phases := by
  have hstep : ∀ emu next step, emu.microstep = (next, some step) →
      (∃ phases, Session first emu phases) → ∃ phases, Session first next phases := by
    rintro emu next step hm ⟨phases, h⟩
    exact ⟨_, h.microstep hm⟩
  cases command with
  | load origin image =>
    show ∃ phases, Session first ((emu.load origin image).toOption.getD emu) phases
    cases hl : emu.load origin image with
    | error fault => exact ⟨phases, h⟩
    | ok next => exact ⟨phases, h.load hl⟩
  | setEntry entry => exact ⟨phases, h.setEntry entry⟩
  | microstep => exact microstep_induction hstep ⟨phases, h⟩
  | stepInstruction => exact stepUpTo_induction hstep 5 ⟨phases, h⟩
  | run fuel => exact run_induction hstep fuel ⟨phases, h⟩
  | resume fuel => exact run_induction hstep fuel ⟨phases, h.set .running emu.breakpoints emu.maxCycles⟩
  | poke address v => exact ⟨phases, h.poke address v⟩
  | reset reload =>
    show ∃ phases, Session first ((emu.reset reload).toOption.getD emu) phases
    cases hr : emu.reset reload with
    | error fault => exact ⟨phases, h⟩
    | ok next => exact ⟨[], h.reset hr⟩
  | setState state => exact ⟨phases, h.set state emu.breakpoints emu.maxCycles⟩
  | setBreakpoints breakpoints => exact ⟨phases, h.set emu.state breakpoints emu.maxCycles⟩
  | setMaxCycles maxCycles => exact ⟨phases, h.set emu.state emu.breakpoints maxCycles⟩

/-- **Calls lead to states of a session.** -/
theorem performAll (first : Emulator σ) (commands : List Command) :
    ∃ phases, Session first (first.performAll commands) phases := by
  induction commands using List.reverseRecOn with
  | nil => exact ⟨[], .start⟩
  | append_singleton commands command ih =>
    obtain ⟨phases, h⟩ := ih
    rw [Emulator.performAll, List.foldl_append]
    exact h.perform command

end Session

end Octet.Emulator
