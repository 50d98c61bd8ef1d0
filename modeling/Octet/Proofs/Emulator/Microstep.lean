import Octet.Emulator.Basic
import Mathlib
/-!
One phase of an emulator, and runs of them.

* `run_succ`: a run of one phase more;
* `Unattended`: no device, no breakpoint and no cycle budget;
* `Unattended.microstep`: then a phase is one of the processor, and a completed instruction goes to the history.
-/

namespace Octet.Emulator

variable {σ : Type} {emu : Emulator σ}

/-! ## Runs -/

/-- The last phase of a run. -/
theorem run_succ {k : Nat} (h : (run k emu).state = .running) : run (k + 1) emu = (run k emu).microstep.1 := by
  induction k generalizing emu with
  | zero =>
    rw [run] at h ⊢
    exact if_pos h
  | succ k ih =>
    rw [run] at h
    by_cases hr : emu.state = .running
    · rw [if_pos hr] at h
      rw [run, if_pos hr, ih h, run, if_pos hr]
    · rw [if_neg hr] at h
      exact absurd h hr

/-! ## Without attendance -/

/-- Nothing changes the processor from outside, and nothing stops it. -/
structure Unattended (emu : Emulator σ) : Prop where
  running : emu.state = .running
  breakpoints : emu.breakpoints = []
  maxCycles : emu.maxCycles = none
  device : emu.device = Device.none

theorem checkBudget_of_none (h : emu.maxCycles = none) : emu.checkBudget = emu := by
  rw [checkBudget, h]

/-- The instruction that has just ended. -/
def executed (emu : Emulator σ) : Executed :=
  ⟨emu.started, emu.cpu.registers.fetched, emu.cpu.currentInstruction.toOption⟩

theorem complete_of_nil (h : emu.breakpoints = []) :
    emu.complete = { emu with history := emu.history.push emu.executed }.note [⟨.debug, ">>> " ++ emu.executed.text⟩] := by
  rw [complete]
  simp only [noteText_eq]
  refine if_neg ?_
  show emu.cpu.registers.pc ∉ emu.breakpoints
  rw [h]
  exact List.not_mem_nil

namespace Unattended

/-- **A phase is one of the processor.** -/
theorem microstep (h : emu.Unattended) {world : σ} {cpu : Cpu} {step : Step}
    (hs : emu.cpu.step Device.none emu.world = (world, cpu, step)) :
    ∃ next, emu.microstep = (next, some step) ∧ next.Unattended ∧ next.cpu = cpu ∧ next.world = world ∧
      next.started = (if emu.cpu.phase = 0 then emu.cpu.registers.pc else emu.started) ∧
      next.history = if step.completed then emu.history.push next.executed else emu.history := by
  have hrunning : ¬ emu.state = .halted := by
    rw [h.running]
    exact RunState.noConfusion
  rw [Emulator.microstep, if_neg hrunning, advance, h.device, hs]
  dsimp only
  cases hc : step.completed with
  | false =>
    rw [if_neg Bool.false_ne_true, checkBudget_of_none]
    · exact ⟨_, rfl, ⟨h.running, h.breakpoints, h.maxCycles, rfl⟩, rfl, rfl, rfl, rfl⟩
    · exact h.maxCycles
  | true =>
    rw [if_pos rfl, complete_of_nil, checkBudget_of_none]
    · exact ⟨_, rfl, ⟨h.running, h.breakpoints, h.maxCycles, rfl⟩, rfl, rfl, rfl, rfl⟩
    · exact h.maxCycles
    · exact h.breakpoints

end Unattended

end Octet.Emulator
