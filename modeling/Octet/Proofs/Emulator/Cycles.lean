import Octet.Proofs.Emulator.Session
import Octet.Proofs.Machine.Bookkeeping
/-!
The cycle count of an emulator, and the end of single instructions.

* `Session.counted`: the cycles are those of the instructions that were completed, and the phase;
* `StepsOut`: phases until one ends an instruction or the emulator is halted;
* `exists_stepsOut`: five of them are enough;
* `phase_bookkeeping`: all that is counted, of the processor and of the emulator.
-/

namespace Octet

namespace Emulator

variable {σ : Type} {emu first next : Emulator σ} {phases : List (Phase σ)}

/-! ## Cycles -/

/-- The operations of the instructions that some phases completed. -/
def completed (phases : List (Phase σ)) : List Opcode :=
  (phases.filter (·.step.completed)).map (·.after.cpu.operation)

def completedCycles (phases : List (Phase σ)) : Nat := ((completed phases).map Opcode.cycles).sum

theorem completedCycles_cons (p : Phase σ) (phases : List (Phase σ)) :
    completedCycles (p :: phases) =
      (if p.step.completed then p.after.cpu.operation.cycles else 0) + completedCycles phases := by
  unfold completedCycles completed
  cases h : p.step.completed with
  | false => simp [h]
  | true => simp [h]

/-- The processor is consistent, and the cycles are accounted for. -/
structure Counted (emu : Emulator σ) (phases : List (Phase σ)) : Prop where
  consistent : emu.cpu.Consistent
  cycles : emu.cycles = completedCycles phases + emu.cpu.phase

namespace Counted

/-- **One phase more.** -/
theorem microstep {step : Step} (h : emu.Counted phases) (hm : emu.microstep = (next, some step)) :
    next.Counted (⟨emu, step, next⟩ :: phases) := by
  have hs := steps_of_microstep hm
  obtain ⟨hnext, hcompleted, hphase, -⟩ := h.consistent.step hs.cpu
  refine ⟨hnext, ?_⟩
  rw [hs.cycles, h.cycles, completedCycles_cons, hphase]
  cases hc : step.completed with
  | false =>
    simp only [Bool.false_eq_true, if_false]
    omega
  | true =>
    rw [hc] at hcompleted
    have hlast : emu.cpu.phase + 1 = next.cpu.operation.cycles := of_decide_eq_true hcompleted.symm
    simp only [if_true]
    omega

/-- What leaves the bookkeeping of the processor and the count alone changes nothing here. -/
theorem keeps (h : emu.Counted phases) (hkeeps : emu.cpu.Keeps next.cpu) (hphase : next.cpu.phase = emu.cpu.phase)
    (hcycles : next.cycles = emu.cycles) : next.Counted phases :=
  ⟨h.consistent.keeps hphase hkeeps, by rw [hcycles, hphase, h.cycles]⟩

end Counted

theorem load_eq_ok {origin : UInt16} {image : List UInt8} (h : emu.load origin image = .ok next) :
    emu.cpu.load origin image = .ok next.cpu ∧
      next = { emu with cpu := next.cpu, images := next.images, log := next.log } := by
  rw [load] at h
  obtain ⟨cpu, hcpu, h⟩ := Except.bind_eq_ok.1 h
  cases h
  exact ⟨hcpu, rfl⟩

theorem phase_loadAll {cpu cpu' : Cpu} {images : List (UInt16 × List UInt8)} (h : loadAll cpu images = .ok cpu') :
    cpu'.phase = cpu.phase := by
  induction images generalizing cpu with
  | nil =>
    cases h
    rfl
  | cons p images ih =>
    rw [loadAll] at h
    obtain ⟨middle, hload, h⟩ := Except.bind_eq_ok.1 h
    exact (ih h).trans (Cpu.Keeps.load hload).2

theorem reset_eq_ok {reload : Bool} (h : emu.reset reload = .ok next) :
    next.cpu.phase = 0 ∧ next = { emu with
      cpu := next.cpu, cycles := 0, history := {}, images := next.images, state := next.state, log := next.log } := by
  unfold reset at h
  cases reload with
  | false =>
    cases h
    exact ⟨rfl, rfl⟩
  | true =>
    obtain ⟨cpu, hcpu, h⟩ := Except.bind_eq_ok.1 h
    obtain ⟨cpu', hload, rfl⟩ := Except.map_eq_ok.1 hcpu
    cases h
    exact ⟨phase_loadAll hload, rfl⟩

/-- **The cycles are those of the instructions that were completed, and the phase.** -/
theorem Session.counted (h : Session first emu phases) (hcpu : first.cpu = {}) (hcycles : first.cycles = 0) :
    emu.Counted phases := by
  induction h with
  | start => exact ⟨.zero (by rw [hcpu]), by rw [hcpu, hcycles]; rfl⟩
  | microstep _ hm ih => exact ih.microstep hm
  | load _ hl ih =>
    obtain ⟨hload, hsame⟩ := load_eq_ok hl
    obtain ⟨hkeeps, hphase⟩ := Cpu.Keeps.load hload
    exact ih.keeps hkeeps hphase (hsame ▸ rfl)
  | setEntry entry _ ih => exact ih.keeps ⟨rfl, rfl⟩ rfl rfl
  | poke address v _ ih => exact ih.keeps (.write _ address v) rfl rfl
  | set state breakpoints maxCycles _ ih => exact ⟨ih.consistent, ih.cycles⟩
  | @reset _ next _ _ _ hr _ =>
    obtain ⟨hphase, hzero⟩ := reset_eq_ok hr
    have hzero : next.cycles = 0 := congrArg cycles hzero
    exact ⟨.zero hphase, by rw [hzero, hphase]; rfl⟩

/-! ## Single instructions -/

/-- Phases until one ends an instruction or the emulator is halted, with their number. -/
inductive StepsOut : Emulator σ → Nat → Emulator σ → Prop
  | halted {emu next : Emulator σ} : emu.microstep = (next, none) → StepsOut emu 1 next
  | completed {emu next : Emulator σ} {step : Step} : emu.microstep = (next, some step) → step.completed = true →
      StepsOut emu 1 next
  | more {emu next last : Emulator σ} {step : Step} {n : Nat} : emu.microstep = (next, some step) →
      step.completed = false → StepsOut next n last → StepsOut emu (n + 1) last

/-- A bound on the phases that are left of an instruction, the first one included. -/
def remaining (cpu : Cpu) : Nat := if cpu.phase = 0 then 5 else cpu.operation.cycles - cpu.phase

/-- **The phases that are left are enough.** -/
theorem exists_stepsOut {n : Nat} (h : emu.cpu.Consistent) (hn : remaining emu.cpu ≤ n) :
    ∃ k, k ≤ n ∧ emu.StepsOut k (stepUpTo n emu) := by
  induction n generalizing emu with
  | zero =>
    have hpos : 0 < remaining emu.cpu := by
      unfold remaining
      split
      · omega
      · rename_i hphase
        have := h.phase hphase
        omega
    omega
  | succ n ih =>
    rw [stepUpTo]
    rcases emu.microstep_cases with ⟨-, hnone⟩ | ⟨next, step, hsome, hs⟩
    · rw [hnone]
      exact ⟨1, by omega, .halted hnone⟩
    · rw [hsome]
      obtain ⟨hnext, hcompleted, hphase, hop⟩ := h.step hs.cpu
      cases hc : step.completed with
      | true =>
        refine ⟨1, by omega, ?_⟩
        dsimp only
        rw [if_pos hc]
        exact .completed hsome hc
      | false =>
        rw [hc, if_neg Bool.false_ne_true] at hphase
        have hleft : remaining next.cpu ≤ n := by
          have hle := next.cpu.operation.cycles_le
          have hne : next.cpu.phase ≠ 0 := by omega
          rw [remaining, if_neg hne, hphase]
          unfold remaining at hn
          split at hn
          · omega
          · rename_i hstarted
            rw [hop hstarted]
            omega
        obtain ⟨k, hk, hrest⟩ := ih hnext hleft
        refine ⟨k + 1, by omega, ?_⟩
        dsimp only
        rw [if_neg (Bool.eq_false_iff.1 hc)]
        exact .more hsome hc hrest

end Emulator

/-- **The phases are counted right.** In every state that moves lead to, an instruction that has been started is not past
its last phase, the latch is that of its opcode byte, and in an execute phase the number of the micro-operation is in
range; an instruction ends in the phase that its opcode byte says, and in none before it. In every state that a session
leads to, the cycles are those of the instructions completed since the last reset, and the phase; a step over an
instruction ends after at most five phases. Every sequence of calls is a session. -/
theorem phase_bookkeeping {σ : Type} :
    (∀ (ms : List (Cpu.Move σ)) (cpu : Cpu), cpu = (({} : Cpu).moves ms).1 →
      (cpu.phase ≠ 0 → cpu.phase < cpu.operation.cycles ∧
        cpu.hasSecondByte = cpu.operation.shape.hasSecondByte) ∧
      (2 ≤ cpu.phase → ¬ (cpu.phase = 2 ∧ cpu.hasSecondByte) →
        cpu.fetches ≤ cpu.phase ∧ cpu.phase - cpu.fetches < cpu.operation.microcode.length) ∧
      (cpu.phase = 0 → ∀ (device : Device σ) world rest steps operation, (∀ m ∈ rest, m ≠ .reset) →
        steps = (cpu.moves (.step device world :: rest)).2 →
        operation = (cpu.step device world).2.1.operation → steps.length ≤ operation.cycles →
        steps.map (·.completed) = (List.range steps.length).map fun i => decide (i + 1 = operation.cycles))) ∧
    (∀ device world threshold (emu : Emulator σ) phases,
      (Emulator.fresh device world threshold).Session emu phases →
        emu.cycles = Emulator.completedCycles phases + emu.cpu.phase ∧
        ∃ n, n ≤ 5 ∧ emu.StepsOut n emu.stepInstruction) ∧
    ∀ (device : Device σ) world threshold commands, ∃ phases,
      (Emulator.fresh device world threshold).Session
        ((Emulator.fresh device world threshold).performAll commands) phases := by
  refine ⟨?_, ?_, ?_⟩
  · rintro ms cpu rfl
    have h : (({} : Cpu).moves ms).1.Consistent := Cpu.Consistent.moves (.zero rfl) ms
    refine ⟨fun hphase => ⟨h.phase hphase, h.second hphase⟩, h.index, ?_⟩
    rintro hphase device world rest steps operation hr rfl rfl hk
    rcases hs : (({} : Cpu).moves ms).1.step device world with ⟨world', next, s⟩
    rw [Cpu.moves_step hs, hs] at hk
    rw [Cpu.moves_step hs, List.length_cons, Nat.add_comm]
    rw [List.length_cons, Nat.add_comm] at hk
    exact h.completed_moves_of_step hphase hs hr hk
  · intro device world threshold emu phases h
    have hcounted := h.counted rfl rfl
    have hleft : Emulator.remaining emu.cpu ≤ 5 := by
      have hle := emu.cpu.operation.cycles_le
      unfold Emulator.remaining
      split <;> omega
    exact ⟨hcounted.cycles, Emulator.exists_stepsOut hcounted.consistent hleft⟩
  · intro device world threshold commands
    exact Emulator.Session.performAll _ commands

/-- Three phases, with a write and a jump between them. -/
def interrupted : List (Cpu.Move Unit) :=
  [.step Device.none (), .write 0 0xFF, .step Device.none (), .setPc 7, .step Device.none ()]

theorem phase_bookkeeping_interrupted :
    (({} : Cpu).moves interrupted).2.map (·.completed) = [false, false, true] ∧
    ∃ (emu : Emulator Unit) (phases : List (Emulator.Phase Unit)),
      (Emulator.fresh Device.none () .info).Session emu phases ∧
      emu = (Emulator.fresh Device.none () .info).performAll [.stepInstruction, .poke 0 0xFF, .microstep] ∧
      emu.cycles = Emulator.completedCycles phases + emu.cpu.phase ∧
      ∃ n, n ≤ 5 ∧ emu.StepsOut n emu.stepInstruction := by
  obtain ⟨hcpu, hemulator, hsessions⟩ := phase_bookkeeping (σ := Unit)
  constructor
  · obtain ⟨-, -, hstart⟩ := hcpu [] {} rfl
    obtain ⟨s, hs, -⟩ := Cpu.exists_step_started (show ({} : Cpu).phase = 0 from rfl) ()
    have hop : Opcode.lw = (({} : Cpu).step Device.none ()).2.1.operation := by
      rw [hs]
      show Opcode.lw = Opcode.ofByte (Memory.zero.read 0)
      rw [Memory.read_zero]
      rfl
    have hreset : ∀ m ∈ interrupted.tail, m ≠ .reset := by simp [interrupted]
    exact hstart rfl Device.none () interrupted.tail _ .lw hreset rfl hop (Nat.le_refl 3)
  · obtain ⟨phases, hsession⟩ := hsessions Device.none () .info [.stepInstruction, .poke 0 0xFF, .microstep]
    obtain ⟨hcycles, hsteps⟩ := hemulator Device.none () .info _ phases hsession
    exact ⟨_, phases, hsession, rfl, hcycles, hsteps⟩

end Octet
