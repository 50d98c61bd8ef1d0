import Octet.Proofs.Emulator.Session
import Octet.Proofs.Outcomes
/-!
The cycle budget, and emulators that are halted.

* `Bounded`: the budget is not passed by more than some phases, and who has used it up is halted;
* `Bounded.performAll`: calls keep it, but each time that a halted emulator is resumed lets one phase more through;
* `run_ends`: under a budget a run comes to its end;
* `performAll_of_halted`: what calls do to an emulator that is halted;
* `budget_limits`: all of that, for every sequence of calls.
-/

namespace Octet.Emulator

variable {σ : Type} {emu next : Emulator σ} {step : Step} {n k : Nat}

/-! ## Calls -/

namespace Command

/-- A call that leaves state, breakpoints and budget to the emulator. Runs may go on for more phases than the budget
has. -/
def KeepsBudget (n : Nat) : Command → Prop
  | .load _ _ | .setEntry _ | .microstep | .stepInstruction | .reset _ => True
  | .run fuel | .resume fuel => n < fuel
  | .poke _ _ | .setState _ | .setBreakpoints _ | .setMaxCycles _ => False

/-- A call that lets a halted emulator go on. -/
def restarts : Command → Bool
  | .reset _ | .resume _ => true
  | _ => false

/-- A call that loads an image or sets the entry. -/
def places : Command → Bool
  | .load _ _ | .setEntry _ => true
  | _ => false

end Command

/-- Whether a call resumes a halted emulator. -/
def revives (emu : Emulator σ) : Command → Bool
  | .resume _ => emu.state = .halted
  | _ => false

/-- How often calls resume a halted emulator. -/
def revivals (emu : Emulator σ) : List Command → Nat
  | [] => 0
  | command :: rest => (emu.revives command).toNat + (emu.perform command).revivals rest

/-! ## The budget -/

/-- The budget is not passed by more than `k` phases, and an emulator that has used it up is halted. It is looked at
behind a phase only, so that a budget of 0 is one of 1. -/
structure Bounded (n k : Nat) (emu : Emulator σ) : Prop where
  maxCycles : emu.maxCycles = some n
  cycles : emu.cycles ≤ max n 1 + k
  halted : max n 1 ≤ emu.cycles → emu.state = .halted

theorem exhausted_eq (h : emu.maxCycles = some n) : emu.exhausted = decide (n ≤ emu.cycles) := by
  rw [exhausted, h]
  rfl

/-- Behind a phase an emulator that has used up the budget is halted. -/
theorem Steps.halted (hs : emu.Steps next step) (hmax : emu.maxCycles = some n) (hused : n ≤ next.cycles) :
    next.state = .halted := by
  rw [hs.state, exhausted_eq (hs.maxCycles.trans hmax), decide_eq_true hused, if_pos rfl]

theorem Steps.bounded (hs : emu.Steps next step) (hmax : emu.maxCycles = some n) (hle : emu.cycles < max n 1 + k) :
    next.Bounded n k :=
  ⟨hs.maxCycles.trans hmax, by rw [hs.cycles]; omega, fun hused => hs.halted hmax (by omega)⟩

theorem run_of_halted (h : emu.state = .halted) (fuel : Nat) : run fuel emu = emu := by
  cases fuel with
  | zero => rfl
  | succ fuel => rw [run, h, if_neg RunState.noConfusion]

namespace Bounded

theorem microstep (h : emu.Bounded n k) (hm : emu.microstep = (next, some step)) : next.Bounded n k := by
  have hs := steps_of_microstep hm
  have hlt : emu.cycles < max n 1 := Nat.lt_of_not_le fun hused => hs.ran (h.halted hused)
  exact hs.bounded h.maxCycles (by omega)

theorem start (hmax : emu.maxCycles = some n) (hzero : emu.cycles = 0) : emu.Bounded n k :=
  ⟨hmax, by omega, fun hused => by omega⟩

/-- **A resumption** lets one phase through if the emulator was halted, whatever the budget. -/
theorem resume (h : emu.Bounded n k) {fuel : Nat} (hfuel : n < fuel) :
    (emu.resume fuel).Bounded n (k + (emu.revives (.resume fuel)).toNat) := by
  have hrun (bound : Nat) (first : Emulator σ) (hfirst : first.Bounded n bound) (fuel : Nat) :
      (run fuel first).Bounded n bound := run_induction (fun _ _ _ hm hb => hb.microstep hm) fuel hfirst
  obtain ⟨fuel, rfl⟩ : ∃ f, fuel = f + 1 := ⟨fuel - 1, by omega⟩
  by_cases hhalted : emu.state = .halted
  · have hone : (emu.revives (.resume (fuel + 1))).toNat = 1 := by simp [revives, hhalted]
    rw [hone, Emulator.resume, run, if_pos rfl]
    rcases microstep_cases { emu with state := .running } with ⟨hnot, -⟩ | ⟨next, step, hm, hs⟩
    · cases hnot
    · rw [hm]
      exact hrun _ _ (hs.bounded h.maxCycles (Nat.lt_succ_of_le h.cycles)) fuel
  · have hnone : (emu.revives (.resume (fuel + 1))).toNat = 0 := by simp [revives, hhalted]
    rw [hnone]
    refine hrun k { emu with state := .running } ⟨h.maxCycles, h.cycles, fun hused => ?_⟩ (fuel + 1)
    exact absurd (h.halted hused) hhalted

theorem perform (h : emu.Bounded n k) {command : Command} (hc : command.KeepsBudget n) :
    (emu.perform command).Bounded n (k + (emu.revives command).toNat) := by
  have hstep : ∀ (emu next : Emulator σ) step, emu.microstep = (next, some step) → emu.Bounded n k → next.Bounded n k :=
    fun _ _ _ hm hb => hb.microstep hm
  cases command with
  | load origin image =>
    show ((emu.load origin image).toOption.getD emu).Bounded n k
    cases hl : emu.load origin image with
    | error fault => exact h
    | ok next =>
      obtain ⟨cpu, -, hl⟩ := Except.bind_eq_ok.1 hl
      cases hl
      exact ⟨h.maxCycles, h.cycles, h.halted⟩
  | setEntry entry => exact ⟨h.maxCycles, h.cycles, h.halted⟩
  | microstep => exact microstep_induction hstep h
  | stepInstruction => exact stepUpTo_induction hstep 5 h
  | run fuel => exact run_induction hstep fuel h
  | resume fuel => exact h.resume hc
  | reset reload =>
    show ((emu.reset reload).toOption.getD emu).Bounded n k
    cases hr : emu.reset reload with
    | error fault => exact h
    | ok next =>
      unfold Emulator.reset at hr
      cases reload with
      | false =>
        cases hr
        exact .start h.maxCycles rfl
      | true =>
        obtain ⟨cpu, -, hr⟩ := Except.bind_eq_ok.1 hr
        cases hr
        exact .start h.maxCycles rfl
  | poke | setState | setBreakpoints | setMaxCycles => exact absurd hc id

/-- **Calls keep to the budget**, but for one phase each time that a halted emulator is resumed. -/
theorem performAll (h : emu.Bounded n k) {commands : List Command} (hc : ∀ c ∈ commands, c.KeepsBudget n) :
    (emu.performAll commands).Bounded n (k + emu.revivals commands) := by
  induction commands generalizing emu k with
  | nil => exact h
  | cons command commands ih =>
    obtain ⟨hcommand, hcommands⟩ := List.forall_mem_cons.1 hc
    rw [revivals, ← Nat.add_assoc]
    exact ih (h.perform hcommand) hcommands

end Bounded

/-! ## Ends of runs -/

/-- **Under a budget a run comes to its end**: at the latest when the budget is used up, and behind one phase if it is
used up from the start. -/
theorem run_ends {fuel : Nat} (hmax : emu.maxCycles = some n) (hfuel : max (n - emu.cycles) 1 ≤ fuel) :
    (run fuel emu).state ≠ .running := by
  induction fuel generalizing emu with
  | zero => omega
  | succ fuel ih =>
    rw [run]
    split
    · rename_i hrunning
      rcases emu.microstep_cases with ⟨hhalted, -⟩ | ⟨next, step, hsome, hs⟩
      · rw [hrunning] at hhalted
        cases hhalted
      have hcycles := hs.cycles
      rw [hsome]
      by_cases hused : n ≤ next.cycles
      · have hhalted := hs.halted hmax hused
        rw [run_of_halted hhalted, hhalted]
        exact RunState.noConfusion
      · have hleft : max (n - next.cycles) 1 ≤ fuel := by omega
        exact ih (hs.maxCycles.trans hmax) hleft
    · assumption

/-! ## Halted emulators -/

/-- What a call does to a halted emulator: those that run something do nothing. -/
theorem perform_of_halted (h : emu.state = .halted) {command : Command} (hc : command.KeepsBudget n)
    (hr : command.restarts = false) :
    (emu.perform command).state = .halted ∧ (emu.perform command).cycles = emu.cycles ∧
      (command.places = false → emu.perform command = emu) := by
  have hnone : emu.microstep = (emu, none) := if_pos h
  cases command with
  | load origin image =>
    show ((emu.load origin image).toOption.getD emu).state = _ ∧ ((emu.load origin image).toOption.getD emu).cycles = _ ∧ _
    refine and_assoc.1 ⟨?_, fun hp => Bool.noConfusion hp⟩
    cases hl : emu.load origin image with
    | error fault => exact ⟨h, rfl⟩
    | ok next =>
      obtain ⟨cpu, -, hl⟩ := Except.bind_eq_ok.1 hl
      cases hl
      exact ⟨h, rfl⟩
  | setEntry entry => exact ⟨h, rfl, fun hp => Bool.noConfusion hp⟩
  | microstep =>
    have hsame : emu.perform .microstep = emu := congrArg Prod.fst hnone
    rw [hsame]
    exact ⟨h, rfl, fun _ => rfl⟩
  | stepInstruction =>
    have hsame : emu.perform .stepInstruction = emu := by
      show stepUpTo 5 emu = emu
      rw [stepUpTo, hnone]
    rw [hsame]
    exact ⟨h, rfl, fun _ => rfl⟩
  | run fuel =>
    have hsame : emu.perform (.run fuel) = emu := run_of_halted h fuel
    rw [hsame]
    exact ⟨h, rfl, fun _ => rfl⟩
  | resume | reset => cases hr
  | poke | setState | setBreakpoints | setMaxCycles => exact absurd hc id

/-- **A halted emulator stays as it is.** Until it is reset or resumed only images and the entry change its
processor. -/
theorem performAll_of_halted (h : emu.state = .halted) {commands : List Command}
    (hc : ∀ c ∈ commands, c.KeepsBudget n ∧ c.restarts = false) :
    (emu.performAll commands).state = .halted ∧ (emu.performAll commands).cycles = emu.cycles ∧
      emu.performAll commands = emu.performAll (commands.filter Command.places) := by
  induction commands generalizing emu with
  | nil => exact ⟨h, rfl, rfl⟩
  | cons command commands ih =>
    obtain ⟨⟨hbudget, hrestarts⟩, hcommands⟩ := List.forall_mem_cons.1 hc
    obtain ⟨hstate, hcycles, hsame⟩ := perform_of_halted h hbudget hrestarts
    obtain ⟨hlast, hcount, hplaced⟩ := ih hstate hcommands
    refine ⟨hlast, hcount.trans hcycles, ?_⟩
    cases hp : command.places with
    | true =>
      rw [List.filter_cons_of_pos hp]
      exact hplaced
    | false =>
      rw [List.filter_cons_of_neg (by rw [hp]; exact Bool.false_ne_true)]
      refine hplaced.trans ?_
      rw [hsame hp]

/-- **To resume a halted emulator** whose budget is used up is to run one phase. -/
theorem resume_of_exhausted {fuel : Nat} (hmax : emu.maxCycles = some n) (hused : n ≤ emu.cycles) (hfuel : 0 < fuel) :
    ∃ next step, { emu with state := .running }.microstep = (next, some step) ∧ emu.resume fuel = next ∧
      next.cycles = emu.cycles + 1 ∧ next.state = .halted := by
  obtain ⟨fuel, rfl⟩ : ∃ f, fuel = f + 1 := ⟨fuel - 1, by omega⟩
  rcases microstep_cases { emu with state := .running } with ⟨hnot, -⟩ | ⟨next, step, hm, hs⟩
  · cases hnot
  · have hcycles : next.cycles = emu.cycles + 1 := hs.cycles
    have hhalted : next.state = .halted := hs.halted hmax (by omega)
    refine ⟨next, step, hm, ?_, hcycles, hhalted⟩
    rw [resume, run, if_pos rfl, hm, run_of_halted hhalted]

/-! ## Sequences of calls -/

/-- **What a budget bounds.** From a start with no cycle counted, calls run at most the phases of the budget, or one if
there are none, and one more each time that a halted emulator is resumed. So a budget that is not 0 holds as long as
this is not done. Every run comes to its end. Once the emulator is halted, it stays so until it is reset or resumed, no
cycle is counted, and only images and the entry change anything; a resumption runs one phase if the budget is used up. -/
theorem budget_limits {emu last : Emulator σ} {n : Nat} {commands : List Command} (hmax : emu.maxCycles = some n)
    (hzero : emu.cycles = 0) (hc : ∀ c ∈ commands, c.KeepsBudget n) (hlast : last = emu.performAll commands) :
    last.cycles ≤ max n 1 + emu.revivals commands ∧
    (0 < n → emu.revivals commands = 0 → last.cycles ≤ n) ∧
    (∀ fuel, n < fuel → (run fuel last).state ≠ .running ∧ (last.resume fuel).state ≠ .running) ∧
    (max n 1 ≤ last.cycles → last.state = .halted) ∧
    (last.state = .halted →
      (∀ more : List Command, (∀ c ∈ more, c.KeepsBudget n ∧ c.restarts = false) →
        (last.performAll more).state = .halted ∧ (last.performAll more).cycles = last.cycles ∧
          last.performAll more = last.performAll (more.filter Command.places)) ∧
      ∀ fuel, 0 < fuel → n ≤ last.cycles → ∃ next step,
        { last with state := .running }.microstep = (next, some step) ∧ last.resume fuel = next ∧
          next.cycles = last.cycles + 1 ∧ next.state = .halted) := by
  have hbounded : last.Bounded n (0 + emu.revivals commands) := hlast ▸ (Bounded.start hmax hzero).performAll hc
  rw [Nat.zero_add] at hbounded
  have hle := hbounded.cycles
  refine ⟨hle, ?_, ?_, hbounded.halted, ?_⟩
  · intro hn hnone
    omega
  · intro fuel hfuel
    exact ⟨run_ends hbounded.maxCycles (by omega), run_ends (n := n) hbounded.maxCycles (by omega)⟩
  · intro hhalted
    exact ⟨fun more hmore => performAll_of_halted hhalted hmore,
      fun fuel hfuel hused => resume_of_exhausted hbounded.maxCycles hused hfuel⟩

/-- A fresh emulator with a budget. -/
def budgeted (n : Nat) : Emulator Unit := { fresh Device.none () .info with maxCycles := some n }

theorem budget_limits_reset :
    let commands : List Command := [.load 0x8000 [0x03, 0x00, 0x05], .setEntry 0x8000, .run 5, .stepInstruction,
      .reset true, .run 5, .microstep]
    (budgeted 4).maxCycles = some 4 ∧ (budgeted 4).cycles = 0 ∧ (∀ c ∈ commands, c.KeepsBudget 4) ∧
      ((budgeted 4).performAll commands).cycles ≤ 4 ∧ (run 5 ((budgeted 4).performAll commands)).state ≠ .running := by
  intro commands
  have hc : ∀ c ∈ commands, c.KeepsBudget 4 := by simp [commands, Command.KeepsBudget]
  have hnone : (budgeted 4).revivals commands = 0 := by simp [commands, revivals, revives]
  obtain ⟨-, hle, hends, -⟩ := @budget_limits _ (budgeted 4) _ 4 commands rfl rfl hc rfl
  exact ⟨rfl, rfl, hc, hle (by decide) hnone, (hends 5 (by decide)).1⟩

/-- **A budget does not hold out against a resumption, nor does one of 0 against the first phase.** An emulator with a
budget of one phase is halted behind it; resumed, it runs another one. -/
theorem not_limited_by_budget :
    ((budgeted 1).performAll [.microstep]).state = .halted ∧ ((budgeted 1).performAll [.microstep]).cycles = 1 ∧
    ((budgeted 1).performAll [.microstep, .resume 2]).cycles = 2 ∧
    ((budgeted 0).performAll [.microstep]).cycles = 1 := by
  have hone (emu : Emulator Unit) : emu.performAll [.microstep] = emu.microstep.1 := rfl
  have hfirst (n : Nat) : ((budgeted n).performAll [.microstep]).cycles = 1 ∧
      ((budgeted n).performAll [.microstep]).Bounded n 0 := by
    have hstart : (budgeted n).Bounded n 0 := .start rfl rfl
    obtain ⟨next, step, hm, hs⟩ := (budgeted n).microstep_cases.resolve_left fun h => RunState.noConfusion h.1
    rw [hone, hm]
    exact ⟨hs.cycles, hstart.microstep hm⟩
  obtain ⟨hcycles, hbounded⟩ := hfirst 1
  obtain ⟨next, step, -, hresume, hmore, -⟩ :=
    resume_of_exhausted hbounded.maxCycles (Nat.le_of_eq hcycles.symm) (show 0 < 2 by decide)
  refine ⟨hbounded.halted (Nat.le_of_eq hcycles.symm), hcycles, ?_, (hfirst 0).1⟩
  have hboth (emu : Emulator Unit) :
      emu.performAll [.microstep, .resume 2] = (emu.performAll [.microstep]).resume 2 := rfl
  rw [hboth, hresume, hmore, hcycles]

end Octet.Emulator
