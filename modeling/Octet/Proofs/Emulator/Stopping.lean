import Octet.Proofs.Emulator.Session
import Octet.Proofs.Machine.Bookkeeping
/-!
Where a run stops.

* `ahead`: what the processor would do on its own, with nothing that stops it;
* `spends`, `breaks`: reasons to stop behind a phase, read off that;
* `Ran`: what some phases make of an emulator, its state apart;
* `Ran.step`: one phase more, and the state that it leads to;
* `run_stops`: a run ends behind the first phase that gives a reason, and nowhere else.
-/

namespace Octet

namespace Cpu

theorem phase_executePhase (cpu : Cpu) (h : cpu.executePhase.2.completed = true) : cpu.executePhase.1.phase = 0 := by
  revert h
  unfold executePhase
  dsimp only
  split
  · exact fun h => if_pos h
  · exact fun h => if_pos h

/-- After the last phase of an instruction the next one is due, whatever state the processor was in. -/
theorem phase_of_completed {σ : Type} {device : Device σ} {world world' : σ} {cpu next : Cpu} {s : Step}
    (hs : cpu.step device world = (world', next, s)) (hc : s.completed = true) : next.phase = 0 := by
  unfold Cpu.step at hs
  split at hs
  · cases hs
    cases hc
  · cases hs
    cases hc
  · split at hs
    · cases hs
      cases hc
    · cases hs
      exact cpu.phase_executePhase hc

end Cpu

namespace Emulator

variable {σ : Type} {emu last next : Emulator σ} {s : Step} {k : Nat}

/-! ## Reasons to stop -/

/-- Some phases of the processor on its own: the state of the device after them, the processor, and what happened. -/
def ahead (emu : Emulator σ) (k : Nat) : σ × Cpu × List Step := Cpu.runPhases emu.device k emu.world emu.cpu

/-- The budget is used up behind phase number `k`. -/
def spends (emu : Emulator σ) (k : Nat) : Bool := emu.maxCycles.any fun limit => limit ≤ emu.cycles + k

/-- Phase number `k` ends an instruction, and `PC` is at a breakpoint then. -/
def breaks (emu : Emulator σ) (k : Nat) : Bool :=
  (emu.ahead k).2.2.getLast?.any (·.completed) && (emu.ahead k).2.1.registers.pc ∈ emu.breakpoints

def stops (emu : Emulator σ) (k : Nat) : Bool := emu.spends k || emu.breaks k

theorem ahead_succ {world world' : σ} {cpu next : Cpu} {steps : List Step} (h : emu.ahead k = (world, cpu, steps))
    (hs : cpu.step emu.device world = (world', next, s)) : emu.ahead (k + 1) = (world', next, steps ++ [s]) :=
  Cpu.runPhases_add h (Cpu.runPhases_succ hs rfl)

theorem exists_ahead_succ (emu : Emulator σ) (k : Nat) : ∃ world next s,
    (emu.ahead k).2.1.step emu.device (emu.ahead k).1 = (world, next, s) ∧
      emu.ahead (k + 1) = (world, next, (emu.ahead k).2.2 ++ [s]) :=
  ⟨_, _, _, rfl, ahead_succ rfl rfl⟩

/-! ## Runs -/

/-- What some phases make of an emulator, its state apart. -/
structure Ran (emu last : Emulator σ) (k : Nat) : Prop where
  processor : ∃ steps, emu.ahead k = (last.world, last.cpu, steps)
  cycles : last.cycles = emu.cycles + k
  device : last.device = emu.device
  breakpoints : last.breakpoints = emu.breakpoints
  maxCycles : last.maxCycles = emu.maxCycles

/-- **One phase more.** The budget comes before a breakpoint. -/
theorem Ran.step (h : emu.Ran last k) (hs : last.Steps next s) :
    emu.Ran next (k + 1) ∧ next.state =
      if emu.spends (k + 1) then .halted else if emu.breaks (k + 1) then .paused else last.state := by
  obtain ⟨steps, hahead⟩ := h.processor
  have hcpu := hs.cpu
  rw [h.device] at hcpu
  have hnext := ahead_succ hahead hcpu
  have hcycles : next.cycles = emu.cycles + (k + 1) := by rw [hs.cycles, h.cycles, Nat.add_assoc]
  have hmax : next.maxCycles = emu.maxCycles := hs.maxCycles.trans h.maxCycles
  have hspends : emu.spends (k + 1) = next.exhausted := by rw [exhausted, hcycles, hmax, spends]
  have hbreaks : emu.breaks (k + 1) = decide (s.completed ∧ next.cpu.registers.pc ∈ last.breakpoints) := by
    rw [breaks, hnext, h.breakpoints, List.getLast?_concat, Bool.decide_and, Bool.decide_eq_true]
    rfl
  refine ⟨⟨⟨_, hnext⟩, hcycles, hs.device.trans h.device, hs.breakpoints.trans h.breakpoints, hmax⟩, ?_⟩
  rw [hs.state, hspends, hbreaks]
  simp only [decide_eq_true_eq]

theorem run_of_not_running (h : emu.state ≠ .running) (fuel : Nat) : run fuel emu = emu := by
  cases fuel with
  | zero => rfl
  | succ fuel => rw [run, if_neg h]

/-- A run that has ended is not changed by more fuel. -/
theorem run_add (emu : Emulator σ) (k more : Nat) : run (k + more) emu = run more (run k emu) := by
  induction k generalizing emu with
  | zero => rw [Nat.zero_add, run]
  | succ k ih =>
    rw [Nat.succ_add, run, run]
    split
    · exact ih _
    · rename_i h
      exact (run_of_not_running h more).symm

/-- **A run goes on** as long as there is no reason to stop. -/
theorem run_of_not_stops (hrunning : emu.state = .running) (h : ∀ j, 0 < j → j ≤ k → emu.stops j = false) :
    (run k emu).state = .running ∧ emu.Ran (run k emu) k := by
  induction k with
  | zero => exact ⟨hrunning, ⟨[], rfl⟩, rfl, rfl, rfl, rfl⟩
  | succ k ih =>
    obtain ⟨hstate, hran⟩ := ih fun j hj hle => h j hj (Nat.le_succ_of_le hle)
    obtain ⟨hspends, hbreaks⟩ := Bool.or_eq_false_iff.1 (h (k + 1) (Nat.succ_pos k) Nat.le.refl)
    rcases (run k emu).microstep_cases with ⟨hhalted, -⟩ | ⟨next, s, hm, hs⟩
    · rw [hstate] at hhalted
      cases hhalted
    obtain ⟨hnext, hgoes⟩ := hran.step hs
    rw [run_succ hstate, hm]
    refine ⟨?_, hnext⟩
    rw [hgoes, hspends, hbreaks, hstate]
    rfl

/-- **A run ends** behind the first phase that gives a reason to stop. -/
theorem run_of_stops (hrunning : emu.state = .running) (h : ∀ j, 0 < j → j ≤ k → emu.stops j = false)
    (hstop : emu.stops (k + 1) = true) :
    emu.Ran (run (k + 1) emu) (k + 1) ∧ (run (k + 1) emu).state = if emu.spends (k + 1) then .halted else .paused := by
  obtain ⟨hstate, hran⟩ := run_of_not_stops hrunning h
  rcases (run k emu).microstep_cases with ⟨hhalted, -⟩ | ⟨next, s, hm, hs⟩
  · rw [hstate] at hhalted
    cases hhalted
  obtain ⟨hnext, hgoes⟩ := hran.step hs
  rw [run_succ hstate, hm]
  refine ⟨hnext, hgoes.trans ?_⟩
  cases hspends : emu.spends (k + 1) with
  | true => rfl
  | false =>
    have hbreaks : emu.breaks (k + 1) = true := by rwa [stops, hspends, Bool.false_or] at hstop
    rw [hbreaks]
    rfl

/-! ## Breakpoints -/

/-- **A breakpoint stops between two instructions.** -/
theorem phase_of_breaks (h : emu.breaks k = true) : (emu.ahead k).2.1.phase = 0 := by
  obtain ⟨hcompleted, -⟩ := Bool.and_eq_true_iff.1 h
  cases k with
  | zero => cases hcompleted
  | succ k =>
    obtain ⟨world, next, s, hs, hahead⟩ := emu.exists_ahead_succ k
    rw [hahead] at hcompleted ⊢
    rw [List.getLast?_concat] at hcompleted
    exact Cpu.phase_of_completed hs hcompleted

/-- The operation of the instruction that the first phase starts. -/
def firstOperation (emu : Emulator σ) : Opcode := (emu.ahead 1).2.1.operation

/-- Before its last phase the first instruction is underway. -/
theorem underway_ahead (hphase : emu.cpu.phase = 0) (hk : k < emu.firstOperation.cycles) :
    (emu.ahead k).2.1.Consistent ∧ (emu.ahead k).2.1.phase = k ∧
      ∀ world' next s, (emu.ahead k).2.1.step emu.device (emu.ahead k).1 = (world', next, s) →
        next.operation = emu.firstOperation := by
  induction k with
  | zero =>
    refine ⟨.zero hphase, hphase, fun world' next s hs => ?_⟩
    have hone : emu.ahead 1 = (world', next, [s]) := ahead_succ (k := 0) rfl hs
    rw [firstOperation, hone]
  | succ k ih =>
    obtain ⟨hconsistent, hcount, hop⟩ := ih (Nat.lt_of_succ_lt hk)
    obtain ⟨world, next, s, hs, hahead⟩ := emu.exists_ahead_succ k
    obtain ⟨hnext, hcompleted, hphase', -⟩ := hconsistent.step hs
    have hop' := hop world next s hs
    have hnot : ¬ (emu.ahead k).2.1.phase + 1 = next.operation.cycles := by
      rw [hcount, hop']
      exact Nat.ne_of_lt hk
    have hnext_phase : next.phase = k + 1 := by
      rw [hphase', hcompleted, decide_eq_false hnot, if_neg Bool.false_ne_true, hcount]
    rw [hahead]
    refine ⟨hnext, hnext_phase, fun world' last s' hs' => ?_⟩
    obtain ⟨-, -, -, hsame⟩ := hnext.step hs'
    rw [hsame (by omega), hop']

/-- **No breakpoint stops within the first instruction**, not even one where the run starts. -/
theorem cycles_le_of_breaks (hphase : emu.cpu.phase = 0) (h : emu.breaks k = true) :
    emu.firstOperation.cycles ≤ k := by
  obtain ⟨hlast, -⟩ := Bool.and_eq_true_iff.1 h
  by_contra hlt
  cases k with
  | zero => cases hlast
  | succ k =>
    obtain ⟨hconsistent, hcount, hop⟩ := underway_ahead hphase (k := k) (by omega)
    obtain ⟨world, next, s, hs, hahead⟩ := emu.exists_ahead_succ k
    obtain ⟨-, hcompleted, -⟩ := hconsistent.step hs
    rw [hahead, List.getLast?_concat] at hlast
    have hlast : s.completed = true := hlast
    rw [hcompleted, hop world next s hs, hcount, decide_eq_true_eq] at hlast
    omega

/-! ## Ends of runs -/

/-- The first phase that gives a reason to stop. -/
def StopsBehind (emu : Emulator σ) (k : Nat) : Prop := IsLeast {k | 0 < k ∧ emu.stops k = true} k

theorem exists_stopsBehind (h : ∃ k, 0 < k ∧ emu.stops k = true) : ∃ k, emu.StopsBehind k :=
  ⟨Nat.find h, Nat.find_spec h, fun _ hk => Nat.find_min' h hk⟩

theorem StopsBehind.not_before (h : emu.StopsBehind k) {j : Nat} (hpos : 0 < j) (hlt : j < k) :
    emu.stops j = false := by
  by_contra hne
  exact Nat.not_le_of_lt hlt (h.2 ⟨hpos, Bool.not_eq_false _ ▸ hne⟩)

/-- Some phase uses up a budget. -/
theorem exists_stopsBehind_of_budget (h : emu.maxCycles ≠ none) : ∃ k, emu.StopsBehind k := by
  obtain ⟨limit, hlimit⟩ := Option.ne_none_iff_exists'.1 h
  refine exists_stopsBehind ⟨limit + 1, Nat.succ_pos limit, ?_⟩
  have hspends : emu.spends (limit + 1) = true := by
    rw [spends, hlimit]
    exact decide_eq_true (by omega)
  rw [stops, hspends, Bool.true_or]

/-- **Where a run stops.** A run with phases enough ends behind the first phase that uses up the budget, or that ends an
instruction with `PC` at a breakpoint; device and processor are then those of that many phases of the processor, which
the cycles have grown by. The emulator is halted if the budget is used up, and paused otherwise. If it is paused, the
phase was the end of an instruction, and of none that a run from the start of an instruction had not run as a whole. If
no phase gives a reason to stop, the run never ends; with a budget some phase does. -/
theorem run_stops (hrunning : emu.state = .running) :
    (∀ k, emu.StopsBehind k → ∀ fuel,
      ((run fuel emu).state = .running ↔ fuel < k) ∧
      (k ≤ fuel → emu.Ran (run fuel emu) k ∧
        (run fuel emu).state = (if emu.spends k then .halted else .paused) ∧
        ((run fuel emu).state = .paused → emu.breaks k = true ∧ (run fuel emu).cpu.phase = 0 ∧
          (emu.cpu.phase = 0 → emu.firstOperation.cycles ≤ k)))) ∧
    ((∀ k, 0 < k → emu.stops k = false) → ∀ fuel, (run fuel emu).state = .running ∧ emu.Ran (run fuel emu) fuel) ∧
    (emu.maxCycles ≠ none → ∃ k, emu.StopsBehind k) := by
  refine ⟨fun k hk fuel => ?_, fun hnone fuel => run_of_not_stops hrunning fun j hj _ => hnone j hj,
    exists_stopsBehind_of_budget⟩
  obtain ⟨⟨hpos, hstop⟩, -⟩ := id hk
  obtain ⟨m, rfl⟩ := Nat.exists_eq_add_of_le' hpos
  obtain ⟨hran, hstate⟩ := run_of_stops hrunning (fun j hj hle => hk.not_before hj (Nat.lt_succ_of_le hle)) hstop
  have hended : (run (m + 1) emu).state ≠ .running := by
    rw [hstate]
    split <;> exact RunState.noConfusion
  have henough (hle : m + 1 ≤ fuel) : run fuel emu = run (m + 1) emu := by
    obtain ⟨more, rfl⟩ := Nat.exists_eq_add_of_le hle
    rw [run_add, run_of_not_running hended]
  refine ⟨⟨fun h => ?_, fun hlt => ?_⟩, fun hle => ?_⟩
  · by_contra hle
    rw [henough (Nat.le_of_not_lt hle)] at h
    exact hended h
  · exact (run_of_not_stops hrunning fun j hj hle => hk.not_before hj (Nat.lt_of_le_of_lt hle hlt)).1
  · rw [henough hle]
    refine ⟨hran, hstate, fun hpaused => ?_⟩
    have hspends : emu.spends (m + 1) = false := by
      by_contra hne
      rw [hstate, if_pos (Bool.not_eq_false _ ▸ hne)] at hpaused
      cases hpaused
    have hbreaks : emu.breaks (m + 1) = true := by rwa [stops, hspends, Bool.false_or] at hstop
    obtain ⟨steps, hahead⟩ := hran.processor
    have hphase := phase_of_breaks hbreaks
    rw [hahead] at hphase
    exact ⟨hbreaks, hphase, fun hstart => cycles_le_of_breaks hstart hbreaks⟩

/-- Starts on a breakpoint, with another one behind the first instruction, which is `LW B`. -/
def waiting (budget : Option Nat) : Emulator Unit :=
  { fresh Device.none () .info with breakpoints := [0, 2], maxCycles := budget }

/-- The first reason of such an emulator to stop is the second breakpoint, unless it has a budget of less than three. -/
theorem stopsBehind_waiting (budget : Option Nat) (h : ∀ n ∈ budget, 3 ≤ n) :
    (waiting budget).StopsBehind 3 ∧ (waiting budget).breaks 3 = true := by
  have hop : Opcode.ofByte ({} : Cpu).fetched = .lw := by
    show Opcode.ofByte (Memory.zero.read 0) = .lw
    rw [Memory.read_zero]
    rfl
  obtain ⟨s, hstart, -⟩ := Cpu.exists_step_started (show ({} : Cpu).phase = 0 from rfl) ()
  obtain ⟨hfetch, hunderway⟩ := (hop ▸ ({} : Cpu).underway_started).fetch (by decide) (by decide) Device.none ()
  obtain ⟨micro, hmicro, hexecute⟩ := hunderway.execute (by decide) (by decide) Device.none ()
  cases hmicro
  have hone : (waiting budget).ahead 1 = _ := Cpu.runPhases_succ hstart rfl
  have hthree : (waiting budget).ahead 3 = _ :=
    Cpu.runPhases_succ hstart (Cpu.runPhases_succ hfetch (Cpu.runPhases_succ hexecute rfl))
  have hfirst : (waiting budget).firstOperation = .lw := by
    rw [firstOperation, hone]
    exact hop
  have hbreaks : (waiting budget).breaks 3 = true := by
    have hpc : (({} : Cpu).started.fetchNext.execute .loadPointer).registers.pc = 2 :=
      Cpu.pc_execute_of_not_jumps fun hjump => MicroOp.noConfusion hjump.1
    rw [breaks, hthree]
    exact Bool.and_eq_true_iff.2 ⟨rfl, decide_eq_true (hpc ▸ List.mem_cons_of_mem 0 (List.mem_singleton_self 2))⟩
  refine ⟨⟨⟨by decide, by rw [stops, hbreaks, Bool.or_true]⟩, fun k hk => ?_⟩, hbreaks⟩
  rcases Bool.or_eq_true_iff.1 hk.2 with hspends | hearly
  · obtain ⟨n, hn, hle⟩ := (Option.any_eq_true _ _).1 hspends
    have hle : n ≤ 0 + k := of_decide_eq_true hle
    have := h n hn
    omega
  · have hle := cycles_le_of_breaks rfl hearly
    rw [hfirst] at hle
    exact hle

theorem run_stops_waiting :
    (run 7 (waiting none)).state = .paused ∧ (run 7 (waiting none)).cycles = 3 ∧
    (run 7 (waiting (some 3))).state = .halted ∧ (run 7 (waiting (some 3))).cycles = 3 := by
  obtain ⟨hpause, -⟩ := run_stops (show (waiting none).state = .running from rfl)
  obtain ⟨hhalt, -⟩ := run_stops (show (waiting (some 3)).state = .running from rfl)
  obtain ⟨hpaused, -⟩ := stopsBehind_waiting none fun n hn => absurd hn (Option.not_mem_none n)
  obtain ⟨hhalted, -⟩ := stopsBehind_waiting (some 3) fun n hn => Nat.le_of_eq (Option.some.inj hn)
  obtain ⟨-, hended⟩ := hpause 3 hpaused 7
  obtain ⟨hran, hstate, -⟩ := hended (by decide)
  obtain ⟨-, hended⟩ := hhalt 3 hhalted 7
  obtain ⟨hran', hstate', -⟩ := hended (by decide)
  exact ⟨hstate, hran.cycles, hstate', hran'.cycles⟩

end Emulator

end Octet
