import Octet.Proofs.Machine.Stores
import Octet.Proofs.Machine.Underway
/-!
The phase counter and what it is counted against.

* `Cpu.Consistent`: between phases the opcode byte, the counter and the latch for the second operand byte agree;
* `Consistent.cases`: a phase starts an instruction, fetches or executes;
* `Consistent.step`: what one phase does to the counter, and whether it ends the instruction;
* `Cpu.Move`, `Cpu.moves`: phases and changes from outside, in any order;
* `completed_moves`: an instruction ends in the phase that its opcode byte says.
-/

namespace Octet

theorem Opcode.three_le_cycles (op : Opcode) : 3 ≤ op.cycles := by cases op <;> decide

namespace Cpu

variable {σ : Type} {cpu next : Cpu}

/-- The operation in the opcode byte that was fetched last. -/
def operation (cpu : Cpu) : Opcode := Opcode.ofByte cpu.registers.ir

theorem Keeps.operation (h : cpu.Keeps next) : next.operation = cpu.operation := by
  have hir : next.registers.ir = cpu.registers.ir := (List.cons.inj h.fetched).1
  rw [Cpu.operation, Cpu.operation, hir]

theorem Keeps.writeMany (cpu : Cpu) (origin : UInt16) (bytes : List UInt8) : cpu.Keeps (cpu.writeMany origin bytes) := by
  induction bytes generalizing cpu origin with
  | nil => exact .refl cpu
  | cons b bytes ih => exact (Keeps.write cpu origin b).trans (ih _ _)

theorem Keeps.load {origin : UInt16} {image : List UInt8} (h : cpu.load origin image = .ok next) :
    cpu.Keeps next ∧ next.phase = cpu.phase := by
  unfold Cpu.load at h
  split at h
  · cases h
  · cases h
    exact ⟨.writeMany cpu origin image, phase_writeMany cpu origin image⟩

/-- An instruction that has been started is not past its last phase, and the latch is that of its operation. -/
structure Consistent (cpu : Cpu) : Prop where
  phase : cpu.phase ≠ 0 → cpu.phase < cpu.operation.cycles
  second : cpu.phase ≠ 0 → cpu.hasSecondByte = cpu.operation.shape.hasSecondByte

/-- Lets the device run if the port has changed. -/
def attend (device : Device σ) (world : σ) (cpu : Cpu) : σ × Cpu × List PortReport :=
  if cpu.read watchedPort ≠ cpu.watched then device world cpu else (world, cpu, [])

theorem startInstruction_eq (device : Device σ) (world : σ) (cpu : Cpu) :
    startInstruction device world cpu =
      ((attend device world cpu).1, (attend device world cpu).2.1.started,
        { phase := 0
          portChange := if cpu.read watchedPort ≠ cpu.watched then some (cpu.read watchedPort) else none
          reports := (attend device world cpu).2.2 }) := rfl

namespace Consistent

theorem zero (h : cpu.phase = 0) : cpu.Consistent := ⟨fun hne => absurd h hne, fun hne => absurd h hne⟩

theorem of_underway {op : Opcode} {p : Nat} (h : cpu.Underway op p) (hp : p < op.cycles) : cpu.Consistent := by
  have hop : cpu.operation = op := h.operation
  exact ⟨fun _ => by rwa [h.phase, hop], fun _ => by rw [h.second, hop]⟩

theorem underway (h : cpu.Consistent) (hphase : cpu.phase ≠ 0) : cpu.Underway cpu.operation cpu.phase :=
  ⟨rfl, rfl, h.second hphase⟩

/-- What leaves the counter, the fetched bytes and the latch alone changes nothing here. -/
theorem keeps (h : cpu.Consistent) (hphase : next.phase = cpu.phase) (hkeeps : cpu.Keeps next) : next.Consistent := by
  have hop := hkeeps.operation
  exact ⟨by rw [hphase, hop]; exact h.phase, by rw [hphase, hop, hkeeps.second]; exact h.second⟩

/-- **In an execute phase the number of the micro-operation is in range.** -/
theorem index (h : cpu.Consistent) (hp : 2 ≤ cpu.phase) (hs : ¬ (cpu.phase = 2 ∧ cpu.hasSecondByte)) :
    cpu.fetches ≤ cpu.phase ∧ cpu.phase - cpu.fetches < cpu.operation.microcode.length := by
  have hlt := h.phase (by omega)
  have hlength := (h.underway (by omega)).fetches
  have hcycles : cpu.operation.cycles = cpu.operation.shape.length + cpu.operation.microcode.length := rfl
  have hle : cpu.fetches ≤ cpu.phase := by
    by_cases hsecond : cpu.hasSecondByte
    · have hthree : cpu.fetches = 3 := if_pos hsecond
      have hne : cpu.phase ≠ 2 := fun htwo => hs ⟨htwo, hsecond⟩
      omega
    · have htwo : cpu.fetches = 2 := if_neg hsecond
      omega
  exact ⟨hle, by omega⟩

/-- **A phase** starts an instruction, fetches one more byte of it, or executes one more of its micro-operations. -/
theorem cases (h : cpu.Consistent) (device : Device σ) (world : σ) :
    (cpu.phase = 0 ∧ cpu.step device world = startInstruction device world cpu) ∨
    (cpu.phase ≠ 0 ∧ cpu.step device world = (world, cpu.fetchNext, { phase := cpu.phase }) ∧
      cpu.phase < cpu.operation.shape.length ∧ cpu.phase + 1 < cpu.operation.cycles ∧
      cpu.fetchNext.Underway cpu.operation (cpu.phase + 1)) ∨
    (cpu.phase ≠ 0 ∧ cpu.operation.shape.length ≤ cpu.phase ∧ ∃ micro,
      cpu.operation.microcode[cpu.phase - cpu.operation.shape.length]? = some micro ∧ cpu.step device world =
        (world, cpu.after micro (if cpu.phase + 1 < cpu.operation.cycles then cpu.phase + 1 else 0),
          cpu.reported micro (decide (cpu.phase + 1 = cpu.operation.cycles)))) := by
  by_cases hzero : cpu.phase = 0
  · refine .inl ⟨hzero, ?_⟩
    rw [step, hzero]
  have hunderway := h.underway hzero
  have hcycles : cpu.operation.cycles = cpu.operation.shape.length + cpu.operation.microcode.length := rfl
  have hpos := cpu.operation.microcode_length_pos
  by_cases hfetch : cpu.phase < cpu.operation.shape.length
  · obtain ⟨hstep, hnext⟩ := hunderway.fetch (Nat.pos_of_ne_zero hzero) hfetch device world
    exact .inr (.inl ⟨hzero, hstep, hfetch, by omega, hnext⟩)
  · have hle := Nat.le_of_not_lt hfetch
    exact .inr (.inr ⟨hzero, hle, hunderway.execute hle (h.phase hzero) device world⟩)

/-- **What one phase does to the counter.** -/
theorem step (h : cpu.Consistent) {device : Device σ} {world world' : σ} {s : Step}
    (hs : cpu.step device world = (world', next, s)) :
    next.Consistent ∧ s.completed = decide (cpu.phase + 1 = next.operation.cycles) ∧
      next.phase = (if s.completed then 0 else cpu.phase + 1) ∧
      (cpu.phase ≠ 0 → next.operation = cpu.operation) := by
  rcases h.cases device world with ⟨hzero, hstart⟩ | ⟨hne, hfetch, -, hlt, hunderway⟩ | ⟨hne, -, micro, -, hexecute⟩
  · rw [startInstruction_eq] at hstart
    cases hs.symm.trans hstart
    have hthree := (attend device world cpu).2.1.started.operation.three_le_cycles
    have hne : ¬ cpu.phase + 1 = (attend device world cpu).2.1.started.operation.cycles := by omega
    refine ⟨of_underway (underway_started _) (Nat.lt_of_lt_of_le (by decide) hthree), (decide_eq_false hne).symm, ?_,
      fun h => absurd hzero h⟩
    rw [hzero]
    rfl
  · cases hs.symm.trans hfetch
    have hop : cpu.fetchNext.operation = cpu.operation := hunderway.operation
    have hnot : ¬ cpu.phase + 1 = cpu.operation.cycles := by omega
    refine ⟨of_underway hunderway hlt, ?_, hunderway.phase, fun _ => hop⟩
    rw [hop]
    exact (decide_eq_false hnot).symm
  · cases hs.symm.trans hexecute
    have hlt := h.phase hne
    have hafter (q : Nat) : (cpu.after micro q).Underway cpu.operation q := (h.underway hne).after micro q
    have hop (q : Nat) : (cpu.after micro q).operation = cpu.operation := (hafter q).operation
    by_cases hlast : cpu.phase + 1 = cpu.operation.cycles
    · have hnot : ¬ cpu.phase + 1 < cpu.operation.cycles := by omega
      rw [if_neg hnot, decide_eq_true hlast, hop]
      exact ⟨zero rfl, (decide_eq_true hlast).symm, rfl, fun _ => rfl⟩
    · have hmore : cpu.phase + 1 < cpu.operation.cycles := by omega
      rw [if_pos hmore, decide_eq_false hlast, hop]
      exact ⟨of_underway (hafter _) hmore, (decide_eq_false hlast).symm, rfl, fun _ => rfl⟩

end Consistent

/-! ## Phases and changes from outside -/

/-- A phase, with some device, or a change from outside. -/
inductive Move (σ : Type) where
  | step (device : Device σ) (world : σ)
  | write (address : UInt16) (v : UInt8)
  | load (origin : UInt16) (image : List UInt8)
  | setPc (pc : UInt16)
  | reset

/-- The processor after a move, and what happened if it was a phase. An image that does not fit changes nothing. -/
def move (cpu : Cpu) : Move σ → Cpu × Option Step
  | .step device world => ((cpu.step device world).2.1, some (cpu.step device world).2.2)
  | .write address v => (cpu.write address v, none)
  | .load origin image => ((cpu.load origin image).toOption.getD cpu, none)
  | .setPc pc => (cpu.setPc pc, none)
  | .reset => ({}, none)

/-- The processor after some moves, and what happened in the phases among them. -/
def moves (cpu : Cpu) : List (Move σ) → Cpu × List Step
  | [] => (cpu, [])
  | m :: ms =>
    let (next, step) := cpu.move m
    let (last, steps) := next.moves ms
    (last, step.toList ++ steps)

theorem moves_step {device : Device σ} {world world' : σ} {s : Step} (hs : cpu.step device world = (world', next, s))
    (rest : List (Move σ)) :
    cpu.moves (.step device world :: rest) = ((next.moves rest).1, s :: (next.moves rest).2) := by
  rw [moves, move, hs]
  rfl

theorem moves_of_none {m : Move σ} (h : (cpu.move m).2 = none) (rest : List (Move σ)) :
    cpu.moves (m :: rest) = (cpu.move m).1.moves rest := by
  rw [moves]
  dsimp only
  rw [h]
  rfl

/-- A move that is neither a phase nor a reset leaves the bookkeeping alone. -/
theorem move_cases (cpu : Cpu) (m : Move σ) :
    (∃ device world, m = .step device world) ∨ m = .reset ∨
      (cpu.Keeps (cpu.move m).1 ∧ (cpu.move m).1.phase = cpu.phase ∧ (cpu.move m).2 = none) := by
  cases m with
  | step device world => exact .inl ⟨device, world, rfl⟩
  | write address v => exact .inr (.inr ⟨.write cpu address v, rfl, rfl⟩)
  | load origin image =>
    refine .inr (.inr ?_)
    rw [move]
    cases hl : cpu.load origin image with
    | error fault => exact ⟨.refl cpu, rfl, rfl⟩
    | ok next =>
      obtain ⟨hkeeps, hphase⟩ := Keeps.load hl
      exact ⟨hkeeps, hphase, rfl⟩
  | setPc pc => exact .inr (.inr ⟨⟨rfl, rfl⟩, rfl, rfl⟩)
  | reset => exact .inr (.inl rfl)

theorem Consistent.move (h : cpu.Consistent) (m : Move σ) : (cpu.move m).1.Consistent := by
  rcases cpu.move_cases m with ⟨device, world, rfl⟩ | rfl | ⟨hkeeps, hphase, -⟩
  · exact (h.step rfl).1
  · exact .zero rfl
  · exact h.keeps hphase hkeeps

/-- **Moves in any order keep the processor consistent.** -/
theorem Consistent.moves (h : cpu.Consistent) (ms : List (Move σ)) : (cpu.moves ms).1.Consistent := by
  induction ms generalizing cpu with
  | nil => exact h
  | cons m ms ih => exact ih (h.move m)

/-- **An instruction that has been started ends in its last phase**, and in none before it. -/
theorem Consistent.completed_moves (h : cpu.Consistent) (hphase : cpu.phase ≠ 0) {rest : List (Move σ)}
    (hr : ∀ m ∈ rest, m ≠ .reset) (hk : cpu.phase + (cpu.moves rest).2.length ≤ cpu.operation.cycles) :
    (cpu.moves rest).2.map (·.completed) =
      (List.range (cpu.moves rest).2.length).map fun i => decide (cpu.phase + i + 1 = cpu.operation.cycles) := by
  -- on the moves; the ones behind the last phase have no phases among them
  induction rest generalizing cpu with
  | nil => rfl
  | cons m rest ih =>
    obtain ⟨hm, hrest⟩ := List.forall_mem_cons.1 hr
    rcases cpu.move_cases m with ⟨device, world, rfl⟩ | rfl | ⟨hkeeps, hsame, hnone⟩
    · rcases hs : cpu.step device world with ⟨world', next, s⟩
      obtain ⟨hnext, hcompleted, hcount, hop⟩ := h.step hs
      have hop := hop hphase
      rw [hop] at hcompleted
      rw [moves_step hs, List.length_cons] at hk
      rw [moves_step hs, List.length_cons, List.range_succ_eq_map, List.map_cons, List.map_cons, List.map_map, hcompleted]
      refine congrArg (_ :: ·) ?_
      by_cases hlast : cpu.phase + 1 = cpu.operation.cycles
      · have hnil : (next.moves rest).2 = [] := List.length_eq_zero_iff.1 (by omega)
        rw [hnil]
        rfl
      · rw [hcompleted, decide_eq_false hlast, if_neg Bool.false_ne_true] at hcount
        rw [ih hnext (by omega) hrest (by rw [hop]; omega), hop, hcount]
        refine List.map_congr_left fun i _ => ?_
        rw [Function.comp_apply, Nat.succ_eq_add_one, Nat.add_assoc cpu.phase 1, Nat.add_comm 1 i]
    · exact absurd rfl hm
    · have hop := hkeeps.operation
      rw [moves_of_none hnone] at hk ⊢
      rw [← hop, ← hsame] at hk ⊢
      exact ih (h.keeps hsame hkeeps) (hsame ▸ hphase) hrest hk

/-- **An instruction that starts takes the phases that its opcode byte says**, whatever happens between them. -/
theorem Consistent.completed_moves_of_step (h : cpu.Consistent) (hphase : cpu.phase = 0) {device : Device σ}
    {world world' : σ} {s : Step} (hs : cpu.step device world = (world', next, s)) {rest : List (Move σ)}
    (hr : ∀ m ∈ rest, m ≠ .reset) (hk : 1 + (next.moves rest).2.length ≤ next.operation.cycles) :
    (s :: (next.moves rest).2).map (·.completed) =
      (List.range (1 + (next.moves rest).2.length)).map fun i => decide (i + 1 = next.operation.cycles) := by
  obtain ⟨hnext, hcompleted, hcount, -⟩ := h.step hs
  have hthree := next.operation.three_le_cycles
  have hnot : ¬ cpu.phase + 1 = next.operation.cycles := by omega
  rw [hcompleted, decide_eq_false hnot, if_neg Bool.false_ne_true, hphase] at hcount
  rw [Nat.add_comm 1, List.map_cons, hcompleted, hphase, List.range_succ_eq_map, List.map_cons, List.map_map,
    hnext.completed_moves (by omega) hr (by omega), hcount]
  refine congrArg (_ :: ·) (List.map_congr_left fun i _ => ?_)
  rw [Function.comp_apply, Nat.succ_eq_add_one, Nat.zero_add, Nat.add_comm 1 i]

end Cpu

end Octet
