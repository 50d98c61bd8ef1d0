import Octet.Proofs.Machine.Bookkeeping
import Octet.Proofs.Machine.Stores
/-!
What a device gets to see of port 0.

* `Cpu.pending`: what stands in the port and has not been seen yet;
* `Cpu.Turn`, `Cpu.turns`: the phases of a run, each between two states;
* `Watching.turn`: what one phase does to the port;
* `Watches`: phases in a row, and what follows from each of them for the whole row;
* `port_changes_observed`: a device sees what instructions store in the port, each change once and in order.
-/

namespace Octet

/-- A new value, if it is not the one before. -/
def changed (before now : UInt8) : Option UInt8 := if now ≠ before then some now else none

@[simp] theorem changed_self (v : UInt8) : changed v v = none := if_neg (not_not.2 rfl)

/-- The values that are not the one before are those that are left when repetitions are dropped. -/
theorem destutter_eq_cons_changed (first : UInt8) (values : List UInt8) :
    (first :: values).destutter (· ≠ ·) = first :: (List.zipWith changed (first :: values) values).reduceOption := by
  induction values generalizing first with
  | nil => rfl
  | cons v values ih =>
    rw [List.destutter_cons_cons, List.zipWith_cons_cons]
    by_cases hsame : v = first
    · subst hsame
      rw [if_neg (not_not.2 rfl), changed_self, List.reduceOption_cons_of_none]
      exact ih v
    · have hsome : changed first v = some v := if_pos hsame
      rw [if_pos (Ne.symm hsame), hsome, List.reduceOption_cons_of_some]
      exact congrArg (first :: ·) (ih v)

namespace Device

variable {σ : Type}

/-- A device, and a list of what was in the port each time it ran. -/
def recording (device : Device σ) : Device (σ × List UInt8) := fun (world, seen) cpu =>
  let (world, next, reports) := device world cpu
  ((world, seen ++ [cpu.read watchedPort]), next, reports)

/-- A device leaves in the port what it finds there. -/
def LeavesPort (device : Device σ) : Prop :=
  ∀ world cpu, (device world cpu).2.1.read watchedPort = cpu.read watchedPort

end Device

namespace Cpu

variable {σ : Type} {device : Device σ} {world world' : σ} {n : Nat} {cpu next last : Cpu} {step : Step}
  {steps : List Step}

def port (cpu : Cpu) : UInt8 := cpu.read watchedPort

/-- What stands in the port, if the device has not seen it yet. -/
def pending (cpu : Cpu) : Option UInt8 := changed cpu.watched cpu.port

theorem watched_execute (cpu : Cpu) (op : MicroOp) : (cpu.execute op).watched = cpu.watched := by
  have hcode (cpu : Cpu) (code v : UInt8) : (cpu.writeCode code v).watched = cpu.watched := by
    unfold writeCode
    split <;> rfl
  cases op with
  | loadPointer | loadAbsolute | loadConstant | move => exact hcode _ _ _
  | loadAddress | compareFlags | storePointer | storeAbsolute | push => rfl
  | pop => exact hcode { cpu with registers := { cpu.registers with spLow := cpu.registers.spLow + 1 } } _ _
  | alu mode =>
    unfold execute
    dsimp only
    split
    · rfl
    · exact hcode { cpu with registers := cpu.registers.setFlags _ } _ _
  | jumpIfNotZero =>
    unfold execute
    dsimp only
    split <;> rfl

/-! ## Phases of a run -/

/-- A phase that has run, between two states. -/
structure Turn where
  before : Cpu
  step : Step
  after : Cpu

/-- The phases of a run. -/
def turns (device : Device σ) : Nat → σ → Cpu → List Turn
  | 0, _, _ => []
  | n + 1, world, cpu =>
    let (world', next, step) := cpu.step device world
    ⟨cpu, step, next⟩ :: turns device n world' next

theorem turns_succ (hs : cpu.step device world = (world', next, step)) :
    turns device (n + 1) world cpu = ⟨cpu, step, next⟩ :: turns device n world' next := by
  rw [turns, hs]

theorem map_step_turns (device : Device σ) (n : Nat) (world : σ) (cpu : Cpu) :
    (turns device n world cpu).map (·.step) = (runPhases device n world cpu).2.2 := by
  induction n generalizing world cpu with
  | zero => rfl
  | succ n ih => exact congrArg (_ :: ·) (ih _ _)

namespace Turn

/-- What a store or a push leaves in the port, if it changes it. -/
def stored (t : Turn) : Option UInt8 :=
  t.step.microOp.bind fun op =>
    if op.target? t.before.registers = some watchedPort then changed t.before.port t.after.port else none

/-- The phase ends an instruction and writes one byte. -/
def Writes (t : Turn) : Prop :=
  t.step.completed ∧ t.after.phase = 0 ∧ ∃ address v, t.after.memory = t.before.memory.write address v

end Turn

/-- The phases that start an instruction. -/
def starts (turns : List Turn) : List Turn := turns.filter (·.before.phase = 0)

theorem starts_cons_of_start {t : Turn} (h : t.before.phase = 0) (turns : List Turn) :
    starts (t :: turns) = t :: starts turns := List.filter_cons_of_pos (decide_eq_true h)

theorem starts_cons_of_later {t : Turn} (h : t.before.phase ≠ 0) (turns : List Turn) :
    starts (t :: turns) = starts turns := by
  refine List.filter_cons_of_neg ?_
  rw [decide_eq_false h]
  exact Bool.false_ne_true

/-- What was in the port when the device ran. -/
def observed (turns : List Turn) : List UInt8 := turns.flatMap (·.step.portChange.toList)

/-- What stores and pushes left in the port. -/
def stores (turns : List Turn) : List UInt8 := turns.flatMap (·.stored.toList)

/-! ## One phase -/

/-- The processor is consistent, and an instruction that has been started has nothing to be seen. -/
structure Watching (cpu : Cpu) : Prop where
  consistent : cpu.Consistent
  seen : cpu.phase ≠ 0 → cpu.pending = none

/-- What one phase does to the port: it sees what it finds pending, and what it stores is pending after it. -/
structure Turn.Watched (t : Turn) : Prop where
  before : t.before.Watching
  after : t.after.Watching
  seen : t.step.portChange = t.before.pending
  stored : t.stored = t.after.pending
  start : t.before.phase = 0 → t.after.watched = t.after.port
  later : t.before.phase ≠ 0 → t.after.watched = t.before.watched
  memory : t.before.phase ≠ 0 → t.after.memory = t.before.memory ∨ t.Writes

theorem eq_of_pending_eq_none (h : cpu.pending = none) : cpu.port = cpu.watched := by
  by_contra hne
  have hsome : cpu.pending = some cpu.port := if_pos hne
  rw [hsome] at h
  cases h

theorem stored_reported (h : cpu.pending = none) (op : MicroOp) (phase : Nat) (completed : Bool) :
    (Turn.mk cpu (cpu.reported op completed) (cpu.after op phase)).stored = (cpu.after op phase).pending := by
  have hwatched : (cpu.after op phase).watched = cpu.port :=
    (watched_execute cpu op).trans (eq_of_pending_eq_none h).symm
  show (if op.target? cpu.registers = some watchedPort then changed cpu.port (cpu.after op phase).port else none) = _
  rw [pending, hwatched]
  split
  · rfl
  · rename_i htarget
    have hport : (cpu.after op phase).port = cpu.port := read_execute htarget
    rw [hport, changed_self]

/-- **What one phase does to the port.** -/
theorem Watching.turn (h : cpu.Watching) (hs : cpu.step device world = (world', next, step)) :
    (Turn.mk cpu step next).Watched := by
  obtain ⟨hnext, -⟩ := h.consistent.step hs
  rcases h.consistent.cases device world with ⟨hzero, hstart⟩ | ⟨hne, hfetch, -⟩ | ⟨hne, hle, op, hop, hexecute⟩
  · rw [startInstruction_eq] at hstart
    cases hs.symm.trans hstart
    exact {
      before := h
      after := ⟨hnext, fun _ => changed_self _⟩
      seen := rfl
      stored := (changed_self _).symm
      start := fun _ => rfl
      later := fun hne => absurd hzero hne
      memory := fun hne => absurd hzero hne }
  · cases hs.symm.trans hfetch
    have hsame : cpu.fetchNext.memory = cpu.memory ∧ cpu.fetchNext.watched = cpu.watched := by
      unfold fetchNext
      split <;> exact ⟨rfl, rfl⟩
    have hpending : cpu.fetchNext.pending = none := by
      rw [pending, port, read, hsame.1, hsame.2]
      exact h.seen hne
    exact {
      before := h
      after := ⟨hnext, fun _ => hpending⟩
      seen := (h.seen hne).symm
      stored := hpending.symm
      start := fun hzero => absurd hzero hne
      later := fun _ => hsame.2
      memory := fun _ => .inl hsame.1 }
  · cases hs.symm.trans hexecute
    have hlt := h.consistent.phase hne
    have hcycles : cpu.operation.cycles = cpu.operation.shape.length + cpu.operation.microcode.length := rfl
    -- what is stored has to wait for the next start, so a store must not come before the last phase
    have hearly (hmore : cpu.phase + 1 < cpu.operation.cycles) : op.target? cpu.registers = none := by
      have hindex : cpu.phase - cpu.operation.shape.length < cpu.operation.microcode.length :=
        (List.getElem?_eq_some_iff.1 hop).1
      exact target?_of_not_last hop (by omega) cpu.registers
    have hstored := stored_reported (h.seen hne) op
    refine {
      before := h
      after := ⟨hnext, fun hq => ?_⟩
      seen := (h.seen hne).symm
      stored := hstored _ _
      start := fun hzero => absurd hzero hne
      later := fun _ => watched_execute cpu op
      memory := fun _ => ?_ }
    · have hmore : cpu.phase + 1 < cpu.operation.cycles := by
        by_contra hnot
        exact hq (if_neg hnot)
      rw [← hstored _ false]
      show (if op.target? cpu.registers = some watchedPort then _ else none) = none
      rw [hearly hmore]
      rfl
    · cases htarget : op.target? cpu.registers with
      | none => exact .inl (memory_execute_of_none htarget)
      | some address =>
        have hnot : ¬ cpu.phase + 1 < cpu.operation.cycles := by
          intro hmore
          rw [hearly hmore] at htarget
          cases htarget
        exact .inr ⟨decide_eq_true (by omega), if_neg hnot, address, exists_memory_execute htarget⟩

/-! ## Phases in a row -/

/-- Phases in a row, from one state to another. -/
inductive Watches : Cpu → List Turn → Cpu → Prop
  | nil (cpu : Cpu) : Watches cpu [] cpu
  | cons {t : Turn} {turns : List Turn} {last : Cpu} :
      t.Watched → Watches t.after turns last → Watches t.before (t :: turns) last

theorem Watching.watches (h : cpu.Watching) (hrun : runPhases device n world cpu = (world', last, steps)) :
    Watches cpu (turns device n world cpu) last ∧ last.Watching := by
  induction n generalizing world cpu steps with
  | zero =>
    cases hrun
    exact ⟨.nil _, h⟩
  | succ n ih =>
    rcases hs : cpu.step device world with ⟨world₁, next, step⟩
    rcases hr : runPhases device n world₁ next with ⟨world₂, last', steps'⟩
    rw [runPhases_succ hs hr] at hrun
    cases hrun
    have hturn := h.turn hs
    obtain ⟨hrest, hlast⟩ := ih hturn.after hr
    rw [turns_succ hs]
    exact ⟨.cons hturn hrest, hlast⟩

namespace Watches

variable {t : Turn} {turns : List Turn}

theorem cons_inv (h : Watches cpu (t :: turns) last) : t.before = cpu ∧ t.Watched := by
  cases h with
  | cons ht _ => exact ⟨rfl, ht⟩

theorem watched_of_mem (h : Watches cpu turns last) : ∀ t ∈ turns, t.Watched := by
  induction h with
  | nil cpu => exact List.forall_mem_nil _
  | cons ht _ ih => exact List.forall_mem_cons.2 ⟨ht, ih⟩

/-- **A phase sees what the phase before it stored**, and nothing else. -/
theorem isChain (h : Watches cpu turns last) : turns.IsChain fun t t' => t'.step.portChange = t.stored := by
  induction h with
  | nil cpu => exact .nil
  | @cons t turns last ht hrest ih =>
    cases turns with
    | nil => exact .singleton t
    | cons t' turns =>
      obtain ⟨hbefore, ht'⟩ := hrest.cons_inv
      refine .cons_cons ?_ ih
      rw [ht'.seen, hbefore, ht.stored]

/-- **Nothing that is stored is lost, and nothing is seen twice.** -/
theorem observed_append_pending (h : Watches cpu turns last) :
    observed turns ++ last.pending.toList = cpu.pending.toList ++ stores turns := by
  induction h with
  | nil cpu => exact (List.append_nil _).symm
  | @cons t turns last ht _ ih =>
    calc observed (t :: turns) ++ last.pending.toList
        = t.step.portChange.toList ++ (observed turns ++ last.pending.toList) := List.append_assoc _ _ _
      _ = t.before.pending.toList ++ (t.stored.toList ++ stores turns) := by rw [ih, ht.seen, ht.stored]

/-- **The device runs when the port holds something else than after the start before.** -/
theorem portChange_starts (h : Watches cpu turns last) :
    (starts turns).map (·.step.portChange) = List.zipWith changed
      (cpu.watched :: (starts turns).map (·.after.port)) ((starts turns).map (·.before.port)) := by
  induction h with
  | nil cpu => rfl
  | @cons t turns last ht _ ih =>
    by_cases hzero : t.before.phase = 0
    · rw [starts_cons_of_start hzero, List.map_cons, List.map_cons, List.map_cons, List.zipWith_cons_cons,
        ← ht.start hzero, ← ih, ht.seen]
      rfl
    · rw [starts_cons_of_later hzero, ← ht.later hzero]
      exact ih

theorem observed_eq_reduceOption (h : Watches cpu turns last) :
    observed turns = ((starts turns).map (·.step.portChange)).reduceOption := by
  induction h with
  | nil cpu => rfl
  | @cons t turns last ht _ ih =>
    show t.step.portChange.toList ++ observed turns = _
    by_cases hzero : t.before.phase = 0
    · rw [starts_cons_of_start hzero turns, List.map_cons, ih]
      cases t.step.portChange with
      | none => rfl
      | some v => rfl
    · rw [starts_cons_of_later hzero, ih, ht.seen, ht.before.seen hzero]
      rfl

end Watches

/-! ## Devices -/

theorem step_of_start (hphase : cpu.phase = 0) (device : Device σ) (world : σ) :
    cpu.step device world = startInstruction device world cpu := by rw [step, hphase]

/-- Only the phase that starts an instruction has to do with the device. -/
theorem exists_step_later (hphase : cpu.phase ≠ 0) :
    ∃ next step, step.portChange = none ∧
      ∀ {σ : Type} (device : Device σ) (world : σ), cpu.step device world = (world, next, step) := by
  by_cases hone : cpu.phase = 1
  · refine ⟨cpu.fetchFirst, { phase := 1 }, rfl, fun device world => ?_⟩
    rw [step, hone]
  obtain ⟨m, hm⟩ := Nat.exists_eq_add_of_le' (show 2 ≤ cpu.phase by omega)
  by_cases hsecond : m = 0 ∧ cpu.hasSecondByte
  · refine ⟨cpu.fetchSecond, { phase := 2 }, rfl, fun device world => ?_⟩
    rw [step, hm]
    exact if_pos hsecond
  · refine ⟨cpu.executePhase.1, cpu.executePhase.2, ?_, fun device world => ?_⟩
    · unfold executePhase
      dsimp only
      split <;> rfl
    · rw [step, hm]
      exact if_neg hsecond

theorem step_recording (hs : cpu.step device world = (world', next, step)) (seen : List UInt8) :
    cpu.step device.recording (world, seen) = ((world', seen ++ step.portChange.toList), next, step) := by
  by_cases hzero : cpu.phase = 0
  · rw [step_of_start hzero, startInstruction_eq] at hs ⊢
    cases hs
    by_cases hchanged : cpu.read watchedPort ≠ cpu.watched
    · simp only [attend, if_pos hchanged]
      rfl
    · simp only [attend, if_neg hchanged, Option.toList_none, List.append_nil]
  · obtain ⟨next', step', hnone, hstep⟩ := exists_step_later hzero
    rw [hstep] at hs ⊢
    cases hs
    rw [hnone, Option.toList_none, List.append_nil]

/-- **What a device finds in the port is what the phases report.** -/
theorem runPhases_recording (hrun : runPhases device n world cpu = (world', last, steps)) (seen : List UInt8) :
    runPhases device.recording n (world, seen) cpu =
      ((world', seen ++ observed (turns device n world cpu)), last, steps) := by
  induction n generalizing world cpu steps seen with
  | zero =>
    cases hrun
    exact congrArg (fun seen => ((_, seen), _)) (List.append_nil seen).symm
  | succ n ih =>
    rcases hs : cpu.step device world with ⟨world₁, next, step⟩
    rcases hr : runPhases device n world₁ next with ⟨world₂, last', steps'⟩
    rw [runPhases_succ hs hr] at hrun
    cases hrun
    rw [runPhases_succ (step_recording hs seen) (ih hr _), turns_succ hs, List.append_assoc]
    rfl

theorem port_of_start (h : device.LeavesPort) (hphase : cpu.phase = 0)
    (hs : cpu.step device world = (world', next, step)) : next.port = cpu.port := by
  rw [step_of_start hphase, startInstruction_eq] at hs
  cases hs
  show (attend device world cpu).2.1.read watchedPort = cpu.read watchedPort
  unfold attend
  split
  · exact h world cpu
  · rfl

theorem port_of_mem_turns (h : device.LeavesPort) :
    ∀ t ∈ turns device n world cpu, t.before.phase = 0 → t.after.port = t.before.port := by
  induction n generalizing world cpu with
  | zero => exact List.forall_mem_nil _
  | succ n ih =>
    rcases hs : cpu.step device world with ⟨world', next, step⟩
    rw [turns_succ hs]
    exact List.forall_mem_cons.2 ⟨fun hzero => port_of_start h hzero hs, ih⟩

end Cpu

/-- **A device sees every change of port 0 once and in order.** What it finds there is what the phases of the run report.
Only a phase that starts an instruction reports a value: the first one if the port differs from what was seen last, a
later one if it differs from what the device left there at the start before, so that what it writes itself does not make
it run again. A phase reports what the phase before it stored; an instruction writes one byte at most, at its end; and
so what is reported is what stores and pushes left in the port, but for a last value that the next start will report. If
the device leaves the port as it is, it sees the values at the starts with the repetitions dropped. -/
theorem port_changes_observed {σ : Type} {device : Device σ} {n : Nat} {world world' : σ} {cpu last : Cpu}
    {steps : List Step} {turns : List Cpu.Turn} (hphase : cpu.phase = 0)
    (hrun : Cpu.runPhases device n world cpu = (world', last, steps)) (hturns : turns = Cpu.turns device n world cpu) :
    turns.map (·.step) = steps ∧
    Cpu.runPhases device.recording n (world, []) cpu = ((world', Cpu.observed turns), last, steps) ∧
    (Cpu.starts turns).map (·.step.portChange) = List.zipWith changed
      (cpu.watched :: (Cpu.starts turns).map (·.after.port)) ((Cpu.starts turns).map (·.before.port)) ∧
    (∀ t ∈ turns, t.before.phase ≠ 0 →
      t.step.portChange = none ∧ (t.after.memory = t.before.memory ∨ t.Writes)) ∧
    (turns.IsChain fun t t' => t'.step.portChange = t.stored) ∧
    Cpu.observed turns ++ last.pending.toList = cpu.pending.toList ++ Cpu.stores turns ∧
    (last.phase ≠ 0 → last.pending = none) ∧
    (device.LeavesPort → ∀ values, values = (Cpu.starts turns).map (·.before.port) →
      (Cpu.starts turns).map (·.step.portChange) = List.zipWith changed (cpu.watched :: values) values ∧
      cpu.watched :: Cpu.observed turns = (cpu.watched :: values).destutter (· ≠ ·)) := by
  subst hturns
  have hstart : cpu.Watching := ⟨.zero hphase, fun hne => absurd hphase hne⟩
  obtain ⟨hwatches, hlast⟩ := hstart.watches hrun
  refine ⟨?_, Cpu.runPhases_recording hrun [], hwatches.portChange_starts, fun t ht hne => ?_, hwatches.isChain,
    hwatches.observed_append_pending, hlast.seen, ?_⟩
  · rw [Cpu.map_step_turns, hrun]
  · have hturn := hwatches.watched_of_mem t ht
    exact ⟨hturn.seen.trans (hturn.before.seen hne), hturn.memory hne⟩
  · rintro hleaves values rfl
    have hports : (Cpu.starts (Cpu.turns device n world cpu)).map (·.after.port) =
        (Cpu.starts (Cpu.turns device n world cpu)).map (·.before.port) := by
      refine List.map_congr_left fun t ht => ?_
      obtain ⟨hmem, hzero⟩ := List.mem_filter.1 ht
      exact Cpu.port_of_mem_turns hleaves t hmem (of_decide_eq_true hzero)
    have hflags := hwatches.portChange_starts
    rw [hports] at hflags
    refine ⟨hflags, ?_⟩
    rw [destutter_eq_cons_changed, ← hflags, ← hwatches.observed_eq_reduceOption]

/-- Pushes `0x2A` to the port. -/
def pushing : Cpu where
  registers := { spHigh := 0xFF }
  memory := (Memory.zero.write 0 0x8E).write 1 0x2A

theorem ports_pushing : (Cpu.starts (Cpu.turns Device.tracer 4 () pushing)).map (·.before.port) = [0, 0x2A] := by
  have hread (address : UInt16) :
      pushing.read address = if 1 = address then 0x2A else if 0 = address then 0x8E else 0 := by
    simp only [Cpu.read, pushing, Memory.read_write, Memory.read_zero]
  have hop : Opcode.ofByte pushing.fetched = .push := by
    rw [Cpu.fetched, hread]
    rfl
  have hstart : pushing.step Device.tracer () = ((), pushing.started, { phase := 0 }) := by
    have hsame : ¬ pushing.read watchedPort ≠ pushing.watched := by
      rw [hread]
      decide
    rw [Cpu.step_of_start rfl, Cpu.startInstruction_eq, Cpu.attend, if_neg hsame, if_neg hsame]
  obtain ⟨hfetch, hunderway⟩ :=
    (hop ▸ pushing.underway_started).fetch (by decide) (by decide) Device.tracer ()
  obtain ⟨micro, hmicro, hexecute⟩ := hunderway.execute (by decide) (by decide) Device.tracer ()
  cases hmicro
  rw [if_neg (by decide)] at hexecute
  rcases hs : (pushing.started.fetchNext.after .push 0).step Device.tracer () with ⟨world, last, step⟩
  have hmiddle : pushing.started.fetchNext.phase ≠ 0 := by
    rw [hunderway.phase]
    decide
  have hfirst : pushing.port = 0 := by
    rw [Cpu.port, hread]
    rfl
  have hpushed : (pushing.started.fetchNext.after .push 0).port = 0x2A := by
    have himmediate : pushing.started.fetchNext.isImmediate := by
      show decide (pushing.read 0 &&& immediateBit ≠ 0) = true
      rw [hread]
      rfl
    show (pushing.memory.write 0xFF00 (pushing.started.fetchNext.source (pushing.read 1))).read 0xFF00 = 0x2A
    rw [Memory.read_write_self, Cpu.source, if_pos himmediate, hread]
    rfl
  rw [Cpu.turns_succ hstart, Cpu.turns_succ hfetch, Cpu.turns_succ hexecute, Cpu.turns_succ hs,
    Cpu.starts_cons_of_start rfl, Cpu.starts_cons_of_later Nat.one_ne_zero, Cpu.starts_cons_of_later hmiddle,
    Cpu.starts_cons_of_start rfl]
  exact congrArg₂ (fun first pushed => [first, pushed]) hfirst hpushed

theorem port_changes_observed_pushing :
    (Cpu.runPhases Device.tracer.recording 4 ((), []) pushing).1.2 = [0x2A] := by
  rcases hrun : Cpu.runPhases Device.tracer 4 () pushing with ⟨world, last, steps⟩
  obtain ⟨-, hrecorded, -, -, -, -, -, hleaves⟩ := port_changes_observed rfl hrun rfl
  have hdropped : ([0, 0, 0x2A] : List UInt8).destutter (· ≠ ·) = [0, 0x2A] := by decide
  obtain ⟨-, hobserved⟩ := hleaves (fun _ _ => rfl) _ ports_pushing.symm
  obtain ⟨-, hobserved⟩ := List.cons.inj (hobserved.trans hdropped)
  rw [hrecorded, hobserved]

end Octet
