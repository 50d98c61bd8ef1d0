import Octet.Proofs.Emulator.Cycles
/-!
What the history of an emulator says.

* `Executed.Tells`: an entry says which instruction some bytes are;
* `Phase.processor`, `Phase.fetched`: what a phase works on, and the byte that it fetches;
* `instructions`: the phases of a session, one group for each instruction that was completed;
* `Traces.microstep`: the phases of an instruction have fetched the bytes that the processor holds;
* `Session.recorded`: each entry of the history is about one group;
* `history_is_recent_past`: the history is about the groups that were completed last, and says what they fetched;
* `Session.exists_instruction`: without a budget an instruction comes to its end;
* `recorded_addresses`: where an entry says that an instruction was, and where it was.
-/

namespace Octet

/-! ## Entries -/

namespace Instruction

/-- The machine code in front of some bytes is as long as the opcode byte says. -/
theorem length_of_code_front {i : Instruction} {first : UInt8} {rest : List UInt8} (hv : i.Valid)
    (h : i.code <+: first :: rest) : i.code.length = (Opcode.ofByte first).shape.length := by
  obtain ⟨first', rest', hcode, hop, -⟩ := exists_code_eq_cons hv
  rw [hcode, List.cons_prefix_cons] at h
  obtain ⟨rfl, -⟩ := h
  rw [length_code hv, length, hop]

/-- The decoder looks at the bytes that the opcode byte asks for. -/
theorem decode_take {first : UInt8} {rest : List UInt8} {i : Instruction} :
    decode ((first :: rest).take (Opcode.ofByte first).shape.length) = .ok i ↔ decode (first :: rest) = .ok i := by
  rw [decode_eq_ok_iff, decode_eq_ok_iff, List.prefix_take_iff]
  constructor
  · rintro ⟨hv, h, -⟩
    exact ⟨hv, h⟩
  · rintro ⟨hv, h⟩
    exact ⟨hv, h, (length_of_code_front hv h).le⟩

end Instruction

namespace Executed

/-- The operation in the opcode byte of an entry. -/
def operation (x : Executed) : Opcode := Opcode.ofByte (x.fetched.headD 0)

/-- An entry holds some bytes, as many as its operation has, and says which instruction they are. -/
structure Tells (x : Executed) (bytes : List UInt8) : Prop where
  held : bytes = x.fetched.take x.operation.shape.length
  length : bytes.length = x.operation.shape.length
  instruction : ∀ i, x.instruction = some i ↔ Instruction.decode bytes = .ok i
  code : ∀ i, x.instruction = some i → i.encode = .ok bytes

end Executed

namespace Cpu

/-- The bytes of the instruction that was fetched last. -/
def code (cpu : Cpu) : List UInt8 := cpu.registers.fetched.take cpu.operation.shape.length

theorem take_fetched_fetchNext (cpu : Cpu) (hpos : 0 < cpu.phase) (hlt : cpu.phase < 3) :
    cpu.fetchNext.registers.fetched.take (cpu.phase + 1) = cpu.registers.fetched.take cpu.phase ++ [cpu.fetched] := by
  have hphase : cpu.phase = 1 ∨ cpu.phase = 2 := by omega
  rcases hphase with hone | htwo
  · rw [fetchNext, if_pos hone, hone]
    rfl
  · have hne : ¬ cpu.phase = 1 := by omega
    rw [fetchNext, if_neg hne, htwo]
    rfl

theorem length_code (cpu : Cpu) : cpu.code.length = cpu.operation.shape.length :=
  List.length_take_of_le cpu.operation.shape.length_le_three

end Cpu

namespace Emulator

variable {σ : Type} {emu first next : Emulator σ} {s : Step} {g phases : List (Phase σ)}

theorem tells_executed (emu : Emulator σ) : emu.executed.Tells emu.cpu.code := by
  have hdecode (i : Instruction) : emu.executed.instruction = some i ↔ Instruction.decode emu.cpu.code = .ok i := by
    refine Iff.trans ?_ Instruction.decode_take.symm
    show emu.cpu.currentInstruction.toOption = some i ↔ emu.cpu.currentInstruction = .ok i
    cases emu.cpu.currentInstruction with
    | error fault => exact ⟨nofun, nofun⟩
    | ok j => exact ⟨fun h => congrArg _ (Option.some.inj h), fun h => congrArg _ (Except.ok.inj h)⟩
  refine ⟨rfl, emu.cpu.length_code, hdecode, fun i hi => ?_⟩
  obtain ⟨hv, hfront⟩ := Instruction.decode_eq_ok_iff.1 ((hdecode i).1 hi)
  have hfetched : i.code <+: emu.cpu.registers.fetched := hfront.trans <| List.take_prefix _ _
  have hlength : i.code.length = emu.cpu.code.length := by
    rw [emu.cpu.length_code]
    exact Instruction.length_of_code_front hv hfetched
  exact Instruction.encode_eq_ok_iff.2 ⟨hv, (hfront.eq_of_length hlength).symm⟩

/-! ## Fetches -/

namespace Phase

/-- The processor that a phase works on: one that starts an instruction lets the device run before it fetches. -/
def processor (p : Phase σ) : Cpu :=
  if p.before.cpu.phase = 0 then (Cpu.attend p.before.device p.before.world p.before.cpu).2.1 else p.before.cpu

/-- Without a device a phase works on the processor as it is. -/
theorem processor_of_none {p : Phase σ} (h : p.before.device = Device.none) : p.processor = p.before.cpu := by
  have hattend : Cpu.attend Device.none p.before.world p.before.cpu = (p.before.world, p.before.cpu, []) := ite_self _
  rw [processor, h, hattend]
  exact ite_self _

/-- Where a phase fetches from, if it is one that fetches. -/
def address (p : Phase σ) : UInt16 := p.processor.registers.pc

/-- The byte that a phase fetches. -/
def fetched (p : Phase σ) : Option UInt8 :=
  if p.before.cpu.phase < p.before.cpu.fetches then some (p.processor.read p.address) else none

theorem fetched_of_phase_zero {p : Phase σ} (h : p.before.cpu.phase = 0) :
    p.fetched = some (p.processor.read p.address) := by
  have hpos : 0 < p.before.cpu.fetches := by
    rw [Cpu.fetches]
    split <;> decide
  rw [fetched, h, if_pos hpos]

/-- The device runs before the phase fetches, and leaves `PC` elsewhere. -/
def MovesPc (p : Phase σ) : Prop :=
  p.before.cpu.read watchedPort ≠ p.before.cpu.watched ∧
    (p.before.device p.before.world p.before.cpu).2.1.registers.pc ≠ p.before.cpu.registers.pc

theorem pc_eq_address_iff {p : Phase σ} (h : p.before.cpu.phase = 0) :
    p.before.cpu.registers.pc = p.address ↔ ¬ p.MovesPc := by
  rw [address, processor, if_pos h, Cpu.attend, MovesPc]
  split
  · rename_i hchanged
    rw [and_iff_right hchanged, not_not]
    exact eq_comm
  · rename_i hsame
    exact ⟨fun _ hmoves => hsame hmoves.1, fun _ => rfl⟩

theorem fetched_of_phase_ne {p : Phase σ} (h : p.before.cpu.Consistent) (hne : p.before.cpu.phase ≠ 0) :
    p.fetched =
      if p.before.cpu.phase < p.before.cpu.operation.shape.length then some p.before.cpu.fetched else none := by
  have hprocessor : p.processor = p.before.cpu := if_neg hne
  rw [fetched, (h.underway hne).fetches, address, hprocessor]
  rfl

end Phase

/-- The bytes that some phases have fetched, first one first. The phases are given last one first. -/
def fetchedBytes (phases : List (Phase σ)) : List UInt8 := phases.reverse.filterMap Phase.fetched

theorem fetchedBytes_cons (p : Phase σ) (phases : List (Phase σ)) :
    fetchedBytes (p :: phases) = fetchedBytes phases ++ p.fetched.toList := by
  rw [fetchedBytes, List.reverse_cons, List.filterMap_append]
  cases h : p.fetched <;> simp [h, fetchedBytes]

/-- An instruction has been fetched from its opcode byte on. -/
theorem head?_fetchedBytes {p : Phase σ} (hlast : phases.getLast? = some p) (hphase : p.before.cpu.phase = 0) :
    (fetchedBytes phases).head? = some (p.processor.read p.address) := by
  obtain ⟨later, rfl⟩ := List.getLast?_eq_some_iff.1 hlast
  rw [fetchedBytes, List.reverse_append, List.reverse_singleton, List.singleton_append,
    List.filterMap_cons_some (Phase.fetched_of_phase_zero hphase), List.head?_cons]

/-! ## Groups -/

/-- The phases of the instruction that the last phase belongs to, last one first. -/
def lastInstruction : List (Phase σ) → List (Phase σ)
  | [] => []
  | p :: phases => if p.before.cpu.phase = 0 then [p] else p :: lastInstruction phases

/-- The phases of each instruction that was completed; last one first, both of the instructions and of the phases. -/
def instructions : List (Phase σ) → List (List (Phase σ))
  | [] => []
  | p :: phases => if p.step.completed then lastInstruction (p :: phases) :: instructions phases else instructions phases

theorem length_instructions (phases : List (Phase σ)) :
    (instructions phases).length = (phases.filter (·.step.completed)).length := by
  induction phases with
  | nil => rfl
  | cons p phases ih =>
    rw [instructions, List.filter_cons]
    split
    · rw [List.length_cons, List.length_cons, ih]
    · exact ih

/-- The phases of the instruction that has been started and not completed. -/
def unfinished (emu : Emulator σ) (phases : List (Phase σ)) : List (Phase σ) :=
  if emu.cpu.phase = 0 then [] else lastInstruction phases

/-! ## One instruction -/

theorem Steps.cpu_eq {world : σ} {cpu : Cpu} {s' : Step} (hs : emu.Steps next s)
    (hstep : emu.cpu.step emu.device emu.world = (world, cpu, s')) : next.cpu = cpu :=
  congrArg (·.2.1) (hs.cpu.symm.trans hstep)

/-- Some phases, last one first, are the first ones of an instruction: they are numbered, they have fetched the bytes
that the processor holds, and the address that is kept is that of `PC` before the first of them. The bytes behind those
may be left from an earlier instruction. -/
structure Traces (emu : Emulator σ) (g : List (Phase σ)) : Prop where
  numbers : g.map (·.before.cpu.phase) = (List.range g.length).reverse
  bytes : fetchedBytes g = emu.cpu.registers.fetched.take (min g.length emu.cpu.operation.shape.length)
  start : ∃ p, g.getLast? = some p ∧ p.before.cpu.phase = 0 ∧ p.before.device = emu.device ∧
    emu.started = p.before.cpu.registers.pc

namespace Traces

/-- The phase that starts an instruction. -/
theorem of_startInstruction (hs : emu.Steps next s) (hphase : emu.cpu.phase = 0)
    (hstart : emu.cpu.step emu.device emu.world = Cpu.startInstruction emu.device emu.world emu.cpu) :
    next.Traces [⟨emu, s, next⟩] := by
  have hcpu : next.cpu = (Cpu.attend emu.device emu.world emu.cpu).2.1.started := hs.cpu_eq hstart
  have hprocessor : (Phase.mk emu s next).processor = (Cpu.attend emu.device emu.world emu.cpu).2.1 := if_pos hphase
  have hpos : 1 ≤ next.cpu.operation.shape.length := Nat.le_of_succ_le next.cpu.operation.shape.two_le_length
  have hstarted : next.started = emu.cpu.registers.pc := by rw [hs.started, if_pos hphase]
  refine ⟨congrArg (· :: []) hphase, ?_, _, rfl, hphase, hs.device.symm, hstarted⟩
  rw [fetchedBytes_cons, Phase.fetched_of_phase_zero hphase, Phase.address, hprocessor, List.length_singleton,
    Nat.min_eq_left hpos, hcpu]
  rfl

section
variable (h : emu.Traces g) (hs : emu.Steps next s) (hne : emu.cpu.phase ≠ 0) (hlength : g.length = emu.cpu.phase)
include h hs hne hlength

/-- A phase that goes on with an instruction. -/
theorem cons (hop : next.cpu.operation = emu.cpu.operation)
    (hbytes : next.cpu.registers.fetched.take (min (emu.cpu.phase + 1) emu.cpu.operation.shape.length) =
      emu.cpu.registers.fetched.take (min emu.cpu.phase emu.cpu.operation.shape.length) ++
        (Phase.mk emu s next).fetched.toList) :
    next.Traces (⟨emu, s, next⟩ :: g) := by
  obtain ⟨p, hlast, hstart, hdevice, hstarted⟩ := h.start
  refine ⟨?_, ?_, p, ?_, hstart, hdevice.trans hs.device.symm, ?_⟩
  · rw [List.map_cons, h.numbers, List.length_cons, List.range_succ, List.reverse_append, hlength]
    rfl
  · rw [fetchedBytes_cons, h.bytes, List.length_cons, hlength, hop, hbytes]
  · rw [List.getLast?_cons, hlast, Option.getD_some]
  · rw [hs.started, if_neg hne, hstarted]

variable (hconsistent : emu.cpu.Consistent)
include hconsistent

/-- A phase that fetches an operand byte. -/
theorem fetch (hlt : emu.cpu.phase < emu.cpu.operation.shape.length) (hcpu : next.cpu = emu.cpu.fetchNext)
    (hop : next.cpu.operation = emu.cpu.operation) : next.Traces (⟨emu, s, next⟩ :: g) := by
  have hfetched : (Phase.mk emu s next).fetched = some emu.cpu.fetched :=
    (Phase.fetched_of_phase_ne hconsistent hne).trans (if_pos hlt)
  have hthree : emu.cpu.phase < 3 := Nat.lt_of_lt_of_le hlt emu.cpu.operation.shape.length_le_three
  refine h.cons hs hne hlength hop ?_
  rw [hfetched, Nat.min_eq_left hlt.le, Nat.min_eq_left hlt, hcpu]
  exact emu.cpu.take_fetched_fetchNext (Nat.pos_of_ne_zero hne) hthree

/-- A phase that executes. -/
theorem execute (hle : emu.cpu.operation.shape.length ≤ emu.cpu.phase) (hkeeps : emu.cpu.Keeps next.cpu) :
    next.Traces (⟨emu, s, next⟩ :: g) := by
  have hfetched : (Phase.mk emu s next).fetched = none :=
    (Phase.fetched_of_phase_ne hconsistent hne).trans (if_neg (Nat.not_lt_of_le hle))
  refine h.cons hs hne hlength hkeeps.operation ?_
  rw [hfetched, hkeeps.fetched, Nat.min_eq_right hle, Nat.min_eq_right (Nat.le_succ_of_le hle)]
  exact (List.append_nil _).symm

end

/-- **One phase more.** -/
theorem microstep (hconsistent : emu.cpu.Consistent)
    (h : emu.cpu.phase ≠ 0 → emu.Traces (lastInstruction phases) ∧ (lastInstruction phases).length = emu.cpu.phase)
    (hs : emu.Steps next s) :
    next.Traces (lastInstruction (⟨emu, s, next⟩ :: phases)) ∧
      (lastInstruction (⟨emu, s, next⟩ :: phases)).length = emu.cpu.phase + 1 := by
  rw [lastInstruction]
  rcases hconsistent.cases emu.device emu.world with ⟨hzero, hstart⟩ | ⟨hne, hfetch, hlt, -, hunderway⟩ |
    ⟨hne, hle, micro, -, hexecute⟩
  · rw [if_pos hzero, hzero]
    exact ⟨of_startInstruction hs hzero hstart, rfl⟩
  · obtain ⟨htraces, hlength⟩ := h hne
    have hcpu := hs.cpu_eq hfetch
    rw [if_neg hne, List.length_cons, hlength]
    exact ⟨htraces.fetch hs hne hlength hconsistent hlt hcpu (hcpu ▸ hunderway.operation), rfl⟩
  · obtain ⟨htraces, hlength⟩ := h hne
    have hkeeps : emu.cpu.Keeps (emu.cpu.execute micro) := .execute emu.cpu micro
    have hcpu := hs.cpu_eq hexecute
    rw [if_neg hne, List.length_cons, hlength]
    exact ⟨htraces.execute hs hne hlength hconsistent hle (hcpu ▸ ⟨hkeeps.fetched, hkeeps.second⟩), rfl⟩

/-- What leaves the fetched bytes alone changes nothing here. -/
theorem keeps (h : emu.Traces g) (hkeeps : emu.cpu.Keeps next.cpu) (hdevice : next.device = emu.device)
    (hstarted : next.started = emu.started) : next.Traces g := by
  refine ⟨h.numbers, ?_, ?_⟩
  · rw [hkeeps.fetched, hkeeps.operation]
    exact h.bytes
  · rw [hdevice, hstarted]
    exact h.start

end Traces

/-! ## The history -/

/-- What an entry of the history says of the phases of an instruction, last one first. -/
structure Records (device : Device σ) (x : Executed) (g : List (Phase σ)) : Prop where
  tells : x.Tells (fetchedBytes g)
  whole : g.length = x.operation.cycles
  numbers : g.map (·.before.cpu.phase) = (List.range g.length).reverse
  start : ∃ p, g.getLast? = some p ∧ p.before.cpu.phase = 0 ∧ p.before.device = device ∧
    x.address = p.before.cpu.registers.pc

theorem Traces.records (h : emu.Traces g) (hlength : g.length = emu.cpu.operation.cycles) :
    Records emu.device emu.executed g := by
  have hle : emu.cpu.operation.shape.length ≤ g.length := by
    rw [hlength]
    exact Nat.le_add_right _ _
  have hbytes : fetchedBytes g = emu.cpu.code := by
    rw [h.bytes, Nat.min_eq_right hle]
    rfl
  exact ⟨hbytes ▸ emu.tells_executed, hlength, h.numbers, h.start⟩

/-- The phases fall into instructions, and the history holds entries about the last of these. -/
structure Recorded (device : Device σ) (emu : Emulator σ) (phases : List (Phase σ)) : Prop where
  consistent : emu.cpu.Consistent
  sameDevice : emu.device = device
  underway : emu.cpu.phase ≠ 0 →
    emu.Traces (lastInstruction phases) ∧ (lastInstruction phases).length = emu.cpu.phase
  grouped : emu.unfinished phases ++ (instructions phases).flatten = phases
  entries : List.Forall₂ (Records device) emu.history.recent ((instructions phases).take historyLimit)

namespace Recorded

variable {device : Device σ}

theorem lastInstruction_append (h : Recorded device emu phases) (s : Step) (next : Emulator σ) :
    lastInstruction (⟨emu, s, next⟩ :: phases) ++ (instructions phases).flatten = ⟨emu, s, next⟩ :: phases := by
  have hgrouped := h.grouped
  rw [unfinished] at hgrouped
  rw [lastInstruction]
  split at hgrouped
  · rename_i hzero
    rw [if_pos hzero]
    exact congrArg (_ :: ·) hgrouped
  · rename_i hne
    rw [if_neg hne]
    exact congrArg (_ :: ·) hgrouped

/-- **One phase more.** -/
theorem microstep (h : Recorded device emu phases) (hm : emu.microstep = (next, some s)) :
    Recorded device next (⟨emu, s, next⟩ :: phases) := by
  have hs := steps_of_microstep hm
  obtain ⟨hconsistent, hcompleted, hphase, -⟩ := h.consistent.step hs.cpu
  obtain ⟨htraces, hlength⟩ := Traces.microstep h.consistent h.underway hs
  have happend := h.lastInstruction_append s next
  have hdevice := hs.device.trans h.sameDevice
  cases hc : s.completed with
  | false =>
    have hnext : next.cpu.phase = emu.cpu.phase + 1 := by rw [hphase, hc, if_neg Bool.false_ne_true]
    have hne : next.cpu.phase ≠ 0 := by omega
    have hsame : instructions (⟨emu, s, next⟩ :: phases) = instructions phases := by
      rw [instructions, hc, if_neg Bool.false_ne_true]
    refine ⟨hconsistent, hdevice, fun _ => ⟨htraces, hlength.trans hnext.symm⟩, ?_, ?_⟩
    · rw [unfinished, if_neg hne, hsame, happend]
    · rw [hs.history, hc, if_neg Bool.false_ne_true, hsame]
      exact h.entries
  | true =>
    have hzero : next.cpu.phase = 0 := by rw [hphase, hc, if_pos rfl]
    have hmore : instructions (⟨emu, s, next⟩ :: phases) =
        lastInstruction (⟨emu, s, next⟩ :: phases) :: instructions phases := by
      rw [instructions, hc, if_pos rfl]
    refine ⟨hconsistent, hdevice, fun hne => absurd hzero hne, ?_, ?_⟩
    · rw [unfinished, if_pos hzero, hmore, List.flatten_cons, List.nil_append, happend]
    · have hlast : emu.cpu.phase + 1 = next.cpu.operation.cycles := of_decide_eq_true (hcompleted.symm.trans hc)
      have hrecords := htraces.records (hlength.trans hlast)
      rw [hdevice] at hrecords
      rw [hs.history, hc, if_pos rfl, History.recent_push, hmore]
      have hboth := List.forall₂_take historyLimit (.cons hrecords h.entries)
      rwa [historyLimit, List.take_succ_cons, List.take_succ_cons, List.take_take] at hboth

/-- What leaves the bookkeeping of the processor and the history alone changes nothing here. -/
theorem keeps (h : Recorded device emu phases) (hkeeps : emu.cpu.Keeps next.cpu)
    (hphase : next.cpu.phase = emu.cpu.phase) (hdevice : next.device = emu.device)
    (hstarted : next.started = emu.started) (hhistory : next.history = emu.history) :
    Recorded device next phases := by
  refine ⟨h.consistent.keeps hphase hkeeps, hdevice.trans h.sameDevice, ?_, ?_, ?_⟩
  · rw [hphase]
    intro hne
    obtain ⟨htraces, hlength⟩ := h.underway hne
    exact ⟨htraces.keeps hkeeps hdevice hstarted, hlength⟩
  · rw [unfinished, hphase]
    exact h.grouped
  · rw [hhistory]
    exact h.entries

/-- Before the first phase. -/
theorem nil (hphase : emu.cpu.phase = 0) (hdevice : emu.device = device) (hhistory : emu.history = {}) :
    Recorded device emu [] := by
  refine ⟨.zero hphase, hdevice, fun hne => absurd hphase hne, ?_, ?_⟩
  · rw [unfinished, if_pos hphase]
    rfl
  · rw [hhistory]
    exact .nil

end Recorded

/-- **Each entry of the history is about one instruction**, whatever is done with the emulator. -/
theorem Session.recorded (h : first.Session emu phases) (hcpu : first.cpu = {}) (hhistory : first.history = {}) :
    Recorded first.device emu phases := by
  induction h with
  | start => exact .nil (by rw [hcpu]) rfl hhistory
  | microstep _ hm ih => exact ih.microstep hm
  | load _ hl ih =>
    obtain ⟨hload, hsame⟩ := load_eq_ok hl
    obtain ⟨hkeeps, hphase⟩ := Cpu.Keeps.load hload
    exact ih.keeps hkeeps hphase (hsame ▸ rfl) (hsame ▸ rfl) (hsame ▸ rfl)
  | setEntry entry _ ih => exact ih.keeps ⟨rfl, rfl⟩ rfl rfl rfl rfl
  | poke address v _ ih => exact ih.keeps (.write _ address v) rfl rfl rfl rfl
  | set state breakpoints maxCycles _ ih => exact ih.keeps (.refl _) rfl rfl rfl rfl
  | reset _ hr ih =>
    obtain ⟨hphase, hsame⟩ := reset_eq_ok hr
    exact .nil hphase ((hsame ▸ rfl : _ = _).trans ih.sameDevice) (hsame ▸ rfl)

/-- **The history is the recent past.** In every state that a session leads to, the phases since the last reset are those
of the instructions that were completed, one after the other, and of one that was not. The history has an entry for each
of the instructions that were completed last, as many as its limit allows, and they are in order. The bytes of an entry
are those that the phases of its instruction fetched; the instruction in it is the one that these bytes decode to, and is
encoded as them. Every sequence of calls is a session. -/
theorem history_is_recent_past :
    (∀ (device : Device σ) world threshold emu phases, (fresh device world threshold).Session emu phases →
      emu.unfinished phases ++ (instructions phases).flatten = phases ∧
      (instructions phases).length = (phases.filter (·.step.completed)).length ∧
      emu.history.recent.length = min (instructions phases).length historyLimit ∧
      List.Forall₂
        (fun x g => x.Tells (fetchedBytes g) ∧ g.length = x.operation.cycles ∧
          g.map (·.before.cpu.phase) = (List.range g.length).reverse)
        emu.history.recent.reverse
        ((instructions phases).reverse.drop ((instructions phases).length - historyLimit))) ∧
    ∀ (device : Device σ) world threshold commands, ∃ phases,
      (fresh device world threshold).Session ((fresh device world threshold).performAll commands) phases := by
  refine ⟨fun device world threshold emu phases h => ?_, fun device world threshold commands => Session.performAll _ _⟩
  have hrecorded := h.recorded rfl rfl
  refine ⟨hrecorded.grouped, length_instructions phases, ?_, ?_⟩
  · rw [hrecorded.entries.length_eq, List.length_take, Nat.min_comm]
  · have hentries := List.rel_reverse hrecorded.entries
    rw [List.reverse_take] at hentries
    exact hentries.imp fun x g hx => ⟨hx.tells, hx.whole, hx.numbers⟩

/-! ## Whole instructions -/

/-- What is started ends, unless the emulator is halted. -/
theorem StepsOut.exists_phases {last : Emulator σ} {n : Nat} (h : emu.StepsOut n last) (hsession : first.Session emu phases)
    (hconsistent : emu.cpu.Consistent) (hmax : emu.maxCycles = none) (hran : emu.state ≠ .halted) :
    ∃ g p, first.Session last (g ++ phases) ∧ last.cpu.phase = 0 ∧ g.getLast? = some p ∧ p.before = emu ∧
      instructions (g ++ phases) = lastInstruction (g ++ phases) :: instructions phases := by
  induction h generalizing phases with
  | @halted emu next hm =>
    rcases emu.microstep_cases with ⟨hhalted, -⟩ | ⟨next', s, hsome, -⟩
    · exact absurd hhalted hran
    · cases hm.symm.trans hsome
  | @completed emu next s hm hc =>
    have hs := steps_of_microstep hm
    obtain ⟨-, -, hphase, -⟩ := hconsistent.step hs.cpu
    rw [if_pos hc] at hphase
    refine ⟨[⟨emu, s, next⟩], _, hsession.microstep hm, hphase, rfl, rfl, ?_⟩
    rw [List.singleton_append, instructions, if_pos hc]
  | @more emu next last s n hm hc _ ih =>
    have hs := steps_of_microstep hm
    have hnot : ¬ s.completed = true := Bool.eq_false_iff.1 hc
    have hnext : next.maxCycles = none := hs.maxCycles.trans hmax
    have hgoes : next.state = emu.state := by
      have hexhausted : ¬ next.exhausted = true := by
        rw [exhausted, hnext]
        exact Bool.false_ne_true
      rw [hs.state, if_neg hexhausted, if_neg fun hboth => hnot hboth.1]
    obtain ⟨g, p, hlast, hphase, -, -, hgroups⟩ :=
      ih (hsession.microstep hm) (hconsistent.step hs.cpu).1 hnext (hgoes ▸ hran)
    refine ⟨g ++ [⟨emu, s, next⟩], ⟨emu, s, next⟩, ?_, hphase, List.getLast?_concat, rfl, ?_⟩
    · rw [List.append_assoc]
      exact hlast
    · rw [List.append_assoc, List.singleton_append, hgroups, instructions, if_neg hnot]

/-- **An instruction that is due comes to its end**, if there is no budget. -/
theorem Session.exists_instruction (h : first.Session emu phases) (hcpu : first.cpu = {}) (hhistory : first.history = {})
    (hphase : emu.cpu.phase = 0) (hmax : emu.maxCycles = none) (hran : emu.state ≠ .halted) :
    ∃ last g p, first.Session last (g ++ phases) ∧ last.cpu.phase = 0 ∧ g.getLast? = some p ∧ p.before = emu ∧
      instructions (g ++ phases) = g :: instructions phases := by
  have hrecorded := h.recorded hcpu hhistory
  have hleft : remaining emu.cpu ≤ 5 := by rw [remaining, if_pos hphase]
  obtain ⟨n, -, hsteps⟩ := exists_stepsOut hrecorded.consistent hleft
  obtain ⟨g, p, hlast, hdone, hp, hbefore, hgroups⟩ := hsteps.exists_phases h hrecorded.consistent hmax hran
  refine ⟨_, g, p, hlast, hdone, hp, hbefore, ?_⟩
  have hold := hrecorded.grouped
  have hnew := (hlast.recorded hcpu hhistory).grouped
  rw [unfinished, if_pos hphase, List.nil_append] at hold
  rw [unfinished, if_pos hdone, List.nil_append, hgroups, List.flatten_cons, hold] at hnew
  rw [hgroups, List.append_cancel_right hnew]

/-- The first instruction has run, and its opcode byte has been written over. -/
theorem history_is_recent_past_overwritten : ∃ (emu : Emulator Unit) (g : List (Phase Unit)) (x : Executed),
    (fresh Device.none () .info).Session emu g ∧ emu.cpu.read 0 = 0xFF ∧ instructions g = [g] ∧
    emu.history.recent = [x] ∧ x.Tells (fetchedBytes g) ∧ (fetchedBytes g).head? = some 0 := by
  have hstart : (fresh Device.none () .info).Session _ [] := .start
  obtain ⟨emu, g, p, hsession, -, hlast, hbefore, hgroups⟩ :=
    hstart.exists_instruction rfl rfl rfl rfl RunState.noConfusion
  rw [List.append_nil] at hsession hgroups
  have hgroups : instructions g = [g] := hgroups
  obtain ⟨hpast, -⟩ := history_is_recent_past (σ := Unit)
  obtain ⟨-, -, -, hentries⟩ := hpast Device.none () .info _ g (hsession.poke 0 0xFF)
  rw [hgroups, List.length_singleton, Nat.sub_eq_zero_of_le (by decide), List.drop_zero] at hentries
  obtain ⟨x, _, ⟨htells, -⟩, hnil, hrecent⟩ := List.forall₂_cons_right_iff.1 hentries
  cases List.forall₂_nil_right_iff.1 hnil
  have hprocessor : p.processor = p.before.cpu := Phase.processor_of_none (by rw [hbefore]; rfl)
  refine ⟨_, g, x, hsession.poke 0 0xFF, ?_, hgroups, List.reverse_eq_iff.1 hrecent, htells, ?_⟩
  · exact Memory.read_write_self emu.cpu.memory 0 0xFF
  · rw [head?_fetchedBytes hlast (by rw [hbefore]; rfl), hprocessor, hbefore]
    exact congrArg some (Memory.read_zero _)

/-! ## Addresses -/

/-- An entry says where the opcode byte of an instruction was fetched from. -/
def Locates (x : Executed) (g : List (Phase σ)) : Prop := ∃ p, g.getLast? = some p ∧ x.address = p.address

namespace Records

variable {device : Device σ} {x : Executed} {p : Phase σ}

theorem head?_fetched (h : Records device x g) (hlast : g.getLast? = some p) (hphase : p.before.cpu.phase = 0) :
    x.fetched.head? = some (p.processor.read p.address) := by
  have hne : x.operation.shape.length ≠ 0 := Nat.ne_zero_of_lt x.operation.shape.two_le_length
  rw [← head?_fetchedBytes hlast hphase, h.tells.held, List.head?_take, if_neg hne]

theorem locates_iff (hlast : g.getLast? = some p) (hphase : p.before.cpu.phase = 0)
    (haddress : x.address = p.before.cpu.registers.pc) : Locates x g ↔ ¬ p.MovesPc := by
  rw [← Phase.pc_eq_address_iff hphase, ← haddress]
  constructor
  · rintro ⟨q, hq, hlocated⟩
    cases hq.symm.trans hlast
    exact hlocated
  · exact fun hlocated => ⟨p, hlast, hlocated⟩

end Records

/-- **Where instructions are recorded.** In every state that a session leads to, the address of an entry is that of `PC`
before the first phase of the instruction, and its first byte is the opcode byte that this phase fetched. The byte was
fetched from that address unless the device ran in the same phase and left `PC` elsewhere; so it was for every entry if
the device never does that. -/
theorem recorded_addresses {device : Device σ} {world : σ} {threshold : Level}
    (h : (fresh device world threshold).Session emu phases) :
    List.Forall₂
      (fun x g => ∃ p, g.getLast? = some p ∧ p.before.cpu.phase = 0 ∧ p.before.device = device ∧
        x.address = p.before.cpu.registers.pc ∧ x.fetched.head? = some (p.processor.read p.address) ∧
        (Locates x g ↔ ¬ p.MovesPc))
      emu.history.recent ((instructions phases).take historyLimit) ∧
    ((∀ world cpu, (device world cpu).2.1.registers.pc = cpu.registers.pc) →
      List.Forall₂ Locates emu.history.recent ((instructions phases).take historyLimit)) := by
  have hentries := (h.recorded rfl rfl).entries
  refine ⟨hentries.imp fun x g hx => ?_, fun hstays => hentries.imp fun x g hx => ?_⟩
  · obtain ⟨p, hlast, hphase, hdevice, haddress⟩ := hx.start
    exact ⟨p, hlast, hphase, hdevice, haddress, hx.head?_fetched hlast hphase, Records.locates_iff hlast hphase haddress⟩
  · obtain ⟨p, hlast, hphase, hdevice, haddress⟩ := hx.start
    refine (Records.locates_iff hlast hphase haddress).2 fun hmoves => hmoves.2 ?_
    rw [hdevice]
    exact hstays _ _

/-- A device that jumps. -/
def jumping : Device Unit := fun _ cpu => ((), cpu.setPc 0x9000, [])

/-- A session of that device: port 0 is written to, and the first instruction runs. -/
theorem exists_jumped : ∃ emu g p, (fresh jumping () .info).Session emu g ∧ instructions g = [g] ∧
    g.getLast? = some p ∧ p.before.cpu.registers.pc = 0 ∧ p.address = 0x9000 := by
  have hpoked : (fresh jumping () .info).Session _ [] := .poke watchedPort 1 .start
  obtain ⟨emu, g, p, hsession, -, hlast, hbefore, hgroups⟩ :=
    hpoked.exists_instruction rfl rfl rfl rfl RunState.noConfusion
  rw [List.append_nil] at hsession hgroups
  refine ⟨emu, g, p, hsession, hgroups, hlast, by rw [hbefore]; rfl, ?_⟩
  have hchanged : (({} : Cpu).write watchedPort 1).read watchedPort ≠ 0 := by
    show (Memory.zero.write watchedPort 1).read watchedPort ≠ 0
    rw [Memory.read_write_self]
    decide
  have hprocessor : p.processor = (({} : Cpu).write watchedPort 1).setPc 0x9000 := by
    rw [Phase.processor, hbefore, if_pos (by rfl), Cpu.attend, if_pos (by exact hchanged)]
    rfl
  rw [Phase.address, hprocessor]
  rfl

theorem recorded_addresses_jumping : ∃ emu g x, (fresh jumping () .info).Session emu g ∧ instructions g = [g] ∧
    emu.history.recent = [x] ∧ x.address = 0 ∧ ¬ Locates x g := by
  obtain ⟨emu, g, p, hsession, hgroups, hlast, hpc, haddress⟩ := exists_jumped
  obtain ⟨hentries, -⟩ := recorded_addresses hsession
  rw [hgroups] at hentries
  obtain ⟨x, _, ⟨q, hq, -, -, hx, -⟩, hnil, hrecent⟩ := List.forall₂_cons_right_iff.1 hentries
  cases List.forall₂_nil_right_iff.1 hnil
  cases hq.symm.trans hlast
  have hzero : x.address = 0 := hx.trans hpc
  refine ⟨emu, g, x, hsession, hgroups, hrecent, hzero, ?_⟩
  rintro ⟨r, hr, hlocated⟩
  cases hr.symm.trans hlast
  rw [hzero, haddress] at hlocated
  exact absurd hlocated (by decide)

/-- Not every entry says where the opcode byte was fetched from. -/
theorem not_forall_locates : ¬ ∀ (device : Device Unit) emu phases, (fresh device () .info).Session emu phases →
    List.Forall₂ Locates emu.history.recent ((instructions phases).take historyLimit) := by
  intro hall
  obtain ⟨emu, g, p, hsession, hgroups, hlast, hpc, haddress⟩ := exists_jumped
  have hlocated := hall jumping emu g hsession
  have hentries := (hsession.recorded rfl rfl).entries
  rw [hgroups] at hlocated hentries
  obtain ⟨x, _, hx, -, hrecent⟩ := List.forall₂_cons_right_iff.1 hentries
  rw [hrecent] at hlocated
  obtain ⟨q, hq, -, -, hstarted⟩ := hx.start
  obtain ⟨⟨r, hr, haddressed⟩, -⟩ := List.forall₂_cons.1 hlocated
  cases hq.symm.trans hlast
  cases hr.symm.trans hlast
  rw [hstarted, hpc, haddress] at haddressed
  exact absurd haddressed (by decide)

end Emulator

end Octet
