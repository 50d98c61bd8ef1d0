import Octet.Proofs.Assembler.Stages
import Octet.Proofs.Emulator.Microstep
import Octet.Proofs.Machine.Stores
/-!
An emulator executes the operations that were assembled, one after the other, as long as the code is not overwritten and
jumps lead to operations.

* `operationsOf`: the operations of a source text;
* `Listing`: operations and where they stand in memory;
* `Listing.Permits`: what the next phase of an emulator may do;
* `Listing.Follows`: the state of an emulator that executes the listing;
* `Follows.microstep`: it still does after a phase;
* `runs_listing`: so it does after any number of phases.
-/

namespace Octet

open Instruction

variable {σ : Type}

/-- The operations of a source text. -/
def operationsOf (files : SourceFiles) (origin : UInt16) (path text : String) : Except AsmError (List Instruction) := do
  let program ← (Program.ofSource files origin path text).result
  let layout ← program.layOut.result
  let lines ← layout.resolve.result
  expandLines lines

theorem Stages.operationsOf_eq {files : SourceFiles} {origin : UInt16} {path text : String}
    (s : Stages files origin path text) : operationsOf files origin path text = .ok s.operations := by
  rw [operationsOf, s.program_eq, Except.ok_bind, s.layout_eq, Except.ok_bind, s.resolved_eq, Except.ok_bind,
    s.expandLines_eq]

/-! ## Listings -/

/-- Operations with machine code, and the address of the first one. They fit in memory. -/
structure Listing where
  origin : UInt16
  operations : List Instruction
  valid : ∀ i ∈ operations, i.Valid
  fits : origin.toNat + totalLength operations ≤ 0x10000

namespace Listing

variable (l : Listing)

/-- The number of operations. -/
def size : Nat := l.operations.length

/-- The address of an operation. Behind the last one it is the end of the code; it is 0 there if the code ends with the
memory. -/
def address (j : Nat) : UInt16 := UInt16.ofNat (l.origin.toNat + totalLength (l.operations.take j))

/-- The code stands at an address. -/
def Covers (address : UInt16) : Prop :=
  l.origin.toNat ≤ address.toNat ∧ address.toNat < l.origin.toNat + totalLength l.operations

/-- An address that an instruction may start at. -/
def Marks (address : UInt16) : Prop := ∃ j, j ≤ l.size ∧ address = l.address j

/-- An instruction would start behind the code. -/
def Ended (cpu : Cpu) : Prop :=
  cpu.phase = 0 ∧ cpu.registers.pc = l.address l.size ∧ ∀ j, j < l.size → cpu.registers.pc ≠ l.address j

/-- The next phase runs code of the listing, does not overwrite any of it, and jumps into it if it jumps. -/
structure Permits (emu : Emulator σ) : Prop where
  inside : ¬ l.Ended emu.cpu
  store : ∀ op ∈ emu.microstep.2.bind Step.microOp, ∀ address ∈ op.target? emu.cpu.registers, ¬ l.Covers address
  jump : ∀ op ∈ emu.microstep.2.bind Step.microOp, emu.cpu.Jumps op → l.Marks emu.cpu.registers.pointer

/-- A phase that leads from one state to another meets no anomaly. If it ends an instruction, that is one of the listing,
and goes to the history with its address. -/
def Records (emu next : Emulator σ) : Prop :=
  ∃ step, emu.microstep = (next, some step) ∧ step.anomalies = [] ∧
    if step.completed then
      ∃ j i fetched, l.operations[j]? = some i ∧ next.history = emu.history.push ⟨l.address j, fetched, some i⟩
    else next.history = emu.history

variable {l}

/-! ## Addresses -/

theorem address_zero : l.address 0 = l.origin := by
  rw [address, List.take_zero, totalLength_nil, Nat.add_zero, UInt16.ofNat_toNat]

theorem address_eq (j : Nat) : l.address j = l.origin + UInt16.ofNat (totalLength (l.operations.take j)) := by
  rw [address, UInt16.ofNat_add, UInt16.ofNat_toNat]

variable {j : Nat} {i : Instruction} (hi : l.operations[j]? = some i)
include hi

theorem lt_size : j < l.size := (List.getElem?_eq_some_iff.1 hi).1

theorem valid_of_getElem? : i.Valid := l.valid i (List.mem_of_getElem? hi)

/-- An operation is as long as the way to the next one. -/
theorem address_succ : l.address (j + 1) = l.address j + UInt16.ofNat i.length := by
  rw [address_eq, address_eq, List.take_add_one, hi, totalLength_append, UInt16.ofNat_add, UInt16.add_assoc]
  rfl

theorem operations_split : l.operations = l.operations.take j ++ i :: l.operations.drop (j + 1) := by
  obtain ⟨hj, rfl⟩ := List.getElem?_eq_some_iff.1 hi
  rw [← List.drop_eq_getElem_cons hj, List.take_append_drop]

/-- A byte of an operation is one of the code. -/
theorem getElem?_codeOf {p : Nat} {b : UInt8} (hb : i.code[p]? = some b) :
    (codeOf l.operations)[totalLength (l.operations.take j) + p]? = some b := by
  have hvalid : ∀ i ∈ l.operations.take j, i.Valid := fun i hmem => l.valid i (List.mem_of_mem_take hmem)
  have hp := (List.getElem?_eq_some_iff.1 hb).1
  rw [operations_split hi, List.take_left' (List.length_take_of_le (Nat.le_of_lt (lt_size hi))), codeOf_append,
    codeOf_cons, ← length_codeOf hvalid, List.getElem?_append_right (Nat.le_add_right _ _), Nat.add_sub_cancel_left,
    List.getElem?_append_left hp, hb]

end Listing

namespace Listing

variable {l : Listing}

/-! ## Code in memory -/

/-- The code stands in memory. -/
def InMemory (l : Listing) (cpu : Cpu) : Prop :=
  ∀ n b, (codeOf l.operations)[n]? = some b → cpu.read (l.origin + UInt16.ofNat n) = b

theorem length_code (l : Listing) : (codeOf l.operations).length = totalLength l.operations := length_codeOf l.valid

theorem covers_add {n : Nat} (h : n < totalLength l.operations) : l.Covers (l.origin + UInt16.ofNat n) := by
  have hn := l.fits
  rw [Covers, Cpu.toNat_add_ofNat (by omega)]
  omega

/-- A micro-operation that writes elsewhere leaves the code alone. -/
theorem InMemory.execute {cpu : Cpu} {op : MicroOp} (h : l.InMemory cpu)
    (hstore : ∀ address ∈ op.target? cpu.registers, ¬ l.Covers address) : l.InMemory (cpu.execute op) := by
  intro n b hb
  have hn : n < totalLength l.operations := l.length_code ▸ (List.getElem?_eq_some_iff.1 hb).1
  rw [Cpu.read_execute fun hmem => hstore _ hmem (covers_add hn)]
  exact h n b hb

/-- The bytes of an operation stand at its address. -/
theorem InMemory.read {cpu : Cpu} {j p : Nat} {i : Instruction} (h : l.InMemory cpu) (hi : l.operations[j]? = some i)
    (hp : p < i.length) : i.code[p]? = some (cpu.read (l.address j + UInt16.ofNat p)) := by
  rw [← Instruction.length_code (valid_of_getElem? hi)] at hp
  have hb := List.getElem?_eq_getElem hp
  rw [address_eq, UInt16.add_assoc, ← UInt16.ofNat_add, h _ _ (getElem?_codeOf hi hb), hb]

/-! ## States -/

/-- Where a processor is in a listing, given the address that its instruction started at. -/
inductive At (l : Listing) (cpu : Cpu) (started : UInt16) : Prop
  /-- between two instructions -/
  | boundary (phase : cpu.phase = 0) (pc : l.Marks cpu.registers.pc)
  /-- while an operation is fetched -/
  | fetching {j p : Nat} {i : Instruction} (hi : l.operations[j]? = some i) (hpos : 0 < p) (hp : p < i.length)
      (hs : started = l.address j) (h : cpu.Fetches i (l.address j) p)
  /-- while an operation is executed -/
  | executing {j index : Nat} {i : Instruction} (hi : l.operations[j]? = some i) (hindex : index < i.op.microcode.length)
      (hs : started = l.address j) (h : cpu.Executes i index) (pc : l.Marks cpu.registers.pc)

theorem At.marks_of_phase {cpu : Cpu} {started : UInt16} (h : l.At cpu started) (hphase : cpu.phase = 0) :
    l.Marks cpu.registers.pc := by
  cases h with
  | boundary _ pc => exact pc
  | fetching _ hpos _ _ h => exact absurd (h.phase.symm.trans hphase) (Nat.ne_of_gt hpos)
  | @executing _ _ i _ _ _ h _ =>
    have hsum := h.phase.symm.trans hphase
    exact absurd (Nat.eq_zero_of_add_eq_zero_right hsum) (Nat.ne_of_gt i.length_pos)

/-- An emulator that executes the listing. -/
structure Follows (l : Listing) (emu : Emulator σ) : Prop where
  unattended : emu.Unattended
  code : l.InMemory emu.cpu
  place : l.At emu.cpu emu.started

namespace Follows

variable {emu : Emulator σ} {j p index : Nat} {i : Instruction}

/-- A phase that fetches a byte of an operation. -/
theorem fetch (h : l.Follows emu) (hi : l.operations[j]? = some i) (hp : p < i.length)
    (hs : 0 < p → emu.started = l.address j) (hf : emu.cpu.Fetches i (l.address j) p) :
    ∃ next step, emu.microstep = (next, some step) ∧ step.microOp = none ∧ l.Follows next ∧ l.Records emu next ∧
      next.cpu.Fetches i (l.address j) (p + 1) ∧ next.started = l.address j := by
  obtain ⟨cpu, step, hstep, hfetches, hfs⟩ := hf.step (valid_of_getElem? hi) hp (h.code.read hi hp) emu.world
  obtain ⟨next, hmicro, hunattended, rfl, -, hstarted, hhistory⟩ := h.unattended.microstep hstep
  have hstarted : next.started = l.address j := by
    rw [hstarted]
    by_cases hphase : emu.cpu.phase = 0
    · obtain rfl := hf.phase.symm.trans hphase
      rw [if_pos hphase, hf.pc]
      exact UInt16.add_zero _
    · rw [if_neg hphase]
      exact hs (Nat.pos_of_ne_zero (hf.phase ▸ hphase))
  have hcode : l.InMemory next.cpu := by
    intro n b hb
    rw [Cpu.read, show next.cpu.memory = emu.cpu.memory from congrArg Machine.memory hfs.machine]
    exact h.code n b hb
  have hrecords : l.Records emu next := by
    refine ⟨step, hmicro, hfs.anomalies, ?_⟩
    rw [hfs.completed] at hhistory ⊢
    exact hhistory
  refine ⟨next, step, hmicro, hfs.microOp, ⟨hunattended, hcode, ?_⟩, hrecords, hfetches, hstarted⟩
  -- with the last byte the operation is held, and `PC` is where the next one stands
  by_cases hlast : p + 1 < i.length
  · exact .fetching hi (Nat.succ_pos p) hlast hstarted hfetches
  · obtain hlength : p + 1 = i.length := Nat.le_antisymm hp (Nat.not_lt.1 hlast)
    rw [hlength] at hfetches
    exact .executing hi (List.length_pos_iff.2 i.microcode_ne_nil) hstarted (hfetches.executes (valid_of_getElem? hi))
      ⟨j + 1, lt_size hi, by rw [hfetches.pc, address_succ hi]⟩

/-- A phase that executes an operation. -/
theorem execute (h : l.Follows emu) (hp : l.Permits emu) (hi : l.operations[j]? = some i)
    (hindex : index < i.op.microcode.length) (hs : emu.started = l.address j) (he : emu.cpu.Executes i index)
    (hpc : l.Marks emu.cpu.registers.pc) :
    ∃ next, l.Follows next ∧ l.Records emu next := by
  have ho := List.getElem?_eq_getElem hindex
  obtain ⟨cpu, step, hstep, hes⟩ := he.step ho emu.world
  obtain ⟨next, hmicro, hunattended, rfl, -, hstarted, hhistory⟩ := h.unattended.microstep hstep
  have hop : i.op.microcode[index] ∈ emu.microstep.2.bind Step.microOp := by
    rw [hmicro]
    exact hes.microOp
  have hphase : emu.cpu.phase ≠ 0 := by
    rw [he.phase]
    exact Nat.ne_of_gt (Nat.add_pos_left i.length_pos index)
  rw [if_neg hphase, hs] at hstarted
  have hcode : l.InMemory next.cpu := by
    rw [hes.next]
    exact h.code.execute (hp.store _ hop)
  have hmarks : l.Marks next.cpu.registers.pc := by
    rw [hes.next]
    by_cases hjump : emu.cpu.Jumps i.op.microcode[index]
    · exact (Cpu.pc_execute_of_jumps hjump).symm ▸ hp.jump _ hop hjump
    · exact (Cpu.pc_execute_of_not_jumps hjump).symm ▸ hpc
  have hheld : next.cpu.currentInstruction = .ok i := hes.currentInstruction.trans he.held
  -- whether or not `PC` was moved, the next instruction starts at a mark
  refine ⟨next, ⟨hunattended, hcode, ?_⟩, step, hmicro, hes.anomalies, ?_⟩
  · by_cases hlast : index + 1 < i.op.microcode.length
    · exact .executing hi hlast hstarted (he.next hes hlast) hmarks
    · refine .boundary ?_ hmarks
      rw [hes.next]
      exact if_neg hlast
  · rw [Emulator.executed, hstarted, hheld] at hhistory
    split
    · rename_i hcompleted
      rw [if_pos hcompleted] at hhistory
      exact ⟨j, i, _, hi, hhistory⟩
    · rename_i hcompleted
      rwa [if_neg hcompleted] at hhistory

/-- Code that has not ended goes on with an operation. -/
theorem exists_operation {cpu : Cpu} (hphase : cpu.phase = 0) (hmarks : l.Marks cpu.registers.pc) (h : ¬ l.Ended cpu) :
    ∃ j i, l.operations[j]? = some i ∧ cpu.registers.pc = l.address j := by
  suffices hj : ∃ j, j < l.size ∧ cpu.registers.pc = l.address j by
    obtain ⟨j, hj, hpc⟩ := hj
    exact ⟨j, _, List.getElem?_eq_getElem hj, hpc⟩
  obtain ⟨j, hj, hpc⟩ := hmarks
  rcases Nat.lt_or_eq_of_le hj with hlt | rfl
  · exact ⟨j, hlt, hpc⟩
  · by_contra hnone
    exact h ⟨hphase, hpc, fun j hj hpc => hnone ⟨j, hj, hpc⟩⟩

/-- **One phase.** -/
theorem microstep (h : l.Follows emu) (hp : l.Permits emu) : ∃ next, l.Follows next ∧ l.Records emu next := by
  cases h.place with
  | boundary hphase hmarks =>
    obtain ⟨j, i, hi, hpc⟩ := exists_operation hphase hmarks hp.inside
    obtain ⟨next, step, -, -, hnext, hrecords, -⟩ :=
      h.fetch hi i.length_pos (fun hpos => absurd hpos (Nat.lt_irrefl 0)) (hpc ▸ .start hphase)
    exact ⟨next, hnext, hrecords⟩
  | fetching hi hpos hlt hs hf =>
    obtain ⟨next, step, -, -, hnext, hrecords, -⟩ := h.fetch hi hlt (fun _ => hs) hf
    exact ⟨next, hnext, hrecords⟩
  | executing hi hindex hs he hpc => exact h.execute hp hi hindex hs he hpc

/-- **Any number of phases.** -/
theorem run (h : l.Follows emu) {k : Nat} (hp : ∀ t, t < k → l.Permits (emu.run t)) :
    l.Follows (emu.run k) ∧ ∀ t, t < k → l.Records (emu.run t) (emu.run (t + 1)) := by
  induction k with
  | zero => exact ⟨h, fun t ht => absurd ht (Nat.not_lt_zero t)⟩
  | succ k ih =>
    obtain ⟨hfollows, hrecords⟩ := ih fun t ht => hp t (Nat.lt_succ_of_lt ht)
    obtain ⟨next, hnext, hrecord⟩ := hfollows.microstep (hp k (Nat.lt_succ_self k))
    obtain ⟨step, hmicro, -⟩ := id hrecord
    have hrun : emu.run (k + 1) = next := by
      rw [Emulator.run_succ hfollows.unattended.running, hmicro]
    refine ⟨hrun ▸ hnext, fun t ht => ?_⟩
    rcases Nat.lt_or_eq_of_le (Nat.le_of_lt_succ ht) with hlt | rfl
    · exact hrecords t hlt
    · exact hrun ▸ hrecord

/-! ## Permitted phases -/

/-- Nothing is asked of a phase that fetches. -/
theorem permits_of_fetches (h : l.Follows emu) (hi : l.operations[j]? = some i) (hp : p < i.length)
    (hs : 0 < p → emu.started = l.address j) (hf : emu.cpu.Fetches i (l.address j) p) : l.Permits emu := by
  obtain ⟨next, step, hmicro, hnone, -⟩ := h.fetch hi hp hs hf
  have hop : emu.microstep.2.bind Step.microOp = none := by
    rw [hmicro]
    exact hnone
  refine ⟨?_, fun op ho => ?_, fun op ho => ?_⟩
  · rintro ⟨hphase, -, hne⟩
    obtain rfl := hf.phase.symm.trans hphase
    exact hne j (lt_size hi) (hf.pc.trans (UInt16.add_zero _))
  · rw [hop] at ho
    cases ho
  · rw [hop] at ho
    cases ho

/-- A phase is permitted that neither writes to memory nor jumps. -/
theorem permits_of_executes (h : l.Follows emu) (hindex : index < i.op.microcode.length) (he : emu.cpu.Executes i index)
    (hstore : i.op.microcode[index].target? emu.cpu.registers = none) (hjump : ¬ emu.cpu.Jumps i.op.microcode[index]) :
    l.Permits emu := by
  obtain ⟨cpu, step, hstep, hes⟩ := he.step (List.getElem?_eq_getElem hindex) emu.world
  obtain ⟨next, hmicro, -⟩ := h.unattended.microstep hstep
  have hop : emu.microstep.2.bind Step.microOp = some i.op.microcode[index] := by
    rw [hmicro]
    exact hes.microOp
  refine ⟨?_, fun op ho => ?_, fun op ho hjumps => ?_⟩
  · rintro ⟨hphase, -⟩
    exact absurd (Nat.eq_zero_of_add_eq_zero_right (he.phase.symm.trans hphase)) (Nat.ne_of_gt i.length_pos)
  · obtain rfl := Option.some.inj (hop.symm.trans ho)
    rw [hstore]
    exact fun address ha => nomatch ha
  · obtain rfl := Option.some.inj (hop.symm.trans ho)
    exact absurd hjumps hjump

/-- The phases that fetch an operation. -/
theorem run_fetches (h : l.Follows emu) (hi : l.operations[j]? = some i) (hphase : emu.cpu.phase = 0)
    (hpc : emu.cpu.registers.pc = l.address j) (hp : p ≤ i.length) :
    l.Follows (emu.run p) ∧ (emu.run p).cpu.Fetches i (l.address j) p ∧ (0 < p → (emu.run p).started = l.address j) := by
  induction p with
  | zero => exact ⟨h, hpc ▸ .start hphase, fun hpos => absurd hpos (Nat.lt_irrefl 0)⟩
  | succ p ih =>
    obtain ⟨hfollows, hfetches, hs⟩ := ih (Nat.le_of_lt hp)
    obtain ⟨next, step, hmicro, -, hnext, -, hf, hstarted⟩ := hfollows.fetch hi hp hs hfetches
    have hrun : emu.run (p + 1) = next := by
      rw [Emulator.run_succ hfollows.unattended.running, hmicro]
    rw [hrun]
    exact ⟨hnext, hf, fun _ => hstarted⟩

end Follows

/-! ## Loading -/

/-- Code that is loaded, with data behind it, is executed from its origin on. -/
theorem follows_load (emu : Emulator σ) (hemu : emu.Unattended) (hphase : emu.cpu.phase = 0) {data : List UInt8}
    (hfits : l.origin.toNat + (codeOf l.operations ++ data).length ≤ 0x10000) :
    ∃ loaded, emu.load l.origin (codeOf l.operations ++ data) = .ok loaded ∧ loaded.cpu.phase = 0 ∧
      l.Follows (loaded.setEntry l.origin) := by
  have hzero := (emu.cpu.phase_writeMany l.origin (codeOf l.operations ++ data)).trans hphase
  rw [Emulator.load, Cpu.load, if_neg (Nat.not_lt.2 hfits)]
  refine ⟨_, rfl, hzero, ⟨hemu.running, hemu.breakpoints, hemu.maxCycles, hemu.device⟩, ?_, .boundary hzero ?_⟩
  · intro n b hb
    refine Cpu.read_writeMany hfits ?_
    rw [List.getElem?_append_left (List.getElem?_eq_some_iff.1 hb).1, hb]
  · exact ⟨0, Nat.zero_le _, address_zero.symm⟩

end Listing

/-- The listing of an assembly. -/
def Stages.listing {files : SourceFiles} {origin : UInt16} {path text : String} (s : Stages files origin path text) :
    Listing where
  origin := s.image.origin
  operations := s.operations
  valid := s.valid
  fits := by
    refine Nat.le_trans (Nat.add_le_add_left ?_ _) s.fits
    rw [← length_codeOf s.valid, Image.bytes, List.length_append]
    exact Nat.le_add_right _ _

/-- **The operations that were assembled are those that are executed.** The image is loaded into a fresh emulator that
starts at its origin. As long as no phase overwrites the code or jumps to an address at which no operation starts, there
is no anomaly, every instruction that ends is an operation and goes to the history with its address, and an instruction
starts where an operation does or at the end of the code, behind which nothing is said. -/
theorem runs_listing {files : SourceFiles} {origin : UInt16} {path text : String} {image : Image}
    (h : (assemble files origin path text).result = .ok image) :
    ∃ l : Listing, operationsOf files origin path text = .ok l.operations ∧ l.origin = image.origin ∧
      totalLength l.operations = image.code.length ∧
      l.address l.size = UInt16.ofNat (image.origin.toNat + image.code.length) ∧
      ∀ (world : σ) (threshold : Level), ∃ loaded start,
        Emulator.load { world := world, threshold := threshold } image.origin image.bytes = .ok loaded ∧
        start = loaded.setEntry image.origin ∧
        ∀ k, (∀ t, t < k → l.Permits (start.run t)) →
          (∀ t, t < k → l.Records (start.run t) (start.run (t + 1))) ∧
          ((start.run k).cpu.phase = 0 → l.Marks (start.run k).cpu.registers.pc) := by
  obtain ⟨s, rfl⟩ := assemble_eq_ok_iff.1 h
  have hlength : totalLength s.operations = s.image.code.length := (length_codeOf s.valid).symm
  refine ⟨s.listing, s.operationsOf_eq, rfl, hlength, ?_, fun world threshold => ?_⟩
  · rw [Listing.address, Listing.size, List.take_length]
    exact congrArg (fun n => UInt16.ofNat (s.image.origin.toNat + n)) hlength
  · obtain ⟨loaded, hload, -, hfollows⟩ :=
      Listing.follows_load (l := s.listing) { world := world, threshold := threshold } ⟨rfl, rfl, rfl, rfl⟩ rfl s.fits
    refine ⟨loaded, _, hload, rfl, fun k hk => ?_⟩
    obtain ⟨hlast, hrecords⟩ := hfollows.run hk
    exact ⟨hrecords, hlast.place.marks_of_phase⟩

theorem runs_listing_move :
    ∃ (l : Listing) (start : Emulator Unit),
      operationsOf (.ofList []) 0x8000 "move.asm" "MOV A, 0x01\nJMP $" = .ok l.operations ∧ l.origin = 0x8000 ∧
      (∀ t, t < 4 → l.Permits (start.run t)) ∧ ∀ t, t < 4 → l.Records (start.run t) (start.run (t + 1)) := by
  have h : (assemble (.ofList []) 0x8000 "move.asm" "MOV A, 0x01\nJMP $").result =
      .ok ⟨0x8000, [0x03, 0x06, 0x01, 0x02, 0x80, 0x03, 0x88, 0x01], []⟩ := by cbv
  have ho : operationsOf (.ofList []) 0x8000 "move.asm" "MOV A, 0x01\nJMP $" =
      .ok [⟨.lc, .regImm .a 0x01⟩, ⟨.lda, .address 0x80 0x03⟩, ⟨.jnz, .source (.imm 0x01)⟩] := by cbv
  obtain ⟨l, hl, horigin, -, -, hruns⟩ := runs_listing h
  have hlist := Except.ok.inj (hl.symm.trans ho)
  obtain ⟨loaded, start, hload, rfl, hrun⟩ := hruns () .info
  obtain ⟨hphase, hfollows⟩ : loaded.cpu.phase = 0 ∧ l.Follows (loaded.setEntry 0x8000) := by
    have hcode : codeOf l.operations = [0x03, 0x06, 0x01, 0x02, 0x80, 0x03, 0x88, 0x01] := by
      rw [hlist]
      decide
    have hfits : l.origin.toNat + (codeOf l.operations ++ []).length ≤ 0x10000 := by
      rw [hcode, horigin]
      decide
    obtain ⟨loaded', hload', hphase, hfollows⟩ :=
      Listing.follows_load { world := (), threshold := .info } ⟨rfl, rfl, rfl, rfl⟩ rfl hfits
    rw [hcode, horigin] at hload'
    obtain rfl := Except.ok.inj (hload'.symm.trans hload)
    rw [horigin] at hfollows
    exact ⟨hphase, hfollows⟩
  have hi : l.operations[0]? = some ⟨.lc, .regImm .a 0x01⟩ := by rw [hlist]; rfl
  have hpermits : ∀ t, t < 4 → l.Permits ((loaded.setEntry 0x8000).run t) := by
    intro t ht
    have hpc : (loaded.setEntry 0x8000).cpu.registers.pc = l.address 0 := Listing.address_zero.symm ▸ horigin.symm
    obtain ⟨hf, hfetches, hs⟩ := hfollows.run_fetches hi hphase hpc (show t ≤ 3 by omega)
    rcases Nat.lt_or_eq_of_le (Nat.le_of_lt_succ ht) with hlt | rfl
    · exact hf.permits_of_fetches hi hlt hs hfetches
    · refine hf.permits_of_executes Nat.one_pos (hfetches.executes (Listing.valid_of_getElem? hi)) rfl ?_
      rintro ⟨hop, -⟩
      cases hop
  exact ⟨l, _, hl, horigin, hpermits, (hrun 4 hpermits).1⟩

end Octet
