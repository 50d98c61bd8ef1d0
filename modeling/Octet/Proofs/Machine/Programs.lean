import Octet.Proofs.Machine.Refinement
import Octet.Proofs.Machine.Stores
/-!
Programs that stand in memory and run from their first instruction to their last.

* `Machine.Holds`: some bytes stand in memory;
* `Machine.Straight`: no instruction but the last one jumps, and none stores over the ones behind it;
* `Machine.Runs`: the instructions are those that are fetched, one after the other;
* `runs_of_straight`: a straight program that stands at `PC` is the one that runs;
* `Cpu.exists_runsClean`: a processor runs it, and ends where its instructions lead.
-/

namespace Octet

open Instruction

namespace Machine

variable {m : Machine} {i : Instruction} {program : List Instruction} {address : UInt16}

/-! ## Code in memory -/

/-- Some bytes stand in memory from an address on. Addresses wrap at the end of memory. -/
def Holds (m : Machine) (address : UInt16) (bytes : List UInt8) : Prop :=
  ∀ k b, bytes[k]? = some b → m.load (address + UInt16.ofNat k) = b

theorem holds_append {xs ys : List UInt8} :
    m.Holds address (xs ++ ys) ↔ m.Holds address xs ∧ m.Holds (address + UInt16.ofNat xs.length) ys := by
  constructor
  · intro h
    refine ⟨fun k b hb => h k b ?_, fun k b hb => ?_⟩
    · rw [List.getElem?_append_left (List.getElem?_eq_some_iff.1 hb).1, hb]
    · rw [UInt16.add_assoc, ← UInt16.ofNat_add]
      refine h _ b ?_
      rw [List.getElem?_append_right (Nat.le_add_right _ _), Nat.add_sub_cancel_left, hb]
  · rintro ⟨hx, hy⟩ k b hb
    by_cases hk : k < xs.length
    · rw [List.getElem?_append_left hk] at hb
      exact hx k b hb
    · have hle := Nat.le_of_not_lt hk
      rw [List.getElem?_append_right hle] at hb
      rw [← Nat.add_sub_cancel' hle, UInt16.ofNat_add, ← UInt16.add_assoc]
      exact hy _ b hb

/-- An instruction is fetched from its machine code. -/
theorem fetch_of_holds (hv : i.Valid) (h : m.Holds m.pc i.code) : m.fetch = .ok i := by
  refine decode_eq_ok_iff.2 ⟨hv, List.prefix_iff_getElem?.2 fun k hk => ?_⟩
  have hthree : k < 3 := by
    have hlength := length_code hv
    have := i.length_eq_two_or_three
    omega
  rw [Memory.readMany, List.getElem?_map, List.getElem?_range hthree]
  exact congrArg some (h k _ (List.getElem?_eq_getElem hk))

/-! ## What an instruction leaves alone -/

/-- The address that an instruction stores to, if it stores. -/
def target? (m : Machine) (i : Instruction) : Option UInt16 :=
  match i.op, i.operands with
  | .sw, .source _ => some m.pointer
  | .swa, .packedReg _ hi lo => some (wordOf hi lo)
  | .push, .source _ => some m.sp
  | _, _ => none

theorem target?_setPc (m : Machine) (pc : UInt16) (i : Instruction) :
    ({ m with pc := pc } : Machine).target? i = m.target? i := by
  unfold target?
  split <;> rfl

/-- A jump goes to `H:L` unless its source is zero. -/
theorem perform_jump (m : Machine) (s : Source) :
    m.perform ⟨.jnz, .source s⟩ = { m with pc := if m.value s ≠ 0 then m.pointer else m.pc } := by
  show (if m.value s ≠ 0 then { m with pc := m.pointer } else m) = _
  split <;> rfl

/-- **An instruction stores at its target only.** -/
theorem load_perform (h : address ∉ m.target? i) : (m.perform i).load address = m.load address := by
  have hstore (m : Machine) {target : UInt16} (v : UInt8) (hne : target ≠ address) :
      (m.store target v).load address = m.load address := m.memory.read_write_of_ne v hne
  obtain ⟨op, o⟩ := i
  -- only three operations store, and only a jump looks at a condition
  cases op <;> cases o <;> try rfl
  case sw.source => exact hstore m _ fun he => h (congrArg some he)
  case swa.packedReg => exact hstore m _ fun he => h (congrArg some he)
  case push.source => exact hstore m _ fun he => h (congrArg some he)
  case jnz.source s => exact congrArg (fun m' => m'.load address) (perform_jump m s)

/-- Nothing but a jump moves `PC`. -/
theorem pc_perform (h : i.op ≠ .jnz) : (m.perform i).pc = m.pc := by
  obtain ⟨op, o⟩ := i
  cases op <;> cases o <;> try rfl
  case jnz.source => exact absurd rfl h

theorem load_execute (h : address ∉ m.target? i) : (m.execute i).load address = m.load address := by
  rw [execute, load_perform ((m.target?_setPc _ i).symm ▸ h)]
  rfl

theorem pc_execute (h : i.op ≠ .jnz) : (m.execute i).pc = m.pc + UInt16.ofNat i.length := pc_perform h

/-! ## Quiet instructions -/

/-- The machine further on, with nothing else changed. -/
def skip (m : Machine) (n : Nat) : Machine := { m with pc := m.pc + UInt16.ofNat n }

theorem skip_skip (m : Machine) (n k : Nat) : (m.skip n).skip k = m.skip (n + k) := by
  rw [skip, skip, skip, UInt16.ofNat_add, ← UInt16.add_assoc]

/-- An instruction that goes on to the next one and changes nothing but registers. -/
def Quiet (i : Instruction) : Prop := i.op ∉ [Opcode.sw, .swa, .push, .pop, .jnz]

instance (i : Instruction) : Decidable (Quiet i) := inferInstanceAs (Decidable (_ ∉ _))

theorem target?_of_quiet (h : Quiet i) : m.target? i = none := by
  unfold target?
  split
  case h_4 => rfl
  all_goals
    rename_i hop _
    exact absurd (by rw [hop]; decide) h

theorem execute_of_quiet (h : Quiet i) (m : Machine) :
    m.execute i = ({ m with file := (m.execute i).file } : Machine).skip i.length := by
  obtain ⟨op, o⟩ := i
  cases op <;> cases o <;> try rfl
  -- the other operations are not quiet
  all_goals exact absurd (by simp) h

/-! ## Programs -/

/-- The state after some instructions. -/
def executeAll (m : Machine) (program : List Instruction) : Machine := program.foldl execute m

@[simp] theorem executeAll_nil (m : Machine) : m.executeAll [] = m := rfl

@[simp] theorem executeAll_cons (m : Machine) (i : Instruction) (program : List Instruction) :
    m.executeAll (i :: program) = (m.execute i).executeAll program := rfl

theorem executeAll_append (m : Machine) (p q : List Instruction) :
    m.executeAll (p ++ q) = (m.executeAll p).executeAll q := List.foldl_append

/-- Quiet instructions change nothing but registers. -/
theorem executeAll_of_quiet (h : ∀ i ∈ program, Quiet i) (m : Machine) :
    m.executeAll program = ({ m with file := (m.executeAll program).file } : Machine).skip (totalLength program) := by
  induction program generalizing m with
  | nil =>
    show m = ({ m with pc := m.pc + 0 } : Machine)
    rw [UInt16.add_zero]
  | cons i program ih =>
    obtain ⟨hi, hrest⟩ := List.forall_mem_cons.1 h
    rw [executeAll_cons, ih hrest, totalLength_cons, ← skip_skip, execute_of_quiet hi]
    rfl

/-- The instructions are those that are fetched, one after the other. -/
def Runs (m : Machine) : List Instruction → Prop
  | [] => True
  | i :: rest => m.fetch = .ok i ∧ (m.execute i).Runs rest

/-- No instruction but the last one jumps, and none stores over the ones behind it. -/
def Straight (m : Machine) : List Instruction → Prop
  | [] => True
  | i :: rest => (rest ≠ [] → i.op ≠ .jnz) ∧
      (∀ address ∈ m.target? i, ∀ k, k < (codeOf rest).length →
        m.pc + UInt16.ofNat (i.code.length + k) ≠ address) ∧
      (m.execute i).Straight rest

/-- Quiet instructions and then any one are straight. -/
theorem straight_of_quiet (h : ∀ i ∈ program, Quiet i) (m : Machine) (last : Instruction) :
    m.Straight (program ++ [last]) := by
  induction program generalizing m with
  | nil => exact ⟨fun hne => absurd rfl hne, fun _ _ k hk => absurd hk (Nat.not_lt_zero k), trivial⟩
  | cons i program ih =>
    obtain ⟨hi, hrest⟩ := List.forall_mem_cons.1 h
    refine ⟨fun _ hj => hi (by rw [hj]; decide), fun address ha => ?_, ih hrest _⟩
    rw [target?_of_quiet hi] at ha
    cases ha

/-- **A straight program that stands at `PC` runs.** -/
theorem runs_of_straight (hv : ∀ i ∈ program, i.Valid) (hh : m.Holds m.pc (codeOf program))
    (hs : m.Straight program) : m.Runs program := by
  induction program generalizing m with
  | nil => trivial
  | cons i rest ih =>
    obtain ⟨hi, hrest⟩ := List.forall_mem_cons.1 hv
    obtain ⟨hjump, hstore, hs⟩ := hs
    rw [codeOf_cons, holds_append] at hh
    refine ⟨fetch_of_holds hi hh.1, ih hrest ?_ hs⟩
    -- the first instruction stores elsewhere, so the code of the others is still there
    intro k b hb
    have hne : rest ≠ [] := by
      rintro rfl
      cases hb
    rw [pc_execute (hjump hne), ← length_code hi]
    have hkeep : m.pc + UInt16.ofNat i.code.length + UInt16.ofNat k ∉ m.target? i := by
      intro hmem
      refine hstore _ hmem k (List.getElem?_eq_some_iff.1 hb).1 ?_
      rw [UInt16.ofNat_add, UInt16.add_assoc]
    rw [load_execute hkeep]
    exact hh.2 k b hb

end Machine

/-! ## Processors -/

namespace Cpu

variable {σ : Type} {cpu : Cpu} {program : List Instruction}

theorem holds_writeMany (cpu : Cpu) (origin : UInt16) (bytes : List UInt8)
    (hfits : origin.toNat + bytes.length ≤ 0x10000) : (cpu.writeMany origin bytes).machine.Holds origin bytes :=
  fun _ _ hb => read_writeMany hfits hb

/-- **A processor runs a program that its machine runs.** -/
theorem exists_runsClean (hphase : cpu.phase = 0) (h : cpu.machine.Runs program) (world : σ) :
    ∃ next, RunsClean (program.map (·.op.cycles)).sum world cpu next ∧ next.phase = 0 ∧
      next.machine = cpu.machine.executeAll program := by
  -- on the program; the state after its first instruction starts the others
  induction program generalizing cpu with
  | nil => exact ⟨cpu, .zero world cpu, hphase, rfl⟩
  | cons i rest ih =>
    obtain ⟨hi, hrest⟩ := h
    obtain ⟨next, hfirst, hnext, hmachine⟩ := runPhases_instruction hphase hi world
    rw [← hmachine] at hrest
    obtain ⟨last, hruns, hlast, hend⟩ := ih hnext hrest
    refine ⟨last, hfirst.trans hruns, hlast, ?_⟩
    rw [hend, hmachine, Machine.executeAll_cons]

theorem exists_runsClean_of_straight (hphase : cpu.phase = 0) (hv : ∀ i ∈ program, i.Valid)
    (hh : cpu.machine.Holds cpu.machine.pc (codeOf program)) (hs : cpu.machine.Straight program) (world : σ) :
    ∃ next, RunsClean (program.map (·.op.cycles)).sum world cpu next ∧ next.phase = 0 ∧
      next.machine = cpu.machine.executeAll program :=
  exists_runsClean hphase (Machine.runs_of_straight hv hh hs) world

end Cpu

end Octet
