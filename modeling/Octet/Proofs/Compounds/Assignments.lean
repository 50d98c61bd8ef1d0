import Octet.Proofs.Assembler.Reassembly
import Octet.Proofs.Compounds.Jumps
/-!
Expansions that put a byte into a register, on the machine.

* `Leads`: a processor runs a program to its end, wherever the program stands;
* `Machine.Assigned`: what such an expansion leaves;
* `leads_assigned`: a program that changes nothing but registers leaves it, if it does so on the registers;
* `Machine.execute_or` and so on: the effect of single operations.
-/

namespace Octet

open Instruction

/-! ## Running a program -/

section
variable {σ : Type} {world : σ} {program : List Instruction} {related : Machine → Machine → Prop}

/-- A program has machine code, and a processor that starts an instruction with this code at `PC` runs it to its end
without an anomaly; the state before and the state after are related then. -/
def Leads (world : σ) (program : List Instruction) (related : Machine → Machine → Prop) : Prop :=
  ∃ code, encodeAll program = .ok code ∧
    ∀ cpu : Cpu, cpu.phase = 0 → cpu.machine.Holds cpu.machine.pc code →
      ∃ next, Cpu.RunsClean (program.map (·.op.cycles)).sum world cpu next ∧ next.phase = 0 ∧
        related cpu.machine next.machine

theorem leads_of_straight (hv : ∀ i ∈ program, i.Valid) (hs : ∀ m : Machine, m.Straight program)
    (h : ∀ m : Machine, related m (m.executeAll program)) : Leads world program related := by
  refine ⟨codeOf program, encodeAll_of_valid hv, ?_⟩
  intro cpu hphase hcode
  obtain ⟨next, hrun, hnext, hmachine⟩ :=
    Cpu.exists_runsClean_of_straight hphase hv hcode (hs cpu.machine) world
  exact ⟨next, hrun, hnext, hmachine ▸ h cpu.machine⟩

/-- A straight program leads where its instructions lead, and nowhere else. -/
theorem Leads.executeAll {cpu : Cpu} (h : Leads world program related) (hv : ∀ i ∈ program, i.Valid)
    (hphase : cpu.phase = 0) (hheld : cpu.machine.Holds cpu.machine.pc (codeOf program))
    (hs : cpu.machine.Straight program) : related cpu.machine (cpu.machine.executeAll program) := by
  obtain ⟨code, hcode, hruns⟩ := h
  obtain rfl : code = codeOf program := Except.ok.inj (hcode.symm.trans (encodeAll_of_valid hv))
  obtain ⟨next, ⟨steps, hrun, -⟩, -, hrelated⟩ := hruns cpu hphase hheld
  obtain ⟨next', ⟨steps', hrun', -⟩, -, hmachine⟩ := Cpu.exists_runsClean_of_straight hphase hv hheld hs world
  obtain rfl : next = next' := congrArg (·.2.1) (hrun.symm.trans hrun')
  rw [← hmachine]
  exact hrelated

/-- Operands expand to one program at most. -/
theorem leads_of_expand {m : Mnemonic} {ops : List Operand} {returnAddress : UInt16}
    {related : Nat → Machine → Machine → Prop}
    (h : ∃ program, m.expand ops returnAddress = some program ∧ Leads world program (related (totalLength program)))
    (hexpand : m.expand ops returnAddress = some program) : Leads world program (related (totalLength program)) := by
  obtain ⟨program', hexpand', hleads⟩ := h
  obtain rfl : program = program' := Option.some.inj (hexpand.symm.trans hexpand')
  exact hleads

end

/-! ## Operands -/

theorem Operand.source?_eq_some_iff {o : Operand} {s : Source} : o.source? = some s ↔ o = s.operand := by
  cases o <;> cases s <;> simp [Operand.source?, Source.operand]

theorem regSource?_eq_some_iff {ops : List Operand} {r : Register} {s : Source} :
    regSource? ops = some (r, s) ↔ ops = [.reg r, s.operand] := by
  constructor
  · intro h
    rcases ops with _ | ⟨x, _ | ⟨y, _ | ⟨z, ops⟩⟩⟩
    · cases h
    · cases x <;> cases h
    · cases x with
      | reg r' =>
        obtain ⟨s', hs, he⟩ := Option.map_eq_some_iff.1 h
        obtain ⟨rfl, rfl⟩ := Prod.mk.inj he
        rw [Operand.source?_eq_some_iff.1 hs]
      | byte | word => cases h
    · cases x <;> cases h
  · rintro rfl
    exact Option.map_eq_some_iff.2 ⟨s, Operand.source?_eq_some_iff.2 rfl, rfl⟩

theorem regSource?_operands (r : Register) (s : Source) : regSource? [.reg r, s.operand] = some (r, s) :=
  regSource?_eq_some_iff.2 rfl

theorem regSourceNotH?_eq_some_iff {ops : List Operand} {r : Register} {s : Source} :
    regSourceNotH? ops = some (r, s) ↔ ops = [.reg r, s.operand] ∧ r ≠ .h := by
  rw [regSourceNotH?, Option.filter_eq_some_iff, regSource?_eq_some_iff]
  simp

theorem regSourceNotH?_eq_none_iff {r : Register} {s : Source} :
    regSourceNotH? [.reg r, s.operand] = none ↔ r = .h := by
  rw [regSourceNotH?, regSource?_operands]
  by_cases hr : r = .h <;> simp [Option.filter, hr]

theorem reg?_eq_some_iff {ops : List Operand} {r : Register} : reg? ops = some r ↔ ops = [.reg r] := by
  constructor
  · intro h
    rcases ops with _ | ⟨x, _ | ⟨y, ops⟩⟩
    · cases h
    · cases x <;> cases h
      rfl
    · cases x <;> cases h
  · rintro rfl
    rfl

namespace Machine

variable {m : Machine} {r : Register}

/-! ## Registers -/

theorem set_set (m : Machine) (r : Register) (v w : UInt8) : (m.set r v).set r w = m.set r w := by cases r <;> rfl

@[simp] theorem get_set_self (m : Machine) (r : Register) (v : UInt8) : (m.set r v).get r = v := by
  rw [get_set, if_pos rfl]

theorem get_set_of_notMem {other : Register} (h : other ∉ [r]) (v : UInt8) : (m.set r v).get other = m.get other :=
  get_set_of_ne (fun he => h (List.mem_singleton.2 he.symm)) v

theorem value_set_of_ne {s : Source} (h : s ≠ .reg r) (v : UInt8) : (m.set r v).value s = m.value s := by
  cases s with
  | reg r' => exact get_set_of_ne (fun he => h (congrArg Source.reg he.symm)) v
  | imm w => rfl

@[simp] theorem value_reg (m : Machine) (r : Register) : m.value (.reg r) = m.get r := rfl

@[simp] theorem value_imm (m : Machine) (v : UInt8) : m.value (.imm v) = v := rfl

@[simp] theorem get_skip (m : Machine) (n : Nat) (r : Register) : (m.skip n).get r = m.get r := rfl

@[simp] theorem value_skip (m : Machine) (n : Nat) (s : Source) : (m.skip n).value s = m.value s := by cases s <;> rfl

@[simp] theorem set_skip (m : Machine) (n : Nat) (r : Register) (v : UInt8) :
    (m.skip n).set r v = (m.set r v).skip n := rfl

/-! ## Single operations -/

theorem execute_or (m : Machine) (r : Register) (s : Source) :
    m.execute (onSource .or r s) = (m.set r (m.get r ||| m.value s)).skip 3 := by
  cases s <;> rfl

theorem execute_ldf (m : Machine) (r : Register) (s : Source) :
    m.execute (onSource .ldf r s) = (m.set .f (comparison (m.get r) (m.value s))).skip 3 := by
  cases s <;> rfl

theorem execute_move (m : Machine) (dest src : Register) :
    m.execute (move dest src) = (m.set dest (m.get src)).skip 3 := rfl

theorem execute_loadH (m : Machine) (s : Source) : m.execute (loadH s) = (m.set .h (m.value s)).skip 3 := by
  cases s <;> rfl

/-! ## Assignments -/

/-- A register holds a byte, some registers are lost, and the machine is behind the code. Nothing else has changed. -/
structure Assigned (r : Register) (v : Machine → UInt8) (scratch : List Register) (length : Nat) (m m' : Machine) :
    Prop where
  result : m'.get r = v m
  registers : ∀ other : Register, other ≠ r → other ∉ scratch → m'.get other = m.get other
  memory : m'.memory = m.memory
  sp : m'.sp = m.sp
  pc : m'.pc = m.pc + UInt16.ofNat length

theorem straight_of_forall_quiet {program : List Instruction} (h : ∀ i ∈ program, Quiet i) (m : Machine) :
    m.Straight program := by
  rcases List.eq_nil_or_concat program with rfl | ⟨init, last, rfl⟩
  · trivial
  · rw [List.concat_eq_append] at h ⊢
    exact straight_of_quiet (fun i hi => h i (List.mem_append_left _ hi)) m last

end Machine

open Machine in
/-- **Programs that change nothing but registers** leave an assignment if the registers are as it says. -/
theorem leads_assigned {σ : Type} {world : σ} {program : List Instruction} {r : Register} {v : Machine → UInt8}
    {scratch : List Register} (hv : ∀ i ∈ program, i.Valid) (hq : ∀ i ∈ program, Quiet i)
    (hresult : ∀ m : Machine, (m.executeAll program).get r = v m)
    (hkeep : ∀ (m : Machine) (other : Register), other ≠ r → other ∉ scratch →
      (m.executeAll program).get other = m.get other) :
    Leads world program (Assigned r v scratch (totalLength program)) := by
  refine leads_of_straight hv (straight_of_forall_quiet hq) ?_
  intro m
  have hstate := executeAll_of_quiet hq m
  refine ⟨hresult m, hkeep m, ?_, ?_, ?_⟩
  · rw [hstate]
    rfl
  · rw [hstate]
    rfl
  · rw [hstate]
    rfl

open Machine in
/-- So do those that write the register last, and nothing but scratch before that. -/
theorem leads_of_set {σ : Type} {world : σ} {program : List Instruction} {r : Register} {v : Machine → UInt8}
    {scratch : List Register} (hv : ∀ i ∈ program, i.Valid) (hq : ∀ i ∈ program, Quiet i)
    (h : ∀ m : Machine, ∃ (base : Machine) (n : Nat), m.executeAll program = (base.set r (v m)).skip n ∧
      ∀ other : Register, other ∉ scratch → base.get other = m.get other) :
    Leads world program (Assigned r v scratch (totalLength program)) := by
  refine leads_assigned hv hq ?_ ?_
  · intro m
    obtain ⟨base, n, hstate, -⟩ := h m
    rw [hstate, get_skip, get_set_self]
  · intro m other hne hscratch
    obtain ⟨base, n, hstate, hbase⟩ := h m
    rw [hstate, get_skip, get_set_of_ne hne.symm, hbase other hscratch]

end Octet
