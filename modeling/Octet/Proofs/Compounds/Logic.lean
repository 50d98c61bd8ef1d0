import Octet.Proofs.Compounds.Assignments
/-!
The compounds of logic and comparison, on the machine.

* `Logic`: the operands that they take, and the byte that they put into the register;
* `Machine.executeAll_bothAndNeither`, `Machine.executeAll_keepFlag`: what the parts of their expansions do;
* `Logic.exists_leads`: the expansions compute the byte;
* `leads_logic`: a processor does so for every list of operands that is accepted.
-/

namespace Octet

open Instruction

/-! ## Bytes -/

namespace Machine

theorem both_and_neither (x y : UInt8) : ~~~(~~~(x ||| y) ||| (y &&& x)) = x ^^^ y := by
  apply UInt8.toBitVec_inj.1
  apply BitVec.eq_of_getLsbD_eq
  intro i hi
  simp only [UInt8.toBitVec_not, UInt8.toBitVec_or, UInt8.toBitVec_and, UInt8.toBitVec_xor, BitVec.getLsbD_not,
    BitVec.getLsbD_or, BitVec.getLsbD_and, BitVec.getLsbD_xor, hi, decide_true, Bool.true_and]
  cases x.toBitVec.getLsbD i <;> cases y.toBitVec.getLsbD i <;> rfl

theorem comparison_and (x y : UInt8) :
    comparison x y &&& 0x02 = (if x > y then 0x02 else 0) ∧ comparison x y &&& 0x08 = (if x < y then 0x08 else 0) ∧
      comparison x y &&& 0x04 = (if x = y then 0x04 else 0) := by
  unfold comparison
  by_cases hgt : y < x
  · simp only [hgt, UInt8.lt_asymm hgt, (UInt8.ne_of_lt hgt).symm, if_true, if_false]
    decide
  · by_cases heq : x = y
    · simp only [heq, UInt8.lt_irrefl, gt_iff_lt, if_true, if_false]
      decide
    · have hlt : x < y := UInt8.lt_of_le_of_ne (UInt8.not_lt.1 hgt) heq
      simp only [hgt, hlt, heq, if_true, if_false]
      decide

end Machine

/-! ## What is computed -/

/-- The operands that a compound takes, the register that it writes, the registers that it loses, and the byte that it
computes from the state before. -/
inductive Logic : Compound → List Operand → Register → List Register → (Machine → UInt8) → Prop
  | not (r : Register) : Logic .not [.reg r] r [] fun m => ~~~m.get r
  | nand (r : Register) (s : Source) : Logic .nand [.reg r, s.operand] r [] fun m => ~~~(m.get r &&& m.value s)
  | xor {r : Register} {s : Source} (hr : r ≠ .h) (hs : s ≠ .reg .h) :
    Logic .xor [.reg r, s.operand] r [.h] fun m => m.get r ^^^ m.value s
  | xnor {r : Register} {s : Source} (hr : r ≠ .h) (hs : s ≠ .reg .h) :
    Logic .xnor [.reg r, s.operand] r [.h] fun m => ~~~(m.get r ^^^ m.value s)
  | gtn (r : Register) (s : Source) :
    Logic .gtn [.reg r, s.operand] r [.f] fun m => if m.get r > m.value s then 0x02 else 0
  | ltn (r : Register) (s : Source) :
    Logic .ltn [.reg r, s.operand] r [.f] fun m => if m.get r < m.value s then 0x08 else 0
  | equ (r : Register) (s : Source) :
    Logic .equ [.reg r, s.operand] r [.f] fun m => if m.get r = m.value s then 0x04 else 0

/-! ## Expansions on the machine -/

namespace Machine

variable {r : Register} {s : Source}

/-- `H` holds the bits that are in both, and the register those in neither. -/
theorem executeAll_bothAndNeither (hr : r ≠ .h) (hs : s ≠ .reg .h) (m : Machine) :
    m.executeAll (bothAndNeither r s) =
      ((m.set .h (m.value s &&& m.get r)).set r (~~~(m.get r ||| m.value s))).skip 9 := by
  rw [bothAndNeither, executeAll_cons, execute_loadH, executeAll_cons, execute_and, executeAll_cons, execute_nor,
    executeAll_nil]
  simp only [get_skip, set_skip, skip_skip, value_skip, set_set, get_set_self, value_set_of_ne hs, value_reg,
    get_set_of_ne hr.symm]

theorem executeAll_xor (hr : r ≠ .h) (hs : s ≠ .reg .h) (m : Machine) :
    m.executeAll (bothAndNeither r s ++ [onSource .nor r (.reg .h)]) =
      ((m.set .h (m.value s &&& m.get r)).set r (m.get r ^^^ m.value s)).skip 12 := by
  rw [executeAll_append, executeAll_bothAndNeither hr hs, executeAll_cons, execute_nor, executeAll_nil]
  simp only [get_skip, set_skip, skip_skip, value_reg, set_set, get_set_self, get_set_of_ne hr, both_and_neither]

theorem executeAll_xnor (hr : r ≠ .h) (hs : s ≠ .reg .h) (m : Machine) :
    m.executeAll (bothAndNeither r s ++ [onSource .or r (.reg .h)]) =
      ((m.set .h (m.value s &&& m.get r)).set r (~~~(m.get r ^^^ m.value s))).skip 12 := by
  rw [executeAll_append, executeAll_bothAndNeither hr hs, executeAll_cons, execute_or, executeAll_nil]
  simp only [get_skip, set_skip, skip_skip, value_reg, set_set, get_set_self, get_set_of_ne hr, ← both_and_neither,
    UInt8.not_not]

/-- The flag is kept in `F`, and copied from there. -/
theorem executeAll_keepFlag (r : Register) (s : Source) (mask : UInt8) (m : Machine) :
    m.executeAll [onSource .ldf r s, onSource .and .f (.imm mask), move r .f] =
      ((m.set .f (comparison (m.get r) (m.value s) &&& mask)).set r
        (comparison (m.get r) (m.value s) &&& mask)).skip 9 := by
  rw [executeAll_cons, execute_ldf, executeAll_cons, execute_and, executeAll_cons, execute_move, executeAll_nil]
  simp only [get_skip, set_skip, skip_skip, value_imm, set_set, get_set_self]

end Machine

/-! ## Acceptance -/

variable {c : Compound} {ops : List Operand} {r : Register} {scratch : List Register} {v : Machine → UInt8}
  {program : List Instruction}

theorem keepFlag_eq_some {mask : UInt8} (h : keepFlag mask ops = some program) :
    ∃ (r : Register) (s : Source), ops = [.reg r, s.operand] := by
  obtain ⟨⟨r, s⟩, hs, -⟩ := Option.map_eq_some_iff.1 h
  exact ⟨r, s, regSource?_eq_some_iff.1 hs⟩

theorem keepFlag_operands (mask : UInt8) (r : Register) (s : Source) :
    keepFlag mask [.reg r, s.operand] = some [onSource .ldf r s, onSource .and .f (.imm mask), move r .f] :=
  Option.map_eq_some_iff.2 ⟨(r, s), regSource?_eq_some_iff.2 rfl, rfl⟩

/-- Exclusive or takes a register and a source, and neither is the scratch register. -/
theorem regSourceNotH?_filter_eq_some_iff {s : Source} :
    ((regSourceNotH? ops).filter fun p => p.2 ≠ .reg .h) = some (r, s) ↔
      ops = [.reg r, s.operand] ∧ r ≠ .h ∧ s ≠ .reg .h := by
  rw [Option.filter_eq_some_iff, regSourceNotH?_eq_some_iff]
  simp [and_assoc]

/-- Exclusive or refuses its scratch register, and nothing else. -/
theorem expand_xor_eq_none_iff (hc : c = .xor ∨ c = .xnor) (r : Register) (s : Source) (returnAddress : UInt16) :
    (Mnemonic.compound c).expand [.reg r, s.operand] returnAddress = none ↔ r = .h ∨ s = .reg .h := by
  have hfilter : (Mnemonic.compound c).expand [.reg r, s.operand] returnAddress = none ↔
      ((regSourceNotH? [.reg r, s.operand]).filter fun p => p.2 ≠ .reg .h) = none := by
    rcases hc with rfl | rfl <;> exact Option.map_eq_none_iff
  rw [hfilter]
  by_cases hr : r = .h
  · rw [regSourceNotH?_eq_none_iff.2 hr]
    simp [hr]
  · rw [regSourceNotH?_eq_some_iff.2 ⟨rfl, hr⟩]
    by_cases hs : s = .reg .h <;> simp [Option.filter, hr, hs]

def Compound.IsLogic (c : Compound) : Prop := c ∈ [not, nand, xor, xnor, gtn, ltn, equ]

instance (c : Compound) : Decidable c.IsLogic := inferInstanceAs (Decidable (_ ∈ _))

theorem exists_logic_of_expand (hc : c.IsLogic) {returnAddress : UInt16} (h : c.expand ops returnAddress = some program) :
    ∃ r scratch v, Logic c ops r scratch v := by
  cases c with
  | not =>
    obtain ⟨r, hr, -⟩ := Option.map_eq_some_iff.1 h
    rw [reg?_eq_some_iff.1 hr]
    exact ⟨_, _, _, .not r⟩
  | nand =>
    obtain ⟨⟨r, s⟩, hs, -⟩ := Option.map_eq_some_iff.1 h
    rw [regSource?_eq_some_iff.1 hs]
    exact ⟨_, _, _, .nand r s⟩
  | xor =>
    obtain ⟨⟨r, s⟩, hs, -⟩ := Option.map_eq_some_iff.1 h
    obtain ⟨rfl, hr, hs⟩ := regSourceNotH?_filter_eq_some_iff.1 hs
    exact ⟨_, _, _, .xor hr hs⟩
  | xnor =>
    obtain ⟨⟨r, s⟩, hs, -⟩ := Option.map_eq_some_iff.1 h
    obtain ⟨rfl, hr, hs⟩ := regSourceNotH?_filter_eq_some_iff.1 hs
    exact ⟨_, _, _, .xnor hr hs⟩
  | gtn =>
    obtain ⟨r, s, rfl⟩ := keepFlag_eq_some h
    exact ⟨_, _, _, .gtn r s⟩
  | ltn =>
    obtain ⟨r, s, rfl⟩ := keepFlag_eq_some h
    exact ⟨_, _, _, .ltn r s⟩
  | equ =>
    obtain ⟨r, s, rfl⟩ := keepFlag_eq_some h
    exact ⟨_, _, _, .equ r s⟩
  | _ => exact absurd hc (by decide)

section
variable {σ : Type} (world : σ) (returnAddress : UInt16)

theorem leads_keepFlag {mask : UInt8} {s : Source}
    (h : (Mnemonic.compound c).expand ops returnAddress =
      some [onSource .ldf r s, onSource .and .f (.imm mask), move r .f])
    (hv : ∀ m : Machine, Machine.comparison (m.get r) (m.value s) &&& mask = v m) :
    Leads world [onSource .ldf r s, onSource .and .f (.imm mask), move r .f] (Machine.Assigned r v [.f] 9) := by
  refine leads_of_set (valid_of_expand h) ?_ ?_
  · simp [Machine.Quiet, onSource, move]
  · intro m
    have hstate := m.executeAll_keepFlag r s mask
    rw [hv] at hstate
    exact ⟨_, 9, hstate, fun _ hother => Machine.get_set_of_notMem hother _⟩

theorem quiet_bothAndNeither (r : Register) (s : Source) : ∀ i ∈ bothAndNeither r s, Machine.Quiet i := by
  cases s <;> simp [bothAndNeither, Machine.Quiet, loadH, move, constant, onSource]

/-- **The expansions compute what is documented.** -/
theorem Logic.exists_leads (h : Logic c ops r scratch v) :
    ∃ program, (Mnemonic.compound c).expand ops returnAddress = some program ∧
      Leads world program (Machine.Assigned r v scratch (totalLength program)) := by
  cases h with
  | not =>
    have hexpand : (Mnemonic.compound .not).expand [.reg r] returnAddress = some [onSource .nor r (.reg r)] := rfl
    refine ⟨_, hexpand, leads_of_set (valid_of_expand hexpand) ?_ ?_⟩
    · simp [Machine.Quiet, onSource]
    · intro m
      refine ⟨m, 3, ?_, fun _ _ => rfl⟩
      simp [Machine.execute_nor]
  | nand r s =>
    have hexpand : (Mnemonic.compound .nand).expand [.reg r, s.operand] returnAddress =
        some [onSource .and r s, onSource .nor r (.reg r)] :=
      Option.map_eq_some_iff.2 ⟨(r, s), regSource?_eq_some_iff.2 rfl, rfl⟩
    refine ⟨_, hexpand, leads_of_set (valid_of_expand hexpand) ?_ ?_⟩
    · simp [Machine.Quiet, onSource]
    · intro m
      refine ⟨m, 6, ?_, fun _ _ => rfl⟩
      simp [Machine.execute_and, Machine.execute_nor, Machine.set_set, Machine.skip_skip]
  | @xor r s hr hs =>
    have hexpand : (Mnemonic.compound .xor).expand [.reg r, s.operand] returnAddress =
        some (bothAndNeither r s ++ [onSource .nor r (.reg .h)]) :=
      Option.map_eq_some_iff.2 ⟨(r, s), regSourceNotH?_filter_eq_some_iff.2 ⟨rfl, hr, hs⟩, rfl⟩
    refine ⟨_, hexpand, leads_of_set (valid_of_expand hexpand) ?_ ?_⟩
    · exact List.forall_mem_append.2 ⟨quiet_bothAndNeither r s, by simp [Machine.Quiet, onSource]⟩
    · intro m
      exact ⟨_, 12, m.executeAll_xor hr hs, fun _ hother => Machine.get_set_of_notMem hother _⟩
  | @xnor r s hr hs =>
    have hexpand : (Mnemonic.compound .xnor).expand [.reg r, s.operand] returnAddress =
        some (bothAndNeither r s ++ [onSource .or r (.reg .h)]) :=
      Option.map_eq_some_iff.2 ⟨(r, s), regSourceNotH?_filter_eq_some_iff.2 ⟨rfl, hr, hs⟩, rfl⟩
    refine ⟨_, hexpand, leads_of_set (valid_of_expand hexpand) ?_ ?_⟩
    · exact List.forall_mem_append.2 ⟨quiet_bothAndNeither r s, by simp [Machine.Quiet, onSource]⟩
    · intro m
      exact ⟨_, 12, m.executeAll_xnor hr hs, fun _ hother => Machine.get_set_of_notMem hother _⟩
  | gtn r s =>
    have hexpand : (Mnemonic.compound .gtn).expand [.reg r, s.operand] returnAddress = _ := keepFlag_operands 0x02 r s
    exact ⟨_, hexpand, leads_keepFlag world returnAddress hexpand fun m => (Machine.comparison_and _ _).1⟩
  | ltn r s =>
    have hexpand : (Mnemonic.compound .ltn).expand [.reg r, s.operand] returnAddress = _ := keepFlag_operands 0x08 r s
    exact ⟨_, hexpand, leads_keepFlag world returnAddress hexpand fun m => (Machine.comparison_and _ _).2.1⟩
  | equ r s =>
    have hexpand : (Mnemonic.compound .equ).expand [.reg r, s.operand] returnAddress = _ := keepFlag_operands 0x04 r s
    exact ⟨_, hexpand, leads_keepFlag world returnAddress hexpand fun m => (Machine.comparison_and _ _).2.2⟩

end

/-- **Logic and comparison compounds compute what they document.** The lists of operands that they accept are those of
`Logic`; exclusive or refuses a register and a source if one of them is `H`. A processor runs the code of what they
accept to its end, and has the documented byte of the state before in the register then. -/
theorem leads_logic {σ : Type} (world : σ) (hc : c.IsLogic) (ops : List Operand) (returnAddress : UInt16) :
    ((∃ program, (Mnemonic.compound c).expand ops returnAddress = some program) ↔
        ∃ r scratch v, Logic c ops r scratch v) ∧
      (∀ program r scratch v, (Mnemonic.compound c).expand ops returnAddress = some program →
        Logic c ops r scratch v → Leads world program (Machine.Assigned r v scratch (totalLength program))) ∧
      ∀ (r : Register) (s : Source), c = .xor ∨ c = .xnor →
        ((Mnemonic.compound c).expand [.reg r, s.operand] returnAddress = none ↔ r = .h ∨ s = .reg .h) := by
  refine ⟨⟨?_, ?_⟩, ?_, ?_⟩
  · rintro ⟨program, h⟩
    exact exists_logic_of_expand hc h
  · rintro ⟨r, scratch, v, h⟩
    obtain ⟨program, hexpand, -⟩ := h.exists_leads world returnAddress
    exact ⟨program, hexpand⟩
  · intro program r scratch v hexpand h
    exact leads_of_expand (h.exists_leads world returnAddress) hexpand
  · intro r s hx
    exact expand_xor_eq_none_iff hx r s returnAddress

/-- The machine code of an exclusive or of `F` and `L`. -/
def mixingCode : List UInt8 := [0x09, 0x02, 0x03, 0x07, 0x02, 0x07, 0x06, 0x07, 0x03, 0x06, 0x07, 0x02]

def mixing : Cpu := ({ registers := { file := { l := 0x0F, f := 0x5A } } } : Cpu).writeMany 0 mixingCode

theorem leads_logic_flags :
    ∃ next, Cpu.RunsClean 16 () mixing next ∧ next.phase = 0 ∧ next.machine.get .f = 0x55 ∧
      next.machine.get .l = 0x0F ∧ next.machine.memory = mixing.memory ∧ next.machine.pc = 12 := by
  obtain ⟨-, hleads, -⟩ := leads_logic () (show Compound.xor.IsLogic by decide) [.reg .f, .reg .l] 0
  obtain ⟨code, hcode, hruns⟩ := hleads _ _ _ _ rfl (.xor (r := .f) (s := .reg .l) (by decide) (by decide))
  obtain rfl : code = mixingCode := Except.ok.inj (hcode.symm.trans rfl)
  have hheld : mixing.machine.Holds 0 mixingCode := Cpu.holds_writeMany _ 0 mixingCode (by decide)
  obtain ⟨next, hrun, hphase, hassigned⟩ := hruns mixing rfl hheld
  refine ⟨next, hrun, hphase, hassigned.result, ?_, hassigned.memory, hassigned.pc⟩
  exact hassigned.registers .l (by decide) (by decide)

end Octet
