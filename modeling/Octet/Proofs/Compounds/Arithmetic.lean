import Octet.Proofs.Compounds.Assignments
/-!
Subtraction, increment and decrement, on the machine.

An addition writes the sum first and raises flags behind that, so a sum in `F` does not stay as it is.

* `Machine.get_addition`, `Machine.get_addition_flags`: what an addition leaves in a register, and in `F`;
* `leads_of_addition`: a program that ends with an addition assigns the sum;
* `Arithmetic`: the operands of the three compounds, and the byte that they leave;
* `leads_arithmetic`: a processor leaves it. It is the documented one in every register but `F`.
-/

namespace Octet

open Instruction

namespace Machine

variable {m : Machine} {r : Register} {s : Source} {carryIn : Nat}

/-! ## Additions -/

def sum (m : Machine) (r : Register) (s : Source) (carryIn : Nat) : UInt8 :=
  m.get r + m.value s + UInt8.ofNat carryIn

/-- An addition before its comparison. -/
def added (m : Machine) (r : Register) (s : Source) (carryIn : Nat) : Machine :=
  (m.raise (if 0xFF < (m.get r).toNat + (m.value s).toNat + carryIn then 0x01 else 0x00)).set r (m.sum r s carryIn)

/-- A byte with the flag of its comparison with another one. -/
def flagged (v right : UInt8) : UInt8 := v ||| comparison v right

theorem addition_eq (m : Machine) (r : Register) (s : Source) (carryIn : Nat) :
    m.addition r s carryIn =
      (m.added r s carryIn).raise (comparison (m.sum r s carryIn) ((m.added r s carryIn).value s)) := by
  have hsum : UInt8.ofNat ((m.get r).toNat + (m.value s).toNat + carryIn) = m.sum r s carryIn := by
    simp [sum]
  rw [addition, hsum, get_set_self]
  rfl

theorem get_addition_of_ne {other : Register} (hr : other ≠ r) (hf : other ≠ .f) :
    (m.addition r s carryIn).get other = m.get other := by
  rw [addition_eq, raise, get_set_of_ne hf.symm, added, get_set_of_ne hr.symm, raise, get_set_of_ne hf.symm]

theorem get_addition (hr : r ≠ .f) : (m.addition r s carryIn).get r = m.sum r s carryIn := by
  rw [addition_eq, raise, get_set_of_ne hr.symm, added, get_set_self]

/-- A sum in `F` is compared, and the flag of the comparison goes on top of it. -/
theorem get_addition_flags (hs : s ≠ .reg .f) :
    (m.addition .f s carryIn).get .f = flagged (m.sum .f s carryIn) (m.value s) := by
  rw [addition_eq, raise, get_set_self, added, get_set_self, value_set_of_ne hs, raise, value_set_of_ne hs, flagged]

theorem addition_skip (m : Machine) (n : Nat) (r : Register) (s : Source) (carryIn : Nat) :
    (m.skip n).addition r s carryIn = (m.addition r s carryIn).skip n := by
  cases s <;> rfl

theorem execute_add (m : Machine) (r : Register) (s : Source) :
    m.execute (onSource .add r s) = (m.addition r s 0).skip 3 := by
  cases s <;> rfl

theorem execute_adc (m : Machine) (r : Register) (s : Source) :
    m.execute (onSource .adc r s) = (m.addition r s (m.get .f &&& 1).toNat).skip 3 := by
  cases s <;> rfl

/-! ## Differences -/

theorem add_not_add_one (x y : UInt8) : x + ~~~y + 1 = x - y := by
  rw [UInt8.add_assoc, ← UInt8.neg_eq_not_add, UInt8.sub_eq_add_neg]

def setCarry (m : Machine) : Machine := m.set .f (m.get .f ||| 1)

@[simp] theorem get_setCarry_flags (m : Machine) : m.setCarry.get .f = m.get .f ||| 1 := get_set_self _ _ _

theorem carry_setCarry (m : Machine) : (m.setCarry.get .f &&& 1).toNat = 1 := by
  rw [get_setCarry_flags]
  exact forall_byte (P := fun flags => ((flags ||| 1) &&& 1).toNat = 1) (by decide +kernel) (m.get .f)

theorem get_setCarry_of_ne (hr : r ≠ .f) : m.setCarry.get r = m.get r := get_set_of_ne hr.symm _

theorem execute_setCarry (m : Machine) : m.execute (onSource .or .f one) = m.setCarry.skip 3 := execute_or m .f one

theorem executeAll_decrement (m : Machine) (r : Register) :
    m.executeAll [onSource .or .f one, onSource .adc r (.imm 0xFE)] =
      (m.setCarry.addition r (.imm 0xFE) 1).skip 6 := by
  rw [executeAll_cons, execute_setCarry, executeAll_cons, execute_adc, executeAll_nil, get_skip, carry_setCarry,
    addition_skip, skip_skip]

/-- `H` holds the complement of the source, and the carry is set, before the addition. -/
theorem executeAll_subtraction (m : Machine) (r : Register) (s : Source) :
    m.executeAll [loadH s, onSource .nor .h (.reg .h), onSource .or .f one, onSource .adc r (.reg .h)] =
      ((m.set .h (~~~m.value s)).setCarry.addition r (.reg .h) 1).skip 12 := by
  have hnot : (m.execute (loadH s)).execute (onSource .nor .h (.reg .h)) = (m.set .h (~~~m.value s)).skip 6 := by
    rw [execute_loadH, execute_nor, get_skip, value_skip, value_reg, get_set_self, UInt8.or_self, set_skip, set_set,
      skip_skip]
  have hskip (n : Nat) (m : Machine) : (m.skip n).setCarry = m.setCarry.skip n := rfl
  rw [executeAll_cons, executeAll_cons, hnot, executeAll_cons, execute_setCarry, hskip, skip_skip, executeAll_cons,
    execute_adc, executeAll_nil, get_skip, carry_setCarry, addition_skip, skip_skip]

theorem sum_decrement (m : Machine) (r : Register) : m.sum r (.imm 0xFE) 1 = m.get r - 1 := add_not_add_one (m.get r) 1

theorem sum_subtraction {m : Machine} {v : UInt8} (h : m.get .h = ~~~v) (r : Register) :
    m.sum r (.reg .h) 1 = m.get r - v := by
  rw [sum, value_reg, h]
  exact add_not_add_one (m.get r) v

end Machine

/-! ## What is computed -/

open Machine in
/-- The operands that a compound takes, the register that it writes, the registers that it loses, and the byte that it
leaves of the state before. In `F` that is not the documented byte: the carry is set in `F` before the addition, and
the flag of the comparison behind it. -/
inductive Arithmetic : Compound → List Operand → Register → List Register → (Machine → UInt8) → Prop
  | sub {r : Register} (s : Source) (hh : r ≠ .h) (hf : r ≠ .f) :
    Arithmetic .sub [.reg r, s.operand] r [.h, .f] fun m => m.get r - m.value s
  | inc {r : Register} (hf : r ≠ .f) : Arithmetic .inc [.reg r] r [.f] fun m => m.get r + 1
  | dec {r : Register} (hf : r ≠ .f) : Arithmetic .dec [.reg r] r [.f] fun m => m.get r - 1
  | subFlags (s : Source) :
    Arithmetic .sub [.reg .f, s.operand] .f [.h] fun m => flagged ((m.get .f ||| 1) - m.value s) (~~~m.value s)
  | incFlags : Arithmetic .inc [.reg .f] .f [] fun m => flagged (m.get .f + 1) 1
  | decFlags : Arithmetic .dec [.reg .f] .f [] fun m => flagged ((m.get .f ||| 1) - 1) 0xFE

variable {c : Compound} {ops : List Operand} {r : Register} {scratch : List Register} {v : Machine → UInt8}
  {program : List Instruction}

def Compound.IsArithmetic (c : Compound) : Prop := c = .sub ∨ c = .inc ∨ c = .dec

theorem exists_arithmetic_of_expand (hc : c.IsArithmetic) {returnAddress : UInt16}
    (h : c.expand ops returnAddress = some program) : ∃ r scratch v, Arithmetic c ops r scratch v := by
  rcases hc with rfl | rfl | rfl
  · obtain ⟨⟨r, s⟩, hs, -⟩ := Option.map_eq_some_iff.1 h
    obtain ⟨rfl, hh⟩ := regSourceNotH?_eq_some_iff.1 hs
    by_cases hf : r = .f
    · subst hf
      exact ⟨_, _, _, .subFlags s⟩
    · exact ⟨_, _, _, .sub s hh hf⟩
  · obtain ⟨r, hr, -⟩ := Option.map_eq_some_iff.1 h
    rw [reg?_eq_some_iff.1 hr]
    by_cases hf : r = .f
    · subst hf
      exact ⟨_, _, _, .incFlags⟩
    · exact ⟨_, _, _, .inc hf⟩
  · obtain ⟨r, hr, -⟩ := Option.map_eq_some_iff.1 h
    rw [reg?_eq_some_iff.1 hr]
    by_cases hf : r = .f
    · subst hf
      exact ⟨_, _, _, .decFlags⟩
    · exact ⟨_, _, _, .dec hf⟩

/-- Subtraction refuses its scratch register `H`, and no other one. -/
theorem expand_sub_eq_none_iff (r : Register) (s : Source) (returnAddress : UInt16) :
    (Mnemonic.compound .sub).expand [.reg r, s.operand] returnAddress = none ↔ r = .h := by
  rw [← regSourceNotH?_eq_none_iff (s := s)]
  exact Option.map_eq_none_iff

section
variable {σ : Type} (world : σ)

/-- A program that sets up registers and then adds leaves the sum, if the setup keeps all registers but scratch. -/
theorem leads_of_addition {s : Source} {carryIn n : Nat} {base : Machine → Machine} (hv : ∀ i ∈ program, i.Valid)
    (hq : ∀ i ∈ program, Machine.Quiet i)
    (hstate : ∀ m : Machine, m.executeAll program = ((base m).addition r s carryIn).skip n)
    (hbase : ∀ (m : Machine) (other : Register), other ∉ r :: scratch → (base m).get other = m.get other)
    (hf : .f ∈ r :: scratch) (hresult : ∀ m : Machine, ((base m).addition r s carryIn).get r = v m) :
    Leads world program (Machine.Assigned r v scratch (totalLength program)) := by
  refine leads_assigned hv hq ?_ ?_
  · intro m
    rw [hstate, Machine.get_skip, hresult]
  · intro m other hne hscratch
    have hmem : other ∉ r :: scratch := List.not_mem_cons_of_ne_of_not_mem hne hscratch
    have hother : other ≠ .f := fun he => hmem (he ▸ hf)
    rw [hstate, Machine.get_skip, Machine.get_addition_of_ne hne hother, hbase m other hmem]

theorem leads_increment (hv : ∀ i ∈ [onSource .add r one], i.Valid) (hf : .f ∈ r :: scratch)
    (hresult : ∀ m : Machine, (m.addition r one 0).get r = v m) :
    Leads world [onSource .add r one] (Machine.Assigned r v scratch 3) := by
  have hstate (m : Machine) : m.executeAll [onSource .add r one] = (m.addition r one 0).skip 3 := m.execute_add r one
  exact leads_of_addition world hv (by simp [Machine.Quiet, onSource]) hstate (fun _ _ _ => rfl) hf hresult

theorem leads_decrement (hv : ∀ i ∈ [onSource .or .f one, onSource .adc r (.imm 0xFE)], i.Valid)
    (hf : .f ∈ r :: scratch) (hresult : ∀ m : Machine, (m.setCarry.addition r (.imm 0xFE) 1).get r = v m) :
    Leads world [onSource .or .f one, onSource .adc r (.imm 0xFE)] (Machine.Assigned r v scratch 6) := by
  refine leads_of_addition world hv (by simp [Machine.Quiet, onSource]) (fun m => m.executeAll_decrement r) ?_ hf hresult
  intro m other hother
  exact Machine.get_setCarry_of_ne fun he => hother (he ▸ hf)

theorem leads_subtraction {s : Source}
    (hv : ∀ i ∈ [loadH s, onSource .nor .h (.reg .h), onSource .or .f one, onSource .adc r (.reg .h)], i.Valid)
    (hf : .f ∈ r :: scratch) (hh : .h ∈ r :: scratch)
    (hresult : ∀ m : Machine, ((m.set .h (~~~m.value s)).setCarry.addition r (.reg .h) 1).get r = v m) :
    Leads world [loadH s, onSource .nor .h (.reg .h), onSource .or .f one, onSource .adc r (.reg .h)]
      (Machine.Assigned r v scratch (totalLength
        [loadH s, onSource .nor .h (.reg .h), onSource .or .f one, onSource .adc r (.reg .h)])) := by
  have hq : ∀ i ∈ [loadH s, onSource .nor .h (.reg .h), onSource .or .f one, onSource .adc r (.reg .h)],
      Machine.Quiet i := by
    cases s <;> simp [Machine.Quiet, loadH, move, constant, onSource]
  refine leads_of_addition world hv hq (fun m => m.executeAll_subtraction r s) ?_ hf hresult
  intro m other hother
  have hnf : other ≠ .f := fun he => hother (he ▸ hf)
  have hnh : other ≠ .h := fun he => hother (he ▸ hh)
  rw [Machine.get_setCarry_of_ne hnf, Machine.get_set_of_ne hnh.symm]

/-- **The expansions leave the byte.** -/
theorem Arithmetic.exists_leads (returnAddress : UInt16) (h : Arithmetic c ops r scratch v) :
    ∃ program, (Mnemonic.compound c).expand ops returnAddress = some program ∧
      Leads world program (Machine.Assigned r v scratch (totalLength program)) := by
  have hsub {r : Register} {s : Source} (hh : r ≠ .h) :
      (Mnemonic.compound .sub).expand [.reg r, s.operand] returnAddress =
        some [loadH s, onSource .nor .h (.reg .h), onSource .or .f one, onSource .adc r (.reg .h)] :=
    Option.map_eq_some_iff.2 ⟨(r, s), regSourceNotH?_eq_some_iff.2 ⟨rfl, hh⟩, rfl⟩
  have hinc (r : Register) :
      (Mnemonic.compound .inc).expand [.reg r] returnAddress = some [onSource .add r one] := rfl
  have hdec (r : Register) : (Mnemonic.compound .dec).expand [.reg r] returnAddress =
      some [onSource .or .f one, onSource .adc r (.imm 0xFE)] := rfl
  have hnot (m : Machine) (s : Source) : (m.set .h (~~~m.value s)).setCarry.get .h = ~~~m.value s := by
    rw [Machine.get_setCarry_of_ne (by decide), Machine.get_set_self]
  cases h with
  | @sub r s hh hf =>
    refine ⟨_, hsub hh, leads_subtraction world (valid_of_expand (hsub hh)) (by simp) (by simp) ?_⟩
    intro m
    rw [Machine.get_addition hf, Machine.sum_subtraction (hnot m s), Machine.get_setCarry_of_ne hf,
      Machine.get_set_of_ne hh.symm]
  | @inc r hf =>
    refine ⟨_, hinc r, leads_increment world (valid_of_expand (hinc r)) (by simp) ?_⟩
    intro m
    rw [Machine.get_addition hf]
    exact UInt8.add_zero _
  | @dec r hf =>
    refine ⟨_, hdec r, leads_decrement world (valid_of_expand (hdec r)) (by simp) ?_⟩
    intro m
    rw [Machine.get_addition hf, Machine.sum_decrement, Machine.get_setCarry_of_ne hf]
  | subFlags s =>
    have hexpand := hsub (r := .f) (s := s) (by decide)
    refine ⟨_, hexpand, leads_subtraction world (valid_of_expand hexpand) (by simp) (by simp) ?_⟩
    intro m
    rw [Machine.get_addition_flags (by decide), Machine.sum_subtraction (hnot m s), Machine.value_reg, hnot,
      Machine.get_setCarry_flags, Machine.get_set_of_ne (by decide)]
  | incFlags =>
    refine ⟨_, hinc .f, leads_increment world (valid_of_expand (hinc .f)) (by simp) ?_⟩
    intro m
    rw [Machine.get_addition_flags (by decide)]
    exact congrArg (Machine.flagged · 1) (UInt8.add_zero _)
  | decFlags =>
    refine ⟨_, hdec .f, leads_decrement world (valid_of_expand (hdec .f)) (by simp) ?_⟩
    intro m
    rw [Machine.get_addition_flags (by decide), Machine.sum_decrement, Machine.get_setCarry_flags, Machine.value_imm]

end

/-- **Arithmetic compounds on the machine.** The lists of operands that they accept are those of `Arithmetic`;
subtraction refuses a register if it is `H`. A processor runs the code of what they accept to its end, and the register
holds then what `Arithmetic` says: the difference, the successor or the predecessor of the state before in every
register but `F`. -/
theorem leads_arithmetic {σ : Type} (world : σ) (hc : c.IsArithmetic) (ops : List Operand) (returnAddress : UInt16) :
    ((∃ program, (Mnemonic.compound c).expand ops returnAddress = some program) ↔
        ∃ r scratch v, Arithmetic c ops r scratch v) ∧
      (∀ program r scratch v, (Mnemonic.compound c).expand ops returnAddress = some program →
        Arithmetic c ops r scratch v → Leads world program (Machine.Assigned r v scratch (totalLength program))) ∧
      ∀ (r : Register) (s : Source),
        ((Mnemonic.compound .sub).expand [.reg r, s.operand] returnAddress = none ↔ r = .h) := by
  refine ⟨⟨?_, ?_⟩, ?_, ?_⟩
  · rintro ⟨program, h⟩
    exact exists_arithmetic_of_expand hc h
  · rintro ⟨r, scratch, v, h⟩
    obtain ⟨program, hexpand, -⟩ := h.exists_leads world returnAddress
    exact ⟨program, hexpand⟩
  · intro program r scratch v hexpand h
    exact leads_of_expand (h.exists_leads world returnAddress) hexpand
  · intro r s
    exact expand_sub_eq_none_iff r s returnAddress

/-- The machine code of `SUB D F`. -/
def subtractingCode : List UInt8 := [0x09, 0x02, 0x07, 0x06, 0x02, 0x02, 0x85, 0x07, 0x01, 0x0C, 0x04, 0x02]

def subtracting : Cpu := ({ registers := { file := { d := 0x05, f := 0x07 } } } : Cpu).writeMany 0 subtractingCode

theorem leads_arithmetic_borrow :
    ∃ next, Cpu.RunsClean 17 () subtracting next ∧ next.phase = 0 ∧ next.machine.get .d = 0xFE ∧
      next.machine.memory = subtracting.memory ∧ next.machine.pc = 12 := by
  obtain ⟨-, hleads, -⟩ := leads_arithmetic () (.inl rfl) [.reg .d, .reg .f] 0
  obtain ⟨code, hcode, hruns⟩ := hleads _ _ _ _ rfl (.sub (.reg .f) (by decide) (by decide))
  obtain rfl : code = subtractingCode := Except.ok.inj (hcode.symm.trans rfl)
  have hheld : subtracting.machine.Holds 0 subtractingCode := Cpu.holds_writeMany _ 0 subtractingCode (by decide)
  obtain ⟨next, hrun, hphase, hassigned⟩ := hruns subtracting rfl hheld
  exact ⟨next, hrun, hphase, hassigned.result, hassigned.memory, hassigned.pc⟩

/-- The machine code of `SUB F 0X01`. -/
def clobberingCode : List UInt8 := [0x03, 0x02, 0x01, 0x06, 0x02, 0x02, 0x85, 0x07, 0x01, 0x0C, 0x07, 0x02]

def clobbering : Cpu := ({} : Cpu).writeMany 0 clobberingCode

/-- A subtraction from `F` is accepted, and `F` does not hold the difference: the expansion sets the carry in it before
it is read. -/
theorem not_leads_subtraction_flags :
    ∃ program, (Mnemonic.compound .sub).expand [.reg .f, .byte 0x01] 0 = some program ∧
      ¬ Leads () program fun m m' => m'.get .f = m.get .f - 0x01 := by
  let program := [constant .h 0x01, onSource .nor .h (.reg .h), onSource .or .f one, onSource .adc .f (.reg .h)]
  have hexpand : (Mnemonic.compound .sub).expand [.reg .f, .byte 0x01] 0 = some program := rfl
  have hq : ∀ i ∈ program, Machine.Quiet i := by decide
  have hheld : clobbering.machine.Holds 0 clobberingCode := Cpu.holds_writeMany _ 0 clobberingCode (by decide)
  refine ⟨program, hexpand, ?_⟩
  intro hleads
  have hphase : clobbering.phase = 0 := rfl
  have hdifference := hleads.executeAll (valid_of_expand hexpand) hphase hheld (Machine.straight_of_forall_quiet hq _)
  have height : (clobbering.machine.executeAll program).get .f = 0x08 := rfl
  rw [height] at hdifference
  exact absurd hdifference (by decide)

end Octet
