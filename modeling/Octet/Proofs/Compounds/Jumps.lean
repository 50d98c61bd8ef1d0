import Octet.Proofs.Assembler.Forms
import Octet.Proofs.Machine.Programs
/-!
The compounds that jump, on the machine.

* `Machine.named?`: the address that the operands of a jump name;
* `Machine.executeAll_load`: a target that is accepted is put into `H:L`, whatever registers it is read from;
* `Compound.exists_prepared`: an expansion puts the target into `H:L` and its condition into the flags, then jumps;
* `Compound.Jumped`: what a jump leaves, taken or not;
* `runsClean_jump`: a processor goes where a jump says.
-/

namespace Octet

open Instruction

/-! ## Registers -/

namespace Machine

variable {m : Machine} {r : Register}

theorem get_set (m : Machine) (r s : Register) (v : UInt8) : (m.set r v).get s = if r = s then v else m.get s :=
  m.file.get_set r s v

theorem get_set_of_ne {s : Register} (h : r ≠ s) (v : UInt8) : (m.set r v).get s = m.get s := by rw [get_set, if_neg h]

/-- A new content of `H:L`. -/
def setPointer (m : Machine) (address : UInt16) : Machine := (m.set .h (highByte address)).set .l (lowByte address)

theorem pointer_setPointer (m : Machine) (address : UInt16) : (m.setPointer address).pointer = address :=
  wordOf_highByte_lowByte address

theorem get_setPointer (hh : r ≠ .h) (hl : r ≠ .l) (address : UInt16) : (m.setPointer address).get r = m.get r := by
  rw [setPointer, get_set_of_ne hl.symm, get_set_of_ne hh.symm]

end Machine

/-! ## Targets -/

/-- The address that operands name: a word, two bytes, or the contents of two registers, high byte first. -/
def Machine.named? (m : Machine) : List Operand → Option UInt16
  | [.word w] => some w
  | [.byte hi, .byte lo] => some (wordOf hi lo)
  | [.reg hi, .reg lo] => some (wordOf (m.get hi) (m.get lo))
  | _ => none

/-- Operands that a jump accepts: an address, or a pair whose low register is not `H` unless the high one is, too. -/
inductive JumpOperands : List Operand → Prop
  | word (w : UInt16) : JumpOperands [.word w]
  | bytes (hi lo : UInt8) : JumpOperands [.byte hi, .byte lo]
  | pair {hi lo : Register} (h : ¬ (lo = .h ∧ hi ≠ .h)) : JumpOperands [.reg hi, .reg lo]

namespace Target

/-- The address that a target stands for. -/
def address (m : Machine) : Target → UInt16
  | literal hi lo => wordOf hi lo
  | pair hi lo => wordOf (m.get hi) (m.get lo)

/-- `H` is not written before it is read. -/
def Loadable : Target → Prop
  | literal .. => True
  | pair hi lo => lo = .h → hi = .h

variable {ops : List Operand} {target : Target}

/-- Operands that are a target are accepted, and the target stands for the address that they name. -/
theorem accepted_of_ofOperands? (h : ofOperands? ops = some target) :
    JumpOperands ops ∧ target.Loadable ∧ ∀ m : Machine, m.named? ops = some (target.address m) := by
  rcases ops with _ | ⟨x, _ | ⟨y, _ | ⟨z, ops⟩⟩⟩
  · cases h
  · cases x with
    | word w =>
      cases h
      exact ⟨.word w, trivial, fun m => congrArg some (wordOf_highByte_lowByte w).symm⟩
    | reg | byte => cases h
  · cases x with
    | reg hi =>
      cases y with
      | reg lo =>
        obtain ⟨hpair, ht⟩ := Option.ite_none_left_eq_some.1 h
        cases ht
        exact ⟨.pair hpair, fun hl => not_not.1 fun hne => hpair ⟨hl, hne⟩, fun m => rfl⟩
      | byte | word => cases h
    | byte hi =>
      cases y with
      | byte lo =>
        cases h
        exact ⟨.bytes hi lo, trivial, fun m => rfl⟩
      | reg | word => cases h
    | word => cases h
  · cases x <;> cases y <;> cases h

theorem exists_ofOperands? (h : JumpOperands ops) : ∃ target, ofOperands? ops = some target := by
  cases h with
  | word w => exact ⟨_, rfl⟩
  | bytes hi lo => exact ⟨_, rfl⟩
  | pair h => exact ⟨_, if_neg h⟩

/-- What is expanded from a target accepts the operands of a jump. -/
theorem exists_map_iff {expand : Target → List Instruction} :
    (∃ program, (ofOperands? ops).map expand = some program) ↔ JumpOperands ops := by
  constructor
  · rintro ⟨program, h⟩
    obtain ⟨target, ht, -⟩ := Option.map_eq_some_iff.1 h
    exact (accepted_of_ofOperands? ht).1
  · intro h
    obtain ⟨target, ht⟩ := exists_ofOperands? h
    exact ⟨_, Option.map_eq_some_iff.2 ⟨target, ht, rfl⟩⟩

theorem quiet_load (target : Target) : ∀ i ∈ target.load, Machine.Quiet i := by
  cases target <;> simp [load, Machine.Quiet, move]

end Target

namespace Machine

/-! ## Single operations -/

theorem execute_and (m : Machine) (r : Register) (s : Source) :
    m.execute (onSource .and r s) = (m.set r (m.get r &&& m.value s)).skip 3 := by
  cases s <;> rfl

theorem execute_nor (m : Machine) (r : Register) (s : Source) :
    m.execute (onSource .nor r s) = (m.set r (~~~(m.get r ||| m.value s))).skip 3 := by
  cases s <;> rfl

theorem execute_jump (m : Machine) (s : Source) :
    m.execute (jump s) = { m with pc := if m.value s ≠ 0 then m.pointer else m.pc + 2 } := by
  cases s <;> exact perform_jump _ _

theorem execute_jump_one (m : Machine) : m.execute (jump one) = { m with pc := m.pointer } := by
  have hone : m.value one ≠ 0 := show (0x01 : UInt8) ≠ 0 by decide
  rw [execute_jump, if_pos hone]

/-- **A target is put into `H:L`.** A register is read before it is written, so the address is the old one. -/
theorem executeAll_load {target : Target} (h : target.Loadable) (m : Machine) :
    m.executeAll target.load = (m.setPointer (target.address m)).skip (totalLength target.load) := by
  cases target with
  | literal hi lo =>
    rw [setPointer, Target.address, highByte_wordOf, lowByte_wordOf]
    rfl
  | pair hi lo =>
    -- the low register is read when `H` is written already
    have hlo : (m.set .h (m.get hi)).get lo = m.get lo := by
      rw [get_set]
      split
      · rename_i hh
        rw [← hh, h hh.symm]
      · rfl
    rw [setPointer, Target.address, highByte_wordOf, lowByte_wordOf, ← hlo]
    exact skip_skip ((m.set .h (m.get hi)).set .l ((m.set .h (m.get hi)).get lo)) 3 3

end Machine

/-! ## Expansions -/

namespace Compound

/-- A jump is taken: always, if the carry flag is set, or if it is clear. -/
def Takes (c : Compound) (flags : UInt8) : Prop :=
  c = .jmp ∨ c = .jc ∧ flags &&& 1 = 1 ∨ c = .jnc ∧ flags &&& 1 = 0

theorem takes_jc (flags : UInt8) : flags &&& 1 ≠ 0 ↔ jc.Takes flags := by
  have hbit := forall_byte (P := fun flags => flags &&& 1 ≠ 0 ↔ flags &&& 1 = 1) (by decide +kernel) flags
  simp [Takes, hbit]

theorem takes_jnc (flags : UInt8) : ~~~(flags ||| flags) &&& 1 ≠ 0 ↔ jnc.Takes flags := by
  have hbit := forall_byte (P := fun flags => ~~~(flags ||| flags) &&& 1 ≠ 0 ↔ flags &&& 1 = 0) (by decide +kernel)
    flags
  exact hbit.trans (by simp [Takes])

/-- The address is in `H:L`, and the source of the jump that follows tells whether it is taken. -/
structure Prepared (c : Compound) (target : Target) (s : Source) (m m' : Machine) : Prop where
  file : ∃ flags, m'.file = ((m.setPointer (target.address m)).set .f flags).file
  takes : m'.value s ≠ 0 ↔ c.Takes (m.get .f)
  flags : c = .jmp → m'.get .f = m.get .f

/-- **An expansion loads the target, keeps the condition in `F`, and jumps.** The carry is masked before `H:L` is
loaded where the target is literal, and behind that where `F` may be one of the pair. -/
theorem exists_prepared {c : Compound} (hc : c = .jmp ∨ c = .jc ∨ c = .jnc) {ops : List Operand}
    {returnAddress : UInt16} {program : List Instruction} (h : c.expand ops returnAddress = some program) :
    ∃ target init s, Target.ofOperands? ops = some target ∧ program = init ++ [jump s] ∧
      (∀ i ∈ init, Machine.Quiet i) ∧ ∀ m : Machine, Prepared c target s m (m.executeAll init) := by
  rcases hc with rfl | rfl | rfl
  · obtain ⟨target, ht, rfl⟩ := Option.map_eq_some_iff.1 h
    obtain ⟨-, hl, -⟩ := Target.accepted_of_ofOperands? ht
    refine ⟨target, target.load, one, ht, rfl, target.quiet_load, fun m => ?_⟩
    rw [Machine.executeAll_load hl]
    refine ⟨⟨m.get .f, rfl⟩, ?_, fun _ => rfl⟩
    simp [Takes, one, Machine.value]
  · obtain ⟨target, ht, rfl⟩ := Option.map_eq_some_iff.1 h
    obtain ⟨-, hl, -⟩ := Target.accepted_of_ofOperands? ht
    cases target with
    | literal hi lo =>
      refine ⟨_, onSource .and .f one :: (Target.literal hi lo).load, .reg .f, ht, rfl, ?_, fun m => ?_⟩
      · exact List.forall_mem_cons.2 ⟨by decide, Target.quiet_load _⟩
      · rw [Machine.executeAll_cons, Machine.execute_and, Machine.executeAll_load hl]
        exact ⟨⟨_, rfl⟩, takes_jc _, fun hc => by cases hc⟩
    | pair hi lo =>
      refine ⟨_, (Target.pair hi lo).load ++ [onSource .and .f one], .reg .f, ht, rfl, ?_, fun m => ?_⟩
      · exact List.forall_mem_append.2 ⟨Target.quiet_load _, by decide⟩
      · rw [Machine.executeAll_append, Machine.executeAll_load hl, Machine.executeAll_cons, Machine.execute_and]
        exact ⟨⟨_, rfl⟩, takes_jc _, fun hc => by cases hc⟩
  · obtain ⟨target, ht, rfl⟩ := Option.map_eq_some_iff.1 h
    obtain ⟨-, hl, -⟩ := Target.accepted_of_ofOperands? ht
    refine ⟨target, target.load ++ [onSource .nor .f (.reg .f), onSource .and .f one], .reg .f, ht, ?_, ?_,
      fun m => ?_⟩
    · simp
    · exact List.forall_mem_append.2 ⟨target.quiet_load, by decide⟩
    · rw [Machine.executeAll_append, Machine.executeAll_load hl, Machine.executeAll_cons, Machine.execute_nor,
        Machine.executeAll_cons, Machine.execute_and]
      exact ⟨⟨_, rfl⟩, takes_jnc _, fun hc => by cases hc⟩

/-- What a jump to an address leaves, if its expansion ends at another one. -/
structure Jumped (c : Compound) (target after : UInt16) (m m' : Machine) : Prop where
  taken : c.Takes (m.get .f) → m'.pc = target
  passed : ¬ c.Takes (m.get .f) → m'.pc = after
  pointer : m'.pointer = target
  /-- The other registers are kept, and so is `F` by a jump that does not look at it. -/
  registers : ∀ r : Register, r ≠ .h → r ≠ .l → r ≠ .f ∨ c = .jmp → m'.get r = m.get r
  sp : m'.sp = m.sp
  memory : m'.memory = m.memory

theorem Prepared.jumped {c : Compound} {target : Target} {s : Source} {init : List Instruction} {m : Machine}
    (hq : ∀ i ∈ init, Machine.Quiet i) (h : Prepared c target s m (m.executeAll init)) :
    Jumped c (target.address m) (m.pc + UInt16.ofNat (totalLength (init ++ [jump s]))) m
      (m.executeAll (init ++ [jump s])) := by
  obtain ⟨flags, hfile⟩ := h.file
  have hstate := Machine.executeAll_of_quiet hq m
  have hpointer : (m.executeAll init).pointer = target.address m := by
    rw [Machine.pointer, Machine.get, Machine.get, hfile]
    exact m.pointer_setPointer _
  rw [Machine.executeAll_append, Machine.executeAll_cons, Machine.execute_jump, Machine.executeAll_nil]
  refine ⟨fun ht => ?_, fun ht => ?_, hpointer, fun r hh hl hr => ?_, ?_, ?_⟩
  · exact (if_pos (h.takes.2 ht)).trans hpointer
  · refine (if_neg fun hv => ht (h.takes.1 hv)).trans ?_
    rw [hstate, totalLength_append, UInt16.ofNat_add, ← UInt16.add_assoc]
    rfl
  · by_cases hf : r = .f
    · obtain rfl := hf
      exact h.flags (hr.resolve_left fun hne => hne rfl)
    · show (m.executeAll init).file.get r = m.get r
      rw [hfile]
      exact (Machine.get_set_of_ne (Ne.symm hf) flags).trans (Machine.get_setPointer hh hl _)
  · rw [hstate]
    rfl
  · rw [hstate]
    rfl

end Compound

/-- **Jumps go where they say.** An always, a carry and a no-carry jump accept an address, as one word or as two bytes,
and any register pair but one with `H` for its low half only. The expansion of what they accept has machine code; a
processor that starts an instruction with this code at `PC` runs it to its end without an anomaly, and is then at the
address that the operands named in the beginning if the condition held in the beginning, and behind the code if not. -/
theorem runsClean_jump {σ : Type} (world : σ) {c : Compound} (hc : c = .jmp ∨ c = .jc ∨ c = .jnc) (ops : List Operand)
    (returnAddress : UInt16) :
    ((∃ program, (Mnemonic.compound c).expand ops returnAddress = some program) ↔ JumpOperands ops) ∧
    ∀ program, (Mnemonic.compound c).expand ops returnAddress = some program → ∃ code, encodeAll program = .ok code ∧
      ∀ cpu : Cpu, cpu.phase = 0 → cpu.machine.Holds cpu.machine.pc code → ∃ next target,
        Cpu.RunsClean (program.map (·.op.cycles)).sum world cpu next ∧ next.phase = 0 ∧
          cpu.machine.named? ops = some target ∧
          c.Jumped target (cpu.machine.pc + UInt16.ofNat code.length) cpu.machine next.machine := by
  refine ⟨by rcases hc with rfl | rfl | rfl <;> exact Target.exists_map_iff, fun program h => ?_⟩
  have hv := valid_of_expand h
  obtain ⟨target, init, s, ht, rfl, hq, hprepared⟩ := Compound.exists_prepared hc h
  obtain ⟨-, -, hnamed⟩ := Target.accepted_of_ofOperands? ht
  refine ⟨_, encodeAll_of_valid hv, fun cpu hphase hcode => ?_⟩
  have hstraight := Machine.straight_of_quiet hq cpu.machine (jump s)
  obtain ⟨next, hrun, hnext, hmachine⟩ := Cpu.exists_runsClean_of_straight hphase hv hcode hstraight world
  refine ⟨next, _, hrun, hnext, hnamed cpu.machine, ?_⟩
  rw [hmachine, length_codeOf hv]
  exact (hprepared cpu.machine).jumped hq

/-- The machine code of a jump to the address in `H` and `F` if the carry flag is set. -/
def jumpingCode : List UInt8 := [0x09, 0x02, 0x02, 0x09, 0x03, 0x07, 0x87, 0x07, 0x01, 0x08, 0x07]

/-- Holds this jump, and a carry. -/
def jumping : Cpu := ({ registers := { file := { h := 0x12, f := 0x35 } } } : Cpu).writeMany 0 jumpingCode

/-- The flags are half of the address, and are masked behind the load. -/
theorem runsClean_jump_flags :
    ∃ next, Cpu.RunsClean 15 () jumping next ∧ next.phase = 0 ∧ next.machine.pc = 0x1235 ∧
      next.machine.pointer = 0x1235 ∧ next.machine.memory = jumping.memory := by
  obtain ⟨-, hruns⟩ := runsClean_jump () (.inr (.inl rfl)) [.reg .h, .reg .f] 0
  obtain ⟨code, hcode, hruns⟩ := hruns _ rfl
  obtain rfl : code = jumpingCode := Except.ok.inj (hcode.symm.trans rfl)
  have hheld : jumping.machine.Holds 0 jumpingCode := Cpu.holds_writeMany _ 0 jumpingCode (by decide)
  obtain ⟨next, target, hrun, hphase, htarget, hjumped⟩ := hruns jumping rfl hheld
  obtain rfl : target = 0x1235 := Option.some.inj (htarget.symm.trans rfl)
  exact ⟨next, hrun, hphase, hjumped.taken (.inr (.inl ⟨rfl, rfl⟩)), hjumped.pointer, hjumped.memory⟩

end Octet
