import Octet.Proofs.Assembler.Addresses
import Octet.Proofs.Compounds.Jumps
/-!
Calls and returns, on the machine.

* `below`: addresses of a stack, whose pointer goes up and down in its page only;
* `Machine.execute_push`, `Machine.execute_pop`: the two operations on the stack;
* `Machine.Called`: what a call leaves;
* `called_of_expand`, `Machine.returned`: the states that the expansions lead to;
* `runsClean_call_ret`: a return leads behind the call, wherever the call led to.
-/

namespace Octet

open Instruction

/-! ## The stack -/

/-- The address that is some bytes below another one in its page of 256 bytes. -/
def below (address : UInt16) (n : UInt8) : UInt16 := wordOf (highByte address) (lowByte address - n)

theorem below_wordOf (hi lo n : UInt8) : below (wordOf hi lo) n = wordOf hi (lo - n) := by
  rw [below, highByte_wordOf, lowByte_wordOf]

theorem below_one_below_one (address : UInt16) : below (below address 1) 1 = below address 2 := by
  have htwo : lowByte address - 1 - 1 = lowByte address - 2 :=
    forall_byte (P := fun lo => lo - 1 - 1 = lo - 2) (by decide +kernel) _
  rw [below.eq_1 address 1, below_wordOf, htwo, below]

theorem ne_below_one (address : UInt16) : address ≠ below address 1 := by
  intro h
  have hlow := congrArg lowByte h
  rw [below, lowByte_wordOf] at hlow
  exact forall_byte (P := fun lo => lo ≠ lo - 1) (by decide +kernel) (lowByte address) hlow

namespace Machine

variable {m m' : Machine} {target returnAddress : UInt16}

/-- The machine with one byte more on its stack. -/
def stacked (m : Machine) (v : UInt8) : Machine :=
  { m with memory := m.memory.write m.sp v, spLow := m.spLow - 1 }

theorem sp_skip (m : Machine) (n : Nat) : (m.skip n).sp = m.sp := rfl

theorem sp_stacked (m : Machine) (v : UInt8) : (m.stacked v).sp = below m.sp 1 :=
  (below_wordOf m.spHigh m.spLow 1).symm

theorem stacked_skip (m : Machine) (n : Nat) (v : UInt8) : (m.skip n).stacked v = (m.stacked v).skip n := rfl

/-- A push stores at the stack pointer, and lowers it. -/
theorem execute_push (hlow : m.sp ≠ 0xFF08) (hhigh : m.sp ≠ 0xFF09) (v : UInt8) :
    m.execute ⟨.push, .source (.imm v)⟩ = (m.stacked v).skip 2 := by
  have hstore (pc : UInt16) : ({ m with pc := pc } : Machine).store m.sp v =
      { m with pc := pc, memory := m.memory.write m.sp v } := by
    rw [store, if_neg hlow, if_neg hhigh]
  exact congrArg (fun stored : Machine => { stored with spLow := stored.spLow - 1 }) (hstore _)

/-- The machine with one byte less on its stack, and this byte in a register. -/
def popped (m : Machine) (r : Register) : Machine :=
  ({ m with spLow := m.spLow + 1 } : Machine).set r (m.load (wordOf m.spHigh (m.spLow + 1)))

/-- A pop raises the stack pointer, and loads from there. -/
theorem execute_pop (m : Machine) (r : Register) : m.execute ⟨.pop, .reg r⟩ = (m.popped r).skip 2 := rfl

/-! ## Calls -/

/-- The machine with an address on its stack, high byte first. -/
def pushed (m : Machine) (address : UInt16) : Machine := (m.stacked (highByte address)).stacked (lowByte address)

theorem sp_pushed (m : Machine) (address : UInt16) : (m.pushed address).sp = below m.sp 2 := by
  rw [pushed, sp_stacked, sp_stacked, below_one_below_one]

theorem memory_pushed (m : Machine) (address : UInt16) :
    (m.pushed address).memory = (m.memory.write m.sp (highByte address)).write (below m.sp 1) (lowByte address) := by
  rw [← sp_stacked m (highByte address)]
  rfl

/-- The two bytes that a call pushes go neither to the ports of the stack pointer nor over some code at `PC`. -/
def HasRoom (m : Machine) (code : List UInt8) : Prop :=
  ∀ address, address = m.sp ∨ address = below m.sp 1 → address ≠ 0xFF08 ∧ address ≠ 0xFF09 ∧
    ∀ k, k < code.length → m.pc + UInt16.ofNat k ≠ address

/-- The pushes of an address, and what follows them. -/
def pushThen (address : UInt16) (program : List Instruction) : List Instruction :=
  ⟨.push, .source (.imm (highByte address))⟩ :: ⟨.push, .source (.imm (lowByte address))⟩ :: program

section
variable {address : UInt16} {program : List Instruction} (h : m.HasRoom (codeOf (pushThen address program)))
include h

theorem execute_first :
    m.execute ⟨.push, .source (.imm (highByte address))⟩ = (m.stacked (highByte address)).skip 2 := by
  obtain ⟨hlow, hhigh, -⟩ := h _ (.inl rfl)
  exact execute_push hlow hhigh _

theorem execute_second :
    ((m.stacked (highByte address)).skip 2).execute ⟨.push, .source (.imm (lowByte address))⟩ =
      (m.pushed address).skip 4 := by
  obtain ⟨hlow, hhigh, -⟩ := h _ (.inr rfl)
  rw [← sp_stacked m (highByte address), ← sp_skip _ 2] at hlow hhigh
  rw [execute_push hlow hhigh, stacked_skip, skip_skip]
  rfl

theorem executeAll_pushThen :
    m.executeAll (pushThen address program) = ((m.pushed address).skip 4).executeAll program := by
  rw [pushThen, executeAll_cons, execute_first h, executeAll_cons, execute_second h]

/-- Pushes leave the code alone, if there is room on the stack. -/
theorem straight_pushThen (hs : ((m.pushed address).skip 4).Straight program) :
    m.Straight (pushThen address program) := by
  obtain ⟨-, -, hcode⟩ := h _ (.inl rfl)
  obtain ⟨-, -, hcode'⟩ := h _ (.inr rfl)
  have hlength : (codeOf (pushThen address program)).length = 2 + (2 + (codeOf program).length) := by
    rw [pushThen, codeOf_cons, List.length_append, codeOf_cons, List.length_append]
    rfl
  rw [pushThen]
  -- the stores are at the stack pointer and below it, and neither is code that has yet to run
  refine ⟨fun _ hj => (nomatch hj), fun target ht k hk => ?_, fun _ hj => (nomatch hj), fun target ht k hk => ?_, ?_⟩
  · obtain rfl : m.sp = target := Option.some.inj ht
    rw [codeOf_cons, List.length_append] at hk
    exact hcode (2 + k) (hlength ▸ Nat.add_lt_add_left hk 2)
  · rw [execute_first h] at ht ⊢
    obtain rfl : ((m.stacked (highByte address)).skip 2).sp = target := Option.some.inj ht
    rw [sp_skip, sp_stacked]
    show m.pc + UInt16.ofNat 2 + UInt16.ofNat (2 + k) ≠ below m.sp 1
    rw [UInt16.add_assoc, ← UInt16.ofNat_add]
    exact hcode' _ (hlength ▸ Nat.add_lt_add_left (Nat.add_lt_add_left hk 2) 2)
  · rwa [execute_first h, execute_second h]

end

/-- What a call leaves. -/
structure Called (target returnAddress : UInt16) (m m' : Machine) : Prop where
  pc : m'.pc = target
  high : m'.load m.sp = highByte returnAddress
  low : m'.load (below m.sp 1) = lowByte returnAddress
  sp : m'.sp = below m.sp 2
  memory : ∀ address, address ≠ m.sp → address ≠ below m.sp 1 → m'.load address = m.load address
  registers : ∀ r : Register, r ≠ .h → r ≠ .l → m'.get r = m.get r

/-- A jump behind the pushes makes a call. -/
theorem called_of_jumped {after : UInt16} (h : Compound.jmp.Jumped target after ((m.pushed returnAddress).skip 4) m') :
    Called target returnAddress m m' := by
  have hload (address : UInt16) : m'.load address =
      ((m.memory.write m.sp (highByte returnAddress)).write (below m.sp 1) (lowByte returnAddress)).read address := by
    rw [← memory_pushed]
    exact congrArg (fun memory : Memory => memory.read address) h.memory
  refine ⟨h.taken (.inl rfl), ?_, ?_, h.sp.trans (sp_pushed m _), fun address hs hs' => ?_, fun r hh hl => ?_⟩
  · rw [hload, Memory.read_write_of_ne _ _ (ne_below_one m.sp).symm, Memory.read_write_self]
  · rw [hload, Memory.read_write_self]
  · rw [hload, Memory.read_write_of_ne _ _ hs'.symm, Memory.read_write_of_ne _ _ hs.symm]
    rfl
  · exact h.registers r hh hl (.inr rfl)

/-! ## Returns -/

/-- The operations of a return. -/
def popAndJump : List Instruction := [⟨.pop, .reg .l⟩, ⟨.pop, .reg .h⟩, jump one]

theorem straight_popAndJump (m : Machine) : m.Straight popAndJump :=
  ⟨fun _ hj => (nomatch hj), fun _ ha => (nomatch ha), fun _ hj => (nomatch hj), fun _ ha => (nomatch ha),
    straight_of_quiet (List.forall_mem_nil _) _ (jump one)⟩

theorem executeAll_popAndJump (m : Machine) :
    m.executeAll popAndJump =
      let last := (((m.popped .l).skip 2).popped .h).skip 2
      { last with pc := last.pointer } := by
  rw [popAndJump, executeAll_cons, execute_pop, executeAll_cons, execute_pop, executeAll_cons, execute_jump_one]
  rfl

/-- Going up on a stack comes back to where it went down from. -/
theorem raised_of_sp {s : UInt16} (h : m.sp = below s 2) :
    wordOf m.spHigh (m.spLow + 1) = below s 1 ∧ wordOf m.spHigh (m.spLow + 1 + 1) = s := by
  have hhigh : m.spHigh = highByte s := by
    have := congrArg highByte h
    rwa [sp, highByte_wordOf, below, highByte_wordOf] at this
  have hlow : m.spLow = lowByte s - 2 := by
    have := congrArg lowByte h
    rwa [sp, lowByte_wordOf, below, lowByte_wordOf] at this
  obtain ⟨hone, htwo⟩ := forall_byte (P := fun lo => lo - 2 + 1 = lo - 1 ∧ lo - 2 + 1 + 1 = lo) (by decide +kernel)
    (lowByte s)
  rw [hhigh, hlow, hone, ← hone, htwo, wordOf_highByte_lowByte, hone]
  exact ⟨rfl, rfl⟩

/-- A return leads to the address on the stack, and takes it away. -/
theorem returned {s : UInt16} (hsp : m.sp = below s 2) (hhigh : m.load s = highByte returnAddress)
    (hlow : m.load (below s 1) = lowByte returnAddress) :
    (m.executeAll popAndJump).pc = returnAddress ∧ (m.executeAll popAndJump).sp = s := by
  obtain ⟨hone, htwo⟩ := raised_of_sp hsp
  rw [executeAll_popAndJump]
  refine ⟨?_, htwo⟩
  show wordOf (m.load (wordOf m.spHigh (m.spLow + 1 + 1))) (m.load (wordOf m.spHigh (m.spLow + 1))) = returnAddress
  rw [hone, htwo, hhigh, hlow, wordOf_highByte_lowByte]

end Machine

/-! ## Processors -/

theorem exists_target_of_call {ops : List Operand} {returnAddress : UInt16} {program : List Instruction}
    (h : Compound.call.expand ops returnAddress = some program) :
    ∃ target, Target.ofOperands? ops = some target ∧ program = Machine.pushThen returnAddress (jumpTo target) := by
  obtain ⟨target, ht, rfl⟩ := Option.map_eq_some_iff.1 h
  exact ⟨target, ht, rfl⟩

/-- Pushes change no register that a target may name. -/
theorem Target.address_pushed (target : Target) (m : Machine) (address : UInt16) (n : Nat) :
    target.address ((m.pushed address).skip n) = target.address m := by
  cases target <;> rfl

/-- **The state after the expansion of a call.** -/
theorem called_of_expand {ops : List Operand} {returnAddress : UInt16} {program : List Instruction}
    (h : Compound.call.expand ops returnAddress = some program) {m : Machine} (hroom : m.HasRoom (codeOf program)) :
    m.Straight program ∧
      ∃ target, m.named? ops = some target ∧ Machine.Called target returnAddress m (m.executeAll program) := by
  obtain ⟨target, ht, rfl⟩ := exists_target_of_call h
  have hjmp : Compound.jmp.expand ops returnAddress = some (jumpTo target) := Option.map_eq_some_iff.2 ⟨target, ht, rfl⟩
  obtain ⟨-, -, hnamed⟩ := Target.accepted_of_ofOperands? ht
  obtain ⟨target', init, s, ht', hjump, hq, hprepared⟩ := Compound.exists_prepared (.inl rfl) hjmp
  obtain rfl : target' = target := Option.some.inj (ht'.symm.trans ht)
  rw [hjump] at hroom ⊢
  refine ⟨Machine.straight_pushThen hroom (Machine.straight_of_quiet hq _ (jump s)), _, hnamed m, ?_⟩
  have hjumped := (hprepared ((m.pushed returnAddress).skip 4)).jumped hq
  rw [target'.address_pushed] at hjumped
  rw [Machine.executeAll_pushThen hroom]
  exact Machine.called_of_jumped hjumped

/-- **Calls and returns match.** A call accepts what a jump does. The code of its expansion, at `PC` of a processor that
starts an instruction, runs to its end without an anomaly if the bytes that it pushes go neither over itself nor to the
ports of the stack pointer; then the processor is at the address that the operands named in the beginning, with the
return address on the stack. From every state that has them on the stack still, the code of a return leads to the return
address, and the stack pointer to where it was before the call. In a program that was assembled, the return address is
that of the line after the call. -/
theorem runsClean_call_ret {σ : Type} (world : σ) :
    (∀ ops returnAddress, ((∃ program, (Mnemonic.compound .call).expand ops returnAddress = some program) ↔
        JumpOperands ops) ∧
      ∀ program, (Mnemonic.compound .call).expand ops returnAddress = some program → ∃ code,
        encodeAll program = .ok code ∧
        ∀ cpu : Cpu, cpu.phase = 0 → cpu.machine.Holds cpu.machine.pc code → cpu.machine.HasRoom code →
          ∃ next target, Cpu.RunsClean (program.map (·.op.cycles)).sum world cpu next ∧ next.phase = 0 ∧
            cpu.machine.named? ops = some target ∧ Machine.Called target returnAddress cpu.machine next.machine) ∧
    (∀ ops unused program, (Mnemonic.compound .ret).expand ops unused = some program → ∃ code,
      encodeAll program = .ok code ∧
      ∀ (cpu : Cpu) (s returnAddress : UInt16), cpu.phase = 0 → cpu.machine.Holds cpu.machine.pc code →
        cpu.machine.sp = below s 2 → cpu.machine.load s = highByte returnAddress →
        cpu.machine.load (below s 1) = lowByte returnAddress →
        ∃ next, Cpu.RunsClean (program.map (·.op.cycles)).sum world cpu next ∧ next.phase = 0 ∧
          next.machine.pc = returnAddress ∧ next.machine.sp = s) ∧
    ∀ (files : SourceFiles) (origin : UInt16) (path text : String) (image : Image),
      (assemble files origin path text).result = .ok image → ∃ s : Stages files origin path text, s.image = image ∧
        ∀ i rest, (instructionsOf s.statements)[i]? = some ("CALL" :: rest) → ∃ ops returnAddress program code,
          (Mnemonic.compound .call).expand ops returnAddress = some program ∧ encodeAll program = .ok code ∧
          s.expansions[i]? = some program ∧
          (image.bytes.drop (lineAddress image.origin s.expansions i - image.origin.toNat)).take code.length = code ∧
          returnAddress.toNat = lineAddress image.origin s.expansions (i + 1) := by
  refine ⟨fun ops returnAddress => ⟨Target.exists_map_iff, fun program h => ?_⟩, fun ops unused program h => ?_, ?_⟩
  · have hv := valid_of_expand h
    refine ⟨_, encodeAll_of_valid hv, fun cpu hphase hcode hroom => ?_⟩
    obtain ⟨hstraight, target, hnamed, hcalled⟩ := called_of_expand h hroom
    obtain ⟨next, hrun, hnext, hmachine⟩ := Cpu.exists_runsClean_of_straight hphase hv hcode hstraight world
    exact ⟨next, target, hrun, hnext, hnamed, hmachine ▸ hcalled⟩
  · have hv := valid_of_expand h
    obtain ⟨-, hprogram⟩ := Option.ite_none_right_eq_some.1 h
    obtain rfl : program = Machine.popAndJump := (Option.some.inj hprogram).symm
    refine ⟨_, encodeAll_of_valid hv, fun cpu s returnAddress hphase hcode hsp hhigh hlow => ?_⟩
    have hstraight := cpu.machine.straight_popAndJump
    obtain ⟨next, hrun, hnext, hmachine⟩ := Cpu.exists_runsClean_of_straight hphase hv hcode hstraight world
    have hreturned := Machine.returned hsp hhigh hlow
    rw [← hmachine] at hreturned
    exact ⟨next, hrun, hnext, hreturned⟩
  · intro files origin path text image h
    obtain ⟨s, rfl⟩ := assemble_eq_ok_iff.1 h
    refine ⟨s, rfl, fun i rest hi => ?_⟩
    obtain ⟨name, _, m, operands, program, hsplit, hname, -, hexpand, hexpansion⟩ := s.exists_expansion hi
    cases hsplit
    have hcall : Mnemonic.ofName? "CALL" = some (.compound .call) := by decide
    cases hcall.symm.trans hname
    obtain ⟨after, -, rfl, hlt, -⟩ := s.exists_pushes hi
    have hv := valid_of_expand hexpand
    refine ⟨_, _, program, _, hexpand, encodeAll_of_valid hv, hexpansion, s.slice_code hexpansion, ?_⟩
    rw [UInt16.toNat_ofNat', Nat.mod_eq_of_lt hlt]

/-- The machine code of a call to the address in `L` and `C`. -/
def callingCode : List UInt8 := [0x8E, 0x12, 0x8E, 0x34, 0x09, 0x02, 0x03, 0x09, 0x03, 0x01, 0x88, 0x01]

/-- The machine code of a return. -/
def returningCode : List UInt8 := [0x0F, 0x03, 0x0F, 0x02, 0x88, 0x01]

/-- Holds a return where the call leads to; the stack is at the bottom of a page. -/
def returning : Cpu :=
  ({ registers := { file := { l := 0x40, c := 0x50 }, spHigh := 0x80 } } : Cpu).writeMany 0x4050 returningCode

/-- Holds the call, too. -/
def calling : Cpu := returning.writeMany 0 callingCode

theorem hasRoom_calling : calling.machine.HasRoom callingCode := by
  have hsp : calling.machine.sp = 0x8000 := rfl
  have hbelow : below calling.machine.sp 1 = 0x80FF := rfl
  have hcode : ∀ k, k < 12 → (0 : UInt16) + UInt16.ofNat k ≠ 0x8000 ∧ (0 : UInt16) + UInt16.ofNat k ≠ 0x80FF := by
    decide
  rintro _ (rfl | rfl)
  · rw [hsp]
    exact ⟨by decide, by decide, fun k hk => (hcode k hk).1⟩
  · rw [hbelow]
    exact ⟨by decide, by decide, fun k hk => (hcode k hk).2⟩

/-- The return stands where it was written as long as the memory is not changed there. -/
theorem holds_returningCode {m : Machine}
    (h : ∀ k, k < 6 → m.load (0x4050 + UInt16.ofNat k) = calling.machine.load (0x4050 + UInt16.ofNat k)) :
    m.Holds 0x4050 returningCode := by
  intro k b hk
  have hlt : k < 6 := (List.getElem?_eq_some_iff.1 hk).1
  have hapart : ∀ k, k < 6 → ∀ n, n < 12 → (0 : UInt16) + UInt16.ofNat n ≠ 0x4050 + UInt16.ofNat k := by decide
  have hkeep : calling.read (0x4050 + UInt16.ofNat k) = returning.read (0x4050 + UInt16.ofNat k) :=
    Cpu.read_writeMany_of_ne (hapart k hlt)
  exact (h k hlt).trans (hkeep.trans (Cpu.holds_writeMany _ 0x4050 returningCode (by decide) k b hk))

/-- There and back again. -/
theorem runsClean_call_ret_page_bottom :
    (∃ called returned, Cpu.RunsClean 17 () calling called ∧ called.machine.pc = 0x4050 ∧ called.machine.sp = 0x80FE ∧
      Cpu.RunsClean 9 () called returned ∧ returned.machine.pc = 0x1234 ∧ returned.machine.sp = 0x8000) ∧
    ∃ (s : Stages (.ofList []) 0 "loop.asm" "LOOP:\nCALL LOOP\nJMP $") (ops : List Operand) (after : UInt16)
      (program : List Instruction), (Mnemonic.compound .call).expand ops after = some program ∧
        s.expansions[0]? = some program ∧ after.toNat = lineAddress 0 s.expansions 1 := by
  obtain ⟨hcall, hret, hassembled⟩ := runsClean_call_ret ()
  constructor
  · obtain ⟨code, hcode, hruns⟩ := (hcall [.reg .l, .reg .c] 0x1234).2 _ rfl
    obtain rfl : code = callingCode := Except.ok.inj (hcode.symm.trans rfl)
    have hheld : calling.machine.Holds 0 callingCode := Cpu.holds_writeMany _ 0 callingCode (by decide)
    obtain ⟨called, target, hrun, hphase, htarget, hcalled⟩ := hruns calling rfl hheld hasRoom_calling
    obtain rfl : target = 0x4050 := Option.some.inj (htarget.symm.trans rfl)
    obtain ⟨code, hcode, hreturns⟩ := hret [] 0 _ rfl
    obtain rfl : code = returningCode := Except.ok.inj (hcode.symm.trans rfl)
    have hapart : ∀ k, k < 6 → (0x4050 : UInt16) + UInt16.ofNat k ≠ 0x8000 ∧
        (0x4050 : UInt16) + UInt16.ofNat k ≠ 0x80FF := by decide
    have hcode : called.machine.Holds called.machine.pc returningCode := by
      rw [hcalled.pc]
      exact holds_returningCode fun k hk => hcalled.memory _ (hapart k hk).1 (hapart k hk).2
    obtain ⟨returned, hback, -, hpc, hsp'⟩ :=
      hreturns called 0x8000 0x1234 hphase hcode hcalled.sp hcalled.high hcalled.low
    exact ⟨called, returned, hrun, hcalled.pc, hcalled.sp, hback, hpc, hsp'⟩
  · have himage : (assemble (.ofList []) 0 "loop.asm" "LOOP:\nCALL LOOP\nJMP $").result =
        .ok ⟨0, [0x8E, 0, 0x8E, 9, 2, 0, 0, 0x88, 1, 2, 0, 9, 0x88, 1], []⟩ := by cbv
    obtain ⟨s, hs, hlines⟩ := hassembled _ _ _ _ _ himage
    have hline : (instructionsOf s.statements)[0]? = some ("CALL" :: ["LOOP"]) := by cbv
    obtain ⟨ops, after, program, code, hexpand, -, hexpansion, -, hafter⟩ := hlines 0 _ hline
    exact ⟨s, ops, after, program, hexpand, hexpansion, hafter⟩

end Octet
