import Octet.Proofs.Compounds.Assignments
/-!
The compounds that move a byte, on the machine.

* `Loads`, `Stores`: the operands of moves to a register and to memory, and the byte that is moved;
* `Machine.Stored`: what a move to memory leaves;
* `Machine.executeAll_loadPair`, `Machine.executeAll_storePair`: moves over a register pair, which is put into `H:L`
  first, whatever registers it is;
* `leads_move`: a processor moves the byte, for every list of operands that is accepted.
-/

namespace Octet

open Instruction

/-! ## Operands -/

/-- Operands that are an address, as one word or as two bytes, high byte first. -/
inductive Address : List Operand → UInt16 → Prop
  | word (w : UInt16) : Address [.word w] w
  | bytes (hi lo : UInt8) : Address [.byte hi, .byte lo] (wordOf hi lo)

theorem address_of_address? {ops : List Operand} {hi lo : UInt8} (h : address? ops = some (hi, lo)) :
    Address ops (wordOf hi lo) := by
  unfold address? at h
  split at h
  · cases h
    rw [wordOf_highByte_lowByte]
    exact .word _
  · cases h
    exact .bytes hi lo
  · cases h

section
variable {ops : List Operand} {address : UInt16} (h : Address ops address)
include h

theorem expandMov_load (dest : Register) :
    expandMov (.reg dest :: ops) = some [⟨.lwa, .packedReg dest (highByte address) (lowByte address)⟩] := by
  cases h with
  | word w => rfl
  | bytes hi lo =>
    rw [highByte_wordOf, lowByte_wordOf]
    rfl

theorem expandMov_store (src : Register) :
    expandMov (ops ++ [.reg src]) = some [⟨.swa, .packedReg src (highByte address) (lowByte address)⟩] := by
  cases h with
  | word w => rfl
  | bytes hi lo =>
    rw [highByte_wordOf, lowByte_wordOf]
    rfl

end

/-- A pair is two registers, and the low one is not `H` unless the high one is, too. -/
theorem Target.pair?_eq_some_iff {ops : List Operand} {target : Target} :
    pair? ops = some target ↔
      ∃ hi lo : Register, ops = [.reg hi, .reg lo] ∧ (lo = .h → hi = .h) ∧ target = .pair hi lo := by
  constructor
  · intro h
    unfold pair? at h
    split at h
    · rename_i hi lo
      obtain ⟨hpair, ht⟩ := Option.ite_none_left_eq_some.1 h
      exact ⟨hi, lo, rfl, fun hlo => not_not.1 fun hne => hpair ⟨hlo, hne⟩, (Option.some.inj ht).symm⟩
    · cases h
  · rintro ⟨hi, lo, rfl, hpair, rfl⟩
    exact if_neg fun hlo => hlo.2 (hpair hlo.1)

/-- A store over a pair takes no source that holds the address by then. -/
theorem expandMovrm_eq_some_iff {ops : List Operand} {program : List Instruction} :
    expandMovrm ops = some program ↔
      ∃ (hi lo : Register) (s : Source), ops = [.reg hi, .reg lo, s.operand] ∧ (lo = .h → hi = .h) ∧ s ≠ .reg .h ∧
        s ≠ .reg .l ∧ program = (Target.pair hi lo).load ++ [⟨.sw, .source s⟩] := by
  constructor
  · intro h
    simp only [expandMovrm, Option.bind_eq_bind, Option.bind_eq_some_iff] at h
    obtain ⟨last, hlast, s, hs, h⟩ := h
    obtain ⟨hne, h⟩ := Option.ite_none_left_eq_some.1 h
    obtain ⟨hh, hl⟩ := not_or.1 hne
    obtain ⟨target, htarget, hprogram⟩ := Option.bind_eq_some_iff.1 h
    obtain ⟨hi, lo, hops, hpair, rfl⟩ := Target.pair?_eq_some_iff.1 htarget
    refine ⟨hi, lo, s, ?_, hpair, hh, hl, (Option.some.inj hprogram).symm⟩
    rw [← List.dropLast_append_getLast? _ hlast, hops, Operand.source?_eq_some_iff.1 hs]
    rfl
  · rintro ⟨hi, lo, s, rfl, hpair, hh, hl, rfl⟩
    have hs : s.operand.source? = some s := Operand.source?_eq_some_iff.2 rfl
    have hne : ¬ (s = .reg .h ∨ s = .reg .l) := not_or.2 ⟨hh, hl⟩
    have htarget : Target.pair? [.reg hi, .reg lo] = some (.pair hi lo) :=
      Target.pair?_eq_some_iff.2 ⟨hi, lo, rfl, hpair, rfl⟩
    simp [expandMovrm, hs, hne, htarget]

/-! ## What is moved -/

/-- The operands of a move to a register, the register, the registers that it loses, and the byte that is moved, which
is that of the state before. -/
inductive Loads : Compound → List Operand → Register → List Register → (Machine → UInt8) → Prop
  | reg (dest src : Register) : Loads .mov [.reg dest, .reg src] dest [] fun m => m.get src
  | byte (dest : Register) (v : UInt8) : Loads .mov [.reg dest, .byte v] dest [] fun _ => v
  | memory (dest : Register) {ops : List Operand} {address : UInt16} (h : Address ops address) :
    Loads .mov (.reg dest :: ops) dest [] fun m => m.load address
  | pair (dest : Register) {hi lo : Register} (hpair : lo = .h → hi = .h) :
    Loads .movmr [.reg dest, .reg hi, .reg lo] dest [.h, .l] fun m => m.load (wordOf (m.get hi) (m.get lo))

/-- The operands of a move to memory, the registers that it loses, and the address and the byte, which are those of the
state before. -/
inductive Stores : Compound → List Operand → List Register → (Machine → UInt16) → (Machine → UInt8) → Prop
  | memory (src : Register) {ops : List Operand} {address : UInt16} (h : Address ops address) :
    Stores .mov (ops ++ [.reg src]) [] (fun _ => address) fun m => m.get src
  | pair {hi lo : Register} {s : Source} (hpair : lo = .h → hi = .h) (hh : s ≠ .reg .h) (hl : s ≠ .reg .l) :
    Stores .movrm [.reg hi, .reg lo, s.operand] [.h, .l] (fun m => wordOf (m.get hi) (m.get lo)) fun m => m.value s

def Compound.IsMove (c : Compound) : Prop := c = .mov ∨ c = .movmr ∨ c = .movrm

theorem loads_or_stores_of_expand {c : Compound} (hc : c.IsMove) {ops : List Operand} {returnAddress : UInt16}
    {program : List Instruction} (h : c.expand ops returnAddress = some program) :
    (∃ r scratch v, Loads c ops r scratch v) ∨ ∃ scratch target v, Stores c ops scratch target v := by
  rcases hc with rfl | rfl | rfl
  · change expandMov ops = some program at h
    unfold expandMov at h
    split at h
    · exact .inl ⟨_, _, _, .reg _ _⟩
    · exact .inl ⟨_, _, _, .byte _ _⟩
    · obtain ⟨⟨hi, lo⟩, ha, -⟩ := Option.map_eq_some_iff.1 h
      exact .inl ⟨_, _, _, .memory _ (address_of_address? ha)⟩
    · split at h
      · rename_i hlast
        obtain ⟨⟨hi, lo⟩, ha, -⟩ := Option.map_eq_some_iff.1 h
        rw [← List.dropLast_append_getLast? _ hlast]
        exact .inr ⟨_, _, _, .memory _ (address_of_address? ha)⟩
      · cases h
  · change expandMovmr ops = some program at h
    unfold expandMovmr at h
    split at h
    · obtain ⟨target, ht, -⟩ := Option.map_eq_some_iff.1 h
      obtain ⟨hi, lo, rfl, hpair, -⟩ := Target.pair?_eq_some_iff.1 ht
      exact .inl ⟨_, _, _, .pair _ hpair⟩
    · cases h
  · obtain ⟨hi, lo, s, rfl, hpair, hh, hl, -⟩ := expandMovrm_eq_some_iff.1 h
    exact .inr ⟨_, _, _, .pair hpair hh hl⟩

/-! ## Expansions on the machine -/

namespace Machine

variable {m : Machine} {address : UInt16} {s : Source}

theorem load_store_self (m : Machine) (address : UInt16) (v : UInt8) : (m.store address v).load address = v :=
  m.memory.read_write_self address v

theorem load_store_of_ne {other : UInt16} (h : other ≠ address) (v : UInt8) :
    (m.store address v).load other = m.load other :=
  m.memory.read_write_of_ne v h.symm

theorem value_setPointer (hh : s ≠ .reg .h) (hl : s ≠ .reg .l) (address : UInt16) :
    (m.setPointer address).value s = m.value s := by
  rw [setPointer, value_set_of_ne hl, value_set_of_ne hh]

@[simp] theorem pointer_skip (m : Machine) (n : Nat) : (m.skip n).pointer = m.pointer := rfl

@[simp] theorem load_skip (m : Machine) (n : Nat) (address : UInt16) : (m.skip n).load address = m.load address := rfl

@[simp] theorem store_skip (m : Machine) (n : Nat) (address : UInt16) (v : UInt8) :
    (m.skip n).store address v = (m.store address v).skip n := rfl

theorem execute_loadPointer (m : Machine) (r : Register) :
    m.execute ⟨.lw, .reg r⟩ = (m.set r (m.load m.pointer)).skip 2 := rfl

theorem execute_storePointer (m : Machine) (s : Source) :
    m.execute ⟨.sw, .source s⟩ = (m.store m.pointer (m.value s)).skip 2 := by
  cases s <;> rfl

theorem execute_loadAbsolute (m : Machine) (r : Register) (address : UInt16) :
    m.execute ⟨.lwa, .packedReg r (highByte address) (lowByte address)⟩ = (m.set r (m.load address)).skip 3 := by
  rw [← wordOf_highByte_lowByte address, highByte_wordOf, lowByte_wordOf]
  rfl

theorem execute_storeAbsolute (m : Machine) (r : Register) (address : UInt16) :
    m.execute ⟨.swa, .packedReg r (highByte address) (lowByte address)⟩ = (m.store address (m.get r)).skip 3 := by
  rw [← wordOf_highByte_lowByte address, highByte_wordOf, lowByte_wordOf]
  rfl

section
variable {hi lo : Register} (hpair : lo = .h → hi = .h)
include hpair

theorem executeAll_loadOfPair (m : Machine) :
    m.executeAll (Target.pair hi lo).load = (m.setPointer (wordOf (m.get hi) (m.get lo))).skip 6 := by
  have hloadable : (Target.pair hi lo).Loadable := hpair
  exact executeAll_load hloadable m

/-- The pair is in `H:L` before the load, so the register may be one of them. -/
theorem executeAll_loadPair (m : Machine) (dest : Register) :
    m.executeAll ((Target.pair hi lo).load ++ [⟨.lw, .reg dest⟩]) =
      ((m.setPointer (wordOf (m.get hi) (m.get lo))).set dest (m.load (wordOf (m.get hi) (m.get lo)))).skip 8 := by
  rw [executeAll_append, executeAll_loadOfPair hpair, executeAll_cons, execute_loadPointer, executeAll_nil,
    pointer_skip, pointer_setPointer, load_skip, set_skip, skip_skip]
  rfl

theorem executeAll_storePair (hh : s ≠ .reg .h) (hl : s ≠ .reg .l) (m : Machine) :
    m.executeAll ((Target.pair hi lo).load ++ [⟨.sw, .source s⟩]) =
      ((m.setPointer (wordOf (m.get hi) (m.get lo))).store (wordOf (m.get hi) (m.get lo)) (m.value s)).skip 8 := by
  rw [executeAll_append, executeAll_loadOfPair hpair, executeAll_cons, execute_storePointer, executeAll_nil,
    pointer_skip, pointer_setPointer, value_skip, value_setPointer hh hl, store_skip, skip_skip]

end

/-- A byte stands at an address, some registers are lost, and the machine is behind the code. The stack pointer has
changed if the address is one of its ports, and nothing else has. -/
structure Stored (target : Machine → UInt16) (v : Machine → UInt8) (scratch : List Register) (length : Nat)
    (m m' : Machine) : Prop where
  result : m'.load (target m) = v m
  memory : ∀ address, address ≠ target m → m'.load address = m.load address
  registers : ∀ r : Register, r ∉ scratch → m'.get r = m.get r
  spLow : m'.spLow = if target m = 0xFF08 then v m else m.spLow
  spHigh : m'.spHigh = if target m = 0xFF09 then v m else m.spHigh
  pc : m'.pc = m.pc + UInt16.ofNat length

end Machine

section
variable {σ : Type} (world : σ)

open Machine in
/-- A program that sets up registers and then stores leaves the byte at the address. -/
theorem leads_of_store (init : List Instruction) (base : Machine → Machine) {last : Instruction}
    {target : Machine → UInt16} {v : Machine → UInt8} {scratch : List Register} (hv : ∀ i ∈ init ++ [last], i.Valid)
    (hq : ∀ i ∈ init, Quiet i)
    (hstate : ∀ m : Machine, m.executeAll (init ++ [last]) =
      ((base m).store (target m) (v m)).skip (totalLength (init ++ [last])))
    (hbase : ∀ m : Machine, base m = { m with file := (base m).file })
    (hkeep : ∀ (m : Machine) (r : Register), r ∉ scratch → (base m).get r = m.get r) :
    Leads world (init ++ [last]) (Stored target v scratch (totalLength (init ++ [last]))) := by
  refine leads_of_straight hv (fun m => straight_of_quiet hq m last) ?_
  intro m
  rw [hstate]
  refine ⟨load_store_self _ _ _, ?_, hkeep m, ?_, ?_, ?_⟩
  · intro address hne
    rw [load_skip, load_store_of_ne hne, hbase]
    rfl
  · rw [hbase]
    rfl
  · rw [hbase]
    rfl
  · rw [hbase]
    rfl

variable {c : Compound} {ops : List Operand} {scratch : List Register} (returnAddress : UInt16)

/-- **Moves to a register** leave there what was moved. -/
theorem Loads.exists_leads {r : Register} {v : Machine → UInt8} (h : Loads c ops r scratch v) :
    ∃ program, (Mnemonic.compound c).expand ops returnAddress = some program ∧
      Leads world program (Machine.Assigned r v scratch (totalLength program)) := by
  cases h with
  | reg _ src =>
    have hexpand : (Mnemonic.compound .mov).expand [.reg r, .reg src] returnAddress = some [move r src] := rfl
    refine ⟨_, hexpand, leads_of_set (valid_of_expand hexpand) (by simp [Machine.Quiet, move]) ?_⟩
    intro m
    exact ⟨m, 3, rfl, fun _ _ => rfl⟩
  | byte _ v =>
    have hexpand : (Mnemonic.compound .mov).expand [.reg r, .byte v] returnAddress = some [constant r v] := rfl
    refine ⟨_, hexpand, leads_of_set (valid_of_expand hexpand) (by simp [Machine.Quiet, constant]) ?_⟩
    intro m
    exact ⟨m, 3, rfl, fun _ _ => rfl⟩
  | memory _ h =>
    have hexpand : (Mnemonic.compound .mov).expand (.reg r :: _) returnAddress = _ := expandMov_load h r
    refine ⟨_, hexpand, leads_of_set (valid_of_expand hexpand) (by simp [Machine.Quiet]) ?_⟩
    intro m
    exact ⟨m, 3, m.execute_loadAbsolute r _, fun _ _ => rfl⟩
  | @pair _ hi lo hpair =>
    have hexpand : (Mnemonic.compound .movmr).expand [.reg r, .reg hi, .reg lo] returnAddress =
        some ((Target.pair hi lo).load ++ [⟨.lw, .reg r⟩]) :=
      Option.map_eq_some_iff.2 ⟨_, Target.pair?_eq_some_iff.2 ⟨hi, lo, rfl, hpair, rfl⟩, rfl⟩
    refine ⟨_, hexpand, leads_of_set (valid_of_expand hexpand) ?_ ?_⟩
    · exact List.forall_mem_append.2 ⟨Target.quiet_load _, by simp [Machine.Quiet]⟩
    · intro m
      refine ⟨_, 8, Machine.executeAll_loadPair hpair m r, ?_⟩
      intro other hother
      simp only [List.mem_cons, List.not_mem_nil, or_false, not_or] at hother
      exact Machine.get_setPointer hother.1 hother.2 _

/-- **Moves to memory** leave there what was moved. -/
theorem Stores.exists_leads {target : Machine → UInt16} {v : Machine → UInt8} (h : Stores c ops scratch target v) :
    ∃ program, (Mnemonic.compound c).expand ops returnAddress = some program ∧
      Leads world program (Machine.Stored target v scratch (totalLength program)) := by
  cases h with
  | memory src h =>
    have hexpand : (Mnemonic.compound .mov).expand (_ ++ [.reg src]) returnAddress = _ := expandMov_store h src
    refine ⟨_, hexpand, leads_of_store world [] id (valid_of_expand hexpand) (List.forall_mem_nil _) ?_
      (fun _ => rfl) fun _ _ _ => rfl⟩
    intro m
    exact m.execute_storeAbsolute src _
  | @pair hi lo s hpair hh hl =>
    have hexpand : (Mnemonic.compound .movrm).expand [.reg hi, .reg lo, s.operand] returnAddress =
        some ((Target.pair hi lo).load ++ [⟨.sw, .source s⟩]) :=
      expandMovrm_eq_some_iff.2 ⟨hi, lo, s, rfl, hpair, hh, hl, rfl⟩
    refine ⟨_, hexpand, leads_of_store world _ _ (valid_of_expand hexpand) (Target.quiet_load _)
      (Machine.executeAll_storePair hpair hh hl) (fun _ => rfl) ?_⟩
    intro m other hother
    simp only [List.mem_cons, List.not_mem_nil, or_false, not_or] at hother
    exact Machine.get_setPointer hother.1 hother.2 _

end

/-- **Moves bring the byte where they say.** The lists of operands that they accept are those of `Loads` and `Stores`: a
pair has `H` for its low half only if it has it for both, and a store over a pair does not take a source from `H` or
`L`. A processor runs the code of what they accept to its end; the register, or the address, holds then what the source
held before. -/
theorem leads_move {σ : Type} (world : σ) {c : Compound} (hc : c.IsMove) (ops : List Operand) (returnAddress : UInt16) :
    ((∃ program, (Mnemonic.compound c).expand ops returnAddress = some program) ↔
        (∃ r scratch v, Loads c ops r scratch v) ∨ ∃ scratch target v, Stores c ops scratch target v) ∧
      (∀ program r scratch v, (Mnemonic.compound c).expand ops returnAddress = some program →
        Loads c ops r scratch v → Leads world program (Machine.Assigned r v scratch (totalLength program))) ∧
      ∀ program scratch target v, (Mnemonic.compound c).expand ops returnAddress = some program →
        Stores c ops scratch target v → Leads world program (Machine.Stored target v scratch (totalLength program)) := by
  refine ⟨⟨?_, ?_⟩, ?_, ?_⟩
  · rintro ⟨program, h⟩
    exact loads_or_stores_of_expand hc h
  · rintro (⟨r, scratch, v, h⟩ | ⟨scratch, target, v, h⟩)
    · obtain ⟨program, hexpand, -⟩ := h.exists_leads world returnAddress
      exact ⟨program, hexpand⟩
    · obtain ⟨program, hexpand, -⟩ := h.exists_leads world returnAddress
      exact ⟨program, hexpand⟩
  · intro program r scratch v hexpand h
    exact leads_of_expand (h.exists_leads world returnAddress) hexpand
  · intro program scratch target v hexpand h
    exact leads_of_expand (h.exists_leads world returnAddress) hexpand

/-- The machine code of `MOVRM H E 0X12`. -/
def storingCode : List UInt8 := [0x09, 0x02, 0x02, 0x09, 0x03, 0x05, 0x81, 0x12]

/-- Holds it, and the address of the low byte of the stack pointer. -/
def storing : Cpu := ({ registers := { file := { h := 0xFF, e := 0x08 } } } : Cpu).writeMany 0 storingCode

theorem leads_move_stack_port :
    ∃ next, Cpu.RunsClean 11 () storing next ∧ next.phase = 0 ∧ next.machine.load 0xFF08 = 0x12 ∧
      next.machine.spLow = 0x12 ∧ next.machine.spHigh = 0 ∧ next.machine.get .e = 0x08 := by
  obtain ⟨-, -, hleads⟩ := leads_move () (.inr (.inr rfl)) [.reg .h, .reg .e, .byte 0x12] 0
  obtain ⟨code, hcode, hruns⟩ := hleads _ _ _ _ rfl
    (.pair (s := .imm 0x12) (by decide) (by decide) (by decide))
  obtain rfl : code = storingCode := Except.ok.inj (hcode.symm.trans rfl)
  have hheld : storing.machine.Holds 0 storingCode := Cpu.holds_writeMany _ 0 storingCode (by decide)
  obtain ⟨next, hrun, hphase, hstored⟩ := hruns storing rfl hheld
  exact ⟨next, hrun, hphase, hstored.result, hstored.spLow, hstored.spHigh, hstored.registers .e (by decide)⟩

end Octet
