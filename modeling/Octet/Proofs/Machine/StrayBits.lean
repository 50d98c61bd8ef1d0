import Octet.Proofs.Machine.Underway
/-!
Bits of an opcode byte that carry no meaning. The decoder refuses them; the processor never looks at them.

* `Opcode.SameMeaning`: opcode bytes that differ in such bits only;
* `Cpu.Underway`: an instruction has been started, whatever its bytes are;
* `Underway.fetch`, `Underway.execute`: what the next phase does then;
* `Underway.runPhases_setIr`: states that differ in bits without a meaning stay alike, and report alike.
-/

namespace Octet

/-! ## Opcode bytes -/

theorem and_eq_of_part {x y mask part : UInt8} (h : x &&& mask = y &&& mask) (hpart : mask &&& part = part) :
    x &&& part = y &&& part := by
  rw [← hpart, ← UInt8.and_assoc, h, UInt8.and_assoc]

namespace Opcode

/-- Two opcode bytes differ in bits without a meaning only. -/
def SameMeaning (x y : UInt8) : Prop :=
  x &&& ~~~(ofByte x).shape.strayBits = y &&& ~~~(ofByte x).shape.strayBits

instance (x y : UInt8) : Decidable (SameMeaning x y) := inferInstanceAs (Decidable (_ = _))

namespace SameMeaning

variable {x y : UInt8} (h : SameMeaning x y)
include h

theorem ofByte_eq : ofByte y = ofByte x := by
  have hlow (z : UInt8) : ofByte (z &&& 0x0F) = ofByte z :=
    forall_byte (P := fun z => ofByte (z &&& 0x0F) = ofByte z) (by decide +kernel) z
  have hpart : ~~~(ofByte x).shape.strayBits &&& 0x0F = 0x0F := by
    cases (ofByte x).shape <;> decide
  rw [← hlow y, ← and_eq_of_part h hpart, hlow]

theorem immediate_eq (hs : (ofByte x).shape.hasImmediate = true) : x &&& immediateBit = y &&& immediateBit := by
  refine and_eq_of_part h ?_
  cases hshape : (ofByte x).shape with
  | source | regSource => decide
  | reg | address | regImm | regReg | packedReg =>
    rw [hshape] at hs
    cases hs

theorem packed_eq (hs : (ofByte x).shape = .packedReg) : ((x >>> 4) &&& 0x07 : UInt8) = (y >>> 4) &&& 0x07 := by
  have hpacked (z : UInt8) : ((z >>> 4) &&& 0x07 : UInt8) = (z &&& 0x70) >>> 4 :=
    forall_byte (P := fun z => ((z >>> 4) &&& 0x07 : UInt8) = (z &&& 0x70) >>> 4) (by decide +kernel) z
  have hpart : ~~~(ofByte x).shape.strayBits &&& 0x70 = 0x70 := by
    rw [hs]
    decide
  rw [hpacked, hpacked, and_eq_of_part h hpart]

end SameMeaning

end Opcode

namespace MicroOp

/-- A micro-operation whose operand is a register or a byte, as the immediate bit says. -/
def readsSource : MicroOp → Bool
  | storePointer | alu _ | compareFlags | jumpIfNotZero | push => true
  | loadPointer | loadAbsolute | storeAbsolute | loadAddress | loadConstant | move | pop => false

/-- A micro-operation on the register that is packed into the opcode byte. -/
def readsPacked : MicroOp → Bool
  | loadAbsolute | storeAbsolute => true
  | loadPointer | storePointer | loadAddress | loadConstant | move | alu _ | compareFlags | jumpIfNotZero | push
  | pop => false

variable {op : Opcode} {micro : MicroOp}

theorem hasImmediate_of_readsSource (h : micro ∈ op.microcode) (hr : micro.readsSource = true) :
    op.shape.hasImmediate = true := by
  have hall : ∀ micro ∈ op.microcode, micro.readsSource = true → op.shape.hasImmediate = true := by
    cases op <;> decide
  exact hall micro h hr

theorem shape_of_readsPacked (h : micro ∈ op.microcode) (hr : micro.readsPacked = true) : op.shape = .packedReg := by
  have hall : ∀ micro ∈ op.microcode, micro.readsPacked = true → op.shape = .packedReg := by
    cases op <;> decide
  exact hall micro h hr

end MicroOp

/-! ## Another opcode byte -/

/-- An anomaly of an instruction with another opcode byte. -/
def Anomaly.setIr (x : Anomaly) (ir : UInt8) : Anomaly := { x with fetched := x.fetched.set 0 ir }

def Step.setIr (step : Step) (ir : UInt8) : Step := { step with anomalies := step.anomalies.map (·.setIr ir) }

namespace Cpu

def setIr (cpu : Cpu) (ir : UInt8) : Cpu := { cpu with registers := { cpu.registers with ir := ir } }

variable {cpu : Cpu} {ir : UInt8}

theorem writeCode_setIr (cpu : Cpu) (ir code v : UInt8) :
    (cpu.setIr ir).writeCode code v = (cpu.writeCode code v).setIr ir := by
  unfold writeCode
  split <;> rfl

theorem write_setIr (cpu : Cpu) (ir : UInt8) (address : UInt16) (v : UInt8) :
    (cpu.setIr ir).write address v = (cpu.write address v).setIr ir := by
  unfold write
  dsimp only
  split <;> rfl

theorem source_setIr (h : cpu.registers.ir &&& immediateBit = ir &&& immediateBit) (byte : UInt8) :
    (cpu.setIr ir).source byte = cpu.source byte := by
  have himmediate : (cpu.setIr ir).isImmediate = cpu.isImmediate := by
    rw [isImmediate, isImmediate, h]
    rfl
  rw [source, source, himmediate]
  rfl

/-- A micro-operation looks at the immediate bit, at the packed register, or at no bit of the opcode byte. -/
theorem execute_setIr {micro : MicroOp}
    (hs : micro.readsSource = true → cpu.registers.ir &&& immediateBit = ir &&& immediateBit)
    (hp : micro.readsPacked = true → (cpu.setIr ir).packedCode = cpu.packedCode) :
    (cpu.setIr ir).execute micro = (cpu.execute micro).setIr ir := by
  cases micro with
  | loadPointer | loadConstant | move => exact writeCode_setIr cpu ir _ _
  | loadAddress => rfl
  | storePointer =>
    show (cpu.setIr ir).write _ ((cpu.setIr ir).source cpu.registers.arg1) = _
    rw [source_setIr (hs rfl)]
    exact write_setIr cpu ir _ _
  | loadAbsolute =>
    show (cpu.setIr ir).writeCode (cpu.setIr ir).packedCode _ = _
    rw [hp rfl]
    exact writeCode_setIr cpu ir _ _
  | storeAbsolute =>
    show (cpu.setIr ir).write _ ((cpu.setIr ir).readCode (cpu.setIr ir).packedCode) = _
    rw [hp rfl]
    exact write_setIr cpu ir _ _
  | alu mode =>
    unfold execute
    dsimp only
    rw [source_setIr (hs rfl)]
    split
    · rfl
    · exact writeCode_setIr { cpu with registers := cpu.registers.setFlags _ } ir _ _
  | compareFlags =>
    unfold execute
    dsimp only
    rw [source_setIr (hs rfl)]
    rfl
  | jumpIfNotZero =>
    unfold execute
    dsimp only
    rw [source_setIr (hs rfl)]
    show (if cpu.source cpu.registers.arg1 = 0 then _ else _) = _
    by_cases hzero : cpu.source cpu.registers.arg1 = 0
    · rw [if_pos hzero, if_pos hzero]
    · rw [if_neg hzero, if_neg hzero]
      rfl
  | push =>
    let lower (cpu : Cpu) : Cpu :=
      { cpu with registers := { cpu.registers with spLow := cpu.registers.spLow - 1 } }
    show lower ((cpu.setIr ir).write cpu.registers.sp ((cpu.setIr ir).source cpu.registers.arg1)) = _
    rw [source_setIr (hs rfl), write_setIr]
    rfl
  | pop =>
    exact writeCode_setIr { cpu with registers := { cpu.registers with spLow := cpu.registers.spLow + 1 } } ir _ _

/-! ## Phases -/

section
variable {σ : Type} {op : Opcode} {p : Nat} (h : cpu.Underway op p) (hsame : Opcode.SameMeaning cpu.registers.ir ir)
include h hsame

theorem Underway.setIr : (cpu.setIr ir).Underway op p :=
  ⟨h.phase, hsame.ofByte_eq.trans h.operation, h.second⟩

theorem Underway.immediate_eq {micro : MicroOp} (hm : micro ∈ op.microcode) (hs : micro.readsSource = true) :
    cpu.registers.ir &&& immediateBit = ir &&& immediateBit := by
  refine hsame.immediate_eq ?_
  rw [h.operation]
  exact MicroOp.hasImmediate_of_readsSource hm hs

theorem Underway.after_setIr {micro : MicroOp} (hm : micro ∈ op.microcode) (q : Nat) :
    (cpu.setIr ir).after micro q = (cpu.after micro q).setIr ir := by
  have hpacked (hp : micro.readsPacked = true) : (cpu.setIr ir).packedCode = cpu.packedCode := by
    refine (hsame.packed_eq ?_).symm
    rw [h.operation]
    exact MicroOp.shape_of_readsPacked hm hp
  rw [Cpu.after, execute_setIr (h.immediate_eq hsame hm) hpacked]
  rfl

theorem Underway.reported_setIr {micro : MicroOp} (hm : micro ∈ op.microcode) (completed : Bool) :
    (cpu.setIr ir).reported micro completed = (cpu.reported micro completed).setIr ir := by
  have hcodes : micro.codes (cpu.setIr ir).registers = micro.codes cpu.registers := by
    cases hs : micro.readsSource with
    | true =>
      have hir : (cpu.setIr ir).registers.ir &&& immediateBit = cpu.registers.ir &&& immediateBit :=
        (h.immediate_eq hsame hm hs).symm
      unfold MicroOp.codes
      rw [hir]
      rfl
    | false =>
      cases micro <;> first | rfl | cases hs
  have hanomalies : micro.anomalies (cpu.setIr ir).registers = (micro.anomalies cpu.registers).map (·.setIr ir) := by
    rw [MicroOp.anomalies, hcodes, MicroOp.anomalies, List.map_map]
    rfl
  rw [reported, hanomalies]
  rfl

/-- A phase goes alike, whatever the stray bits are. -/
theorem Underway.exists_step_setIr (hpos : 0 < p) (hlt : p < op.cycles) (device : Device σ) (world : σ) :
    ∃ next step, cpu.step device world = (world, next, step) ∧
      (cpu.setIr ir).step device world = (world, next.setIr ir, step.setIr ir) ∧
      next.registers.ir = cpu.registers.ir ∧ (p + 1 < op.cycles → next.Underway op (p + 1)) := by
  have h' := h.setIr hsame
  by_cases hp : p < op.shape.length
  · obtain ⟨hstep, hnext⟩ := h.fetch hpos hp device world
    obtain ⟨hstep', -⟩ := h'.fetch hpos hp device world
    have hfetch : (cpu.setIr ir).fetchNext = cpu.fetchNext.setIr ir ∧ cpu.fetchNext.registers.ir = cpu.registers.ir := by
      unfold fetchNext
      by_cases hone : cpu.phase = 1
      · rw [if_pos hone]
        exact ⟨if_pos hone, rfl⟩
      · rw [if_neg hone]
        exact ⟨if_neg hone, rfl⟩
    rw [hfetch.1] at hstep'
    exact ⟨_, _, hstep, hstep', hfetch.2, fun _ => hnext⟩
  · obtain ⟨micro, hmicro, hstep⟩ := h.execute (Nat.le_of_not_lt hp) hlt device world
    obtain ⟨micro', hmicro', hstep'⟩ := h'.execute (Nat.le_of_not_lt hp) hlt device world
    obtain rfl : micro = micro' := Option.some.inj (hmicro.symm.trans hmicro')
    have hm := List.mem_of_getElem? hmicro
    rw [h.after_setIr hsame hm, h.reported_setIr hsame hm] at hstep'
    have hnext := h.after micro (if p + 1 < op.cycles then p + 1 else 0)
    refine ⟨_, _, hstep, hstep', ?_, ?_⟩
    · exact ir_execute cpu micro
    · intro hmore
      rw [if_pos hmore] at hnext ⊢
      exact hnext

end

/-- **Stray bits never matter.** States that differ in them only go through the same phases to states that differ in
them only, and the reports differ in the opcode byte that an anomaly shows. -/
theorem Underway.exists_runPhases_setIr {σ : Type} {op : Opcode} {p k : Nat} (h : cpu.Underway op p)
    (hsame : Opcode.SameMeaning cpu.registers.ir ir) (hpos : 0 < p) (hk : p + k ≤ op.cycles) (device : Device σ)
    (world : σ) :
    ∃ next steps, runPhases device k world cpu = (world, next, steps) ∧
      runPhases device k world (cpu.setIr ir) = (world, next.setIr ir, steps.map (·.setIr ir)) := by
  -- on the phases that run; the last one ends the instruction
  induction k generalizing cpu p with
  | zero => exact ⟨cpu, [], rfl, rfl⟩
  | succ k ih =>
    obtain ⟨next, step, hstep, hstep', hir, hnext⟩ := h.exists_step_setIr hsame hpos (by omega) device world
    cases k with
    | zero => exact ⟨next, [step], runPhases_succ hstep rfl, runPhases_succ hstep' rfl⟩
    | succ k =>
      rw [← hir] at hsame
      obtain ⟨last, steps, hrun, hrun'⟩ := ih (hnext (by omega)) hsame (Nat.succ_pos p) (by omega)
      exact ⟨last, step :: steps, runPhases_succ hstep hrun, runPhases_succ hstep' hrun'⟩

end Cpu

end Octet
