import Octet.Proofs.Machine.StrayBits
/-!
Register codes that name no register: the decoder refuses them, the processor reports them.

* `Checks`: a reader refuses the codes that name no register, and accepts all others;
* `Operands.checks_decode`: the decoder checks the codes of a shape;
* `mem_unnamed_iff`: the micro-operations report codes of the shape;
* `Cpu.Agrees`: decoder and processor agree on an instruction;
* `Completes.agrees`: they do at the end of every instruction.
-/

namespace Octet

/-! ## The decoder -/

/-- A reader fails if and only if one of some codes names no register, and names one of these in its fault. -/
def Checks {α : Type} (codes : List UInt8) (result : Except CodeFault α) : Prop :=
  (∃ x, result = .ok x ∧ ∀ code ∈ codes, Register.ofCode? code ≠ none) ∨
    ∃ code ∈ codes, Register.ofCode? code = none ∧ result = .error (.invalidRegister code)

namespace Checks

variable {α β : Type} {codes more : List UInt8} {result : Except CodeFault α}

theorem ok (x : α) : Checks [] (.ok x) := .inl ⟨x, rfl, List.forall_mem_nil _⟩

theorem ofCode (code : UInt8) : Checks [code] (Register.ofCode code) := by
  cases h : Register.ofCode? code with
  | some r => exact .inl ⟨r, by rw [Register.ofCode, h], List.forall_mem_singleton.2 (by simp [h])⟩
  | none => exact .inr ⟨code, List.mem_singleton_self code, h, by rw [Register.ofCode, h]⟩

theorem bind (h : Checks codes result) {next : α → Except CodeFault β} (hnext : ∀ x, Checks more (next x)) :
    Checks (codes ++ more) (result >>= next) := by
  rcases h with ⟨x, rfl, hcodes⟩ | ⟨code, hmem, hnone, rfl⟩
  · rcases hnext x with ⟨y, hy, hmore⟩ | ⟨code, hmem, hnone, hfault⟩
    · exact .inl ⟨y, hy, List.forall_mem_append.2 ⟨hcodes, hmore⟩⟩
    · exact .inr ⟨code, List.mem_append_right _ hmem, hnone, hfault⟩
  · exact .inr ⟨code, List.mem_append_left _ hmem, hnone, rfl⟩

theorem map (h : Checks codes result) (f : α → β) : Checks codes (f <$> result) := by
  rcases h with ⟨x, rfl, hcodes⟩ | ⟨code, hmem, hnone, rfl⟩
  · exact .inl ⟨f x, rfl, hcodes⟩
  · exact .inr ⟨code, hmem, hnone, rfl⟩

end Checks

/-- The codes of a source operand: its byte, unless that is the operand itself. -/
def Source.codes (first byte : UInt8) : List UInt8 := if first &&& immediateBit ≠ 0 then [] else [byte]

theorem Source.checks_decode (first byte : UInt8) : Checks (Source.codes first byte) (Source.decode first byte) := by
  unfold Source.codes Source.decode
  split
  · exact .ok _
  · exact (Checks.ofCode byte).map _

/-- The operand bytes that have to be codes of registers. -/
def Shape.codes (first x y : UInt8) : Shape → List UInt8
  | reg | regImm => [x]
  | source => Source.codes first x
  | regSource => x :: Source.codes first y
  | regReg => [x, y]
  | address | packedReg => []

/-- **The decoder checks the codes of the shape.** A packed register has a code below eight if bit 7 is clear. -/
theorem Operands.checks_decode {s : Shape} {first : UInt8} (x y : UInt8) (h : first &&& s.strayBits = 0) :
    Checks (s.codes first x y) (Operands.decode first x y s) := by
  cases s with
  | reg => exact (Checks.ofCode x).map _
  | source => exact (Source.checks_decode first x).map _
  | address => exact .ok _
  | regImm => exact (Checks.ofCode x).bind fun r => .ok _
  | regSource => exact (Checks.ofCode x).bind fun r => (Source.checks_decode first y).map _
  | regReg => exact (Checks.ofCode x).bind fun dest => (Checks.ofCode y).map _
  | packedReg =>
    have hlt : (first >>> 4).toNat < 8 :=
      forall_byte (P := fun first => first &&& 0x80 = 0 → (first >>> 4).toNat < 8) (by decide +kernel) first h
    obtain ⟨r, hr, -⟩ | ⟨code, hmem, hnone, -⟩ := Checks.ofCode (first >>> 4)
    · rw [decode, hr]
      exact .ok _
    · rw [List.mem_singleton.1 hmem, Register.ofCode?_eq_none_iff] at hnone
      omega

theorem Instruction.decode_triple (first x y : UInt8) :
    decode [first, x, y] =
      if first &&& (Opcode.ofByte first).shape.strayBits ≠ 0 then .error (.invalidOpcode first)
      else Instruction.mk (Opcode.ofByte first) <$> Operands.decode first x y (Opcode.ofByte first).shape := by
  have hlength : ¬ [first, x, y].length < (Opcode.ofByte first).shape.length := by
    have := (Opcode.ofByte first).shape.length_eq_two_or_three
    simp only [List.length_cons, List.length_nil]
    omega
  rw [decode, if_neg hlength]
  rfl

/-! ## The processor -/

namespace Cpu

variable {op : Opcode} {regs : Registers} {code : UInt8}

theorem exists_mem_codes_iff :
    (∃ micro ∈ op.microcode, code ∈ micro.codes regs) ↔ code ∈ op.shape.codes regs.ir regs.arg1 regs.arg2 := by
  cases op <;> simp [Opcode.microcode, MicroOp.codes, Opcode.shape, Shape.codes, Source.codes, or_comm]

theorem mem_unnamed_iff :
    code ∈ unnamed op.microcode regs ↔
      code ∈ op.shape.codes regs.ir regs.arg1 regs.arg2 ∧ Register.ofCode? code = none := by
  rw [← exists_mem_codes_iff, unnamed, List.mem_flatMap]
  simp only [List.mem_filter, Option.isNone_iff_eq_none]
  constructor
  · rintro ⟨micro, hmem, hcode, hnone⟩
    exact ⟨⟨micro, hmem, hcode⟩, hnone⟩
  · rintro ⟨⟨micro, hmem, hcode⟩, hnone⟩
    exact ⟨micro, hmem, hcode, hnone⟩

variable {cpu next : Cpu} {steps : List Step}

/-- The opcode byte has a bit without a meaning set. -/
def HasStrayBits (cpu : Cpu) : Prop :=
  cpu.registers.ir &&& (Opcode.ofByte cpu.registers.ir).shape.strayBits ≠ 0

instance (cpu : Cpu) : Decidable cpu.HasStrayBits := inferInstanceAs (Decidable (_ ≠ _))

/-- The operand bytes of the instruction that is held. -/
def operandBytes (cpu : Cpu) : List UInt8 :=
  [cpu.registers.arg1, cpu.registers.arg2].take ((Opcode.ofByte cpu.registers.ir).shape.length - 1)

theorem currentInstruction_of_stray (h : cpu.HasStrayBits) :
    cpu.currentInstruction = .error (.invalidOpcode cpu.registers.ir) :=
  (Instruction.decode_triple _ _ _).trans (if_pos h)

theorem checks_currentInstruction (h : ¬ cpu.HasStrayBits) :
    Checks ((Opcode.ofByte cpu.registers.ir).shape.codes cpu.registers.ir cpu.registers.arg1 cpu.registers.arg2)
      cpu.currentInstruction := by
  have hdecode : cpu.currentInstruction = Instruction.mk _ <$> Operands.decode _ _ _ _ :=
    (Instruction.decode_triple _ _ _).trans (if_neg h)
  rw [hdecode]
  exact (Operands.checks_decode _ _ (not_not.1 h)).map _

theorem mem_operandBytes_of_codes {s : Shape} {first x y : UInt8} (h : code ∈ s.codes first x y) :
    code ∈ [x, y].take (s.length - 1) := by
  have hsource {byte : UInt8} (h : code ∈ Source.codes first byte) : code = byte := by
    unfold Source.codes at h
    split at h
    · cases h
    · exact List.mem_singleton.1 h
  cases s with
  | reg => exact h
  | source => exact List.mem_singleton.2 (hsource h)
  | regImm => exact List.mem_cons.2 (.inl (List.mem_singleton.1 h))
  | regSource =>
    rcases List.mem_cons.1 h with rfl | h
    · exact List.mem_cons_self
    · exact List.mem_cons_of_mem _ (List.mem_singleton.2 (hsource h))
  | regReg => exact h
  | address | packedReg => cases h

theorem readCode_of_none (h : Register.ofCode? code = none) (cpu : Cpu) : cpu.readCode code = 0xFF := by
  rw [readCode, h]

theorem writeCode_of_none (h : Register.ofCode? code = none) (cpu : Cpu) (v : UInt8) : cpu.writeCode code v = cpu := by
  rw [writeCode, h]

def Reported (steps : List Step) : Prop := ∃ step ∈ steps, step.anomalies ≠ []

theorem reported_iff : Reported steps ↔ ∃ code, code ∈ steps.flatMap (·.missing) := by
  constructor
  · rintro ⟨step, hstep, hne⟩
    obtain ⟨x, hx⟩ := List.exists_mem_of_ne_nil _ hne
    exact ⟨x.code, List.mem_flatMap.2 ⟨step, hstep, List.mem_map.2 ⟨x, hx, rfl⟩⟩⟩
  · rintro ⟨code, hcode⟩
    obtain ⟨step, hstep, hmem⟩ := List.mem_flatMap.1 hcode
    obtain ⟨x, hx, -⟩ := List.mem_map.1 hmem
    exact ⟨step, hstep, List.ne_nil_of_mem hx⟩

/-- Decoder and processor agree on the instruction that is held, and has been run in some phases. -/
structure Agrees (cpu : Cpu) (steps : List Step) : Prop where
  fails : ¬ cpu.HasStrayBits → (Reported steps ↔ ∃ fault, cpu.currentInstruction = .error fault)
  fault : ¬ cpu.HasStrayBits → ∀ fault, cpu.currentInstruction = .error fault → ∃ code, fault = .invalidRegister code
  instruction : cpu.currentInstruction.toOption = none ↔ cpu.HasStrayBits ∨ Reported steps
  code : ∀ step ∈ steps, ∀ x ∈ step.anomalies, x.code ∈ cpu.operandBytes ∧ 8 ≤ x.code.toNat
  unused : ∀ step ∈ steps, ∀ x ∈ step.anomalies, ∀ state : Cpu,
    state.readCode x.code = 0xFF ∧ ∀ v, state.writeCode x.code v = state

/-- **Decoder and processor agree** when an instruction has come to its end. -/
theorem Completes.agrees (h : cpu.Completes next steps) : next.Agrees steps := by
  have hir : next.registers.ir = cpu.fetched := (List.cons.inj h.fetched).1
  have hmissing (code : UInt8) : code ∈ steps.flatMap (·.missing) ↔
      code ∈ (Opcode.ofByte next.registers.ir).shape.codes next.registers.ir next.registers.arg1 next.registers.arg2 ∧
        Register.ofCode? code = none := by
    rw [h.missing, mem_unnamed_iff, hir]
  have hanomaly (step : Step) (hstep : step ∈ steps) (x : Anomaly) (hx : x ∈ step.anomalies) :
      x.code ∈ steps.flatMap (·.missing) := List.mem_flatMap.2 ⟨step, hstep, List.mem_map.2 ⟨x, hx, rfl⟩⟩
  have hchecks (hstray : ¬ next.HasStrayBits) :
      (∃ i, next.currentInstruction = .ok i ∧ ¬ Reported steps) ∨
        ∃ code, next.currentInstruction = .error (.invalidRegister code) ∧ Reported steps := by
    rcases checks_currentInstruction hstray with ⟨i, hi, hcodes⟩ | ⟨code, hmem, hnone, hfault⟩
    · refine .inl ⟨i, hi, ?_⟩
      rw [reported_iff]
      rintro ⟨code, hcode⟩
      obtain ⟨hmem, hnone⟩ := (hmissing code).1 hcode
      exact hcodes code hmem hnone
    · exact .inr ⟨code, hfault, reported_iff.2 ⟨code, (hmissing code).2 ⟨hmem, hnone⟩⟩⟩
  refine ⟨?_, ?_, ?_, ?_, ?_⟩
  · intro hstray
    rcases hchecks hstray with ⟨i, hi, hnot⟩ | ⟨code, hfault, hreported⟩
    · simp [hi, hnot]
    · simp [hfault, hreported]
  · intro hstray fault hfault
    rcases hchecks hstray with ⟨i, hi, -⟩ | ⟨code, hcode, -⟩
    · rw [hi] at hfault
      cases hfault
    · rw [hcode] at hfault
      exact ⟨code, (Except.error.inj hfault).symm⟩
  · by_cases hstray : next.HasStrayBits
    · simp [currentInstruction_of_stray hstray, hstray, Except.toOption]
    · rcases hchecks hstray with ⟨i, hi, hnot⟩ | ⟨code, hfault, hreported⟩
      · simp [hi, hnot, hstray, Except.toOption]
      · simp [hfault, hreported, Except.toOption]
  · intro step hstep x hx
    obtain ⟨hmem, hnone⟩ := (hmissing x.code).1 (hanomaly step hstep x hx)
    exact ⟨mem_operandBytes_of_codes hmem, Register.ofCode?_eq_none_iff.1 hnone⟩
  · intro step hstep x hx state
    obtain ⟨-, hnone⟩ := (hmissing x.code).1 (hanomaly step hstep x hx)
    exact ⟨readCode_of_none hnone state, writeCode_of_none hnone state⟩

end Cpu

end Octet
