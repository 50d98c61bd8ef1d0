import Octet.Proofs.Assembler.Substitution
/-!
The expansion of one line, as an outcome: its instructions, or the error that the operands do not fit.

* `WordsSplit`: operands in which some words are written as two bytes;
* `Operand.SameForm`, `Instruction.SameForm`: operands and instructions that differ in their values only;
* `Mnemonic.exists_expand_iff`: how many operands a mnemonic may have;
* `Line.expandWith_of_forms`: the outcome depends on the forms of the operands, and a word is its two bytes.
-/

namespace Octet

open Instruction

/-! ## Words split into bytes -/

/-- The second operands are the first ones with some of the words, wherever they stand, written as their high and low
bytes. -/
inductive WordsSplit : List Operand → List Operand → Prop
  | nil : WordsSplit [] []
  | keep (op : Operand) {ops ops' : List Operand} : WordsSplit ops ops' → WordsSplit (op :: ops) (op :: ops')
  | split (w : UInt16) {ops ops' : List Operand} : WordsSplit ops ops' →
      WordsSplit (.word w :: ops) (.byte (highByte w) :: .byte (lowByte w) :: ops')

namespace WordsSplit

theorem refl (ops : List Operand) : WordsSplit ops ops := by
  induction ops with
  | nil => exact .nil
  | cons op ops ih => exact .keep op ih

/-- One word is split, what stands before and after it stays. -/
theorem single (before after : List Operand) (w : UInt16) :
    WordsSplit (before ++ .word w :: after) (before ++ .byte (highByte w) :: .byte (lowByte w) :: after) := by
  induction before with
  | nil => exact .split w (refl after)
  | cons op before ih => exact .keep op ih

theorem spreadAll_eq {ops ops' : List Operand} (h : WordsSplit ops ops') : spreadAll ops' = spreadAll ops := by
  induction h with
  | nil => rfl
  | keep op _ ih => rw [spreadAll_cons, spreadAll_cons, ih]
  | split w _ ih => rw [spreadAll_cons, spreadAll_cons, spreadAll_cons, ih]; rfl

/-- Splitting words changes no expansion. -/
theorem expand_eq {ops ops' : List Operand} (h : WordsSplit ops ops') (m : Mnemonic) (returnAddress : UInt16) :
    m.expand ops' returnAddress = m.expand ops returnAddress := by
  -- Both lists are the same once the rest of the words is split as well.
  rw [← expand_spreadAll m ops', h.spreadAll_eq, expand_spreadAll]

end WordsSplit

/-! ## Same forms -/

/-- Operands of one kind; a register is of a kind of its own. -/
inductive Operand.SameForm : Operand → Operand → Prop
  | reg (r : Register) : SameForm (.reg r) (.reg r)
  | byte (v v' : UInt8) : SameForm (.byte v) (.byte v')
  | word (w w' : UInt16) : SameForm (.word w) (.word w')

theorem Operand.SameForm.form_eq {op op' : Operand} (h : op.SameForm op') : op.form = op'.form := by
  cases h <;> rfl

theorem map_form_eq_of_sameForm {ops ops' : List Operand} (h : List.Forall₂ Operand.SameForm ops ops') :
    ops.map Operand.form = ops'.map Operand.form := by
  induction h with
  | nil => rfl
  | cons hop _ ih => rw [List.map_cons, List.map_cons, hop.form_eq, ih]

/-- Operands of the same forms have expansions of the same form, whatever the return addresses are. -/
theorem forms_expand_of_sameForm {ops ops' : List Operand} (h : List.Forall₂ Operand.SameForm ops ops')
    (m : Mnemonic) (a b : UInt16) : forms (m.expand ops a) = forms (m.expand ops' b) := by
  rw [← forms_expand m ops a a, map_form_eq_of_sameForm h, forms_expand]

/-- The register that a source is. -/
def Source.register? : Source → Option Register
  | reg r => some r
  | imm _ => none

/-- The registers among the operands, in their order. -/
def Operands.registers : Operands → List Register
  | reg r => [r]
  | source s => s.register?.toList
  | address .. => []
  | regImm r _ => [r]
  | regSource r s => r :: s.register?.toList
  | regReg dest src => [dest, src]
  | packedReg r .. => [r]

theorem Operands.shape_form (o : Operands) : o.form.shape = o.shape := by cases o <;> rfl

theorem Operands.registers_form (o : Operands) : o.form.registers = o.registers := by
  cases o with
  | source s | regSource r s => cases s <;> rfl
  | reg | address | regImm | regReg | packedReg => rfl

/-- Instructions with the same operation, the same kinds of operands and the same registers. -/
structure Instruction.SameForm (i i' : Instruction) : Prop where
  op : i.op = i'.op
  shape : i.operands.shape = i'.operands.shape
  registers : i.operands.registers = i'.operands.registers

theorem Instruction.sameForm_of_form_eq {i i' : Instruction} (h : i.form = i'.form) : i.SameForm i' := by
  obtain ⟨hop, hoperands⟩ : i.op = i'.op ∧ i.operands.form = i'.operands.form := Instruction.mk.inj h
  refine ⟨hop, ?_, ?_⟩
  · rw [← i.operands.shape_form, hoperands, Operands.shape_form]
  · rw [← i.operands.registers_form, hoperands, Operands.registers_form]

theorem forall₂_sameForm_of_map_form_eq {p p' : List Instruction} (h : p.map form = p'.map form) :
    List.Forall₂ SameForm p p' := by
  have hforms : List.Forall₂ (fun i i' : Instruction => i.form = i'.form) p p' := by
    rw [← List.forall₂_map_right_iff, ← List.forall₂_map_left_iff, List.forall₂_eq_eq_eq]
    exact h
  exact hforms.imp fun _ _ => sameForm_of_form_eq

/-- Outcomes of an expansion that differ in values only: the same error, or as many instructions of the same forms, of
as many bytes. -/
inductive ExpandAlike : Except AsmError (List Instruction) → Except AsmError (List Instruction) → Prop
  | error (e : AsmError) : ExpandAlike (.error e) (.error e)
  | ok {p p' : List Instruction} (instructions : List.Forall₂ SameForm p p')
      (length : totalLength p = totalLength p') : ExpandAlike (.ok p) (.ok p')

theorem Line.expandAlike_of_forms_eq {m : Mnemonic} {ops ops' : List Operand} {a a' : UInt16}
    (h : forms (m.expand ops a) = forms (m.expand ops' a')) (line : Line) :
    ExpandAlike (line.expandWith m ops a) (line.expandWith m ops' a') := by
  unfold expandWith
  cases hp : m.expand ops a with
  | none =>
    rw [hp] at h
    have hp' : m.expand ops' a' = none := Option.map_eq_none_iff.1 h.symm
    rw [hp']
    exact .error _
  | some p =>
    rw [hp] at h
    obtain ⟨p', hp', hforms⟩ := Option.map_eq_some_iff.1 h.symm
    rw [hp']
    refine .ok (forall₂_sameForm_of_map_form_eq hforms.symm) ?_
    calc totalLength p = totalLength (p.map form) := (totalLength_map_form p).symm
      _ = totalLength (p'.map form) := congrArg totalLength hforms.symm
      _ = totalLength p' := totalLength_map_form p'

/-! ## Numbers of operands -/

theorem length_of_address? {ops : List Operand} {p : UInt8 × UInt8} (h : address? ops = some p) :
    1 ≤ ops.length ∧ ops.length ≤ 2 := by
  unfold address? at h
  split at h
  · exact ⟨le_refl 1, Nat.le_succ 1⟩
  · exact ⟨Nat.le_succ 1, le_refl 2⟩
  · cases h

theorem length_of_pair? {ops : List Operand} {target : Target} (h : Target.pair? ops = some target) :
    ops.length = 2 := by
  unfold Target.pair? at h
  split at h
  · rfl
  · cases h

theorem length_of_ofOperands? {ops : List Operand} {target : Target} (h : Target.ofOperands? ops = some target) :
    1 ≤ ops.length ∧ ops.length ≤ 2 := by
  unfold Target.ofOperands? at h
  split at h
  · exact ⟨Nat.le_succ 1, le_refl 2⟩
  · obtain ⟨p, hp, -⟩ := Option.map_eq_some_iff.1 h
    exact length_of_address? hp

theorem length_of_regSource? {ops : List Operand} {p : Register × Source} (h : regSource? ops = some p) :
    ops.length = 2 := by
  unfold regSource? at h
  split at h
  · rfl
  · cases h

theorem length_of_reg? {ops : List Operand} {r : Register} (h : reg? ops = some r) : ops.length = 1 := by
  unfold reg? at h
  split at h
  · rfl
  · cases h

theorem length_of_expandMov {ops : List Operand} {p : List Instruction} (h : expandMov ops = some p) :
    2 ≤ ops.length ∧ ops.length ≤ 3 := by
  unfold expandMov at h
  split at h
  · exact ⟨le_refl 2, Nat.le_succ 2⟩
  · exact ⟨le_refl 2, Nat.le_succ 2⟩
  · obtain ⟨_, haddress, -⟩ := Option.map_eq_some_iff.1 h
    have := length_of_address? haddress
    rw [List.length_cons]
    omega
  · split at h
    · obtain ⟨_, haddress, -⟩ := Option.map_eq_some_iff.1 h
      have := length_of_address? haddress
      rw [List.length_dropLast] at this
      omega
    · cases h

theorem length_of_expandMovmr {ops : List Operand} {p : List Instruction} (h : expandMovmr ops = some p) :
    ops.length = 3 := by
  unfold expandMovmr at h
  split at h
  · obtain ⟨_, hpair, -⟩ := Option.map_eq_some_iff.1 h
    rw [List.length_cons, length_of_pair? hpair]
  · cases h

theorem length_of_expandMovrm {ops : List Operand} {p : List Instruction} (h : expandMovrm ops = some p) :
    ops.length = 3 := by
  simp only [expandMovrm, Option.bind_eq_bind, Option.bind_eq_some_iff] at h
  obtain ⟨last, -, s, -, h⟩ := h
  split at h
  · cases h
  · obtain ⟨target, hpair, -⟩ := Option.bind_eq_some_iff.1 h
    have := length_of_pair? hpair
    rw [List.length_dropLast] at this
    omega

namespace Shape

/-- The least number of operands of an operation; an address written as one word counts as one. -/
def minOperands : Shape → Nat
  | reg | source | address => 1
  | regImm | regSource | regReg | packedReg => 2

/-- The greatest number of operands of an operation. -/
def maxOperands : Shape → Nat
  | reg | source => 1
  | address | regImm | regSource | regReg => 2
  | packedReg => 3

theorem count_of_operands? {s : Shape} {ops : List Operand} {o : Operands} (h : s.operands? ops = some o) :
    s.minOperands ≤ ops.length ∧ ops.length ≤ s.maxOperands := by
  unfold operands? at h
  split at h
  case h_3 =>
    obtain ⟨_, haddress, -⟩ := Option.map_eq_some_iff.1 h
    exact length_of_address? haddress
  case h_7 =>
    obtain ⟨_, haddress, -⟩ := Option.map_eq_some_iff.1 h
    have := length_of_address? haddress
    simp only [minOperands, maxOperands, List.length_cons]
    omega
  case h_8 => cases h
  all_goals exact ⟨le_refl _, le_refl _⟩

/-- There are operands for each number between the least and the greatest one. -/
theorem exists_operands? {s : Shape} {n : Nat} (h : s.minOperands ≤ n ∧ n ≤ s.maxOperands) :
    ∃ ops o, ops.length = n ∧ s.operands? ops = some o := by
  obtain ⟨hmin, hmax⟩ := h
  cases s with
  | reg | source =>
    obtain rfl : n = 1 := le_antisymm hmax hmin
    exact ⟨[.reg .a], _, rfl, rfl⟩
  | address =>
    obtain rfl | rfl : n = 1 ∨ n = 2 := by simp only [minOperands, maxOperands] at hmin hmax; omega
    · exact ⟨[.word 0], _, rfl, rfl⟩
    · exact ⟨[.byte 0, .byte 0], _, rfl, rfl⟩
  | regImm =>
    obtain rfl : n = 2 := le_antisymm hmax hmin
    exact ⟨[.reg .a, .byte 0], _, rfl, rfl⟩
  | regSource | regReg =>
    obtain rfl : n = 2 := le_antisymm hmax hmin
    exact ⟨[.reg .a, .reg .a], _, rfl, rfl⟩
  | packedReg =>
    obtain rfl | rfl : n = 2 ∨ n = 3 := by simp only [minOperands, maxOperands] at hmin hmax; omega
    · exact ⟨[.reg .a, .word 0], _, rfl, rfl⟩
    · exact ⟨[.reg .a, .byte 0, .byte 0], _, rfl, rfl⟩

end Shape

namespace Compound

/-- A compound refuses too few and too many operands, whatever they are: a check of their number in front of an
expansion refuses nothing that the expansion does not refuse itself. -/
theorem count_of_expand {c : Compound} {ops : List Operand} {a : UInt16} {p : List Instruction}
    (h : c.expand ops a = some p) : c.minOperands ≤ ops.length ∧ ops.length ≤ c.maxOperands := by
  cases c with
  | jmp | jc | jnc | call =>
    obtain ⟨_, htarget, -⟩ := Option.map_eq_some_iff.1 h
    exact length_of_ofOperands? htarget
  | not | inc | dec =>
    obtain ⟨_, hr, -⟩ := Option.map_eq_some_iff.1 h
    exact ⟨(length_of_reg? hr).ge, (length_of_reg? hr).le⟩
  | nand | gtn | ltn | equ =>
    obtain ⟨_, hrs, -⟩ := Option.map_eq_some_iff.1 h
    exact ⟨(length_of_regSource? hrs).ge, (length_of_regSource? hrs).le⟩
  | xor | xnor =>
    obtain ⟨_, hrs, -⟩ := Option.map_eq_some_iff.1 h
    have hrs := (Option.filter_eq_some_iff.1 (Option.filter_eq_some_iff.1 hrs).1).1
    exact ⟨(length_of_regSource? hrs).ge, (length_of_regSource? hrs).le⟩
  | sub =>
    obtain ⟨_, hrs, -⟩ := Option.map_eq_some_iff.1 h
    have hrs := (Option.filter_eq_some_iff.1 hrs).1
    exact ⟨(length_of_regSource? hrs).ge, (length_of_regSource? hrs).le⟩
  | stc | ret | nop =>
    obtain ⟨rfl, -⟩ := Option.ite_none_right_eq_some.1 h
    exact ⟨le_refl 0, le_refl 0⟩
  | mov => exact length_of_expandMov h
  | movmr => exact ⟨(length_of_expandMovmr h).ge, (length_of_expandMovmr h).le⟩
  | movrm => exact ⟨(length_of_expandMovrm h).ge, (length_of_expandMovrm h).le⟩

/-- There are operands for each number between the least and the greatest one. -/
theorem exists_expand {c : Compound} {n : Nat} (h : c.minOperands ≤ n ∧ n ≤ c.maxOperands) (a : UInt16) :
    ∃ ops p, ops.length = n ∧ c.expand ops a = some p := by
  obtain ⟨hmin, hmax⟩ := h
  cases c with
  | jmp | jc | jnc | call =>
    obtain rfl | rfl : n = 1 ∨ n = 2 := by simp only [minOperands, maxOperands] at hmin hmax; omega
    · exact ⟨[.word 0], _, rfl, rfl⟩
    · exact ⟨[.byte 0, .byte 0], _, rfl, rfl⟩
  | not | inc | dec =>
    obtain rfl : n = 1 := le_antisymm hmax hmin
    exact ⟨[.reg .a], _, rfl, rfl⟩
  | nand | xor | xnor | sub | gtn | ltn | equ =>
    obtain rfl : n = 2 := le_antisymm hmax hmin
    exact ⟨[.reg .a, .byte 0], _, rfl, rfl⟩
  | stc | ret | nop =>
    obtain rfl : n = 0 := le_antisymm hmax hmin
    exact ⟨[], _, rfl, rfl⟩
  | mov =>
    obtain rfl | rfl : n = 2 ∨ n = 3 := by simp only [minOperands, maxOperands] at hmin hmax; omega
    · exact ⟨[.reg .a, .word 0], _, rfl, rfl⟩
    · exact ⟨[.reg .a, .byte 0, .byte 0], _, rfl, rfl⟩
  | movmr | movrm =>
    obtain rfl : n = 3 := le_antisymm hmax hmin
    exact ⟨[.reg .d, .reg .e, .reg .a], _, rfl, rfl⟩

end Compound

namespace Mnemonic

/-- The least number of operands. -/
def minOperands : Mnemonic → Nat
  | primitive op => op.shape.minOperands
  | compound c => c.minOperands

/-- The greatest number of operands. -/
def maxOperands : Mnemonic → Nat
  | primitive op => op.shape.maxOperands
  | compound c => c.maxOperands

/-- **Mnemonics count their operands.** Some operands of a number fit iff the number is neither too small nor too
great. -/
theorem exists_expand_iff (m : Mnemonic) (n : Nat) (a : UInt16) :
    (∃ ops p, ops.length = n ∧ m.expand ops a = some p) ↔ m.minOperands ≤ n ∧ n ≤ m.maxOperands := by
  constructor
  · rintro ⟨ops, p, rfl, h⟩
    cases m with
    | primitive op =>
      obtain ⟨o, ho, -⟩ := Option.map_eq_some_iff.1 h
      exact Shape.count_of_operands? ho
    | compound c => exact Compound.count_of_expand h
  · intro h
    cases m with
    | primitive op =>
      obtain ⟨ops, o, hn, ho⟩ := Shape.exists_operands? h
      exact ⟨ops, _, hn, Option.map_eq_some_iff.2 ⟨o, ho, rfl⟩⟩
    | compound c => exact Compound.exists_expand h a

end Mnemonic

/-! ## Lines -/

/-- **Expansions go by the forms of operands.** Words may be written as their two bytes: the outcome is the same, the
instructions or the error. Other values of bytes and words, and another return address, give as many instructions with
the same operations and registers, of as many bytes, or the same error. What comes out is valid. For each number of
operands that the mnemonic may have, and for no other, there are operands that fit. -/
theorem Line.expandWith_of_forms (line : Line) (m : Mnemonic) (ops : List Operand) (returnAddress : UInt16) :
    (∀ ops', WordsSplit ops ops' →
      line.expandWith m ops' returnAddress = line.expandWith m ops returnAddress) ∧
    (∀ ops' returnAddress', List.Forall₂ Operand.SameForm ops ops' →
      ExpandAlike (line.expandWith m ops returnAddress) (line.expandWith m ops' returnAddress')) ∧
    (∀ p, line.expandWith m ops returnAddress = .ok p → ∀ i ∈ p, i.Valid) ∧
    ∀ n, (∃ ops' p, ops'.length = n ∧ line.expandWith m ops' returnAddress = .ok p) ↔
      m.minOperands ≤ n ∧ n ≤ m.maxOperands := by
  refine ⟨fun ops' h => ?_, fun ops' a' h => ?_, fun p hp => ?_, fun n => ?_⟩
  · unfold expandWith
    rw [h.expand_eq]
  · exact expandAlike_of_forms_eq (forms_expand_of_sameForm h m _ _) line
  · exact valid_of_expand (expandWith_eq_ok_iff.1 hp)
  · simp only [expandWith_eq_ok_iff]
    exact m.exists_expand_iff n returnAddress

/-- A call, once to an address in one word, once in two bytes, and once to another address from another place; a call
to three operands fits nowhere. -/
theorem Line.expandWith_of_forms_call :
    let line : Line := { loc := ⟨"main.asm", 7⟩, mnemonic := "CALL" }
    WordsSplit [.word 0x8100] [.byte 0x81, .byte 0x00] ∧
      List.Forall₂ Operand.SameForm [.word 0x8100] [.word 0x1234] ∧
      line.expandWith (.compound .call) [.byte 0x81, .byte 0x00] 0x8009 =
        line.expandWith (.compound .call) [.word 0x8100] 0x8009 ∧
      ExpandAlike (line.expandWith (.compound .call) [.word 0x8100] 0x8009)
        (line.expandWith (.compound .call) [.word 0x1234] 0x9ABC) ∧
      (∃ p, line.expandWith (.compound .call) [.word 0x8100] 0x8009 = .ok p ∧ totalLength p = 9 ∧ ∀ i ∈ p, i.Valid) ∧
      ¬ ∃ ops p, ops.length = 3 ∧ line.expandWith (.compound .call) ops 0x8009 = .ok p := by
  intro line
  obtain ⟨hsplit, hforms, hvalid, hcount⟩ := expandWith_of_forms line (.compound .call) [.word 0x8100] 0x8009
  have hwords : WordsSplit [.word 0x8100] [.byte 0x81, .byte 0x00] := .single [] [] 0x8100
  have hsame : List.Forall₂ Operand.SameForm [.word 0x8100] [.word 0x1234] := .cons (.word _ _) .nil
  refine ⟨hwords, hsame, hsplit _ hwords, hforms _ 0x9ABC hsame, ⟨_, rfl, rfl, hvalid _ rfl⟩, ?_⟩
  rw [hcount 3]
  decide

end Octet
