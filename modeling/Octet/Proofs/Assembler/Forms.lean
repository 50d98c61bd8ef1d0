import Octet.Assembler.Expansion
import Octet.Proofs.Isa.Codec
/-!
What an expansion depends on: the forms of its operands, but neither their values nor whether an address is written
as one word or as two bytes.

* `expand_spreadAll`: words may be written as two bytes;
* `forms_expand`: the values of bytes and words, and the return address, change no operation and no register;
* `exists_expand_of_forms`: operands of the same forms take the same number of bytes;
* `valid_of_expand`: every operation of an expansion has operands of its own shape.
-/

namespace Octet

open Instruction

/-! ## Words as bytes -/

namespace Operand

/-- An operand with a word as its two bytes. -/
def spread : Operand → List Operand
  | word w => [byte (highByte w), byte (lowByte w)]
  | op => [op]

@[simp] theorem spread_reg (r : Register) : (reg r).spread = [reg r] := rfl

@[simp] theorem spread_byte (v : UInt8) : (byte v).spread = [byte v] := rfl

@[simp] theorem spread_word (w : UInt16) : (word w).spread = [byte (highByte w), byte (lowByte w)] := rfl

end Operand

/-- Operands with all words as two bytes each. -/
def spreadAll (ops : List Operand) : List Operand := ops.flatMap Operand.spread

@[simp] theorem spreadAll_nil : spreadAll [] = [] := rfl

@[simp] theorem spreadAll_cons (op : Operand) (ops : List Operand) :
    spreadAll (op :: ops) = op.spread ++ spreadAll ops := rfl

/-- A function of at most two operands takes two bytes for a word if it does so with one operand and with two. -/
theorem congr_spreadAll {α : Type} {f : List Operand → α} {other : α} (one : ∀ x : Operand, f x.spread = f [x])
    (two : ∀ x y : Operand, f (x.spread ++ y.spread) = f [x, y])
    (more : ∀ x y z ops, f (x :: y :: z :: ops) = other) (ops : List Operand) : f (spreadAll ops) = f ops := by
  rcases ops with _ | ⟨x, _ | ⟨y, _ | ⟨z, ops⟩⟩⟩
  · rfl
  · rw [spreadAll_cons, spreadAll_nil, List.append_nil, one]
  · rw [spreadAll_cons, spreadAll_cons, spreadAll_nil, List.append_nil, two]
  · rw [more]
    cases x <;> cases y <;> cases z <;> exact more _ _ _ _

theorem address?_spreadAll (ops : List Operand) : address? (spreadAll ops) = address? ops :=
  congr_spreadAll (by rintro ⟨⟩ <;> rfl) (by rintro ⟨⟩ ⟨⟩ <;> rfl) (by rintro ⟨⟩ ⟨⟩ z ops <;> rfl) ops

theorem pair?_spreadAll (ops : List Operand) : Target.pair? (spreadAll ops) = Target.pair? ops :=
  congr_spreadAll (by rintro ⟨⟩ <;> rfl) (by rintro ⟨⟩ ⟨⟩ <;> rfl) (by rintro ⟨⟩ ⟨⟩ z ops <;> rfl) ops

theorem ofOperands?_spreadAll (ops : List Operand) : Target.ofOperands? (spreadAll ops) = Target.ofOperands? ops :=
  congr_spreadAll (by rintro ⟨⟩ <;> rfl) (by rintro ⟨⟩ ⟨⟩ <;> rfl) (by rintro ⟨⟩ ⟨⟩ z ops <;> rfl) ops

theorem regSource?_spreadAll (ops : List Operand) : regSource? (spreadAll ops) = regSource? ops :=
  congr_spreadAll (by rintro ⟨⟩ <;> rfl) (by rintro ⟨⟩ ⟨⟩ <;> rfl) (by rintro ⟨⟩ ⟨⟩ z ops <;> rfl) ops

theorem reg?_spreadAll (ops : List Operand) : reg? (spreadAll ops) = reg? ops :=
  congr_spreadAll (by rintro ⟨⟩ <;> rfl) (by rintro ⟨⟩ ⟨⟩ <;> rfl) (by rintro ⟨⟩ ⟨⟩ z ops <;> rfl) ops

theorem operands?_spreadAll (s : Shape) (ops : List Operand) : s.operands? (spreadAll ops) = s.operands? ops := by
  cases s with
  | address => exact congrArg (Option.map _) (address?_spreadAll ops)
  | packedReg =>
    rcases ops with _ | ⟨x, ops⟩
    · rfl
    · cases x with
      | reg r => exact congrArg (Option.map _) (address?_spreadAll ops)
      | byte v => rfl
      | word w => rfl
  | reg | source | regImm | regSource | regReg =>
    exact congr_spreadAll (by rintro ⟨⟩ <;> rfl) (by rintro ⟨⟩ ⟨⟩ <;> rfl) (by rintro ⟨⟩ ⟨⟩ z ops <;> rfl) ops

theorem spreadAll_eq_nil_iff {ops : List Operand} : spreadAll ops = [] ↔ ops = [] := by
  rcases ops with _ | ⟨x, ops⟩
  · simp
  · cases x <;> simp

theorem expandMovmr_spreadAll (ops : List Operand) : expandMovmr (spreadAll ops) = expandMovmr ops := by
  rcases ops with _ | ⟨x, ops⟩
  · rfl
  · cases x with
    | reg r => exact congrArg (Option.map _) (pair?_spreadAll ops)
    | byte v => rfl
    | word w => rfl

@[simp] theorem spreadAll_append (xs ys : List Operand) : spreadAll (xs ++ ys) = spreadAll xs ++ spreadAll ys :=
  List.flatMap_append

/-- The operations of a move to memory: the last operand is a register, the others are the address. -/
def storeMov (ops : List Operand) : Option (List Instruction) :=
  match ops.getLast? with
  | some (.reg src) => (address? ops.dropLast).map fun (hi, lo) => [⟨.swa, .packedReg src hi lo⟩]
  | _ => none

/-- The operations of a move from memory. -/
def loadMov (dest : Register) (address : List Operand) : Option (List Instruction) :=
  (address? address).map fun (hi, lo) => [⟨.lwa, .packedReg dest hi lo⟩]

theorem expandMov_eq_loadMov (r : Register) (x y : Operand) (ops : List Operand) :
    expandMov (.reg r :: x :: y :: ops) = loadMov r (x :: y :: ops) := by
  cases x <;> cases y <;> rfl

theorem expandMov_eq_storeMov {ops : List Operand} (h : ∀ r, ops.head? ≠ some (.reg r)) :
    expandMov ops = storeMov ops := by
  rcases ops with _ | ⟨x, ops⟩
  · rfl
  · cases x with
    | reg r => exact absurd rfl (h r)
    | byte v => rfl
    | word w => rfl

theorem storeMov_spreadAll (ops : List Operand) : storeMov (spreadAll ops) = storeMov ops := by
  rcases List.eq_nil_or_concat' ops with rfl | ⟨init, last, rfl⟩
  · rfl
  · simp only [storeMov, spreadAll_append, spreadAll_cons, spreadAll_nil, List.append_nil]
    cases last with
    | reg r => simp [address?_spreadAll]
    | byte v => simp
    | word w => simp [List.getLast?_append]

theorem expandMov_spreadAll (ops : List Operand) : expandMov (spreadAll ops) = expandMov ops := by
  rcases ops with _ | ⟨x, ops⟩
  · rfl
  · cases x with
    | reg r =>
      rcases ops with _ | ⟨y, _ | ⟨z, ops⟩⟩
      · rfl
      · cases y <;> rfl
      · have hload : loadMov r (spreadAll (y :: z :: ops)) = loadMov r (y :: z :: ops) :=
          congrArg (Option.map _) (address?_spreadAll _)
        rw [expandMov_eq_loadMov, ← hload]
        cases y <;> cases z <;> rfl
    | byte v =>
      rw [expandMov_eq_storeMov (by simp), expandMov_eq_storeMov (by simp), storeMov_spreadAll]
    | word w =>
      rw [expandMov_eq_storeMov (by simp), expandMov_eq_storeMov (by simp), storeMov_spreadAll]

theorem pair?_concat_byte (ops : List Operand) (v : UInt8) : Target.pair? (ops ++ [.byte v]) = none := by
  rcases ops with _ | ⟨x, _ | ⟨y, _ | ⟨z, ops⟩⟩⟩
  · rfl
  · cases x <;> rfl
  · cases x <;> cases y <;> rfl
  · cases x <;> cases y <;> cases z <;> rfl

theorem expandMovrm_spreadAll (ops : List Operand) : expandMovrm (spreadAll ops) = expandMovrm ops := by
  rcases List.eq_nil_or_concat' ops with rfl | ⟨init, last, rfl⟩
  · rfl
  · simp only [expandMovrm, spreadAll_append, spreadAll_cons, spreadAll_nil, List.append_nil]
    cases last with
    | reg r => simp [pair?_spreadAll]
    | byte v => simp [pair?_spreadAll]
    | word w =>
      have hinit : (spreadAll init ++ (Operand.word w).spread).dropLast = spreadAll init ++ [.byte (highByte w)] := by
        simp
      rw [hinit, pair?_concat_byte]
      simp [Operand.source?, List.getLast?_append]

/-- **A word stands for its two bytes.** No instruction tells an address written as one word from one written as two
bytes. -/
theorem expand_spreadAll (m : Mnemonic) (ops : List Operand) (returnAddress : UInt16) :
    m.expand (spreadAll ops) returnAddress = m.expand ops returnAddress := by
  cases m with
  | primitive op => exact congrArg (Option.map _) (operands?_spreadAll op.shape ops)
  | compound c =>
    cases c <;> simp only [Mnemonic.expand, Compound.expand, keepFlag, regSourceNotH?, ofOperands?_spreadAll,
      regSource?_spreadAll, reg?_spreadAll, spreadAll_eq_nil_iff, expandMov_spreadAll, expandMovmr_spreadAll,
      expandMovrm_spreadAll]

/-! ## Forms -/

/-- An operand without its value: registers are kept, bytes and words become 0. -/
def Operand.form : Operand → Operand
  | reg r => reg r
  | byte _ => byte 0
  | word _ => word 0

@[simp] theorem Operand.form_reg (r : Register) : (reg r).form = reg r := rfl

@[simp] theorem Operand.form_byte (v : UInt8) : (byte v).form = byte 0 := rfl

@[simp] theorem Operand.form_word (w : UInt16) : (word w).form = word 0 := rfl

/-- Forms of operands with words as two bytes depend on the forms of the operands. -/
theorem map_form_spreadAll (ops : List Operand) :
    (spreadAll ops).map Operand.form = (spreadAll (ops.map Operand.form)).map Operand.form := by
  induction ops with
  | nil => rfl
  | cons op ops ih =>
    rw [List.map_cons, spreadAll_cons, spreadAll_cons, List.map_append, List.map_append, ih]
    cases op <;> rfl

/-- A source without its value. -/
def Source.form : Source → Source
  | reg r => reg r
  | imm _ => imm 0

/-- A target without its value. -/
def Target.form : Target → Target
  | literal .. => literal 0 0
  | pair hi lo => pair hi lo

/-- Operands without their values. -/
def Operands.form : Operands → Operands
  | reg r => reg r
  | source s => source s.form
  | address .. => address 0 0
  | regImm r _ => regImm r 0
  | regSource r s => regSource r s.form
  | regReg dest src => regReg dest src
  | packedReg r .. => packedReg r 0 0

/-- An instruction without its values: its operation and its registers. -/
def Instruction.form (i : Instruction) : Instruction := ⟨i.op, i.operands.form⟩

@[simp] theorem Instruction.length_form (i : Instruction) : i.form.length = i.length := rfl

theorem Instruction.totalLength_map_form (program : List Instruction) :
    totalLength (program.map form) = totalLength program := by
  simp [totalLength, Function.comp_def]

theorem address?_map_form (ops : List Operand) :
    address? (ops.map Operand.form) = (address? ops).map fun _ => (0, 0) := by
  rcases ops with _ | ⟨x, _ | ⟨y, _ | ⟨z, ops⟩⟩⟩
  · rfl
  · cases x <;> rfl
  · cases x <;> cases y <;> rfl
  · cases x <;> cases y <;> rfl

theorem operands?_map_form (s : Shape) (ops : List Operand) :
    s.operands? (ops.map Operand.form) = (s.operands? ops).map Operands.form := by
  cases s with
  | address =>
    show (address? (ops.map Operand.form)).map _ = ((address? ops).map _).map _
    rw [address?_map_form, Option.map_map, Option.map_map]
    rfl
  | packedReg =>
    rcases ops with _ | ⟨x, ops⟩
    · rfl
    · cases x with
      | reg r =>
        show (address? (ops.map Operand.form)).map _ = ((address? ops).map _).map _
        rw [address?_map_form, Option.map_map, Option.map_map]
        rfl
      | byte v => rfl
      | word w => rfl
  | reg | source | regImm | regSource | regReg =>
    rcases ops with _ | ⟨x, _ | ⟨y, _ | ⟨z, ops⟩⟩⟩
    · rfl
    · cases x <;> rfl
    · cases x <;> cases y <;> rfl
    · cases x <;> cases y <;> rfl

theorem pair?_map_form (ops : List Operand) : Target.pair? (ops.map Operand.form) = Target.pair? ops := by
  rcases ops with _ | ⟨x, _ | ⟨y, _ | ⟨z, ops⟩⟩⟩
  · rfl
  · cases x <;> rfl
  · cases x <;> cases y <;> rfl
  · cases x <;> cases y <;> rfl

theorem ofOperands?_map_form (ops : List Operand) :
    Target.ofOperands? (ops.map Operand.form) = (Target.ofOperands? ops).map Target.form := by
  rcases ops with _ | ⟨x, _ | ⟨y, _ | ⟨z, ops⟩⟩⟩
  · rfl
  · cases x <;> rfl
  · cases x with
    | reg hi =>
      cases y with
      | reg lo =>
        by_cases h : lo = .h ∧ hi ≠ .h <;> simp [Target.ofOperands?, Target.pair?, h, Operand.form, Target.form]
      | byte v => rfl
      | word w => rfl
    | byte v => cases y <;> rfl
    | word w => cases y <;> rfl
  · cases x <;> cases y <;> rfl

theorem regSource?_map_form (ops : List Operand) :
    regSource? (ops.map Operand.form) = (regSource? ops).map fun p => (p.1, p.2.form) := by
  rcases ops with _ | ⟨x, _ | ⟨y, _ | ⟨z, ops⟩⟩⟩
  · rfl
  · cases x <;> rfl
  · cases x <;> cases y <;> rfl
  · cases x <;> rfl

theorem reg?_map_form (ops : List Operand) : reg? (ops.map Operand.form) = reg? ops := by
  rcases ops with _ | ⟨x, _ | ⟨y, ops⟩⟩
  · rfl
  · cases x <;> rfl
  · cases x <;> rfl

/-- Expansions without their values. -/
def forms (expansion : Option (List Instruction)) : Option (List Instruction) :=
  expansion.map fun program => program.map Instruction.form

theorem forms_expandMov (ops : List Operand) : forms (expandMov (ops.map Operand.form)) = forms (expandMov ops) := by
  rcases ops with _ | ⟨x, ops⟩
  · rfl
  · have hstore : ∀ ops : List Operand, forms (storeMov (ops.map Operand.form)) = forms (storeMov ops) := by
      intro ops
      rcases List.eq_nil_or_concat' ops with rfl | ⟨init, last, rfl⟩
      · rfl
      · simp only [storeMov, forms, List.map_append, List.map_cons, List.map_nil, List.getLast?_append,
          List.getLast?_singleton, Option.some_or, List.dropLast_concat, address?_map_form]
        cases last with
        | reg r => cases address? init <;> rfl
        | byte v => rfl
        | word w => rfl
    cases x with
    | reg r =>
      rcases ops with _ | ⟨y, _ | ⟨z, ops⟩⟩
      · rfl
      · cases y <;> rfl
      · have hload : forms (loadMov r ((y :: z :: ops).map Operand.form)) = forms (loadMov r (y :: z :: ops)) := by
          rw [loadMov, address?_map_form, loadMov]
          cases address? (y :: z :: ops) <;> rfl
        rw [expandMov_eq_loadMov, ← hload]
        exact congrArg forms (expandMov_eq_loadMov r y.form z.form _)
    | byte v =>
      rw [expandMov_eq_storeMov (by simp), expandMov_eq_storeMov (by simp), hstore]
    | word w =>
      rw [expandMov_eq_storeMov (by simp), expandMov_eq_storeMov (by simp), hstore]

theorem forms_expandMovmr (ops : List Operand) :
    forms (expandMovmr (ops.map Operand.form)) = forms (expandMovmr ops) := by
  rcases ops with _ | ⟨x, ops⟩
  · rfl
  · cases x with
    | reg r =>
      show forms ((Target.pair? (ops.map Operand.form)).map _) = _
      rw [pair?_map_form]
      rfl
    | byte v => rfl
    | word w => rfl

theorem forms_expandMovrm (ops : List Operand) :
    forms (expandMovrm (ops.map Operand.form)) = forms (expandMovrm ops) := by
  rcases List.eq_nil_or_concat' ops with rfl | ⟨init, last, rfl⟩
  · rfl
  · simp only [expandMovrm, List.map_append, List.map_cons, List.map_nil, List.getLast?_append,
      List.getLast?_singleton, Option.some_or, List.dropLast_concat, pair?_map_form]
    cases last with
    | reg r => rfl
    | byte v =>
      cases Target.pair? init with
      | none => rfl
      | some target => cases target <;> rfl
    | word w => rfl

/-- **The form of an expansion depends on the forms of its operands alone.** Neither the values of bytes and words nor
the return address change whether operands fit, or which operations come of them. -/
theorem forms_expand (m : Mnemonic) (ops : List Operand) (a b : UInt16) :
    forms (m.expand (ops.map Operand.form) a) = forms (m.expand ops b) := by
  cases m with
  | primitive op =>
    simp only [Mnemonic.expand, operands?_map_form]
    rcases op.shape.operands? ops with _ | o
    · rfl
    · cases o with
      | source s | regSource r s => cases s <;> rfl
      | reg | address | regImm | regReg | packedReg => rfl
  | compound c =>
    cases c with
    | jmp | jc | jnc | call =>
      simp only [Mnemonic.expand, Compound.expand, ofOperands?_map_form]
      rcases Target.ofOperands? ops with _ | target
      · rfl
      · cases target <;> rfl
    | not | inc | dec => simp only [Mnemonic.expand, Compound.expand, reg?_map_form]
    | nand | gtn | ltn | equ =>
      simp only [Mnemonic.expand, Compound.expand, keepFlag, regSource?_map_form]
      rcases regSource? ops with _ | ⟨r, s⟩
      · rfl
      · cases s <;> rfl
    | xor | xnor | sub =>
      simp only [Mnemonic.expand, Compound.expand, regSourceNotH?, regSource?_map_form]
      rcases regSource? ops with _ | ⟨r, s⟩
      · rfl
      · cases s <;> cases r <;> rfl
    | stc | ret | nop => simp only [Mnemonic.expand, Compound.expand, List.map_eq_nil_iff]
    | mov => exact forms_expandMov ops
    | movmr => exact forms_expandMovmr ops
    | movrm => exact forms_expandMovrm ops

/-! ## Validity -/

theorem shape_of_operands? {s : Shape} {ops : List Operand} {o : Operands} (h : s.operands? ops = some o) :
    o.shape = s := by
  unfold Shape.operands? at h
  split at h
  all_goals first
    | (simp only [Option.map_eq_some_iff] at h; obtain ⟨x, -, rfl⟩ := h; rfl)
    | (cases h; rfl)
    | cases h

theorem valid_load (target : Target) : ∀ i ∈ target.load, i.Valid := by
  cases target <;> simp [Target.load, move, Valid, Operands.shape, Opcode.shape]

theorem valid_loadH (s : Source) : (loadH s).Valid := by cases s <;> rfl

theorem valid_jumpTo (target : Target) : ∀ i ∈ jumpTo target, i.Valid := by
  intro i hi
  rcases List.mem_append.1 hi with hi | hi
  · exact valid_load target i hi
  · rw [List.mem_singleton.1 hi]; rfl

theorem valid_expandMov {ops : List Operand} {program : List Instruction} (h : expandMov ops = some program) :
    ∀ i ∈ program, i.Valid := by
  unfold expandMov at h
  split at h
  · cases h; simp [move, Valid, Operands.shape, Opcode.shape]
  · cases h; simp [constant, Valid, Operands.shape, Opcode.shape]
  · obtain ⟨a, -, rfl⟩ := Option.map_eq_some_iff.1 h
    simp [Valid, Operands.shape, Opcode.shape]
  · split at h
    · obtain ⟨a, -, rfl⟩ := Option.map_eq_some_iff.1 h
      simp [Valid, Operands.shape, Opcode.shape]
    · cases h

theorem valid_expandMovmr {ops : List Operand} {program : List Instruction} (h : expandMovmr ops = some program) :
    ∀ i ∈ program, i.Valid := by
  unfold expandMovmr at h
  split at h
  · obtain ⟨target, -, rfl⟩ := Option.map_eq_some_iff.1 h
    refine List.forall_mem_append.2 ⟨valid_load target, ?_⟩
    simp [Valid, Operands.shape, Opcode.shape]
  · cases h

theorem valid_expandMovrm {ops : List Operand} {program : List Instruction} (h : expandMovrm ops = some program) :
    ∀ i ∈ program, i.Valid := by
  simp only [expandMovrm, Option.bind_eq_bind, Option.bind_eq_some_iff] at h
  obtain ⟨last, -, s, -, h⟩ := h
  split at h
  · cases h
  · obtain ⟨target, -, h⟩ := Option.bind_eq_some_iff.1 h
    cases h
    refine List.forall_mem_append.2 ⟨valid_load target, ?_⟩
    simp [Valid, Operands.shape, Opcode.shape]

/-- **Expansions are valid.** Every operation has operands of its own shape. -/
theorem valid_of_expand {m : Mnemonic} {ops : List Operand} {returnAddress : UInt16} {program : List Instruction}
    (h : m.expand ops returnAddress = some program) : ∀ i ∈ program, i.Valid := by
  cases m with
  | primitive op =>
    obtain ⟨o, ho, rfl⟩ := Option.map_eq_some_iff.1 h
    exact List.forall_mem_singleton.2 (shape_of_operands? ho)
  | compound c =>
    cases c with
    | jmp =>
      obtain ⟨target, -, rfl⟩ := Option.map_eq_some_iff.1 h
      exact valid_jumpTo target
    | call =>
      obtain ⟨target, -, rfl⟩ := Option.map_eq_some_iff.1 h
      exact List.forall_mem_cons.2 ⟨rfl, List.forall_mem_cons.2 ⟨rfl, valid_jumpTo target⟩⟩
    | jc | jnc =>
      obtain ⟨target, -, rfl⟩ := Option.map_eq_some_iff.1 h
      cases target <;> simp [Target.load, move, onSource, jump, Valid, Operands.shape, Opcode.shape]
    | not | inc | dec =>
      obtain ⟨r, -, rfl⟩ := Option.map_eq_some_iff.1 h
      simp [onSource, Valid, Operands.shape, Opcode.shape]
    | nand | gtn | ltn | equ =>
      obtain ⟨p, -, rfl⟩ := Option.map_eq_some_iff.1 h
      simp [onSource, move, Valid, Operands.shape, Opcode.shape]
    | xor | xnor | sub =>
      obtain ⟨p, -, rfl⟩ := Option.map_eq_some_iff.1 h
      refine List.forall_mem_cons.2 ⟨valid_loadH p.2, ?_⟩
      simp [onSource, Valid, Operands.shape, Opcode.shape]
    | stc | ret | nop =>
      obtain ⟨-, h⟩ := Option.ite_none_right_eq_some.1 h
      cases h
      simp [onSource, move, jump, Valid, Operands.shape, Opcode.shape]
    | mov => exact valid_expandMov h
    | movmr => exact valid_expandMovmr h
    | movrm => exact valid_expandMovrm h

/-! ## Lengths -/

/-- Operands of the same forms expand alike, to the same number of bytes. -/
theorem exists_expand_of_forms {m : Mnemonic} {ops ops' : List Operand} {a : UInt16} {program : List Instruction}
    (h : m.expand ops a = some program)
    (hf : (spreadAll ops').map Operand.form = (spreadAll ops).map Operand.form) (b : UInt16) :
    ∃ program', m.expand ops' b = some program' ∧ totalLength program' = totalLength program := by
  have key : forms (m.expand ops' b) = forms (m.expand ops a) := by
    rw [← expand_spreadAll m ops', ← expand_spreadAll m ops, ← forms_expand m (spreadAll ops') b b, hf, forms_expand]
  rw [h] at key
  obtain ⟨program', hp, hq⟩ := Option.map_eq_some_iff.1 key
  exact ⟨program', hp, by rw [← totalLength_map_form program', hq, totalLength_map_form]⟩

/-- No instruction expands to nothing. -/
theorem ne_nil_of_expand {m : Mnemonic} {ops : List Operand} {a : UInt16} {program : List Instruction}
    (h : m.expand ops a = some program) : program ≠ [] := by
  rintro rfl
  cases m with
  | primitive op =>
    obtain ⟨o, -, ho⟩ := Option.map_eq_some_iff.1 h
    cases ho
  | compound c =>
    cases c with
    | jmp | jc | jnc =>
      obtain ⟨target, -, ht⟩ := Option.map_eq_some_iff.1 h
      cases target <;> cases ht
    | call | not | inc | dec | nand | gtn | ltn | equ | xor | xnor | sub =>
      obtain ⟨p, -, hp⟩ := Option.map_eq_some_iff.1 h
      cases hp
    | stc | ret | nop =>
      obtain ⟨-, hp⟩ := Option.ite_none_right_eq_some.1 h
      cases hp
    | mov =>
      simp only [Mnemonic.expand, Compound.expand, expandMov] at h
      split at h
      · cases h
      · cases h
      · obtain ⟨p, -, hp⟩ := Option.map_eq_some_iff.1 h
        cases hp
      · split at h
        · obtain ⟨p, -, hp⟩ := Option.map_eq_some_iff.1 h
          cases hp
        · cases h
    | movmr =>
      simp only [Mnemonic.expand, Compound.expand, expandMovmr] at h
      split at h
      · obtain ⟨target, -, ht⟩ := Option.map_eq_some_iff.1 h
        cases target <;> cases ht
      · cases h
    | movrm =>
      simp only [Mnemonic.expand, Compound.expand, expandMovrm, Option.bind_eq_bind, Option.bind_eq_some_iff] at h
      obtain ⟨last, -, s, -, h⟩ := h
      split at h
      · cases h
      · obtain ⟨target, -, h⟩ := Option.bind_eq_some_iff.1 h
        cases target <;> cases h

/-- Only a call looks at the return address. -/
theorem expand_of_not_isCall {m : Mnemonic} (h : m.isCall = false) (ops : List Operand) (a b : UInt16) :
    m.expand ops a = m.expand ops b := by
  cases m with
  | primitive op => rfl
  | compound c => cases c <;> first | rfl | cases h

/-- A call pushes the return address first, high byte before low byte. -/
theorem expand_of_isCall {m : Mnemonic} (h : m.isCall = true) {ops : List Operand} {a : UInt16}
    {program : List Instruction} (hp : m.expand ops a = some program) :
    ∃ jump, program = ⟨.push, .source (.imm (highByte a))⟩ :: ⟨.push, .source (.imm (lowByte a))⟩ :: jump := by
  cases m with
  | primitive op => cases h
  | compound c =>
    obtain rfl : c = .call := by simpa [Mnemonic.isCall] using h
    obtain ⟨target, -, rfl⟩ := Option.map_eq_some_iff.1 hp
    exact ⟨_, rfl⟩

end Octet
