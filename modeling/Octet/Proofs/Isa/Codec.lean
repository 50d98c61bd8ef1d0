import Octet.Isa.Encoding
import Octet.Proofs.Outcomes
/-!
Decoding and encoding as inverses of each other, for one instruction.

* `Instruction.code`: the bytes of an instruction, read off its operands;
* `decode_eq_ok_iff`: some bytes decode to an instruction iff it is valid and its bytes stand in front;
* `encodeAll_of_valid`: a program of valid instructions has machine code, which is `codeOf` it.
-/

namespace Octet

/-! ## Opcode bytes -/

/-- A fact about bytes that holds of the first 256 numbers holds of all bytes. -/
theorem forall_byte {P : UInt8 → Prop} (h : ∀ n : Fin 256, P (UInt8.ofNat n)) (b : UInt8) : P b := by
  have := h ⟨b.toNat, b.toNat_lt⟩
  rwa [UInt8.ofNat_toNat] at this

theorem eq_number_of_plain {b : UInt8} (h : b &&& 0xF0 = 0) : b = (Opcode.ofByte b).number :=
  forall_byte (P := fun b => b &&& 0xF0 = 0 → b = (Opcode.ofByte b).number) (by decide +kernel) b h

theorem eq_number_of_marked {b : UInt8} (h : b &&& 0x70 = 0) :
    b = if b &&& immediateBit ≠ 0 then (Opcode.ofByte b).number ||| immediateBit
      else (Opcode.ofByte b).number :=
  forall_byte (P := fun b => b &&& 0x70 = 0 → b = if b &&& immediateBit ≠ 0 then
    (Opcode.ofByte b).number ||| immediateBit else (Opcode.ofByte b).number) (by decide +kernel) b h

theorem eq_number_of_packed {b : UInt8} (h : b &&& 0x80 = 0) :
    b = (Opcode.ofByte b).number ||| ((b >>> 4) <<< 4) :=
  forall_byte (P := fun b => b &&& 0x80 = 0 → b = (Opcode.ofByte b).number ||| ((b >>> 4) <<< 4))
    (by decide +kernel) b h

theorem Register.ofCode_eq_ok_iff {code : UInt8} {r : Register} :
    Register.ofCode code = .ok r ↔ code = r.code := by
  unfold Register.ofCode
  constructor
  · intro h
    split at h
    · rename_i r' hr
      cases h
      exact (code_ofCode? hr).symm
    · cases h
  · rintro rfl
    simp

/-! ## Operands -/

namespace Source

theorem mark_and_immediateBit (s : Source) (op : Opcode) :
    s.mark op &&& immediateBit ≠ 0 ↔ s.isImmediate = true := by
  cases s <;> cases op <;> simp [mark, isImmediate] <;> decide

/-- An opcode byte without stray bits is the one that marks its source operand. -/
theorem mark_eq {first : UInt8} {s : Source}
    (hf : first = if first &&& immediateBit ≠ 0 then (Opcode.ofByte first).number ||| immediateBit
      else (Opcode.ofByte first).number)
    (hi : first &&& immediateBit ≠ 0 ↔ s.isImmediate = true) : s.mark (Opcode.ofByte first) = first := by
  conv_rhs => rw [hf]
  simp only [mark, hi]

theorem decode_eq_ok_iff {first byte : UInt8} {s : Source} :
    decode first byte = .ok s ↔ byte = s.byte ∧ (first &&& immediateBit ≠ 0 ↔ s.isImmediate = true) := by
  unfold decode
  by_cases hf : first &&& immediateBit ≠ 0
  · cases s <;> simp [hf, Source.byte, isImmediate]
  · cases hr : Register.ofCode byte with
    | error fault =>
      cases s with
      | reg r => simp [hf, Source.byte, isImmediate, ← Register.ofCode_eq_ok_iff, hr]
      | imm v => simp [hf, isImmediate]
    | ok r' =>
      cases s with
      | reg r => simp [hf, Source.byte, isImmediate, ← Register.ofCode_eq_ok_iff, hr]
      | imm v => simp [hf, isImmediate]

end Source

namespace Opcode

/-- The number of an operation leaves the upper half of the byte free. -/
theorem number_and (op : Opcode) : op.number &&& 0xF0 = 0 := by cases op <;> decide

theorem ofByte_mark (op : Opcode) (s : Source) : ofByte (s.mark op) = op := by
  cases s <;> simp only [Source.mark, Source.isImmediate, if_true, Bool.false_eq_true, if_false] <;>
    cases op <;> decide

theorem mark_and (op : Opcode) (s : Source) : s.mark op &&& 0x70 = 0 := by
  cases s <;> simp only [Source.mark, Source.isImmediate, if_true, Bool.false_eq_true, if_false] <;>
    cases op <;> decide

theorem ofByte_packed (op : Opcode) (r : Register) : ofByte (op.number ||| (r.code <<< 4)) = op := by
  cases op <;> cases r <;> decide

theorem packed_and (op : Opcode) (r : Register) : (op.number ||| (r.code <<< 4)) &&& 0x80 = 0 := by
  cases op <;> cases r <;> decide

theorem shiftRight_packed (op : Opcode) (r : Register) :
    (op.number ||| (r.code <<< 4)) >>> 4 = r.code := by
  cases op <;> cases r <;> decide

end Opcode

namespace Operands

theorem eq_of_pair {a b x y : UInt8} (h : [a, b] = [x, y]) : a = x ∧ b = y := by simpa using h

theorem eq_of_triple {a b c x y z : UInt8} (h : [a, b, c] = [x, y, z]) : a = x ∧ b = y ∧ c = z := by simpa using h

/-- What is decoded from an opcode byte without stray bits has the bytes that were read. -/
theorem bytes_of_decode {first x y : UInt8} {shape : Shape} {o : Operands} (hs : first &&& shape.strayBits = 0)
    (h : decode first x y shape = .ok o) :
    o.shape = shape ∧ o.bytes (Opcode.ofByte first) = [first, x, y].take shape.length := by
  cases shape with
  | reg =>
    simp only [decode, Except.map_eq_ok, Register.ofCode_eq_ok_iff] at h
    obtain ⟨r, rfl, rfl⟩ := h
    exact ⟨rfl, by rw [bytes, ← eq_number_of_plain hs]; rfl⟩
  | source =>
    simp only [decode, Except.map_eq_ok, Source.decode_eq_ok_iff] at h
    obtain ⟨s, ⟨rfl, hi⟩, rfl⟩ := h
    exact ⟨rfl, by rw [bytes, Source.mark_eq (eq_number_of_marked hs) hi]; rfl⟩
  | address =>
    cases h
    exact ⟨rfl, by rw [bytes, ← eq_number_of_plain hs]; rfl⟩
  | regImm =>
    simp only [decode, Except.bind_eq_ok, Register.ofCode_eq_ok_iff] at h
    obtain ⟨r, rfl, h⟩ := h
    cases h
    exact ⟨rfl, by rw [bytes, ← eq_number_of_plain hs]; rfl⟩
  | regSource =>
    simp only [decode, Except.bind_eq_ok, Register.ofCode_eq_ok_iff, Source.decode_eq_ok_iff] at h
    obtain ⟨r, rfl, s, ⟨rfl, hi⟩, h⟩ := h
    cases h
    exact ⟨rfl, by rw [bytes, Source.mark_eq (eq_number_of_marked hs) hi]; rfl⟩
  | regReg =>
    simp only [decode, Except.bind_eq_ok, Register.ofCode_eq_ok_iff] at h
    obtain ⟨dest, rfl, src, rfl, h⟩ := h
    cases h
    exact ⟨rfl, by rw [bytes, ← eq_number_of_plain hs]; rfl⟩
  | packedReg =>
    simp only [decode, Except.bind_eq_ok, Register.ofCode_eq_ok_iff] at h
    obtain ⟨r, hr, h⟩ := h
    cases h
    exact ⟨rfl, by rw [bytes, ← hr, ← eq_number_of_packed hs]; rfl⟩

/-- Operands are decoded from their bytes. -/
theorem decode_of_bytes {op : Opcode} {first x y : UInt8} {o : Operands}
    (h : o.bytes op = [first, x, y].take o.shape.length) : decode first x y o.shape = .ok o := by
  have hcode (r : Register) : Register.ofCode r.code = .ok r := Register.ofCode_eq_ok_iff.2 rfl
  have hsource (s : Source) : Source.decode (s.mark op) s.byte = .ok s :=
    Source.decode_eq_ok_iff.2 ⟨rfl, Source.mark_and_immediateBit s op⟩
  cases o with
  | reg r =>
    obtain ⟨-, rfl⟩ := eq_of_pair h
    rw [shape, decode, hcode]
    rfl
  | source s =>
    obtain ⟨rfl, rfl⟩ := eq_of_pair h
    rw [shape, decode, hsource]
    rfl
  | address hi lo =>
    obtain ⟨-, rfl, rfl⟩ := eq_of_triple h
    rfl
  | regImm r v =>
    obtain ⟨-, rfl, rfl⟩ := eq_of_triple h
    rw [shape, decode, hcode]
    rfl
  | regSource r s =>
    obtain ⟨rfl, rfl, rfl⟩ := eq_of_triple h
    rw [shape, decode, hcode, hsource]
    rfl
  | regReg dest src =>
    obtain ⟨-, rfl, rfl⟩ := eq_of_triple h
    rw [shape, decode, hcode, hcode]
    rfl
  | packedReg r hi lo =>
    obtain ⟨rfl, rfl, rfl⟩ := eq_of_triple h
    rw [shape, decode, Opcode.shiftRight_packed, hcode]
    rfl

/-- Without stray bits in the opcode byte, operands are decoded iff they are of the shape and the bytes are theirs. -/
theorem decode_eq_ok_iff {first x y : UInt8} {shape : Shape} {o : Operands}
    (hs : first &&& shape.strayBits = 0) :
    decode first x y shape = .ok o ↔
      o.shape = shape ∧ o.bytes (Opcode.ofByte first) = [first, x, y].take shape.length := by
  constructor
  · exact bytes_of_decode hs
  · rintro ⟨rfl, h⟩
    exact decode_of_bytes h

end Operands

/-! ## Instructions -/

namespace Instruction

/-- The bytes that the operands say, opcode byte first; the machine code of a valid instruction. -/
def code (i : Instruction) : List UInt8 := i.operands.bytes i.op

theorem encode_eq_ok_iff {i : Instruction} {bytes : List UInt8} :
    i.encode = .ok bytes ↔ i.Valid ∧ bytes = i.code := by
  unfold encode
  split
  · rename_i hv
    simp [hv, code, eq_comm]
  · rename_i hv
    simp [hv]

theorem length_code {i : Instruction} (hv : i.Valid) : i.code.length = i.length :=
  length_encode (encode_eq_ok_iff.2 ⟨hv, rfl⟩)

/-- The machine code starts with an opcode byte of the operation that has no stray bits. -/
theorem exists_code_eq_cons {i : Instruction} (hv : i.Valid) :
    ∃ first rest, i.code = first :: rest ∧ Opcode.ofByte first = i.op ∧ first &&& i.op.shape.strayBits = 0 := by
  obtain ⟨op, o⟩ := i
  simp only [Valid] at hv
  rw [← hv]
  cases o with
  | reg r => exact ⟨_, _, rfl, op.ofByte_number, op.number_and⟩
  | source s => exact ⟨_, _, rfl, op.ofByte_mark s, op.mark_and s⟩
  | address hi lo => exact ⟨_, _, rfl, op.ofByte_number, op.number_and⟩
  | regImm r v => exact ⟨_, _, rfl, op.ofByte_number, op.number_and⟩
  | regSource r s => exact ⟨_, _, rfl, op.ofByte_mark s, op.mark_and s⟩
  | regReg dest src => exact ⟨_, _, rfl, op.ofByte_number, op.number_and⟩
  | packedReg r hi lo => exact ⟨_, _, rfl, op.ofByte_packed r, op.packed_and r⟩

/-- The decoder looks at no byte behind the instruction. -/
theorem take_getD_eq {first : UInt8} {rest : List UInt8} (s : Shape) (h : s.length ≤ rest.length + 1) :
    [first, rest.getD 0 0, rest.getD 1 0].take s.length = (first :: rest).take s.length := by
  rcases rest with _ | ⟨x, _ | ⟨y, rest⟩⟩ <;> cases s <;>
    simp [Shape.length, Shape.hasSecondByte] at h ⊢

/-- **Decoding is the inverse of encoding.** Some bytes decode to an instruction iff the instruction is valid and its
machine code stands in front of the bytes. -/
theorem decode_eq_ok_iff {bytes : List UInt8} {i : Instruction} :
    decode bytes = .ok i ↔ i.Valid ∧ i.code <+: bytes := by
  constructor
  · intro h
    cases bytes with
    | nil => simp [decode] at h
    | cons first rest =>
      simp only [decode] at h
      split at h
      · cases h
      · rename_i hlen
        split at h
        · cases h
        · rename_i hs
          obtain ⟨o, ho, hi⟩ := Except.bind_eq_ok.1 h
          cases hi
          obtain ⟨hshape, hb⟩ := (Operands.decode_eq_ok_iff (not_not.1 hs)).1 ho
          refine ⟨hshape, ?_⟩
          rw [code, hb, take_getD_eq _ (Nat.le_of_not_lt hlen)]
          exact List.take_prefix _ _
  · rintro ⟨hv, hp⟩
    obtain ⟨first, tail, hcode, hop, hs⟩ := exists_code_eq_cons hv
    obtain ⟨rest, rfl⟩ := hp
    have hlen := length_code hv
    rw [hcode] at hlen
    rw [hcode, List.cons_append]
    have hle : ¬ (first :: (tail ++ rest)).length < i.op.shape.length := by
      rw [length] at hlen
      simp only [List.length_cons, List.length_append] at hlen ⊢
      omega
    have ho : Operands.decode first ((tail ++ rest).getD 0 0) ((tail ++ rest).getD 1 0) i.op.shape = .ok i.operands := by
      refine (Operands.decode_eq_ok_iff hs).2 ⟨hv, ?_⟩
      rw [take_getD_eq _ (Nat.le_of_not_lt hle), hop, ← List.cons_append, ← hcode]
      rw [← hcode, length] at hlen
      rw [← hlen, List.take_left, code]
    simp only [decode, hop, hle, hs, ho, if_false, ne_eq, not_true_eq_false]
    rfl

theorem decode_code_append {i : Instruction} (hv : i.Valid) (rest : List UInt8) :
    decode (i.code ++ rest) = .ok i :=
  decode_eq_ok_iff.2 ⟨hv, rest, rfl⟩

/-! ## Programs -/

/-- The machine code of a program, if all its instructions have one. -/
def encodeAll (program : List Instruction) : Except CodeFault (List UInt8) :=
  List.flatten <$> program.mapM encode

/-- The bytes of a program, one instruction after the other. -/
def codeOf (program : List Instruction) : List UInt8 := program.flatMap code

@[simp] theorem codeOf_nil : codeOf [] = [] := rfl

@[simp] theorem codeOf_cons (i : Instruction) (program : List Instruction) :
    codeOf (i :: program) = i.code ++ codeOf program := rfl

@[simp] theorem codeOf_append (p q : List Instruction) : codeOf (p ++ q) = codeOf p ++ codeOf q :=
  List.flatMap_append

@[simp] theorem totalLength_nil : totalLength [] = 0 := rfl

@[simp] theorem totalLength_cons (i : Instruction) (program : List Instruction) :
    totalLength (i :: program) = i.length + totalLength program := rfl

theorem totalLength_pos {program : List Instruction} (h : program ≠ []) : 0 < totalLength program := by
  cases program with
  | nil => exact absurd rfl h
  | cons i program => exact Nat.add_pos_left i.length_pos _

@[simp] theorem totalLength_append (p q : List Instruction) :
    totalLength (p ++ q) = totalLength p + totalLength q := by
  induction p with
  | nil => exact (Nat.zero_add _).symm
  | cons i p ih => rw [List.cons_append, totalLength_cons, totalLength_cons, ih, Nat.add_assoc]

theorem totalLength_flatten (programs : List (List Instruction)) :
    totalLength programs.flatten = (programs.map totalLength).sum := by
  induction programs with
  | nil => rfl
  | cons p programs ih => rw [List.flatten_cons, totalLength_append, ih, List.map_cons, List.sum_cons]

theorem codeOf_flatten (programs : List (List Instruction)) :
    codeOf programs.flatten = (programs.map codeOf).flatten := by
  induction programs with
  | nil => rfl
  | cons p programs ih => rw [List.flatten_cons, codeOf_append, ih, List.map_cons, List.flatten_cons]

theorem length_codeOf {program : List Instruction} (hv : ∀ i ∈ program, i.Valid) :
    (codeOf program).length = totalLength program := by
  induction program with
  | nil => rfl
  | cons i program ih =>
    rw [codeOf_cons, List.length_append, length_code (hv i (by simp)), totalLength_cons,
      ih fun j hj => hv j (by simp [hj])]

theorem encodeAll_of_valid {program : List Instruction} (hv : ∀ i ∈ program, i.Valid) :
    encodeAll program = .ok (codeOf program) := by
  have hm : program.mapM encode = .ok (program.map code) := by
    induction program with
    | nil => rfl
    | cons i program ih =>
      rw [List.mapM_cons, encode_eq_ok_iff.2 ⟨hv i (by simp), rfl⟩, ih fun j hj => hv j (by simp [hj])]
      rfl
  rw [encodeAll, hm]
  exact congrArg Except.ok List.flatMap_def.symm

end Instruction

end Octet
