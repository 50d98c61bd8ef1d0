import Octet.Isa.Disassembly
import Octet.Proofs.Isa.Codec
/-!
Machine code as a listing, and a listing as machine code.

* `addressed`: the instructions of a program, each with its address;
* `disassemble_codeOf_append`: a program is listed as it is, and what follows it is listed behind it;
* `exists_program_prefix`: any bytes are the code of a program and then bytes that start with no instruction.
-/

namespace Octet

open Instruction

variable {origin : UInt16}

/-- The instructions of a program with their addresses: the origin, and the length of the machine code before each.
Addresses wrap at the end of memory. -/
def addressed (origin : UInt16) (program : List Instruction) : List (UInt16 × Instruction) :=
  program.mapIdx fun k i => (origin + UInt16.ofNat (codeOf (program.take k)).length, i)

@[simp] theorem addressed_nil (origin : UInt16) : addressed origin [] = [] := rfl

theorem addressed_cons (origin : UInt16) (i : Instruction) (program : List Instruction) :
    addressed origin (i :: program) = (origin, i) :: addressed (origin + UInt16.ofNat i.code.length) program := by
  simp [addressed, List.mapIdx_cons, UInt16.add_assoc]

theorem map_snd_addressed (origin : UInt16) (program : List Instruction) :
    (addressed origin program).map (·.2) = program := by
  induction program generalizing origin with
  | nil => rfl
  | cons i program ih => rw [addressed_cons, List.map_cons, ih]

/-! ## One instruction -/

theorem disassemble_of_error {bytes : List UInt8} {fault : CodeFault} (h : decode bytes = .error fault) :
    disassemble origin bytes = ⟨[], 0⟩ := by
  rw [disassemble]
  split
  · rfl
  · rename_i i hi
    rw [h] at hi
    cases hi

theorem disassemble_of_ok {bytes : List UInt8} {i : Instruction} (h : decode bytes = .ok i) :
    disassemble origin bytes =
      let rest := disassemble (origin + UInt16.ofNat i.length) (bytes.drop i.length)
      ⟨(origin, i) :: rest.entries, i.length + rest.decoded⟩ := by
  rw [disassemble]
  split
  · rename_i fault hf
    rw [h] at hf
    cases hf
  · rename_i j hj
    rw [h] at hj
    cases hj
    rfl

theorem disassemble_code_append {i : Instruction} (hv : i.Valid) (rest : List UInt8) :
    disassemble origin (i.code ++ rest) =
      let tail := disassemble (origin + UInt16.ofNat i.code.length) rest
      ⟨(origin, i) :: tail.entries, i.code.length + tail.decoded⟩ := by
  rw [disassemble_of_ok (decode_code_append hv rest), ← length_code hv, List.drop_left]

/-! ## Programs -/

/-- **A program is listed as it is**, and what follows it is listed behind it. -/
theorem disassemble_codeOf_append {program : List Instruction} (hv : ∀ i ∈ program, i.Valid) (rest : List UInt8) :
    disassemble origin (codeOf program ++ rest) =
      let tail := disassemble (origin + UInt16.ofNat (codeOf program).length) rest
      ⟨addressed origin program ++ tail.entries, (codeOf program).length + tail.decoded⟩ := by
  induction program generalizing origin with
  | nil => simp
  | cons i program ih =>
    obtain ⟨hi, hrest⟩ := List.forall_mem_cons.1 hv
    rw [codeOf_cons, List.append_assoc, disassemble_code_append hi, ih hrest, addressed_cons]
    simp only [List.length_append, UInt16.ofNat_add, UInt16.add_assoc, List.cons_append, Nat.add_assoc]

/-- Any bytes are the code of a program, and then bytes that start with no instruction. -/
theorem exists_program_prefix (bytes : List UInt8) : ∃ program rest, (∀ i ∈ program, i.Valid) ∧
    bytes = codeOf program ++ rest ∧ ∃ fault, decode rest = .error fault := by
  -- on the number of bytes: an instruction in front takes at least one of them
  induction hn : bytes.length using Nat.strong_induction_on generalizing bytes with
  | _ n ih =>
    cases hd : decode bytes with
    | error fault => exact ⟨[], bytes, List.forall_mem_nil _, rfl, fault, hd⟩
    | ok i =>
      obtain ⟨hv, tail, rfl⟩ := decode_eq_ok_iff.1 hd
      have hlt : tail.length < n := by
        have hpos := i.length_pos
        rw [← hn, List.length_append, length_code hv]
        omega
      obtain ⟨program, rest, hprogram, rfl, hrest⟩ := ih tail.length hlt tail rfl
      exact ⟨i :: program, rest, List.forall_mem_cons.2 ⟨hv, hprogram⟩, (List.append_assoc ..).symm, hrest⟩

/-- The listing of the code of a program with bytes behind it that start with no instruction. -/
theorem disassemble_codeOf_of_error {program : List Instruction} {rest : List UInt8} (hv : ∀ i ∈ program, i.Valid)
    {fault : CodeFault} (h : decode rest = .error fault) :
    disassemble origin (codeOf program ++ rest) = ⟨addressed origin program, (codeOf program).length⟩ := by
  rw [disassemble_codeOf_append hv, disassemble_of_error h]
  simp

/-- **A listing is the program at the front of the bytes.** Its machine code is what was decoded; behind it there are
no bytes, or bytes that start with no instruction. -/
theorem encodeAll_disassemble (origin : UInt16) (bytes : List UInt8) :
    let listing := disassemble origin bytes
    let program := listing.entries.map (·.2)
    encodeAll program = .ok (bytes.take listing.decoded) ∧ listing.entries = addressed origin program ∧
      listing.decoded ≤ bytes.length ∧
      (bytes.drop listing.decoded = [] ∨ ∃ fault, decode (bytes.drop listing.decoded) = .error fault) := by
  obtain ⟨program, rest, hv, rfl, fault, hrest⟩ := exists_program_prefix bytes
  simp only [disassemble_codeOf_of_error hv hrest, map_snd_addressed, List.take_left, List.drop_left, List.length_append]
  exact ⟨encodeAll_of_valid hv, trivial, Nat.le_add_right .., .inr ⟨fault, hrest⟩⟩

/-! ## Bytes of one instruction -/

/-- Bytes that decode to the same instruction agree as far as the instruction goes. -/
theorem take_eq_of_decode {bytes bytes' : List UInt8} {i : Instruction} (h : decode bytes = .ok i)
    (h' : decode bytes' = .ok i) : bytes.take i.length = bytes'.take i.length := by
  obtain ⟨hv, hp⟩ := decode_eq_ok_iff.1 h
  obtain ⟨-, hp'⟩ := decode_eq_ok_iff.1 h'
  rw [← length_code hv, ← List.prefix_iff_eq_take.1 hp, ← List.prefix_iff_eq_take.1 hp']

/-- The code of an instruction starts with the code of no other one. -/
theorem eq_of_code_prefix {i j : Instruction} (hi : i.Valid) (hj : j.Valid) (h : i.code <+: j.code) : i = j := by
  have hdecode : decode j.code = .ok i := decode_eq_ok_iff.2 ⟨hi, h⟩
  have hself : decode j.code = .ok j := decode_eq_ok_iff.2 ⟨hj, List.prefix_rfl⟩
  exact Except.ok.inj (hdecode.symm.trans hself)

/-- **Disassembling and encoding are inverse to each other.** The machine code of a program, with any bytes behind it,
is listed as the program, each instruction at the origin plus the length of the code before it, and then as those
bytes by themselves. The instructions that are listed for any bytes have the bytes before the tail for machine code,
and the tail starts with no instruction. So an instruction is decoded from one string of its length only, and no
machine code of an instruction is a proper prefix of that of another. -/
theorem disassemble_inverse (origin : UInt16) :
    (∀ program : List Instruction, (∀ i ∈ program, i.Valid) → ∃ code, encodeAll program = .ok code ∧
      ∀ rest, disassemble origin (code ++ rest) =
        let tail := disassemble (origin + UInt16.ofNat code.length) rest
        ⟨addressed origin program ++ tail.entries, code.length + tail.decoded⟩) ∧
    (∀ bytes,
      let listing := disassemble origin bytes
      let program := listing.entries.map (·.2)
      encodeAll program = .ok (bytes.take listing.decoded) ∧ listing.entries = addressed origin program ∧
        listing.decoded ≤ bytes.length ∧
        (bytes.drop listing.decoded = [] ∨ ∃ fault, decode (bytes.drop listing.decoded) = .error fault)) ∧
    (∀ bytes bytes' i, decode bytes = .ok i → decode bytes' = .ok i →
      bytes.take i.length = bytes'.take i.length ∧
        (bytes.length = i.length → bytes'.length = i.length → bytes = bytes')) ∧
    (∀ i j code code', encode i = .ok code → encode j = .ok code' → code <+: code' → code = code' ∧ i = j) := by
  refine ⟨fun program hv => ?_, fun bytes => ?_, fun bytes bytes' i h h' => ?_, fun i j code code' hi hj h => ?_⟩
  · exact ⟨codeOf program, encodeAll_of_valid hv, disassemble_codeOf_append hv⟩
  · exact encodeAll_disassemble origin bytes
  · have htake := take_eq_of_decode h h'
    refine ⟨htake, fun hl hl' => ?_⟩
    rwa [← hl, List.take_length, hl, ← hl', List.take_length] at htake
  · obtain ⟨hv, rfl⟩ := encode_eq_ok_iff.1 hi
    obtain ⟨hw, rfl⟩ := encode_eq_ok_iff.1 hj
    obtain rfl := eq_of_code_prefix hv hw h
    exact ⟨rfl, rfl⟩

/-- Loads a zero, and jumps. -/
def loadAndJump : List Instruction := [⟨.lc, .regImm .b 0⟩, ⟨.jnz, .source (.imm 1)⟩]

/-- The addresses wrap at the end of memory, and the listing stops at a text. -/
theorem disassemble_inverse_wrapping :
    (∀ i ∈ loadAndJump, i.Valid) ∧
      disassemble 0xFFFE ([0x03, 0x00, 0x00, 0x88, 0x01] ++ [0x48, 0x69, 0x00]) =
        ⟨[(0xFFFE, ⟨.lc, .regImm .b 0⟩), (0x0001, ⟨.jnz, .source (.imm 1)⟩)], 5⟩ ∧
      decode [0x00, 0x00, 0x01] = .ok ⟨.lw, .reg .b⟩ ∧ decode [0x00, 0x00, 0x02] = .ok ⟨.lw, .reg .b⟩ ∧
      ([0x00, 0x00, 0x01] : List UInt8).take 2 = ([0x00, 0x00, 0x02] : List UInt8).take 2 ∧
      encode ⟨.lw, .reg .b⟩ = .ok [0x00, 0x00] ∧ ([0x00, 0x00] : List UInt8) = [0x00, 0x00] := by
  obtain ⟨hlist, -, hdecode, hencode⟩ := disassemble_inverse 0xFFFE
  have hvalid : ∀ i ∈ loadAndJump, i.Valid := by decide
  obtain ⟨code, hcode, hlisted⟩ := hlist loadAndJump hvalid
  have hcodeOf : codeOf loadAndJump = [0x03, 0x00, 0x00, 0x88, 0x01] := by decide
  rw [encodeAll_of_valid hvalid, hcodeOf] at hcode
  obtain rfl := Except.ok.inj hcode
  have htail : decode [0x48, 0x69, 0x00] = .error (.invalidOpcode 0x48) := rfl
  have hcopy : encode ⟨.lw, .reg .b⟩ = .ok [0x00, 0x00] := encode_eq_ok_iff.2 ⟨rfl, rfl⟩
  refine ⟨hvalid, ?_, rfl, rfl, (hdecode _ _ ⟨.lw, .reg .b⟩ rfl rfl).1, hcopy,
    (hencode _ _ _ _ hcopy hcopy List.prefix_rfl).1⟩
  rw [hlisted, disassemble_of_error htail]
  decide

end Octet
