import Octet.Assembler.Mnemonic
import Octet.Assembler.Resolution
import Octet.Proofs.Assembler.Collection
import Octet.Proofs.Assembler.Forms
/-!
Symbols before and after their addresses are known.

* `Symbols.Alike`: tables with the same constants and with the same names of procedures and data;
* `Symbols.Similar`: the same, with the constants in any order;
* `Similar.map_form_operands`: tables that are similar give a token operands of the same forms;
* `Line.measure_of_alike`: tables that are alike give a line the same size;
* `Line.exists_operations_of_measure`: once every procedure has its address, a line that can be measured is resolved
  and expanded, to as many bytes as were measured.
-/

namespace Octet

/-! ## Tokens that stand for bytes -/

/-- A byte is read back from its token. -/
theorem parseOperand_byteToken (v : UInt8) : parseOperand (byteToken v) = some (.byte v) :=
  forall_byte (P := fun v => parseOperand (byteToken v) = some (.byte v)) (by decide +kernel) v

/-- No instruction has the name of a byte. -/
theorem ofName?_byteToken (v : UInt8) : Mnemonic.ofName? (byteToken v) = none :=
  forall_byte (P := fun v => Mnemonic.ofName? (byteToken v) = none) (by decide +kernel) v

/-- A compound is found by its own name. -/
theorem Mnemonic.eq_name_of_compound {name : String} {c : Compound} (h : ofName? name = some (.compound c)) :
    name = c.name := by
  unfold ofName? at h
  cases hp : Opcode.ofName? name with
  | some op => rw [hp] at h; cases h
  | none =>
    rw [hp] at h
    obtain ⟨c', hc, he⟩ :=
      Option.map_eq_some_iff.1 (show (Compound.all.find? _).map compound = some (.compound c) from h)
    obtain rfl : c' = c := by simpa using he
    simpa [eq_comm] using List.find?_some hc

/-- Only `CALL` is a call. -/
theorem Mnemonic.isCall_iff {name : String} {m : Mnemonic} (h : ofName? name = some m) :
    m.isCall = true ↔ name = "CALL" := by
  constructor
  · intro hc
    obtain rfl : m = .compound .call := by simpa [isCall] using hc
    exact eq_name_of_compound h
  · rintro rfl
    have hcall : ofName? "CALL" = some (.compound .call) := by decide
    rw [hcall] at h
    cases h
    rfl

namespace Symbols

theorem literal_byteToken (v : UInt8) : literal (byteToken v) = .ok (.byte v) := by
  rw [literal, parseOperand_byteToken]

/-! ## Tables that are alike -/

/-- Tables with the same constants and with the same names of procedures and of data. -/
structure Alike (s s' : Symbols) : Prop where
  constants : s.constants = s'.constants
  procedures : ∀ name, (s.procedure? name).isSome = (s'.procedure? name).isSome
  data : ∀ name, (s.datum? name).isSome = (s'.datum? name).isSome

/-- Tables in which the constants have the same texts, in whatever order, and with the same names of procedures and of
data. -/
structure Similar (s s' : Symbols) : Prop where
  constants : ∀ name, s.constant? name = s'.constant? name
  procedures : ∀ name, (s.procedure? name).isSome = (s'.procedure? name).isSome
  data : ∀ name, (s.datum? name).isSome = (s'.datum? name).isSome

variable {s s' : Symbols}

theorem Alike.similar (h : s.Alike s') : s.Similar s' :=
  ⟨fun _ => by rw [constant?, constant?, h.constants], h.procedures, h.data⟩

/-- The forms of the operands that a reference stands for. -/
def refForms : SymbolRef → Except Fault (List Operand)
  | .procedure _ => .ok [.word 0]
  | .dataHigh _ => .ok [.byte 0]
  | .dataLow _ => .ok [.byte 0]
  | .constant text => (List.map Operand.form) <$> constantOperands text

theorem map_const_eq {α β γ : Type} {x : Option α} {y : Option β} (h : x.isSome = y.isSome) (c : γ) :
    x.map (fun _ => c) = y.map fun _ => c := by
  cases x <;> cases y <;> first | rfl | cases h

/-- What a token stands for is of one kind in tables that are similar. -/
theorem Similar.lookup (h : s.Similar s') (token : String) :
    (s.lookup token).map refForms = (s'.lookup token).map refForms := by
  have hdata (letter : Char) (forms : Except Fault (List Operand)) :
      (nameBefore? token letter).bind (fun name => (s.datum? name).map fun _ => forms) =
        (nameBefore? token letter).bind fun name => (s'.datum? name).map fun _ => forms :=
    congrArg _ (funext fun name => map_const_eq (h.data name) forms)
  simp only [Symbols.lookup, Option.orElse_eq_orElse, Option.orElse_eq_or, Option.map_or, Option.map_bind,
    Option.map_map, Function.comp_def, refForms, h.constants]
  rw [map_const_eq (h.procedures token), hdata, hdata]

/-- The forms of the operands of a token, by what it stands for. -/
theorem map_form_operands (s : Symbols) (token : String) :
    (List.map Operand.form) <$> s.operands token =
      ((s.lookup token).map refForms).getD ((List.map Operand.form) <$> do return [← literal token]) := by
  unfold operands
  split <;> rename_i h <;> rw [h] <;> rfl

/-- **Forms come before addresses.** Tables that are similar give a token operands of the same forms. -/
theorem Similar.map_form_operands (h : s.Similar s') (token : String) :
    (List.map Operand.form) <$> s.operands token = (List.map Operand.form) <$> s'.operands token := by
  rw [Symbols.map_form_operands, Symbols.map_form_operands, h.lookup]

/-! ## Replacing tokens -/

/-- The tables know the address of every procedure. -/
def Bound (s : Symbols) : Prop := ∀ name, s.procedure? name ≠ some none

theorem mapM_literal_pair (v w : UInt8) :
    [byteToken v, byteToken w].mapM literal = .ok [.byte v, .byte w] := by
  rw [List.mapM_cons, literal_byteToken, List.mapM_cons, literal_byteToken]
  rfl

theorem mapM_literal_singleton (token : String) : [token].mapM literal = do return [← literal token] := by
  rw [List.mapM_cons]
  cases literal token <;> rfl

/-- The tokens that replace a token are read as the operands that it stands for, with words as two bytes. -/
theorem Bound.exists_substitute (hb : s.Bound) {token : String} {ops : List Operand}
    (h : s.operands token = .ok ops) :
    ∃ tokens ops', s.substitute token = .ok tokens ∧ tokens.mapM literal = .ok ops' ∧
      spreadAll ops' = spreadAll ops := by
  unfold operands at h
  unfold substitute
  split at h <;> rename_i hl <;> rw [hl]
  · rename_i address
    cases h
    cases address with
    | none => exact absurd (procedure?_of_lookup hl) (hb token)
    | some address => exact ⟨_, _, rfl, mapM_literal_pair _ _, rfl⟩
  · cases h
    exact ⟨_, _, rfl, by rw [mapM_literal_singleton, literal_byteToken]; rfl, rfl⟩
  · cases h
    exact ⟨_, _, rfl, by rw [mapM_literal_singleton, literal_byteToken]; rfl, rfl⟩
  · exact ⟨_, _, by simp only [h]; rfl, h, rfl⟩
  · obtain ⟨op, hop, h⟩ := Except.bind_eq_ok.1 h
    cases h
    exact ⟨_, _, by simp only [hop]; rfl, by rw [mapM_literal_singleton, hop]; rfl, rfl⟩

/-- The same of a list of tokens. -/
theorem Bound.exists_mapM_substitute (hb : s.Bound) {tokens : List String} {ops : List (List Operand)}
    (h : tokens.mapM s.operands = .ok ops) :
    ∃ replaced ops', tokens.mapM s.substitute = .ok replaced ∧ replaced.flatten.mapM literal = .ok ops' ∧
      spreadAll ops' = spreadAll ops.flatten := by
  rw [Except.mapM_eq_ok_iff] at h
  induction h with
  | nil => exact ⟨[], [], rfl, rfl, rfl⟩
  | cons hx _ ih =>
    obtain ⟨ts, os, hs, hl, he⟩ := hb.exists_substitute hx
    obtain ⟨tss, oss, hss, hls, hes⟩ := ih
    refine ⟨ts :: tss, os ++ oss, by rw [List.mapM_cons, hs, hss]; rfl, ?_, ?_⟩
    · rw [List.flatten_cons, List.mapM_append, hl, hls]; rfl
    · rw [List.flatten_cons, spreadAll_append, spreadAll_append, he, hes]

end Symbols

/-! ## Lines -/

open Instruction

namespace Line

theorem mnemonic?_eq_ok_iff {line : Line} {m : Mnemonic} :
    line.mnemonic? = .ok m ↔ Mnemonic.ofName? line.mnemonic = some m := by
  unfold mnemonic?
  cases Mnemonic.ofName? line.mnemonic <;> simp

theorem expandWith_eq_ok_iff {line : Line} {m : Mnemonic} {ops : List Operand} {a : UInt16} {program : List Instruction} :
    line.expandWith m ops a = .ok program ↔ m.expand ops a = some program := by
  unfold expandWith
  cases m.expand ops a <;> simp

theorem measure_eq_ok_iff {s : Symbols} {line : Line} {m : Mnemonic} {size : Nat} :
    line.measure s = .ok (m, size) ↔ Mnemonic.ofName? line.mnemonic = some m ∧
      ∃ ops program, line.operands.mapM s.operands = .ok ops ∧ m.expand ops.flatten 0 = some program ∧
        totalLength program = size := by
  unfold measure
  constructor
  · intro h
    obtain ⟨m', hm, h⟩ := Except.bind_eq_ok.1 h
    obtain ⟨ops, ho, h⟩ := Except.bind_eq_ok.1 h
    obtain ⟨program, hp, h⟩ := Except.bind_eq_ok.1 h
    cases h
    exact ⟨mnemonic?_eq_ok_iff.1 hm, ops, program, Program.faultIn_eq_ok.1 ho, expandWith_eq_ok_iff.1 hp, rfl⟩
  · rintro ⟨hm, ops, program, ho, hp, rfl⟩
    rw [mnemonic?_eq_ok_iff.2 hm]
    refine Except.bind_eq_ok.2 ⟨m, rfl, Except.bind_eq_ok.2 ⟨ops, Program.faultIn_eq_ok.2 ho, ?_⟩⟩
    exact Except.bind_eq_ok.2 ⟨program, expandWith_eq_ok_iff.2 hp, rfl⟩

theorem operations_eq_ok_iff {line : Line} {program : List Instruction} :
    line.operations = .ok program ↔ ∃ m ops, Mnemonic.ofName? line.mnemonic = some m ∧
      line.operands.mapM Symbols.literal = .ok ops ∧ m.expand ops (line.returnAddress.getD 0) = some program := by
  unfold operations
  constructor
  · intro h
    obtain ⟨m, hm, h⟩ := Except.bind_eq_ok.1 h
    obtain ⟨ops, ho, h⟩ := Except.bind_eq_ok.1 h
    exact ⟨m, ops, mnemonic?_eq_ok_iff.1 hm, Program.faultIn_eq_ok.1 ho, expandWith_eq_ok_iff.1 h⟩
  · rintro ⟨m, ops, hm, ho, hp⟩
    refine Except.bind_eq_ok.2 ⟨m, mnemonic?_eq_ok_iff.2 hm, ?_⟩
    exact Except.bind_eq_ok.2 ⟨ops, Program.faultIn_eq_ok.2 ho, expandWith_eq_ok_iff.2 hp⟩

theorem result_resolveToken (s : Symbols) (loc : Location) (token : String) :
    (resolveToken s loc token).result = Program.faultIn loc (s.substitute token) := by
  simp only [resolveToken, Traced.result_bind, Traced.result_lift]
  cases Program.faultIn loc (s.substitute token) with
  | error e => rfl
  | ok tokens => show (ite _ _ _ : Traced AsmEvent AsmError (List String)).result = _; split <;> rfl

theorem result_resolve_eq_ok_iff {s : Symbols} {line resolved : Line} :
    (line.resolve s).result = .ok resolved ↔ ∃ tokens, line.operands.mapM s.substitute = .ok tokens ∧
      resolved = { line with operands := tokens.flatten } := by
  have hmap (tokens : List (List String)) :
      (Traced.mapList (resolveToken s line.loc) line.operands).result = .ok tokens ↔
        line.operands.mapM s.substitute = .ok tokens := by
    simp only [Traced.result_mapList_eq_ok_iff, result_resolveToken, Program.faultIn_eq_ok, Except.mapM_eq_ok_iff]
  rw [resolve, Traced.result_bind, Except.bind_eq_ok]
  constructor
  · rintro ⟨tokens, ht, h⟩
    cases h
    exact ⟨tokens, (hmap tokens).1 ht, rfl⟩
  · rintro ⟨tokens, ht, rfl⟩
    exact ⟨tokens, (hmap tokens).2 ht, rfl⟩

/-- The size of a line depends on its mnemonic and on the forms of its operands. -/
theorem measure_of_forms {s s' : Symbols} {line line' : Line} {m : Mnemonic} {size : Nat}
    (hn : line'.mnemonic = line.mnemonic)
    (hf : line.operands.mapM (fun token => List.map Operand.form <$> s.operands token) =
      line'.operands.mapM fun token => List.map Operand.form <$> s'.operands token)
    (hm : line.measure s = .ok (m, size)) : line'.measure s' = .ok (m, size) := by
  obtain ⟨hname, ops, program, ho, hp, rfl⟩ := measure_eq_ok_iff.1 hm
  have hforms : (List.map (List.map Operand.form)) <$> line'.operands.mapM s'.operands =
      .ok (ops.map (List.map Operand.form)) := by
    rw [Except.map_mapM, ← hf, ← Except.map_mapM, ho]
    rfl
  obtain ⟨ops', ho', hops⟩ := Except.map_eq_ok.1 hforms
  have hflat : ops'.flatten.map Operand.form = ops.flatten.map Operand.form := by
    rw [List.map_flatten, List.map_flatten, hops]
  have hspread : (spreadAll ops'.flatten).map Operand.form = (spreadAll ops.flatten).map Operand.form := by
    rw [map_form_spreadAll, hflat, ← map_form_spreadAll]
  obtain ⟨program', hp', hlen⟩ := exists_expand_of_forms hp hspread 0
  exact measure_eq_ok_iff.2 ⟨hn ▸ hname, ops', program', ho', hp', hlen⟩

/-- **A line is measured before addresses are known.** Tables that are alike give it the same size. -/
theorem measure_of_alike {s s' : Symbols} (h : s.Alike s') {line : Line} {m : Mnemonic} {size : Nat}
    (hm : line.measure s = .ok (m, size)) : line.measure s' = .ok (m, size) :=
  measure_of_forms rfl (by rw [funext h.similar.map_form_operands]) hm

/-- **A line that can be measured can be resolved and expanded.** The operations take as many bytes as were
measured. -/
theorem exists_operations_of_measure {s : Symbols} (hb : s.Bound) {line : Line} {m : Mnemonic} {size : Nat}
    (h : line.measure s = .ok (m, size)) :
    ∃ resolved program, (line.resolve s).result = .ok resolved ∧ resolved.operations = .ok program ∧
      totalLength program = size := by
  obtain ⟨hname, ops, program, ho, hp, rfl⟩ := measure_eq_ok_iff.1 h
  obtain ⟨tokens, ops', ht, ho', hs⟩ := hb.exists_mapM_substitute ho
  obtain ⟨program', hp', hlen⟩ := exists_expand_of_forms hp (congrArg _ hs) (line.returnAddress.getD 0)
  exact ⟨_, program', result_resolve_eq_ok_iff.2 ⟨tokens, ht, rfl⟩, operations_eq_ok_iff.2 ⟨m, ops', hname, ho', hp'⟩,
    hlen⟩

end Line

end Octet
