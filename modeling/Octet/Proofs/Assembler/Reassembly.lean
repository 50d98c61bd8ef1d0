import Octet.Proofs.Assembler.Addresses
import Octet.Proofs.Assembler.Literals
import Octet.Proofs.Assembler.Words
import Octet.Proofs.Isa.Disassembly
/-!
The text of a program, assembled again.

* `Operands.literals`: the literal operands that the text of an instruction shows;
* `Instruction.sourceText`: the instructions of a program as source text, one on each line;
* `SourceTree.read_sourceText`: its statements are these instructions;
* `Program.exists_layOut_ofInstructions`: they are laid out where they fit;
* `Stages.expansions_of_statements`: they are expanded to themselves;
* `assemble_sourceText`: the image is the machine code of the program.
-/

namespace Octet

open Instruction

/-! ## Operands -/

/-- The literal operand that shows a source. -/
def Source.operand : Source → Operand
  | reg r => .reg r
  | imm v => .byte v

namespace Operands

/-- The literal operands that show the operands of an instruction: registers and bytes. -/
def literals : Operands → List Operand
  | reg r => [.reg r]
  | source s => [s.operand]
  | address hi lo => [.byte hi, .byte lo]
  | regImm r v => [.reg r, .byte v]
  | regSource r s => [.reg r, s.operand]
  | regReg dest src => [.reg dest, .reg src]
  | packedReg r hi lo => [.reg r, .byte hi, .byte lo]

theorem texts_eq (o : Operands) : o.texts = o.literals.map Operand.text := by
  cases o with
  | source s | regSource r s => cases s <;> rfl
  | reg | address | regImm | regReg | packedReg => rfl

/-- The operands of a shape are read back from their literals. -/
theorem operands?_literals (o : Operands) : o.shape.operands? o.literals = some o := by
  cases o with
  | source s | regSource r s => cases s <;> rfl
  | reg | address | regImm | regReg | packedReg => rfl

theorem word_notMem_literals (o : Operands) (w : UInt16) : Operand.word w ∉ o.literals := by
  cases o with
  | source s | regSource r s => cases s <;> simp [literals, Source.operand]
  | reg | address | regImm | regReg | packedReg => simp [literals]

theorem isWord_text {o : Operands} {op : Operand} (h : op ∈ o.literals) : IsWord op.text.toList := by
  cases op with
  | reg r => cases r <;> exact .of_all (by decide)
  | byte v =>
    exact .of_all (forall_byte (P := fun v => (byteToken v).toList ≠ [] ∧ (byteToken v).toList.all isPlain = true)
      (by decide +kernel) v)
  | word w => exact absurd h (o.word_notMem_literals w)

end Operands

/-! ## Instructions -/

theorem Mnemonic.ofName?_opcode (op : Opcode) : ofName? op.name = some (.primitive op) := by cases op <;> decide

namespace Instruction

/-- The words of the text of an instruction. -/
def tokens (i : Instruction) : List String := i.op.name :: i.operands.texts

theorem isWord_of_mem_tokens {i : Instruction} {token : String} (h : token ∈ i.tokens) : IsWord token.toList := by
  rcases List.mem_cons.1 h with rfl | h
  · cases i.op <;> exact .of_all (by decide)
  · rw [i.operands.texts_eq] at h
    obtain ⟨op, hop, rfl⟩ := List.mem_map.1 h
    exact Operands.isWord_text hop

theorem text_eq (i : Instruction) : i.text = String.ofList (spaced (i.tokens.map String.toList)) := by
  rw [← String.toList_inj, String.toList_ofList, text, String.toList_intercalate]
  rfl

theorem isWord_of_mem_map_tokens (i : Instruction) : ∀ word ∈ i.tokens.map String.toList, IsWord word :=
  List.forall_mem_map.2 fun _ h => isWord_of_mem_tokens h

theorem normalize_text (i : Instruction) : normalize i.text = i.text := by
  rw [text_eq]
  exact normalize_spaced i.isWord_of_mem_map_tokens (by simp [tokens])

theorem parse_text (i : Instruction) : Statement.parse i.text = .ok (.instruction i.tokens) := by
  rw [text_eq, parse_spaced i.isWord_of_mem_map_tokens (by simp [tokens]), List.map_map]
  simp [Function.comp_def]

/-- The text of an instruction is one line. -/
theorem text_line (i : Instruction) :
    i.text.toList ≠ [] ∧ (∀ c ∈ i.text.toList, c ≠ '\n') ∧ i.text.toList.getLast? ≠ some '\r' := by
  have hw := i.isWord_of_mem_map_tokens
  obtain ⟨init, d, hlast, hd⟩ := exists_last_spaced hw (by simp [tokens])
  rw [text_eq, String.toList_ofList]
  refine ⟨by simp [hlast], fun c hc => ?_, ?_⟩
  · rcases plain_or_space_of_mem_spaced hw hc with hc | rfl
    · exact ne_of_isPlain hc (by decide)
    · decide
  · rw [hlast, List.getLast?_concat]
    exact fun h => ne_of_isPlain hd (by decide) (Option.some.inj h)

/-- The text of a program: its instructions, one on each line. -/
def sourceText (program : List Instruction) : String := String.intercalate "\n" (program.map text)

/-- The statements of a program that is written in a file. -/
def statements (path : String) (program : List Instruction) : List LocatedStatement :=
  (program.zipIdx 1).map fun (i, n) => ⟨⟨path, n⟩, .instruction i.tokens⟩

theorem instructionsOf_statements (path : String) (program : List Instruction) :
    instructionsOf (statements path program) = program.map tokens := by
  rw [instructionsOf, statements, List.filterMap_map]
  show (program.zipIdx 1).filterMap (some ∘ tokens ∘ Prod.fst) = _
  rw [List.filterMap_eq_map, ← List.map_map, List.zipIdx_map_fst]

/-- Nothing but instructions is declared. -/
theorem filterMap_statements {α : Type} {f : LocatedStatement → Option α} (path : String) (program : List Instruction)
    (h : ∀ loc tokens, f ⟨loc, .instruction tokens⟩ = none) : (statements path program).filterMap f = [] :=
  List.filterMap_eq_nil_iff.2 (List.forall_mem_map.2 fun _ _ => h _ _)

theorem exists_tokens_of_mem_statements {path : String} {program : List Instruction} :
    ∀ s ∈ statements path program, ∃ tokens, s.tokens? = some tokens :=
  List.forall_mem_map.2 fun p _ => ⟨p.1.tokens, rfl⟩

end Instruction

/-! ## Reading -/

theorem numberedLines_sourceText {program : List Instruction} {ending : String} (he : ending = "" ∨ ending = "\n") :
    SourceTree.numberedLines (sourceText program ++ ending) = (program.zipIdx 1).map fun (i, n) => (n, i.text) := by
  -- the text of no instruction is one empty line at most, which is not numbered
  by_cases hnil : program = []
  · rcases he with rfl | rfl <;> subst hnil <;> cbv
  · have hlines : Text.lines (sourceText program ++ ending).toList = program.map fun i => i.text.toList := by
      have hend : ending.toList = [] ∨ ending.toList = ['\n'] := by
        rcases he with rfl | rfl
        · exact .inl rfl
        · exact .inr rfl
      rw [String.toList_append, sourceText, String.toList_intercalate, List.map_map]
      refine lines_intercalate (by simpa using hnil) (List.forall_mem_map.2 fun i _ => i.text_line) hend
    have hne : ∀ p ∈ (program.zipIdx 1).map fun (i, n) => (n, i.text), decide (p.2 ≠ "") = true := by
      refine List.forall_mem_map.2 fun p _ => decide_eq_true fun h => p.1.text_line.1 ?_
      rw [show p.1.text = "" from h]
      rfl
    rw [SourceTree.numberedLines, hlines, List.zipIdx_map, List.map_map]
    show List.filter _ ((program.zipIdx 1).map fun p => (p.2, normalize (String.ofList p.1.text.toList))) = _
    simp only [String.ofList_toList, normalize_text]
    exact List.filter_eq_self.2 hne

namespace SourceTree

/-- Lines without an include are reported as the statements that they say. -/
theorem foldList_walkLine {path : String} {splice : SourceFiles → Location → String → Stream} {files : SourceFiles}
    {lines : List (Nat × String)} {statements : List LocatedStatement}
    (h : List.Forall₂ (fun line s => s.loc = ⟨path, line.1⟩ ∧ Statement.parse line.2 = .ok s.statement ∧
      ∀ target, s.statement ≠ .splice target) lines statements) :
    Traced.foldList (walkLine .reader path splice) files lines = ⟨statements, .ok files⟩ := by
  induction h with
  | nil => rfl
  | @cons line s lines statements hx _ ih =>
    obtain ⟨hloc, hparse, hsplice⟩ := hx
    have hstep : walkLine .reader path splice files line = ⟨[s], .ok files⟩ := by
      obtain ⟨loc, statement⟩ := s
      cases hloc
      rw [walkLine, hparse]
      cases statement with
      | splice target => exact absurd rfl (hsplice target)
      | label | instruction | data | reserve | origin | constant => rfl
    rw [Traced.foldList, hstep]
    show (⟨[s] ++ (Traced.foldList (walkLine .reader path splice) files lines).reports,
      (Traced.foldList (walkLine .reader path splice) files lines).result⟩ : Stream) = _
    rw [ih]
    rfl

theorem read_sourceText (files : SourceFiles) (path : String) (program : List Instruction) {ending : String}
    (he : ending = "" ∨ ending = "\n") :
    read files path (sourceText program ++ ending) = ⟨statements path program, .ok files⟩ := by
  refine foldList_walkLine ?_
  rw [numberedLines_sourceText he, statements, List.forall₂_map_left_iff, List.forall₂_map_right_iff, List.forall₂_same]
  exact fun p _ => ⟨rfl, p.1.parse_text, fun target h => by cases h⟩

end SourceTree

namespace Program

/-- Instructions alone are collected as lines. -/
theorem foldList_collect {statements : List LocatedStatement} (h : ∀ s ∈ statements, ∃ tokens, s.tokens? = some tokens)
    {c : Collection} (hw : c.waiting = []) :
    (Traced.foldList collect c statements).result =
      .ok { c with reversed := (linesFrom [] statements).reverse ++ c.reversed } := by
  induction statements generalizing c with
  | nil => rfl
  | cons s statements ih =>
    obtain ⟨⟨tokens, ht⟩, hrest⟩ := List.forall_mem_cons.1 h
    obtain ⟨loc, statement⟩ := s
    obtain rfl : statement = .instruction tokens := by cases statement <;> cases ht; rfl
    have hstep : collect c ⟨loc, .instruction tokens⟩ =
        Pure.pure { c with reversed := Line.ofTokens loc tokens :: c.reversed } := by
      rw [collect, hw]
      rfl
    rw [Traced.foldList, hstep, pure_bind]
    refine (ih hrest (c := { c with reversed := Line.ofTokens loc tokens :: c.reversed }) hw).trans ?_
    rw [linesFrom, List.reverse_cons, List.append_assoc]
    rfl

/-- A file of instructions is a program without symbols. -/
theorem ofSource_of_instructions {files files' : SourceFiles} {origin : UInt16} {path text : String}
    {statements : List LocatedStatement} (hread : SourceTree.read files path text = ⟨statements, .ok files'⟩)
    (h : ∀ s ∈ statements, ∃ tokens, s.tokens? = some tokens) :
    (ofSource files origin path text).result = .ok { origin := origin, lines := linesFrom [] statements } := by
  rw [ofSource_eq, ofStream, Traced.result_bind, Except.bind_eq_ok, hread]
  refine ⟨(_, files'), Traced.result_foldReports_eq_ok_iff.2 ⟨foldList_collect h rfl, rfl⟩, ?_⟩
  simp [finish]

end Program

/-! ## Layout -/

namespace Line

/-- A line in which no address is asked for stays as it is. -/
theorem replaceCurrentAddress_of_notMem {line : Line} (h : currentAddressToken ∉ line.tokens) (address : UInt16) :
    line.replaceCurrentAddress address = line := by
  have hkeep : line.tokens.flatMap (tokenAt address) = line.tokens.flatMap ([·]) :=
    List.flatMap_congr fun token htoken => tokenAt_of_ne fun he => h (by rwa [he] at htoken)
  rw [List.flatMap_singleton'] at hkeep
  show line.withTokens (line.tokens.flatMap (tokenAt address)) = line
  rw [hkeep]
  rfl

end Line

namespace Symbols

theorem operands_of_literal {token : String} {op : Operand} (h : parseOperand token = some op) :
    ({} : Symbols).operands token = .ok [op] := by
  have hnone : ({} : Symbols).lookup token = none := lookup_of_none rfl fun _ _ _ _ => rfl
  rw [operands, hnone, literal, h]
  rfl

end Symbols

namespace Instruction

/-- The line of an instruction. -/
def line (loc : Location) (i : Instruction) : Line := Line.ofTokens loc i.tokens

theorem tokens_line (loc : Location) (i : Instruction) : (i.line loc).tokens = i.tokens := rfl

theorem currentAddress_notMem_tokens (i : Instruction) : currentAddressToken ∉ i.tokens := by
  intro h
  have hword := isWord_of_mem_tokens h
  exact absurd (hword.plain '$' (by decide)) (by decide)

theorem expand_literals {i : Instruction} (hv : i.Valid) (a : UInt16) :
    (Mnemonic.primitive i.op).expand i.operands.literals a = some [i] := by
  rw [Mnemonic.expand, ← hv, i.operands.operands?_literals]
  rfl

/-- The line of an instruction is measured as the instruction, wherever it stands. -/
theorem measure_line {i : Instruction} (hv : i.Valid) (loc : Location) (address : UInt16) :
    ((i.line loc).replaceCurrentAddress address).measure {} = .ok (.primitive i.op, i.length) := by
  have hoperands : i.operands.texts.mapM ({} : Symbols).operands = .ok (i.operands.literals.map ([·])) := by
    rw [i.operands.texts_eq, Except.mapM_eq_ok_iff, List.forall₂_map_left_iff, List.forall₂_map_right_iff,
      List.forall₂_same]
    exact fun op _ => Symbols.operands_of_literal (parseOperand_text op)
  have hkeep : (i.line loc).replaceCurrentAddress address = i.line loc := by
    refine Line.replaceCurrentAddress_of_notMem ?_ address
    rw [tokens_line]
    exact i.currentAddress_notMem_tokens
  rw [hkeep]
  refine Line.measure_eq_ok_iff.2 ⟨Mnemonic.ofName?_opcode i.op, _, [i], hoperands, ?_, rfl⟩
  rw [← List.flatMap_def, List.flatMap_singleton']
  exact expand_literals hv 0

theorem linesFrom_statements (path : String) (program : List Instruction) :
    linesFrom [] (statements path program) = (program.zipIdx 1).map fun (i, n) => i.line ⟨path, n⟩ := by
  rw [statements]
  induction program.zipIdx 1 with
  | nil => rfl
  | cons p rest ih => exact congrArg (_ :: ·) ih

end Instruction

namespace Program

/-- The program that the text of some instructions makes. -/
def ofInstructions (origin : UInt16) (path : String) (program : List Instruction) : Program :=
  { origin := origin, lines := linesFrom [] (statements path program) }

/-- Instructions that fit can be laid out. -/
theorem exists_layOut_ofInstructions {origin : UInt16} (path : String) {program : List Instruction}
    (hv : ∀ i ∈ program, i.Valid) (hle : origin.toNat + totalLength program ≤ 0x10000) :
    ∃ layout, (ofInstructions origin path program).layOut.result = .ok layout := by
  have hmeasured : List.Forall₂ (fun (line : Line) (m : Mnemonic × Nat) => 0 < m.2 ∧
      ∀ address, (line.replaceCurrentAddress address).measure {} = .ok m)
      (linesFrom [] (statements path program))
      ((program.zipIdx 1).map fun p => (.primitive p.1.op, p.1.length)) := by
    rw [linesFrom_statements, List.forall₂_map_left_iff, List.forall₂_map_right_iff, List.forall₂_same]
    intro p hp
    refine ⟨p.1.length_pos, measure_line (hv _ ?_) _⟩
    rw [← List.zipIdx_map_fst 1 program]
    exact List.mem_map_of_mem hp
  have hsum : (((program.zipIdx 1).map fun p => (Mnemonic.primitive p.1.op, p.1.length)).map (·.2)).sum =
      totalLength program := by
    have hlengths : ((program.zipIdx 1).map fun p => (Mnemonic.primitive p.1.op, p.1.length)).map (·.2) =
        ((program.zipIdx 1).map Prod.fst).map length := by
      rw [List.map_map, List.map_map]
      rfl
    rw [hlengths, List.zipIdx_map_fst]
    rfl
  obtain ⟨placed, hplaced⟩ := @exists_placeLines origin _ 0 _ _ hmeasured
    (by rwa [hsum, Nat.zero_add]) fun i m hm hc => by
      obtain ⟨p, -, rfl⟩ := List.mem_map.1 (List.mem_of_getElem? hm)
      cases hc
  rw [Nat.zero_add, hsum] at hplaced
  exact ⟨_, layOut_eq_ok_iff.2 ⟨placed, _, [], _, hplaced, rfl, hle, rfl⟩⟩

end Program

/-! ## Stages -/

/-- The operands that the texts of literals denote, where there are no symbols. -/
theorem flatten_of_denotes {origin : UInt16} {statements : List LocatedStatement}
    {expansions : List (List Instruction)} {k : Nat} {literals : List Operand} {operands : List (List Operand)}
    (hlabels : labelsOf statements = []) (hdata : dataOf statements = []) (hconstants : constantsOf statements = [])
    (hparse : ∀ op ∈ literals, parseOperand op.text = some op)
    (h : List.Forall₂ (Denotes origin statements expansions k) (literals.map Operand.text) operands) :
    operands.flatten = literals := by
  induction literals generalizing operands with
  | nil =>
    cases h
    rfl
  | cons op literals ih =>
    obtain ⟨hop, hrest⟩ := List.forall_mem_cons.1 hparse
    cases h with
    | cons hx hxs =>
      -- a token that is read as an operand stands for no address
      have hne : op.text ≠ "$" := by
        intro he
        have hnone : parseOperand "$" = none := by decide
        rw [he, hnone] at hop
        cases hop
      obtain ⟨op', hop', rfl⟩ := hx.literal hne (by simp [hlabels]) (by simp [hdata]) (by simp [hconstants])
      cases hop.symm.trans hop'
      rw [List.flatten_cons, ih hrest hxs]
      rfl

namespace Stages

variable {files : SourceFiles} {origin : UInt16} {path text : String} (s : Stages files origin path text)

/-- Instructions by themselves are expanded to themselves. -/
theorem expansions_of_statements {program : List Instruction} (hv : ∀ i ∈ program, i.Valid)
    (h : s.statements = Instruction.statements path program) : s.expansions = program.map ([·]) := by
  have hlabels : labelsOf s.statements = [] := h ▸ filterMap_statements path program fun _ _ => rfl
  have hdata : dataOf s.statements = [] := h ▸ filterMap_statements path program fun _ _ => rfl
  have hconstants : constantsOf s.statements = [] := h ▸ filterMap_statements path program fun _ _ => rfl
  have htokens : instructionsOf s.statements = program.map tokens := by rw [h, instructionsOf_statements]
  refine List.ext_getElem? fun k => ?_
  cases hk : program[k]? with
  | none =>
    rw [List.getElem?_map, hk, Option.map_none, List.getElem?_eq_none_iff, s.length_expansions, htokens,
      List.length_map]
    exact List.getElem?_eq_none_iff.1 hk
  | some i =>
    have hi : i.Valid := hv i (List.mem_of_getElem? hk)
    have hline : (instructionsOf s.statements)[k]? = some i.tokens := by rw [htokens, List.getElem?_map, hk]; rfl
    obtain ⟨name, rest, m, operands, expansion, hsplit, hname, hdenotes, hexpand, hexpansion⟩ :=
      s.exists_expansion hline
    obtain ⟨rfl, rfl⟩ := List.cons.inj hsplit
    cases (Mnemonic.ofName?_opcode i.op).symm.trans hname
    rw [i.operands.texts_eq] at hdenotes
    rw [flatten_of_denotes hlabels hdata hconstants (fun op _ => parseOperand_text op) hdenotes,
      expand_literals hi] at hexpand
    cases hexpand
    rw [hexpansion, List.getElem?_map, hk]
    rfl

end Stages

/-- **A program is assembled from its text.** -/
theorem assemble_of_valid {files : SourceFiles} {origin : UInt16} {path ending : String} {program : List Instruction}
    (he : ending = "" ∨ ending = "\n") (hv : ∀ i ∈ program, i.Valid)
    (hle : origin.toNat + totalLength program ≤ 0x10000) :
    (assemble files origin path (sourceText program ++ ending)).result = .ok ⟨origin, codeOf program, []⟩ := by
  have hread := SourceTree.read_sourceText files path program he
  have hsource : (Program.ofSource files origin path (sourceText program ++ ending)).result =
      .ok (Program.ofInstructions origin path program) :=
    Program.ofSource_of_instructions hread exists_tokens_of_mem_statements
  obtain ⟨layout, hlayout⟩ := Program.exists_layOut_ofInstructions path hv hle
  obtain ⟨s, hprogram, rfl⟩ := exists_stages_of_layOut hsource hlayout
  obtain ⟨placed, hl⟩ := s.exists_laidOut
  refine assemble_eq_ok_iff.2 ⟨s, ?_⟩
  have hoperations : s.operations = program := by
    have hstatements : s.statements = Instruction.statements path program := congrArg Traced.reports hread
    rw [Stages.operations, s.expansions_of_statements hv hstatements, ← List.flatMap_def, List.flatMap_singleton']
  have horigin : s.layout.origin = origin := by rw [hl.origin, hprogram]; rfl
  have hdata : s.layout.symbols.data = [] := by
    refine List.length_eq_zero_iff.1 ?_
    rw [hl.length_data, hprogram]
    rfl
  rw [Stages.image, hoperations, horigin, hdata]
  rfl

/-- **A listing reassembles to the same bytes.** The instructions of a program, one on each line, are assembled at any
origin where they fit, to the origin, the machine code of the program, and no data. So, for bytes that are listed to the
end, the text of the listing is assembled to these bytes. -/
theorem assemble_sourceText (files : SourceFiles) (origin : UInt16) (path : String) {ending : String}
    (he : ending = "" ∨ ending = "\n") :
    (∀ program : List Instruction, (∀ i ∈ program, i.Valid) → origin.toNat + totalLength program ≤ 0x10000 →
      ∃ code, encodeAll program = .ok code ∧
        (assemble files origin path (sourceText program ++ ending)).result = .ok ⟨origin, code, []⟩) ∧
    ∀ bytes, (disassemble origin bytes).decoded = bytes.length → origin.toNat + bytes.length ≤ 0x10000 →
      (assemble files origin path (sourceText ((disassemble origin bytes).entries.map (·.2)) ++ ending)).result =
        .ok ⟨origin, bytes, []⟩ := by
  refine ⟨fun program hv hle => ⟨codeOf program, encodeAll_of_valid hv, assemble_of_valid he hv hle⟩, ?_⟩
  intro bytes hall hle
  obtain ⟨program, rest, hv, rfl, fault, hrest⟩ := exists_program_prefix bytes
  rw [disassemble_codeOf_of_error hv hrest] at hall ⊢
  have hnil : rest = [] := by
    rw [List.length_append] at hall
    exact List.length_eq_zero_iff.1 (Nat.add_eq_left.1 hall.symm)
  rw [hnil, List.append_nil] at hle ⊢
  rw [length_codeOf hv] at hle
  dsimp only
  rw [map_snd_addressed]
  exact assemble_of_valid he hv hle

/-- The last byte of the program is the last one of memory. -/
theorem assemble_sourceText_to_end :
    let bytes : List UInt8 := [0x03, 0x00, 0x00, 0x88, 0x01]
    let listed := (disassemble 0xFFFB bytes).entries.map (·.2)
    sourceText loadAndJump ++ "\n" = "LC B 0X00\nJNZ 0X01\n" ∧ totalLength loadAndJump = 5 ∧
      (assemble (.ofList []) 0xFFFB "list.asm" (sourceText loadAndJump ++ "\n")).result = .ok ⟨0xFFFB, bytes, []⟩ ∧
      (disassemble 0xFFFB bytes).decoded = 5 ∧
      (assemble (.ofList []) 0xFFFB "list.asm" (sourceText listed ++ "\n")).result = .ok ⟨0xFFFB, bytes, []⟩ := by
  intro bytes listed
  obtain ⟨hprogram, hbytes⟩ := assemble_sourceText (.ofList []) 0xFFFB "list.asm" (.inr rfl)
  have hvalid : ∀ i ∈ loadAndJump, i.Valid := by decide
  have hcodeOf : codeOf loadAndJump = bytes := by decide
  obtain ⟨code, hcode, hassembled⟩ := hprogram loadAndJump hvalid (by decide)
  rw [encodeAll_of_valid hvalid, hcodeOf] at hcode
  obtain rfl := Except.ok.inj hcode
  have hdecoded : (disassemble 0xFFFB bytes).decoded = 5 := by
    rw [← hcodeOf, ← List.append_nil (codeOf loadAndJump), disassemble_codeOf_of_error hvalid rfl]
    rfl
  exact ⟨by decide, by decide, hassembled, hdecoded, hbytes _ hdecoded (by decide)⟩

end Octet
