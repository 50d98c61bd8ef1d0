import Octet.Proofs.Assembler.Twins
/-!
Programs that leave their origin to the assembler can be moved down.

* `IsAddress`: a token that stands for an address in a program made of some statements;
* `Program.Collects.withOrigin`: without a statement that sets it, the origin shows in the origin only;
* `relocates`: a source that is assembled for one origin is assembled for every lower one, with all its addresses as
  much lower and with everything else the same.
-/

namespace Octet

open Instruction

/-- A token that stands for an address: that of its own line, that of a label, or half of that of a datum. -/
def IsAddress (statements : List LocatedStatement) (token : String) : Prop :=
  token = "$" ∨ token ∈ labelsOf statements ∨
    ∃ datum ∈ dataOf statements, token = datum.name ++ ".H" ∨ token = datum.name ++ ".L"

/-- The statements set no origin. -/
def KeepsOrigin (statements : List LocatedStatement) : Prop :=
  ∀ s ∈ statements, ∀ address, s.statement ≠ .origin address

theorem KeepsOrigin.originAfter {statements : List LocatedStatement} (h : KeepsOrigin statements) (start : UInt16) :
    originAfter start statements = start := by
  induction statements generalizing start with
  | nil => rfl
  | cons s rest ih =>
    obtain ⟨hs, hrest⟩ := List.forall_mem_cons.1 h
    obtain ⟨loc, statement⟩ := s
    cases statement with
    | origin address => exact absurd rfl (hs address)
    | _ => exact ih hrest start

/-- The same program for another origin. -/
theorem Program.Collects.withOrigin {start start' : UInt16} {program : Program} {statements : List LocatedStatement}
    (h : program.Collects start statements) (hk : KeepsOrigin statements) :
    ({ program with origin := start' } : Program).Collects start' statements :=
  ⟨(hk.originAfter start').symm, h.symbols, h.lines, h.waiting⟩

theorem Program.twin_withOrigin {d : Nat} (program : Program) {origin : UInt16} (h : Lowered d program.origin origin) :
    program.Twin d { program with origin := origin } :=
  ⟨h, List.forall₂_same.2 fun _ _ => ⟨rfl, rfl, rfl⟩, rfl, fun _ => rfl, rfl⟩

namespace Stages

variable {files : SourceFiles} {origin : UInt16} {path text : String} (s : Stages files origin path text)

/-- What is no address on its face is none in the tables. -/
theorem isFixed_of_not_isAddress {token : String} (h : ¬ IsAddress s.statements token) :
    s.layout.symbols.IsFixed token := by
  refine ⟨fun he => h (.inl he), fun r hr => ?_⟩
  rw [Symbols.lookup_of_none (s.procedure?_of_notMem fun hl => h (.inr (.inl hl)))] at hr
  · obtain ⟨text, -, rfl⟩ := Option.map_eq_some_iff.1 hr
    exact ⟨text, rfl⟩
  · intro letter name hn hletter
    refine s.datum?_of_notMem fun datum hmem he => ?_
    have htoken := Symbols.nameBefore?_eq_some_iff.1 hn
    rw [he] at htoken
    refine h (.inr (.inr ⟨datum, hmem, ?_⟩))
    rcases hletter with rfl | rfl
    · exact .inl htoken
    · exact .inr htoken

theorem origin_image (hk : KeepsOrigin s.statements) : s.image.origin = origin := by
  obtain ⟨placed, h⟩ := s.exists_laidOut
  rw [show s.image.origin = s.program.origin from h.origin, s.collects.origin, hk.originAfter]

theorem length_code : s.image.code.length = s.layout.codeSize :=
  (length_codeOf s.valid).trans s.totalLength_operations

theorem bound_layout : s.layout.symbols.Bound := by
  obtain ⟨placed, h⟩ := s.exists_laidOut
  exact h.bound s.collects

/-- A line comes from an instruction. -/
theorem exists_tokens {line : Line} (h : line ∈ s.program.lines) :
    ∃ tokens ∈ instructionsOf s.statements, line.mnemonic = tokens.headD "" ∧ line.operands = tokens.tail := by
  have hmem := List.mem_map_of_mem (f := fun line : Line => (line.mnemonic, line.operands)) h
  rw [s.collects.lines, map_tokens_linesFrom] at hmem
  obtain ⟨tokens, ht, he⟩ := List.mem_map.1 hmem
  exact ⟨tokens, ht, (Prod.mk.inj he).1.symm, (Prod.mk.inj he).2.symm⟩

/-- A line that uses no address and is no call. -/
theorem isFixed_of_line {line : Line} (h : line ∈ s.program.lines)
    (hfixed : ∀ tokens ∈ instructionsOf s.statements, tokens.head? ≠ some "CALL" ∧
      ∀ token ∈ tokens.tail, ¬ IsAddress s.statements token) :
    Mnemonic.ofName? line.mnemonic ≠ some (.compound .call) ∧
      ∀ token ∈ line.operands, s.layout.symbols.IsFixed token := by
  obtain ⟨tokens, ht, hmnemonic, hoperands⟩ := s.exists_tokens h
  obtain ⟨hcall, haddress⟩ := hfixed tokens ht
  refine ⟨fun hm => hcall ?_, fun token htoken => s.isFixed_of_not_isAddress (haddress token (hoperands ▸ htoken))⟩
  have hname := Mnemonic.eq_name_of_compound hm
  rw [hmnemonic] at hname
  cases tokens with
  | nil => exact absurd hname (by decide)
  | cons name rest => exact congrArg some hname

end Stages

/-- **Programs relocate.** A source that sets no origin and is assembled for one origin is assembled for every lower
one. Code and data take as many bytes, the data are the same, and the operations are the same but for values; labels,
data, `$` and return addresses lie lower by the distance of the origins. Where none of these is used, the code is the
same. -/
theorem relocates {files : SourceFiles} {origin lower : UInt16} {path text : String} {image : Image}
    (h : (assemble files origin path text).result = .ok image)
    (hkeeps : KeepsOrigin (SourceTree.read files path text).reports) (hle : lower ≤ origin) :
    ∃ (s : Stages files origin path text) (s' : Stages files lower path text),
      s.image = image ∧ (assemble files lower path text).result = .ok s'.image ∧
      s.image.origin = origin ∧ s'.image.origin = lower ∧
      s'.image.code.length = image.code.length ∧ s'.image.data = image.data ∧
      s'.operations.map Instruction.form = s.operations.map Instruction.form ∧
      s.layout.Lowered (origin.toNat - lower.toNat) s.program.lines s'.layout ∧
      s.layout.symbols.Bound ∧
      ((∀ tokens ∈ instructionsOf (SourceTree.read files path text).reports, tokens.head? ≠ some "CALL" ∧
        ∀ token ∈ tokens.tail, ¬ IsAddress (SourceTree.read files path text).reports token) →
          s'.image.code = image.code) := by
  obtain ⟨s, rfl⟩ := assemble_eq_ok_iff.1 h
  have horigin : s.program.origin = origin := s.collects.origin.trans (hkeeps.originAfter origin)
  have hdistance : Lowered (origin.toNat - lower.toNat) s.program.origin lower := by
    have hle := UInt16.le_iff_toNat_le.1 hle
    unfold Lowered
    rw [horigin]
    omega
  obtain ⟨⟨left, hleft⟩, -⟩ := Program.exists_ofSource_iff.1 ⟨_, s.program_eq⟩
  have hcollects : ({ s.program with origin := lower } : Program).Collects lower s.statements :=
    s.collects.withOrigin hkeeps
  have hprogram := Program.ofSource_of_collects hleft hcollects
  have htwin := s.program.twin_withOrigin hdistance
  obtain ⟨layout', hlayout'⟩ := htwin.exists_layOut s.noBytes_program s.layout_eq
  obtain ⟨s', hs', -⟩ := exists_stages_of_layOut hprogram hlayout'
  rw [← hs'] at htwin
  have hlow := Stages.lowered_layout htwin
  have hcode : s'.image.code.length = s.image.code.length := by
    rw [Stages.length_code, Stages.length_code, hlow.codeSize]
  refine ⟨s, s', rfl, assemble_eq_ok_iff.2 ⟨s', rfl⟩, s.origin_image hkeeps, s'.origin_image hkeeps, hcode,
    Stages.data_image_eq htwin, Stages.map_form_operations htwin, hlow, s.bound_layout, fun hfixed => ?_⟩
  exact congrArg codeOf (Stages.operations_eq htwin fun line hline => .inr (s.isFixed_of_line hline hfixed))

/-- Calls a procedure that stands behind it and loads the first byte of a text, wherever it stands. -/
def movableGreeting : String := "CALL GREET\nJMP $\nGREET:\nMOV A, TEXT.H, TEXT.L\nRET\n#DB TEXT \"hi\""

theorem relocates_greeting :
    ∃ (s : Stages (.ofList []) 0x8000 "greeting.asm" movableGreeting)
      (s' : Stages (.ofList []) 0x100 "greeting.asm" movableGreeting),
      (assemble (.ofList []) 0x8000 "greeting.asm" movableGreeting).result = .ok s.image ∧
      (assemble (.ofList []) 0x100 "greeting.asm" movableGreeting).result = .ok s'.image ∧
      s.image.code.length = 23 ∧ s'.image.code.length = 23 ∧ s'.image.data = [0x68, 0x69, 0x00] ∧
      s.layout.Lowered 0x7F00 s.program.lines s'.layout := by
  have h : (assemble (.ofList []) 0x8000 "greeting.asm" movableGreeting).result = .ok ⟨0x8000,
    [0x8E, 0x80, 0x8E, 0x09, 0x02, 0x80, 0x0E, 0x88, 0x01, 0x02, 0x80, 0x09, 0x88, 0x01, 0x6B, 0x80, 0x17, 0x0F, 0x03,
      0x0F, 0x02, 0x88, 0x01],
    [0x68, 0x69, 0x00]⟩ := by cbv
  have hreports : (SourceTree.read (.ofList []) "greeting.asm" movableGreeting).reports.map (·.statement) =
    [.instruction ["CALL", "GREET"], .instruction ["JMP", "$"], .label "GREET",
      .instruction ["MOV", "A", "TEXT.H", "TEXT.L"], .instruction ["RET"], .data "TEXT" [0x68, 0x69, 0x00]] := by cbv
  have hkeeps : KeepsOrigin (SourceTree.read (.ofList []) "greeting.asm" movableGreeting).reports := by
    intro s hs address he
    have hmem := List.mem_map_of_mem (f := LocatedStatement.statement) hs
    rw [hreports, he] at hmem
    simp at hmem
  obtain ⟨s, s', hs, hs', -, -, hcode, hdata, -, hlow, -⟩ :=
    relocates h hkeeps (by decide : (0x100 : UInt16) ≤ 0x8000)
  exact ⟨s, s', hs ▸ h, hs', by rw [hs]; rfl, hcode, hdata, hlow⟩

end Octet
