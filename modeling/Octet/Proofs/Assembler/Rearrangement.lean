import Octet.Proofs.Assembler.Locations
import Octet.Proofs.Assembler.Reading
import Octet.Proofs.Assembler.Twins
/-!
Definitions and data may stand anywhere in a source.

* `Rearranged`: sources of the same lines; those that make code are in the same order, and so are those that make data;
* `linesFrom_eq_of_code`, `waitingFrom_eq_of_code`, `originAfter_eq_of_code`: lines, labels and origin depend on the
  statements that make code;
* `Program.Collects.twin`: programs of rearranged statements are twins;
* `rearranged_assembles`: a source that is rearranged is assembled to the same image.
-/

namespace Octet

open Instruction

/-! ## Sources -/

namespace Statement

/-- A label, an instruction or the origin. -/
def isCode : Statement → Bool
  | label _ | instruction _ | origin _ => true
  | _ => false

/-- Data, or room for them. -/
def isData : Statement → Bool
  | data _ _ | reserve _ _ => true
  | _ => false

/-- Whether a line is read as a statement of some kind. -/
def reads (kind : Statement → Bool) (line : String) : Bool :=
  match parse line with
  | .ok statement => kind statement
  | .error _ => false

end Statement

/-- The normalized lines of a text that are not empty. -/
def sourceLines (text : String) : List String := (SourceTree.numberedLines text).map (·.2)

/-- The same lines, with those that make code in the same order, and those that make data. Definitions stand
anywhere. -/
structure Rearranged (text text' : String) : Prop where
  perm : (sourceLines text').Perm (sourceLines text)
  code : (sourceLines text').filter (Statement.reads Statement.isCode) =
    (sourceLines text).filter (Statement.reads Statement.isCode)
  data : (sourceLines text').filter (Statement.reads Statement.isData) =
    (sourceLines text).filter (Statement.reads Statement.isData)

/-! ## Statements -/

/-- The statements of some kind, without their places. -/
def statementsOf (kind : Statement → Bool) (statements : List LocatedStatement) : List Statement :=
  (statements.map (·.statement)).filter kind

/-- What lines say, if each is read as a statement. -/
def parsed (lines : List String) : List Statement := lines.filterMap fun line => (Statement.parse line).toOption

theorem parsed_cons_ok {line : String} {statement : Statement} (lines : List String)
    (h : Statement.parse line = .ok statement) : parsed (line :: lines) = statement :: parsed lines := by
  rw [parsed, List.filterMap_cons, h]
  rfl

theorem parsed_cons_error {line : String} {fault : Fault} (lines : List String)
    (h : Statement.parse line = .error fault) : parsed (line :: lines) = parsed lines := by
  rw [parsed, List.filterMap_cons, h]
  rfl

/-- The statements of a kind are those of the lines of that kind. -/
theorem filter_parsed (kind : Statement → Bool) (lines : List String) :
    (parsed lines).filter kind = parsed (lines.filter (Statement.reads kind)) := by
  induction lines with
  | nil => rfl
  | cons line lines ih =>
    cases hp : Statement.parse line with
    | error fault =>
      have hk : ¬ Statement.reads kind line = true := by simp [Statement.reads, hp]
      rw [parsed_cons_error lines hp, ih, List.filter_cons_of_neg hk]
    | ok statement =>
      have hreads : Statement.reads kind line = kind statement := by simp [Statement.reads, hp]
      rw [parsed_cons_ok lines hp, List.filter_cons, List.filter_cons, hreads]
      split
      · rw [parsed_cons_ok _ hp, ih]
      · exact ih

namespace SourceTree

/-- Lines that are read as statements other than includes are reported one after the other. -/
theorem foldList_of_plain {path : String} {splice : SourceFiles → Location → String → Stream} (files : SourceFiles)
    {lines : List (Nat × String)} (h : ∀ line ∈ lines.map (·.2), ∃ statement, Statement.parse line = .ok statement ∧
      ∀ target, statement ≠ .splice target) :
    (Traced.foldList (walkLine .reader path splice) files lines).result = .ok files ∧
      (Traced.foldList (walkLine .reader path splice) files lines).reports.map (·.statement) =
        parsed (lines.map (·.2)) := by
  induction lines with
  | nil => exact ⟨rfl, rfl⟩
  | cons line lines ih =>
    rw [List.map_cons, List.forall_mem_cons] at h
    obtain ⟨⟨statement, hp, hplain⟩, hrest⟩ := h
    obtain ⟨hresult, hreports⟩ := ih hrest
    rw [Traced.foldList, walkLine_of_plain hp hplain, reader_step, Traced.result_bind, Traced.reports_bind, List.map_cons, parsed_cons_ok _ hp,
      ← hreports]
    exact ⟨hresult, rfl⟩

/-- What is read of a single file, all of whose lines are statements. -/
theorem read_of_plain (files : SourceFiles) (path : String) {text : String}
    (h : ∀ line ∈ sourceLines text, ∃ statement, Statement.parse line = .ok statement ∧
      ∀ target, statement ≠ .splice target) :
    (read files path text).result = .ok files ∧
      (read files path text).reports.map (·.statement) = parsed (sourceLines text) := by
  rw [read, readNested_eq]
  exact foldList_of_plain files h

/-- Where a source is read to its end, every line is a statement. -/
theorem exists_statement_of_read {files left : SourceFiles} {path text : String}
    (h : (read files path text).result = .ok left) {line : String} (hl : line ∈ sourceLines text) :
    ∃ statement, Statement.parse line = .ok statement := by
  rw [read, readNested_eq] at h
  obtain ⟨⟨n, l⟩, hmem, rfl⟩ := List.mem_map.1 hl
  obtain ⟨before, after, hsplit⟩ := List.append_of_mem hmem
  rw [hsplit] at h
  obtain ⟨files', -, ⟨files'', hstep⟩, -⟩ := Traced.foldList_split h
  cases hp : Statement.parse l with
  | ok statement => exact ⟨statement, rfl⟩
  | error fault =>
    rw [walkLine_of_fault hp] at hstep
    cases hstep

end SourceTree

/-! ## What depends on the code -/

section
variable {xs ys : List LocatedStatement}

/-- A statement of no file. -/
abbrev unplaced (statement : Statement) : LocatedStatement := ⟨.nowhere, statement⟩

/-- Labels wait, lines are made and the origin is set without a look at definitions and data. -/
theorem waitingFrom_filter (waiting : List String) (xs : List LocatedStatement) :
    waitingFrom waiting (xs.filter (·.statement.isCode)) = waitingFrom waiting xs := by
  induction xs generalizing waiting with
  | nil => rfl
  | cons s rest ih =>
    obtain ⟨loc, statement⟩ := s
    cases statement <;> exact ih _

theorem originAfter_filter (start : UInt16) (xs : List LocatedStatement) :
    originAfter start (xs.filter (·.statement.isCode)) = originAfter start xs := by
  induction xs generalizing start with
  | nil => rfl
  | cons s rest ih =>
    obtain ⟨loc, statement⟩ := s
    cases statement <;> exact ih _

theorem linesFrom_filter (waiting : List String) (xs : List LocatedStatement) :
    linesFrom waiting (xs.filter (·.statement.isCode)) = linesFrom waiting xs := by
  induction xs generalizing waiting with
  | nil => rfl
  | cons s rest ih =>
    obtain ⟨loc, statement⟩ := s
    cases statement with
    | instruction tokens => exact congrArg (_ :: ·) (ih [])
    | _ => exact ih _

/-- Nor do they depend on the places of the statements. -/
theorem waitingFrom_congr (h : ys.map (·.statement) = xs.map (·.statement)) (waiting : List String) :
    waitingFrom waiting ys = waitingFrom waiting xs := by
  induction xs generalizing ys waiting with
  | nil =>
    obtain rfl := List.map_eq_nil_iff.1 h
    rfl
  | cons x xs ih =>
    obtain ⟨y, ys, rfl, hxy, hrest⟩ := List.map_eq_cons_iff.1 h
    simp only [waitingFrom, hxy]
    split <;> exact ih hrest _

theorem originAfter_congr (h : ys.map (·.statement) = xs.map (·.statement)) (start : UInt16) :
    originAfter start ys = originAfter start xs := by
  induction xs generalizing ys start with
  | nil =>
    obtain rfl := List.map_eq_nil_iff.1 h
    rfl
  | cons x xs ih =>
    obtain ⟨y, ys, rfl, hxy, hrest⟩ := List.map_eq_cons_iff.1 h
    simp only [originAfter, hxy]
    split <;> exact ih hrest _

theorem linesFrom_congr (h : ys.map (·.statement) = xs.map (·.statement)) (waiting : List String) :
    List.Forall₂ Line.Twin (linesFrom waiting xs) (linesFrom waiting ys) := by
  induction xs generalizing ys waiting with
  | nil =>
    obtain rfl := List.map_eq_nil_iff.1 h
    exact .nil
  | cons x xs ih =>
    obtain ⟨⟨loc', statement⟩, ys, rfl, rfl, hrest⟩ := List.map_eq_cons_iff.1 h
    obtain ⟨loc, statement⟩ := x
    cases statement with
    | instruction tokens => exact .cons ⟨rfl, rfl, rfl⟩ (ih hrest [])
    | _ => exact ih hrest _

/-- What is picked from statements of one kind is the same where these are. -/
theorem filterMap_eq_of_statementsOf {α : Type} (pick : Statement → Option α) {kind : Statement → Bool}
    (hkind : ∀ statement a, pick statement = some a → kind statement = true)
    (h : statementsOf kind ys = statementsOf kind xs) :
    (ys.filterMap fun s => pick s.statement) = xs.filterMap fun s => pick s.statement := by
  have hpick (zs : List LocatedStatement) :
      (zs.filterMap fun s => pick s.statement) = (statementsOf kind zs).filterMap pick := by
    rw [statementsOf, List.filterMap_filter, List.filterMap_map]
    refine List.filterMap_congr fun s _ => ?_
    cases hp : pick s.statement with
    | none => simp [hp]
    | some a => simp [hp, hkind _ _ hp]
  rw [hpick, hpick, h]

theorem map_filter_eq_of_code (h : statementsOf Statement.isCode ys = statementsOf Statement.isCode xs) :
    (ys.filter (·.statement.isCode)).map (·.statement) = (xs.filter (·.statement.isCode)).map (·.statement) := by
  simpa [statementsOf, List.filter_map, Function.comp_def] using h

theorem waitingFrom_eq_of_code (h : statementsOf Statement.isCode ys = statementsOf Statement.isCode xs)
    (waiting : List String) : waitingFrom waiting ys = waitingFrom waiting xs := by
  rw [← waitingFrom_filter waiting ys, waitingFrom_congr (map_filter_eq_of_code h), waitingFrom_filter]

theorem originAfter_eq_of_code (h : statementsOf Statement.isCode ys = statementsOf Statement.isCode xs)
    (start : UInt16) : originAfter start ys = originAfter start xs := by
  rw [← originAfter_filter start ys, originAfter_congr (map_filter_eq_of_code h), originAfter_filter]

theorem linesFrom_eq_of_code (h : statementsOf Statement.isCode ys = statementsOf Statement.isCode xs)
    (waiting : List String) : List.Forall₂ Line.Twin (linesFrom waiting xs) (linesFrom waiting ys) := by
  rw [← linesFrom_filter waiting xs, ← linesFrom_filter waiting ys]
  exact linesFrom_congr (map_filter_eq_of_code h) waiting

theorem labelsOf_eq_of_code (h : statementsOf Statement.isCode ys = statementsOf Statement.isCode xs) :
    labelsOf ys = labelsOf xs := by
  refine filterMap_eq_of_statementsOf (fun statement => (unplaced statement).label?) (fun statement name hl => ?_) h
  cases statement <;> first | rfl | cases hl

theorem data_eq_of_data (h : statementsOf Statement.isData ys = statementsOf Statement.isData xs) :
    ((dataOf ys).map fun x => (x.name, x.bytes)) = (dataOf xs).map fun x => (x.name, x.bytes) := by
  have hpick (zs : List LocatedStatement) : ((dataOf zs).map fun x => (x.name, x.bytes)) =
      zs.filterMap fun s => (unplaced s.statement).datum?.map fun x => (x.name, x.bytes) := by
    rw [dataOf, List.map_filterMap]
    refine List.filterMap_congr fun s _ => ?_
    obtain ⟨loc, statement⟩ := s
    cases statement <;> rfl
  rw [hpick, hpick]
  refine filterMap_eq_of_statementsOf (fun statement => (unplaced statement).datum?.map fun x => (x.name, x.bytes))
    (fun statement x hx => ?_) h
  cases statement <;> first | rfl | cases hx

theorem perm_constantsOf (h : (ys.map (·.statement)).Perm (xs.map (·.statement))) :
    (constantsOf ys).Perm (constantsOf xs) := by
  have hpick (zs : List LocatedStatement) :
      constantsOf zs = (zs.map (·.statement)).filterMap fun statement => (unplaced statement).constant? := by
    rw [List.filterMap_map]
    rfl
  rw [hpick, hpick]
  exact h.filterMap _

end

/-- In what order a table holds its names does not matter. -/
theorem Symbols.lookup_of_perm {α : Type} {table table' : List (String × α)} (h : table'.Perm table)
    (hn : (table.map (·.1)).Nodup) (name : String) : table'.lookup name = table.lookup name := by
  by_cases hmem : name ∈ table.map (·.1)
  · obtain ⟨⟨_, value⟩, hp, rfl⟩ := List.mem_map.1 hmem
    rw [lookup_of_mem hn hp, lookup_of_mem ((h.map _).nodup_iff.2 hn) (h.mem_iff.2 hp)]
  · have hmem' : name ∉ table'.map (·.1) := fun hm => hmem ((h.map _).mem_iff.1 hm)
    rw [← lookup_isSome_iff_mem, Option.not_isSome_iff_eq_none] at hmem hmem'
    rw [hmem, hmem']

/-- **Programs of rearranged statements are twins.** -/
theorem Program.Collects.twin {start : UInt16} {p q : Program} {xs ys : List LocatedStatement}
    (hp : p.Collects start xs) (hq : q.Collects start ys)
    (hperm : (ys.map (·.statement)).Perm (xs.map (·.statement)))
    (hcode : statementsOf Statement.isCode ys = statementsOf Statement.isCode xs)
    (hdata : statementsOf Statement.isData ys = statementsOf Statement.isData xs) : p.Twin 0 q := by
  refine ⟨?_, ?_, ?_, fun name => ?_, ?_⟩
  · rw [Lowered, hp.origin, hq.origin, originAfter_eq_of_code hcode]
    rfl
  · rw [hp.lines, hq.lines]
    exact linesFrom_eq_of_code hcode []
  · rw [hp.symbols.procedures, hq.symbols.procedures, labelsOf_eq_of_code hcode]
  · rw [Symbols.constant?, Symbols.constant?, hp.symbols.constants, hq.symbols.constants]
    exact Symbols.lookup_of_perm (perm_constantsOf hperm) hp.symbols.nodup_constants name
  · rw [hp.symbols.data, hq.symbols.data, data_eq_of_data hdata]

theorem Program.Distinct.of_statementsOf {xs ys : List LocatedStatement} (h : Program.Distinct xs)
    (hperm : (ys.map (·.statement)).Perm (xs.map (·.statement)))
    (hcode : statementsOf Statement.isCode ys = statementsOf Statement.isCode xs)
    (hdata : statementsOf Statement.isData ys = statementsOf Statement.isData xs) : Program.Distinct ys := by
  refine ⟨labelsOf_eq_of_code hcode ▸ h.labels, ((perm_constantsOf hperm).map _).nodup_iff.2 h.constants, ?_⟩
  have hnames := congrArg (List.map Prod.fst) (data_eq_of_data hdata)
  rw [List.map_map, List.map_map] at hnames
  exact (congrArg List.Nodup hnames).mpr h.data

/-! ## Images -/

/-- **Definitions and data may stand anywhere.** If a source without includes is assembled, then so is the source with
its definitions at other places, and its data, too, as long as these stay in order; labels, instructions and origins
stay in order among themselves. It makes the same image. -/
theorem rearranged_assembles {files : SourceFiles} {origin : UInt16} {path text text' : String} {image : Image}
    (h : (assemble files origin path text).result = .ok image)
    (hplain : ∀ line ∈ sourceLines text, ∀ target, Statement.parse line ≠ .ok (.splice target))
    (hr : Rearranged text text') : (assemble files origin path text').result = .ok image := by
  obtain ⟨s, rfl⟩ := assemble_eq_ok_iff.1 h
  obtain ⟨⟨left, hleft⟩, hdistinct, hwaiting⟩ := Program.exists_ofSource_iff.1 ⟨_, s.program_eq⟩
  have hlines : ∀ line ∈ sourceLines text, ∃ statement, Statement.parse line = .ok statement ∧
      ∀ target, statement ≠ .splice target := by
    intro line hl
    obtain ⟨statement, hp⟩ := SourceTree.exists_statement_of_read hleft hl
    exact ⟨statement, hp, fun target he => hplain line hl target (he ▸ hp)⟩
  have hlines' : ∀ line ∈ sourceLines text', ∃ statement, Statement.parse line = .ok statement ∧
      ∀ target, statement ≠ .splice target := fun line hl => hlines line (hr.perm.mem_iff.1 hl)
  obtain ⟨-, hreports⟩ := SourceTree.read_of_plain files path hlines
  obtain ⟨hleft', hreports'⟩ := SourceTree.read_of_plain files path hlines'
  -- what the two sources say
  have hperm : ((SourceTree.read files path text').reports.map (·.statement)).Perm
      ((SourceTree.read files path text).reports.map (·.statement)) := by
    rw [hreports, hreports']
    exact hr.perm.filterMap _
  have hcode : statementsOf Statement.isCode (SourceTree.read files path text').reports =
      statementsOf Statement.isCode (SourceTree.read files path text).reports := by
    rw [statementsOf, statementsOf, hreports, hreports', filter_parsed, filter_parsed, hr.code]
  have hdata : statementsOf Statement.isData (SourceTree.read files path text').reports =
      statementsOf Statement.isData (SourceTree.read files path text).reports := by
    rw [statementsOf, statementsOf, hreports, hreports', filter_parsed, filter_parsed, hr.data]
  -- the program of the other source, and its stages
  obtain ⟨program', hprogram'⟩ := Program.exists_ofSource_iff.2
    ⟨⟨files, hleft'⟩, hdistinct.of_statementsOf hperm hcode hdata, (waitingFrom_eq_of_code hcode []).trans hwaiting⟩
  have htwin := s.collects.twin (Program.collects_of_ofSource hprogram') hperm hcode hdata
  obtain ⟨layout', hlayout'⟩ := htwin.exists_layOut s.noBytes_program s.layout_eq
  obtain ⟨s', rfl, -⟩ := exists_stages_of_layOut hprogram' hlayout'
  refine assemble_eq_ok_iff.2 ⟨s', ?_⟩
  have horigin : s'.layout.origin = s.layout.origin := (Stages.lowered_layout htwin).origin.eq
  have hbytes : s'.image.data = s.image.data := Stages.data_image_eq htwin
  have hoperations : s'.operations = s.operations := Stages.operations_eq htwin fun _ _ => .inl rfl
  show (⟨s'.layout.origin, codeOf s'.operations, s'.image.data⟩ : Image) = ⟨_, codeOf s.operations, s.image.data⟩
  rw [horigin, hoperations, hbytes]

/-- Data and a constant in front of the code. -/
def tidySource : String := "#DEFINE FIVE 0X05\n#DB N 1\nSTART:\nMOV A, FIVE\nPUSH N.L\nJMP START"

/-- The data between a label and its instruction, and the constant behind its use. -/
def untidySource : String := "START:\n#DB N 1\nMOV A, FIVE\nPUSH N.L\nJMP START\n#DEFINE FIVE 0X05"

theorem rearranged_assembles_untidy :
    (assemble (.ofList []) 0x200 "a.asm" untidySource).result =
      .ok ⟨0x200, [0x03, 0x06, 0x05, 0x8E, 0x0A, 0x02, 0x02, 0x00, 0x88, 0x01], [0x01]⟩ := by
  have hlines : sourceLines tidySource =
      ["#DEFINE FIVE 0X05", "#DB N 1", "START:", "MOV A, FIVE", "PUSH N.L", "JMP START"] := by cbv
  have hlines' : sourceLines untidySource =
      ["START:", "#DB N 1", "MOV A, FIVE", "PUSH N.L", "JMP START", "#DEFINE FIVE 0X05"] := by cbv
  have himage : (assemble (.ofList []) 0x200 "a.asm" tidySource).result =
      .ok ⟨0x200, [0x03, 0x06, 0x05, 0x8E, 0x0A, 0x02, 0x02, 0x00, 0x88, 0x01], [0x01]⟩ := by cbv
  refine rearranged_assembles himage ?_ ⟨?_, ?_, ?_⟩
  · have hall : (sourceLines tidySource).all
        (fun line => !Statement.reads (fun s => (unplaced s).isSplice) line) = true := by
      rw [hlines]
      cbv
    intro line hl target he
    have hnot := List.all_eq_true.1 hall line hl
    simp [Statement.reads, LocatedStatement.isSplice, he] at hnot
  · rw [hlines, hlines']
    decide
  · rw [hlines, hlines']
    cbv
  · rw [hlines, hlines']
    cbv

end Octet
