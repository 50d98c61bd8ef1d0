import Octet.Proofs.Assembler.Splices
import Octet.Proofs.Assembler.Stages
/-!
Every label names the instruction that comes next.

* `Labelled`: an instruction with the labels in front of it;
* `labelledFrom`: the labelled instructions of some statements, and the labels that are left at the end;
* `labels_name_next`: the lines of a program are the labelled instructions of its source, includes expanded; the first
  of the labels that are left at the end is reported.
-/

namespace Octet

/-! ## Labels and instructions -/

namespace LocatedStatement

/-- A label or an instruction. -/
def isMark (s : LocatedStatement) : Bool :=
  match s.statement with
  | .label _ | .instruction _ => true
  | _ => false

/-- A label in its place. -/
def ofLabel (label : String × Location) : LocatedStatement := ⟨label.2, .label label.1⟩

end LocatedStatement

open LocatedStatement

/-- An instruction with the labels that stand between it and the instruction before. -/
structure Labelled where
  labels : List (String × Location)
  tokens : List String
  loc : Location
deriving DecidableEq, Repr

namespace Labelled

/-- The labels, and then the instruction. -/
def statements (x : Labelled) : List LocatedStatement := x.labels.map ofLabel ++ [⟨x.loc, .instruction x.tokens⟩]

/-- The line of the instruction. -/
def line (x : Labelled) : Line := { Line.ofTokens x.loc x.tokens with labels := x.labels.map (·.1) }

end Labelled

/-- The labelled instructions of some statements and the labels that no instruction follows, if some labels wait
already. -/
def labelledFrom (waiting : List (String × Location)) :
    List LocatedStatement → List Labelled × List (String × Location)
  | [] => ([], waiting)
  | s :: rest =>
    match s.statement with
    | .label name => labelledFrom (waiting ++ [(name, s.loc)]) rest
    | .instruction tokens =>
      let more := labelledFrom [] rest
      (⟨waiting, tokens, s.loc⟩ :: more.1, more.2)
    | _ => labelledFrom waiting rest

/-- Nothing is lost: the labels and instructions are those of the statements, in their order. -/
theorem filter_isMark_eq (waiting : List (String × Location)) (statements : List LocatedStatement) :
    waiting.map ofLabel ++ statements.filter (·.isMark) =
      (labelledFrom waiting statements).1.flatMap Labelled.statements ++
        (labelledFrom waiting statements).2.map ofLabel := by
  induction statements generalizing waiting with
  | nil => simp [labelledFrom]
  | cons s rest ih =>
    obtain ⟨loc, statement⟩ := s
    cases statement with
    | label name => simpa [labelledFrom, isMark, ofLabel] using ih (waiting ++ [(name, loc)])
    | instruction tokens => simpa [labelledFrom, isMark, Labelled.statements] using ih []
    | data | reserve | origin | constant | splice => exact ih waiting

/-- Only labels and instructions count. -/
theorem labelledFrom_filter (waiting : List (String × Location)) (statements : List LocatedStatement) :
    labelledFrom waiting (statements.filter (·.isMark)) = labelledFrom waiting statements := by
  induction statements generalizing waiting with
  | nil => rfl
  | cons s rest ih =>
    obtain ⟨loc, statement⟩ := s
    cases statement with
    | label name => exact ih _
    | instruction tokens =>
      have hnext := congrArg (fun p => ((⟨waiting, tokens, loc⟩ :: p.1, p.2) : List Labelled × _)) (ih [])
      exact hnext
    | data | reserve | origin | constant | splice => exact ih waiting

/-- Labels wait. -/
theorem labelledFrom_labels (waiting labels : List (String × Location)) (rest : List LocatedStatement) :
    labelledFrom waiting (labels.map ofLabel ++ rest) = labelledFrom (waiting ++ labels) rest := by
  induction labels generalizing waiting with
  | nil => rw [List.append_nil]; rfl
  | cons label labels ih => exact (ih _).trans (by rw [List.append_assoc]; rfl)

/-- **Statements are labelled instructions in one way only.** -/
theorem labelledFrom_eq {statements : List LocatedStatement} {instructions : List Labelled}
    {left : List (String × Location)}
    (h : statements.filter (·.isMark) = instructions.flatMap Labelled.statements ++ left.map ofLabel) :
    labelledFrom [] statements = (instructions, left) := by
  rw [← labelledFrom_filter, h]
  clear h
  induction instructions with
  | nil => simpa [labelledFrom] using labelledFrom_labels [] left []
  | cons x rest ih =>
    rw [List.flatMap_cons, Labelled.statements, List.append_assoc, List.append_assoc, labelledFrom_labels]
    simp only [List.cons_append, List.nil_append, labelledFrom, ih]

/-- The lines are those of the labelled instructions. -/
theorem linesFrom_eq_map_line (waiting : List (String × Location)) (statements : List LocatedStatement) :
    linesFrom (waiting.map (·.1)) statements = (labelledFrom waiting statements).1.map Labelled.line := by
  induction statements generalizing waiting with
  | nil => rfl
  | cons s rest ih =>
    obtain ⟨loc, statement⟩ := s
    cases statement with
    | label name =>
      have hnext := ih (waiting ++ [(name, loc)])
      rwa [List.map_append] at hnext
    | instruction tokens => exact congrArg (_ :: ·) (ih [])
    | data | reserve | origin | constant | splice => exact ih waiting

theorem waitingFrom_eq_map_fst (waiting : List (String × Location)) (statements : List LocatedStatement) :
    waitingFrom (waiting.map (·.1)) statements = (labelledFrom waiting statements).2.map (·.1) := by
  induction statements generalizing waiting with
  | nil => rfl
  | cons s rest ih =>
    obtain ⟨loc, statement⟩ := s
    cases statement with
    | label name =>
      have hnext := ih (waiting ++ [(name, loc)])
      rwa [List.map_append] at hnext
    | instruction tokens => exact ih []
    | data | reserve | origin | constant | splice => exact ih waiting

/-! ## Collections -/

namespace Program

/-- The labels that wait after one statement more. -/
theorem waiting_of_collect {c c' : Collection} {s : LocatedStatement} (h : (collect c s).result = .ok c')
    (rest : List LocatedStatement) :
    (labelledFrom c'.waiting.reverse rest).2 = (labelledFrom c.waiting.reverse (s :: rest)).2 := by
  obtain ⟨loc, statement⟩ := s
  cases statement with
  | label name =>
    simp only [collect, Traced.result_bind, Traced.result_lift, Traced.result_emit] at h
    obtain ⟨symbols, -, h⟩ := Except.bind_eq_ok.1 h
    cases h
    rw [List.reverse_cons]
    rfl
  | instruction | origin | splice =>
    cases h
    rfl
  | data | reserve | constant =>
    simp only [collect, Traced.result_bind, Traced.result_lift, Traced.result_emit] at h
    obtain ⟨-, -, h⟩ := Except.bind_eq_ok.1 h
    obtain ⟨symbols, -, h⟩ := Except.bind_eq_ok.1 h
    cases h
    rfl

/-- **The labels that wait** after some statements more. -/
theorem waiting_of_foldList {c c' : Collection} {statements : List LocatedStatement}
    (h : (Traced.foldList collect c statements).result = .ok c') :
    c'.waiting.reverse = (labelledFrom c.waiting.reverse statements).2 := by
  induction statements generalizing c with
  | nil =>
    cases h
    rfl
  | cons s rest ih =>
    rw [Traced.foldList, Traced.result_bind] at h
    obtain ⟨d, hd, h⟩ := Except.bind_eq_ok.1 h
    exact (ih h).trans (waiting_of_collect hd rest)

end Program

/-! ## Sources -/

open SourceTree

variable {files left : SourceFiles} {origin : UInt16} {path text : String} {statements : List LocatedStatement}
  {height : Nat}

/-- A source that is collected yields its statements, and they are labelled instructions. -/
theorem Program.exists_labelled {program : Program} (h : (ofSource files origin path text).result = .ok program) :
    ∃ statements height left, ∃ instructions : List Labelled,
      Yields files path (numberedLines text) statements height left ∧
      height ≤ includeLimit ∧ program.Collects origin statements ∧
      statements.filter (·.isMark) = instructions.flatMap Labelled.statements ∧
      program.lines = instructions.map Labelled.line := by
  have hc := collects_of_ofSource h
  obtain ⟨height, left, hle, hyields⟩ := exists_yields_of_ofSource h
  have hlines := linesFrom_eq_map_line [] (SourceTree.read files path text).reports
  have hmarks := filter_isMark_eq [] (SourceTree.read files path text).reports
  have hwaiting := waitingFrom_eq_map_fst [] (SourceTree.read files path text).reports
  rw [List.map_nil, hc.waiting, eq_comm, List.map_eq_nil_iff] at hwaiting
  rw [hwaiting, List.map_nil, List.nil_append, List.append_nil] at hmarks
  exact ⟨_, height, left, _, hyields, hle, hc, hmarks, hc.lines.trans hlines⟩

/-- **Each label names one line.** -/
theorem Program.Collects.existsUnique_line {program : Program} (h : program.Collects origin statements) {name : String}
    (hn : name ∈ program.symbols.procedureNames) :
    ∃! i : Nat, ∃ line : Line, program.lines[i]? = some line ∧ name ∈ line.labels := by
  rw [h.symbols.procedureNames_eq, ← h.flatMap_labels] at hn
  have hnodup := h.symbols.nodup_labels
  rw [← h.flatMap_labels, List.nodup_flatMap] at hnodup
  obtain ⟨line, hline, hlabel⟩ := List.mem_flatMap.1 hn
  obtain ⟨i, hi⟩ := List.mem_iff_getElem?.1 hline
  refine ⟨i, ⟨line, hi, hlabel⟩, ?_⟩
  rintro j ⟨other, hj, hother⟩
  obtain ⟨hi', rfl⟩ := List.getElem?_eq_some_iff.1 hi
  obtain ⟨hj', rfl⟩ := List.getElem?_eq_some_iff.1 hj
  -- no two lines have a label in common
  have hdisjoint {k l : Nat} (hk : k < program.lines.length) (hl : l < program.lines.length) (hlt : k < l)
      (hkl : name ∈ program.lines[k].labels) (hll : name ∈ program.lines[l].labels) : False :=
    List.pairwise_iff_getElem.1 hnodup.2 k l hk hl hlt hkl hll
  rcases Nat.lt_trichotomy i j with hlt | heq | hlt
  · exact (hdisjoint hi' hj' hlt hlabel hother).elim
  · exact heq.symm
  · exact (hdisjoint hj' hi' hlt hother hlabel).elim

/-- A source whose last labels no instruction follows is refused. -/
theorem Program.ofSource_of_dangling (h : Yields files path (numberedLines text) statements height left)
    (hle : height ≤ includeLimit) (hd : Distinct statements) {instructions : List Labelled} {name : String}
    {loc : Location} {rest : List (String × Location)}
    (hm : statements.filter (·.isMark) =
      instructions.flatMap Labelled.statements ++ ((name, loc) :: rest).map ofLabel) :
    (ofSource files origin path text).result = .error (.inLine (.danglingLabel name) loc) := by
  have hstart : ({ origin := origin } : Collection).Holds origin [] := ⟨rfl, Symbols.Declared.nil, rfl, rfl⟩
  obtain ⟨c, hc⟩ := hstart.exists_foldList hd
  have hwaiting := waiting_of_foldList hc
  rw [List.reverse_nil, labelledFrom_eq hm] at hwaiting
  have hlast : c.waiting.getLast? = some (name, loc) := by rw [← List.head?_reverse, hwaiting]; rfl
  rw [ofSource_eq, result_ofStream, h.read_eq hle, hc, Except.ok_bind, Except.ok_bind, finish, hlast]

/-- **Every label names the instruction that comes next.** A program has a line for each instruction of its source,
includes expanded, in that order, and the labels of a line are those that stand between it and the instruction before.
So every label is a name of one line, and a layout gives it an address. If all that is wrong with a source is that no
instruction follows its last labels, the first of these is reported. -/
theorem labels_name_next (files : SourceFiles) (origin : UInt16) (path text : String) :
    (∀ program, (Program.ofSource files origin path text).result = .ok program →
      (∃ statements height left, ∃ instructions : List Labelled,
        Yields files path (numberedLines text) statements height left ∧ height ≤ includeLimit ∧
        statements.filter (·.isMark) = instructions.flatMap Labelled.statements ∧
        program.lines = instructions.map Labelled.line) ∧
      program.symbols.procedureNames = program.lines.flatMap (·.labels) ∧
      program.symbols.procedureNames.Nodup ∧
      (∀ name ∈ program.symbols.procedureNames,
        ∃! i : Nat, ∃ line : Line, program.lines[i]? = some line ∧ name ∈ line.labels) ∧
      ∀ layout, program.layOut.result = .ok layout → ∀ name ∈ program.symbols.procedureNames,
        ∃ address, layout.symbols.procedure? name = some (some address)) ∧
    ∀ statements height left (instructions : List Labelled) name loc rest,
      Yields files path (numberedLines text) statements height left → height ≤ includeLimit → Program.Distinct statements →
      statements.filter (·.isMark) =
        instructions.flatMap Labelled.statements ++ ((name, loc) :: rest).map ofLabel →
      (Program.ofSource files origin path text).result = .error (.inLine (.danglingLabel name) loc) := by
  refine ⟨fun program h => ?_, fun _ _ _ _ _ _ _ hyields hle hd hm => Program.ofSource_of_dangling hyields hle hd hm⟩
  obtain ⟨statements, height, left, instructions, hyields, hle, hc, hmarks, hlines⟩ := Program.exists_labelled h
  have hnames : program.symbols.procedureNames = labelsOf statements := hc.symbols.procedureNames_eq
  refine ⟨⟨statements, height, left, instructions, hyields, hle, hmarks, hlines⟩, hnames.trans hc.flatMap_labels.symm,
    hnames ▸ hc.symbols.nodup_labels, fun name hn => hc.existsUnique_line hn, fun layout hl name hn => ?_⟩
  obtain ⟨placed, sizes, hlaid⟩ := Program.exists_laidOut hl
  obtain ⟨p, hp, hlabel⟩ := hlaid.exists_mem_of_label hc (hnames ▸ hn)
  exact ⟨p.address, hlaid.procedure?_of_mem hc hp hlabel⟩

/-- A file whose last label waits. -/
def waitingFiles : SourceFiles where
  text := fun path => if path = "io.asm" then .ok "PRINT:\nNOP\nTAIL:" else .error .missing

theorem labels_name_next_include :
    (∃ program, (Program.ofSource waitingFiles 0x100 "main.asm" "FIRST:\n#INCLUDE \"io.asm\"\nLAST:\nJMP LAST").result =
        .ok program ∧ program.lines.map (·.labels) = [["FIRST", "PRINT"], ["TAIL", "LAST"]] ∧
      ∃! i : Nat, ∃ line : Line, program.lines[i]? = some line ∧ "TAIL" ∈ line.labels) ∧
    (Program.ofSource waitingFiles 0x100 "main.asm" "#INCLUDE \"io.asm\"\nLAST:").result =
      .error (.inLine (.danglingLabel "TAIL") ⟨"io.asm", 3⟩) := by
  constructor
  · have h : (Program.ofSource waitingFiles 0x100 "main.asm" "FIRST:\n#INCLUDE \"io.asm\"\nLAST:\nJMP LAST").result =
        .ok {
          origin := 0x100
          lines := [
            { loc := ⟨"io.asm", 2⟩, mnemonic := "NOP", labels := ["FIRST", "PRINT"] },
            { loc := ⟨"main.asm", 4⟩, mnemonic := "JMP", operands := ["LAST"], labels := ["TAIL", "LAST"] }]
          symbols := { procedures := [("FIRST", none), ("PRINT", none), ("TAIL", none), ("LAST", none)] } } := by cbv
    obtain ⟨-, -, -, hunique, -⟩ := (labels_name_next _ _ _ _).1 _ h
    exact ⟨_, h, rfl, hunique "TAIL" (by decide)⟩
  · have hlines : numberedLines "#INCLUDE \"io.asm\"\nLAST:" = [(1, "#INCLUDE \"io.asm\""), (2, "LAST:")] := by cbv
    have hinner : numberedLines "PRINT:\nNOP\nTAIL:" = [(1, "PRINT:"), (2, "NOP"), (3, "TAIL:")] := by cbv
    have hresolve : SourcePath.resolve "main.asm" "io.asm" = "io.asm" := by cbv
    have hyields : Yields waitingFiles "main.asm" (numberedLines "#INCLUDE \"io.asm\"\nLAST:")
        [⟨⟨"main.asm", 1⟩, .splice "io.asm"⟩, ⟨⟨"io.asm", 1⟩, .label "PRINT"⟩, ⟨⟨"io.asm", 2⟩, .instruction ["NOP"]⟩,
          ⟨⟨"io.asm", 3⟩, .label "TAIL"⟩, ⟨⟨"main.asm", 2⟩, .label "LAST"⟩] 1 waitingFiles := by
      rw [hlines]
      have hincluded : Yields waitingFiles "io.asm" (numberedLines "PRINT:\nNOP\nTAIL:")
          [⟨⟨"io.asm", 1⟩, .label "PRINT"⟩, ⟨⟨"io.asm", 2⟩, .instruction ["NOP"]⟩, ⟨⟨"io.asm", 3⟩, .label "TAIL"⟩] 0
          waitingFiles := by
        rw [hinner]
        exact .plain (by cbv) (fun _ => by simp) (.plain (by cbv) (fun _ => by simp)
          (.plain (by cbv) (fun _ => by simp) (.nil ..)))
      have hload : waitingFiles.load (SourcePath.resolve "main.asm" "io.asm") =
          .ok ("PRINT:\nNOP\nTAIL:", waitingFiles) := by
        rw [hresolve]
        rfl
      have hparse : Statement.parse "#INCLUDE \"io.asm\"" = .ok (.splice "io.asm") := by cbv
      have hrest : Yields waitingFiles "main.asm" [(2, "LAST:")] [⟨⟨"main.asm", 2⟩, .label "LAST"⟩] 0 waitingFiles :=
        .plain (by cbv) (fun _ => by simp) (.nil ..)
      have hsplice := Yields.splice (n := 1) hparse hload (hresolve.symm ▸ hincluded) hrest
      rwa [hresolve] at hsplice
    exact (labels_name_next _ _ _ _).2 _ 1 _ [⟨[("PRINT", ⟨"io.asm", 1⟩)], ["NOP"], ⟨"io.asm", 2⟩⟩] _ _
      [("LAST", ⟨"main.asm", 2⟩)] hyields (by decide) ⟨by decide, by decide, by decide⟩ rfl

end Octet
