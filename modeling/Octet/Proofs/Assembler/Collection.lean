import Octet.Assembler.Program
import Octet.Proofs.Outcomes
import Octet.Proofs.Assembler.Tables
/-!
What a program is made of, statement by statement of its source.

* `linesFrom`: the instruction lines, each with the labels that stand between it and the one before;
* `Program.Collects`: a program has the lines, the labels, the constants and the data of some statements, and no name
  stands for two things of one kind;
* `collects_of_ofSource`: a program that is read from a source collects the statements of the source;
* `exists_ofSource_iff`, `ofSource_of_collects`: which sources make a program, and that it is the one that collects
  them.
-/

namespace Octet

/-! ## Statements -/

namespace LocatedStatement

/-- The label that a statement declares. -/
def label? (s : LocatedStatement) : Option String :=
  match s.statement with
  | .label name => some name
  | _ => none

/-- The tokens of an instruction. -/
def tokens? (s : LocatedStatement) : Option (List String) :=
  match s.statement with
  | .instruction tokens => some tokens
  | _ => none

/-- The data that a statement declares. They have no address yet. -/
def datum? (s : LocatedStatement) : Option Datum :=
  match s.statement with
  | .data name bytes => some { name := name, bytes := bytes, loc := s.loc }
  | .reserve name count => some { name := name, bytes := List.replicate count 0, loc := s.loc }
  | _ => none

/-- The constant that a statement defines. -/
def constant? (s : LocatedStatement) : Option (String × String) :=
  match s.statement with
  | .constant name text => some (name, text)
  | _ => none

end LocatedStatement

/-- The labels that some statements declare. -/
def labelsOf (statements : List LocatedStatement) : List String := statements.filterMap (·.label?)

/-- The data that some statements declare. -/
def dataOf (statements : List LocatedStatement) : List Datum := statements.filterMap (·.datum?)

/-- The constants that some statements define. -/
def constantsOf (statements : List LocatedStatement) : List (String × String) := statements.filterMap (·.constant?)

/-- The tokens of the instructions among some statements. -/
def instructionsOf (statements : List LocatedStatement) : List (List String) := statements.filterMap (·.tokens?)

/-- The origin after some statements, if it was `start` before them. -/
def originAfter (start : UInt16) : List LocatedStatement → UInt16
  | [] => start
  | s :: rest =>
    match s.statement with
    | .origin address => originAfter address rest
    | _ => originAfter start rest

/-- The labels that wait for an instruction after some statements, if `waiting` did before them. -/
def waitingFrom (waiting : List String) : List LocatedStatement → List String
  | [] => waiting
  | s :: rest =>
    match s.statement with
    | .label name => waitingFrom (waiting ++ [name]) rest
    | .instruction _ => waitingFrom [] rest
    | _ => waitingFrom waiting rest

/-- The instruction lines of some statements. The labels in front of the first one come after `waiting`. -/
def linesFrom (waiting : List String) : List LocatedStatement → List Line
  | [] => []
  | s :: rest =>
    match s.statement with
    | .label name => linesFrom (waiting ++ [name]) rest
    | .instruction tokens => { Line.ofTokens s.loc tokens with labels := waiting } :: linesFrom [] rest
    | _ => linesFrom waiting rest

theorem waitingFrom_append (waiting : List String) (xs ys : List LocatedStatement) :
    waitingFrom waiting (xs ++ ys) = waitingFrom (waitingFrom waiting xs) ys := by
  induction xs generalizing waiting with
  | nil => rfl
  | cons s xs ih =>
    simp only [List.cons_append, waitingFrom]
    split <;> exact ih _

theorem originAfter_append (start : UInt16) (xs ys : List LocatedStatement) :
    originAfter start (xs ++ ys) = originAfter (originAfter start xs) ys := by
  induction xs generalizing start with
  | nil => rfl
  | cons s xs ih =>
    simp only [List.cons_append, originAfter]
    split <;> exact ih _

theorem linesFrom_append (waiting : List String) (xs ys : List LocatedStatement) :
    linesFrom waiting (xs ++ ys) = linesFrom waiting xs ++ linesFrom (waitingFrom waiting xs) ys := by
  induction xs generalizing waiting with
  | nil => rfl
  | cons s xs ih =>
    simp only [List.cons_append, linesFrom, waitingFrom]
    split
    · exact ih _
    · rw [ih, List.cons_append]
    · exact ih _

/-- Every label names a line or still waits, in the order of the source. -/
theorem flatMap_labels_linesFrom (waiting : List String) (statements : List LocatedStatement) :
    (linesFrom waiting statements).flatMap (·.labels) ++ waitingFrom waiting statements =
      waiting ++ labelsOf statements := by
  induction statements generalizing waiting with
  | nil => simp [linesFrom, waitingFrom, labelsOf]
  | cons s rest ih =>
    obtain ⟨loc, statement⟩ := s
    cases statement with
    | label name => exact (ih (waiting ++ [name])).trans (List.append_assoc ..)
    | instruction tokens =>
      show (waiting ++ (linesFrom [] rest).flatMap (·.labels)) ++ waitingFrom [] rest = waiting ++ labelsOf rest
      rw [List.append_assoc, ih []]
      rfl
    | data | reserve | origin | constant | splice => exact ih waiting

/-- There is a line for each instruction. -/
theorem map_tokens_linesFrom (waiting : List String) (statements : List LocatedStatement) :
    (linesFrom waiting statements).map (fun line => (line.mnemonic, line.operands)) =
      (instructionsOf statements).map fun tokens => (tokens.headD "", tokens.tail) := by
  induction statements generalizing waiting with
  | nil => rfl
  | cons s rest ih =>
    obtain ⟨loc, statement⟩ := s
    cases statement with
    | instruction tokens => exact congrArg (_ :: ·) (ih [])
    | label name => exact ih _
    | data | reserve | origin | constant | splice => exact ih waiting

theorem length_linesFrom (waiting : List String) (statements : List LocatedStatement) :
    (linesFrom waiting statements).length = (instructionsOf statements).length := by
  have h := congrArg List.length (map_tokens_linesFrom waiting statements)
  rwa [List.length_map, List.length_map] at h

/-! ## Labels and the instructions after them -/

/-- A label stands in front of the instruction number `i`: there is no other instruction between them. -/
def Precedes (statements : List LocatedStatement) (name : String) (i : Nat) : Prop :=
  ∃ before loc between loc' tokens after,
    statements = before ++ ⟨loc, .label name⟩ :: (between ++ ⟨loc', .instruction tokens⟩ :: after) ∧
      (∀ s ∈ between, s.tokens? = none) ∧ (instructionsOf before).length = i

theorem Precedes.mem_labelsOf {statements : List LocatedStatement} {name : String} {i : Nat}
    (h : Precedes statements name i) : name ∈ labelsOf statements := by
  obtain ⟨before, loc, between, loc', tokens, after, rfl, -, -⟩ := h
  exact List.mem_filterMap.2 ⟨⟨loc, .label name⟩, by simp, rfl⟩

/-- Labels go on waiting where there is no instruction, and no line is made there. -/
theorem waitingFrom_of_no_instruction {waiting : List String} {statements : List LocatedStatement} {name : String}
    (h : ∀ s ∈ statements, s.tokens? = none) (hn : name ∈ waiting) :
    name ∈ waitingFrom waiting statements ∧ linesFrom waiting statements = [] := by
  induction statements generalizing waiting with
  | nil => exact ⟨hn, rfl⟩
  | cons s rest ih =>
    rw [List.forall_mem_cons] at h
    obtain ⟨loc, statement⟩ := s
    cases statement with
    | instruction tokens => cases h.1
    | label other => exact ih h.2 (List.mem_append_left _ hn)
    | data | reserve | origin | constant | splice => exact ih h.2 hn

/-- The line of an instruction has the labels that stand in front of it. -/
theorem Precedes.exists_line {statements : List LocatedStatement} {name : String} {i : Nat}
    (h : Precedes statements name i) : ∃ line, (linesFrom [] statements)[i]? = some line ∧ name ∈ line.labels := by
  obtain ⟨before, loc, between, loc', tokens, after, rfl, hbetween, rfl⟩ := h
  rw [linesFrom_append, ← length_linesFrom []]
  show ∃ line, (linesFrom [] before ++ linesFrom (waitingFrom [] before ++ [name])
    (between ++ ⟨loc', .instruction tokens⟩ :: after))[(linesFrom [] before).length]? = some line ∧ name ∈ line.labels
  have hname : name ∈ waitingFrom [] before ++ [name] := List.mem_append_right _ (List.mem_singleton_self name)
  obtain ⟨hwaits, hnil⟩ := waitingFrom_of_no_instruction hbetween hname
  rw [linesFrom_append, hnil, List.nil_append, List.getElem?_append_right (Nat.le_refl _), Nat.sub_self]
  exact ⟨_, rfl, hwaits⟩

/-- Statements without an instruction, or with a first one. -/
theorem no_instruction_or_first (statements : List LocatedStatement) :
    (∀ s ∈ statements, s.tokens? = none) ∨ ∃ between loc tokens after,
      statements = between ++ ⟨loc, .instruction tokens⟩ :: after ∧ ∀ s ∈ between, s.tokens? = none := by
  induction statements with
  | nil => exact .inl (List.forall_mem_nil _)
  | cons s rest ih =>
    cases hs : s.tokens? with
    | some tokens =>
      obtain ⟨loc, statement⟩ := s
      obtain rfl : statement = .instruction tokens := by cases statement <;> cases hs; rfl
      exact .inr ⟨[], loc, tokens, rest, rfl, List.forall_mem_nil _⟩
    | none =>
      rcases ih with hnone | ⟨between, loc, tokens, after, rfl, hbetween⟩
      · exact .inl (List.forall_mem_cons.2 ⟨hs, hnone⟩)
      · exact .inr ⟨s :: between, loc, tokens, after, rfl, List.forall_mem_cons.2 ⟨hs, hbetween⟩⟩

/-- Where no label waits at the end, every label stands in front of an instruction. -/
theorem exists_precedes {statements : List LocatedStatement} {name : String} (hw : waitingFrom [] statements = [])
    (hn : name ∈ labelsOf statements) : ∃ i, i < (instructionsOf statements).length ∧ Precedes statements name i := by
  obtain ⟨⟨loc, statement⟩, hmem, hl⟩ := List.mem_filterMap.1 hn
  obtain rfl : statement = .label name := by cases statement <;> cases hl; rfl
  obtain ⟨before, rest, rfl⟩ := List.append_of_mem hmem
  rcases no_instruction_or_first rest with hnone | ⟨between, loc', tokens, after, rfl, hbetween⟩
  · have hname : name ∈ waitingFrom [] before ++ [name] := List.mem_append_right _ (List.mem_singleton_self name)
    have hwaits : name ∈ waitingFrom (waitingFrom [] before ++ [name]) rest :=
      (waitingFrom_of_no_instruction hnone hname).1
    rw [waitingFrom_append] at hw
    exact absurd hwaits (by rw [show waitingFrom (waitingFrom [] before ++ [name]) rest = [] from hw]; simp)
  · refine ⟨(instructionsOf before).length, ?_, before, loc, between, loc', tokens, after, rfl, hbetween, rfl⟩
    let rest : List LocatedStatement := between ++ ⟨loc', .instruction tokens⟩ :: after
    have htokens : tokens ∈ instructionsOf rest :=
      List.mem_filterMap.2 ⟨⟨loc', .instruction tokens⟩, List.mem_append_right _ (List.mem_cons_self ..), rfl⟩
    have hsplit : instructionsOf (before ++ ⟨loc, .label name⟩ :: rest) = instructionsOf before ++ instructionsOf rest :=
      List.filterMap_append
    rw [hsplit, List.length_append]
    exact Nat.lt_add_of_pos_right (List.length_pos_of_mem htokens)

/-! ## Collecting -/

/-- The tables hold what some statements declare, and no name stands for two things of one kind. -/
structure Symbols.Declared (symbols : Symbols) (statements : List LocatedStatement) : Prop where
  procedures : symbols.procedures = (labelsOf statements).map (·, none)
  constants : symbols.constants = constantsOf statements
  data : symbols.data = dataOf statements
  nodup_labels : (labelsOf statements).Nodup
  nodup_constants : ((constantsOf statements).map (·.1)).Nodup
  nodup_data : ((dataOf statements).map (·.name)).Nodup

theorem labelsOf_concat (statements : List LocatedStatement) (s : LocatedStatement) :
    labelsOf (statements ++ [s]) = labelsOf statements ++ s.label?.toList := by
  simp [labelsOf, List.filterMap_cons]
  cases s.label? <;> rfl

theorem dataOf_concat (statements : List LocatedStatement) (s : LocatedStatement) :
    dataOf (statements ++ [s]) = dataOf statements ++ s.datum?.toList := by
  simp [dataOf, List.filterMap_cons]
  cases s.datum? <;> rfl

theorem constantsOf_concat (statements : List LocatedStatement) (s : LocatedStatement) :
    constantsOf (statements ++ [s]) = constantsOf statements ++ s.constant?.toList := by
  simp [constantsOf, List.filterMap_cons]
  cases s.constant? <;> rfl

namespace Symbols.Declared

variable {symbols : Symbols} {statements : List LocatedStatement} {s : LocatedStatement}

theorem procedureNames_eq (h : symbols.Declared statements) : symbols.procedureNames = labelsOf statements := by
  simp [procedureNames, h.procedures, Function.comp_def]

theorem nil : ({} : Symbols).Declared [] :=
  ⟨rfl, rfl, rfl, List.nodup_nil, List.nodup_nil, List.nodup_nil⟩

/-- A statement that declares nothing changes no table. -/
theorem idle (h : symbols.Declared statements) (hl : s.label? = none) (hd : s.datum? = none)
    (hc : s.constant? = none) : symbols.Declared (statements ++ [s]) := by
  constructor <;> simp only [labelsOf_concat, dataOf_concat, constantsOf_concat, hl, hd, hc, Option.toList_none,
    List.append_nil]
  exacts [h.procedures, h.constants, h.data, h.nodup_labels, h.nodup_constants, h.nodup_data]

/-- A new label is a procedure whose address is not known yet. -/
theorem label {name : String} (h : symbols.Declared statements) (hl : s.label? = some name) (hd : s.datum? = none)
    (hc : s.constant? = none) (hn : name ∉ symbols.procedureNames) :
    ({ symbols with procedures := symbols.procedures ++ [(name, none)] } : Symbols).Declared (statements ++ [s]) := by
  constructor <;> simp only [labelsOf_concat, dataOf_concat, constantsOf_concat, hl, hd, hc, Option.toList_none,
    Option.toList_some, List.append_nil]
  · rw [h.procedures]; simp
  · exact h.constants
  · exact h.data
  · rw [← List.concat_eq_append]
    exact h.nodup_labels.concat (h.procedureNames_eq ▸ hn)
  · exact h.nodup_constants
  · exact h.nodup_data

/-- A new datum comes after the others. -/
theorem datum {datum : Datum} (h : symbols.Declared statements) (hl : s.label? = none) (hd : s.datum? = some datum)
    (hc : s.constant? = none) (hn : datum.name ∉ symbols.dataNames) :
    ({ symbols with data := symbols.data ++ [datum] } : Symbols).Declared (statements ++ [s]) := by
  constructor <;> simp only [labelsOf_concat, dataOf_concat, constantsOf_concat, hl, hd, hc, Option.toList_none,
    Option.toList_some, List.append_nil]
  · exact h.procedures
  · exact h.constants
  · rw [h.data]
  · exact h.nodup_labels
  · exact h.nodup_constants
  · rw [List.map_append, List.map_cons, List.map_nil, ← List.concat_eq_append, ← h.data]
    exact List.Nodup.concat hn (h.data ▸ h.nodup_data)

/-- A new constant comes after the others. -/
theorem constant {name text : String} (h : symbols.Declared statements) (hl : s.label? = none) (hd : s.datum? = none)
    (hc : s.constant? = some (name, text)) (hn : name ∉ symbols.constantNames) :
    ({ symbols with constants := symbols.constants ++ [(name, text)] } : Symbols).Declared (statements ++ [s]) := by
  constructor <;> simp only [labelsOf_concat, dataOf_concat, constantsOf_concat, hl, hd, hc, Option.toList_none,
    Option.toList_some, List.append_nil]
  · exact h.procedures
  · rw [h.constants]
  · exact h.data
  · exact h.nodup_labels
  · rw [List.map_append, List.map_cons, List.map_nil, ← List.concat_eq_append, ← h.constants]
    exact List.Nodup.concat hn (h.constants ▸ h.nodup_constants)
  · exact h.nodup_data

end Symbols.Declared

namespace Program

/-- What some statements leave behind in a collection. -/
structure Collection.Holds (start : UInt16) (c : Collection) (statements : List LocatedStatement) : Prop where
  origin : c.origin = originAfter start statements
  symbols : c.symbols.Declared statements
  lines : c.reversed.reverse = linesFrom [] statements
  waiting : (c.waiting.map (·.1)).reverse = waitingFrom [] statements

/-- A program made of some statements: they end in no label that still waits. -/
structure Collects (start : UInt16) (program : Program) (statements : List LocatedStatement) : Prop where
  origin : program.origin = originAfter start statements
  symbols : program.symbols.Declared statements
  lines : program.lines = linesFrom [] statements
  waiting : waitingFrom [] statements = []

theorem faultIn_eq_ok {α : Type} {loc : Location} {x : Except Fault α} {a : α} :
    faultIn loc x = .ok a ↔ x = .ok a := by
  cases x <;> simp [faultIn, Except.mapError]

/-- One statement more. -/
theorem Collection.Holds.collect {start : UInt16} {c c' : Collection} {statements : List LocatedStatement}
    {s : LocatedStatement} (hc : c.Holds start statements) (h : (Program.collect c s).result = .ok c') :
    c'.Holds start (statements ++ [s]) := by
  obtain ⟨horigin, hsym, hlines, hwaiting⟩ := hc
  have ho := originAfter_append start statements [s]
  have hl := linesFrom_append [] statements [s]
  have hw := waitingFrom_append [] statements [s]
  rw [← hlines, ← hwaiting] at hl
  rw [← hwaiting] at hw
  rw [← horigin] at ho
  obtain ⟨loc, statement⟩ := s
  cases statement with
  | label name =>
    simp only [Program.collect, Traced.result_bind, Traced.result_lift, Traced.result_emit] at h
    obtain ⟨symbols, hs, h⟩ := Except.bind_eq_ok.1 h
    obtain ⟨hn, rfl⟩ := Symbols.declareProcedure_eq_ok_iff.1 (faultIn_eq_ok.1 hs)
    cases h
    exact ⟨ho.symm, hsym.label rfl rfl rfl hn, hl ▸ (List.append_nil _).symm, hw ▸ by simp [waitingFrom]⟩
  | instruction tokens =>
    cases h
    exact ⟨ho.symm, hsym.idle rfl rfl rfl, hl ▸ by simp [linesFrom], hw ▸ rfl⟩
  | data name bytes =>
    simp only [Program.collect, Traced.result_bind, Traced.result_lift, Traced.result_emit] at h
    obtain ⟨-, -, h⟩ := Except.bind_eq_ok.1 h
    obtain ⟨symbols, hs, h⟩ := Except.bind_eq_ok.1 h
    obtain ⟨hn, rfl⟩ := Symbols.addDatum_eq_ok_iff.1 (faultIn_eq_ok.1 hs)
    cases h
    exact ⟨ho.symm, hsym.datum rfl rfl rfl hn, hl ▸ (List.append_nil _).symm, hw ▸ rfl⟩
  | reserve name count =>
    simp only [Program.collect, Traced.result_bind, Traced.result_lift, Traced.result_emit] at h
    obtain ⟨-, -, h⟩ := Except.bind_eq_ok.1 h
    obtain ⟨symbols, hs, h⟩ := Except.bind_eq_ok.1 h
    obtain ⟨hn, rfl⟩ := Symbols.addDatum_eq_ok_iff.1 (faultIn_eq_ok.1 hs)
    cases h
    exact ⟨ho.symm, hsym.datum rfl rfl rfl hn, hl ▸ (List.append_nil _).symm, hw ▸ rfl⟩
  | constant name text =>
    simp only [Program.collect, Traced.result_bind, Traced.result_lift, Traced.result_emit] at h
    obtain ⟨-, -, h⟩ := Except.bind_eq_ok.1 h
    obtain ⟨symbols, hs, h⟩ := Except.bind_eq_ok.1 h
    obtain ⟨hn, rfl⟩ := Symbols.defineConstant_eq_ok_iff.1 (faultIn_eq_ok.1 hs)
    cases h
    exact ⟨ho.symm, hsym.constant rfl rfl rfl hn, hl ▸ (List.append_nil _).symm, hw ▸ rfl⟩
  | origin address =>
    cases h
    exact ⟨ho.symm, hsym.idle rfl rfl rfl, hl ▸ (List.append_nil _).symm, hw ▸ rfl⟩
  | splice path =>
    cases h
    exact ⟨ho.symm, hsym.idle rfl rfl rfl, hl ▸ (List.append_nil _).symm, hw ▸ rfl⟩

/-- Some statements more. -/
theorem Collection.Holds.foldList {start : UInt16} {c c' : Collection} {done rest : List LocatedStatement}
    (hc : c.Holds start done) (h : (Traced.foldList Program.collect c rest).result = .ok c') : c'.Holds start (done ++ rest) := by
  induction rest generalizing c done with
  | nil =>
    cases h
    rwa [List.append_nil]
  | cons s rest ih =>
    rw [Traced.foldList, Traced.result_bind] at h
    obtain ⟨d, hd, h⟩ := Except.bind_eq_ok.1 h
    rw [List.append_cons]
    exact ih (hc.collect hd) h

/-- What becomes of a stream. -/
theorem result_ofStream (origin : UInt16) (stream : SourceTree.Stream) :
    (ofStream origin stream).result =
      (Traced.foldList collect { origin := origin } stream.reports).result >>= fun c =>
        stream.result >>= fun _ => finish c := by
  simp only [ofStream, Traced.foldReports, Traced.result_bind, bind_assoc, Traced.result_lift]
  rfl

/-- **A program collects the statements of its source.** -/
theorem collects_of_ofSource {files : SourceFiles} {origin : UInt16} {path text : String} {program : Program}
    (h : (ofSource files origin path text).result = .ok program) :
    program.Collects origin (SourceTree.read files path text).reports := by
  rw [ofSource_eq, result_ofStream] at h
  obtain ⟨c, hc, h⟩ := Except.bind_eq_ok.1 h
  obtain ⟨left, -, h⟩ := Except.bind_eq_ok.1 h
  have hholds := Collection.Holds.foldList ⟨rfl, Symbols.Declared.nil, rfl, rfl⟩ hc
  rw [List.nil_append] at hholds
  unfold finish at h
  split at h
  · cases h
  · rename_i hw
    cases h
    have hw : c.waiting = [] := List.getLast?_eq_none_iff.1 hw
    exact ⟨hholds.origin, hholds.symbols, hholds.lines, by rw [← hholds.waiting, hw]; rfl⟩

/-- Statements that are collected make one program. -/
theorem Collects.unique {start : UInt16} {p q : Program} {statements : List LocatedStatement}
    (hp : p.Collects start statements) (hq : q.Collects start statements) : p = q := by
  obtain ⟨origin, lines, symbols⟩ := p
  obtain ⟨origin', lines', symbols'⟩ := q
  obtain rfl : origin = origin' := hp.origin.trans hq.origin.symm
  obtain rfl : lines = lines' := hp.lines.trans hq.lines.symm
  obtain ⟨constants, procedures, data⟩ := symbols
  obtain ⟨constants', procedures', data'⟩ := symbols'
  obtain rfl : constants = constants' := hp.symbols.constants.trans hq.symbols.constants.symm
  obtain rfl : procedures = procedures' := hp.symbols.procedures.trans hq.symbols.procedures.symm
  obtain rfl : data = data' := hp.symbols.data.trans hq.symbols.data.symm
  rfl

/-- No name is declared twice as one kind of thing. -/
structure Distinct (statements : List LocatedStatement) : Prop where
  labels : (labelsOf statements).Nodup
  constants : ((constantsOf statements).map (·.1)).Nodup
  data : ((dataOf statements).map (·.name)).Nodup

theorem Distinct.of_append {xs ys : List LocatedStatement} (h : Distinct (xs ++ ys)) : Distinct xs := by
  have hsub := List.sublist_append_left xs ys
  exact ⟨h.labels.sublist (hsub.filterMap _), h.constants.sublist ((hsub.filterMap _).map _),
    h.data.sublist ((hsub.filterMap _).map _)⟩

/-- A statement that declares no name a second time is collected. -/
theorem Collection.Holds.exists_collect {start : UInt16} {c : Collection} {statements : List LocatedStatement}
    {s : LocatedStatement} (hc : c.Holds start statements) (hd : Distinct (statements ++ [s])) :
    ∃ c', (Program.collect c s).result = .ok c' := by
  have hlift {f : Symbols → Except AsmError Collection} {x : Except Fault Symbols} (hx : ∃ symbols, x = .ok symbols)
      (hf : ∀ symbols, ∃ c', f symbols = .ok c') : ∃ c', faultIn s.loc x >>= f = .ok c' := by
    obtain ⟨symbols, hx⟩ := hx
    obtain ⟨c', hf⟩ := hf symbols
    exact ⟨c', Except.bind_eq_ok.2 ⟨symbols, faultIn_eq_ok.2 hx, hf⟩⟩
  have hdatum (datum : Datum) (h : s.datum? = some datum) : ∃ symbols, c.symbols.addDatum datum = .ok symbols := by
    have hnew := hd.data
    rw [dataOf_concat, h, ← hc.symbols.data, Option.toList_some, List.map_append, List.nodup_append] at hnew
    exact ⟨_, Symbols.addDatum_eq_ok_iff.2 ⟨fun hmem => hnew.2.2 _ hmem _ (List.mem_singleton_self _) rfl, rfl⟩⟩
  obtain ⟨loc, statement⟩ := s
  cases statement with
  | label name =>
    have hnew := hd.labels
    rw [labelsOf_concat, ← hc.symbols.procedureNames_eq, List.nodup_append] at hnew
    have hdeclare : ∃ symbols, c.symbols.declareProcedure name = .ok symbols :=
      ⟨_, Symbols.declareProcedure_eq_ok_iff.2 ⟨fun hmem => hnew.2.2 _ hmem _ (List.mem_singleton_self _) rfl, rfl⟩⟩
    simp only [Program.collect, Traced.result_bind, Traced.result_lift, Traced.result_emit]
    exact hlift hdeclare fun symbols => ⟨_, rfl⟩
  | data name bytes =>
    simp only [Program.collect, Traced.result_bind, Traced.result_lift, Traced.result_emit]
    exact hlift (hdatum _ rfl) fun symbols => ⟨_, rfl⟩
  | reserve name count =>
    simp only [Program.collect, Traced.result_bind, Traced.result_lift, Traced.result_emit]
    exact hlift (hdatum _ rfl) fun symbols => ⟨_, rfl⟩
  | constant name text =>
    have hnew := hd.constants
    rw [constantsOf_concat, List.map_append, ← hc.symbols.constants, List.nodup_append] at hnew
    have hdefine : ∃ symbols, c.symbols.defineConstant name text = .ok symbols :=
      ⟨_, Symbols.defineConstant_eq_ok_iff.2 ⟨fun hmem => hnew.2.2 _ hmem _ (List.mem_singleton_self _) rfl, rfl⟩⟩
    simp only [Program.collect, Traced.result_bind, Traced.result_lift, Traced.result_emit]
    exact hlift hdefine fun symbols => ⟨_, rfl⟩
  | instruction | origin | splice => exact ⟨_, rfl⟩

/-- Some statements more, if no name is declared twice. -/
theorem Collection.Holds.exists_foldList {start : UInt16} {c : Collection} {done rest : List LocatedStatement}
    (hc : c.Holds start done) (hd : Distinct (done ++ rest)) :
    ∃ c', (Traced.foldList Program.collect c rest).result = .ok c' := by
  induction rest generalizing c done with
  | nil => exact ⟨c, rfl⟩
  | cons s rest ih =>
    rw [List.append_cons] at hd
    obtain ⟨c', hcollect⟩ := hc.exists_collect hd.of_append
    obtain ⟨last, hlast⟩ := ih (hc.collect hcollect) hd
    refine ⟨last, ?_⟩
    rw [Traced.foldList, Traced.result_bind, hcollect]
    exact hlast

/-- **A source makes a program** iff it is read to its end, no name is declared twice, and no label waits. -/
theorem exists_ofSource_iff {files : SourceFiles} {origin : UInt16} {path text : String} :
    (∃ program, (ofSource files origin path text).result = .ok program) ↔
      (∃ left, (SourceTree.read files path text).result = .ok left) ∧
        Distinct (SourceTree.read files path text).reports ∧
          waitingFrom [] (SourceTree.read files path text).reports = [] := by
  constructor
  · rintro ⟨program, h⟩
    have hc := collects_of_ofSource h
    rw [ofSource_eq, result_ofStream] at h
    obtain ⟨c, -, h⟩ := Except.bind_eq_ok.1 h
    obtain ⟨left, hleft, -⟩ := Except.bind_eq_ok.1 h
    exact ⟨⟨left, hleft⟩, ⟨hc.symbols.nodup_labels, hc.symbols.nodup_constants, hc.symbols.nodup_data⟩, hc.waiting⟩
  · rintro ⟨⟨left, hleft⟩, hd, hw⟩
    have hstart : ({ origin := origin } : Collection).Holds origin [] := ⟨rfl, Symbols.Declared.nil, rfl, rfl⟩
    obtain ⟨c, hfold⟩ := hstart.exists_foldList hd
    have hwaiting := (hstart.foldList hfold).waiting
    rw [List.nil_append, hw, List.reverse_eq_nil_iff, List.map_eq_nil_iff] at hwaiting
    rw [ofSource_eq, result_ofStream, hfold, hleft, Except.ok_bind, Except.ok_bind, finish, hwaiting]
    exact ⟨_, rfl⟩

/-- A source that is read to its end makes the program that collects its statements. -/
theorem ofSource_of_collects {files left : SourceFiles} {origin : UInt16} {path text : String} {program : Program}
    (hleft : (SourceTree.read files path text).result = .ok left)
    (hc : program.Collects origin (SourceTree.read files path text).reports) :
    (ofSource files origin path text).result = .ok program := by
  have hd : Distinct (SourceTree.read files path text).reports :=
    ⟨hc.symbols.nodup_labels, hc.symbols.nodup_constants, hc.symbols.nodup_data⟩
  obtain ⟨q, hq⟩ := exists_ofSource_iff.2 ⟨⟨left, hleft⟩, hd, hc.waiting⟩
  rw [hq, (collects_of_ofSource hq).unique hc]

/-- The labels of the lines are the labels of the source, in order. -/
theorem Collects.flatMap_labels {start : UInt16} {program : Program} {statements : List LocatedStatement}
    (h : program.Collects start statements) : program.lines.flatMap (·.labels) = labelsOf statements := by
  have hl := flatMap_labels_linesFrom [] statements
  rwa [h.waiting, List.append_nil, List.nil_append, ← h.lines] at hl

end Program

end Octet
