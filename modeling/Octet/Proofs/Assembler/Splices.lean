import Octet.Proofs.Assembler.Collection
import Octet.Proofs.Assembler.Reading
/-!
What a source tree says, with no limit on the depth of its includes.

* `SourceTree.Yields`: the statements of some lines, with those of an included file right behind its include, and how
  deep the includes are nested;
* `SourceTree.Yields.unique`: there is at most one such sequence of statements;
* `SourceTree.readNested_eq_ok_iff`: a file is read to its end iff its lines yield statements with includes that are
  nested no deeper than is allowed;
* `SourceTree.exists_yields_of_ofSource`: so do the lines of a source that makes a program.
-/

namespace Octet.SourceTree

/-- The statements of some lines of a file, each include followed by the statements of the file that it names. The
number says how deep the includes are nested: it is 0 where there are none. The files are handed on from line to line,
since an input can be read only once. -/
inductive Yields : SourceFiles → String → List (Nat × String) → List LocatedStatement → Nat → SourceFiles → Prop
  | nil (files : SourceFiles) (path : String) : Yields files path [] [] 0 files
  | plain {files left : SourceFiles} {path line : String} {n height : Nat} {lines : List (Nat × String)}
      {statements : List LocatedStatement} {statement : Statement}
      (parsed : Statement.parse line = .ok statement) (isPlain : ∀ target, statement ≠ .splice target)
      (rest : Yields files path lines statements height left) :
      Yields files path ((n, line) :: lines) (⟨⟨path, n⟩, statement⟩ :: statements) height left
  | splice {files inside mid left : SourceFiles} {path line target text : String} {n depth height : Nat}
      {lines : List (Nat × String)} {inner statements : List LocatedStatement}
      (parsed : Statement.parse line = .ok (.splice target))
      (loaded : files.load (SourcePath.resolve path target) = .ok (text, inside))
      (included : Yields inside (SourcePath.resolve path target) (numberedLines text) inner depth mid)
      (rest : Yields mid path lines statements height left) :
      Yields files path ((n, line) :: lines)
        (⟨⟨path, n⟩, .splice (SourcePath.resolve path target)⟩ :: (inner ++ statements)) (max (depth + 1) height) left

namespace Yields

variable {files left left' : SourceFiles} {path : String} {lines : List (Nat × String)}
  {statements statements' : List LocatedStatement} {height height' : Nat}

/-- **Lines yield one sequence of statements.** -/
theorem unique (h : Yields files path lines statements height left)
    (h' : Yields files path lines statements' height' left') :
    statements' = statements ∧ height' = height ∧ left' = left := by
  induction h generalizing statements' height' left' with
  | nil =>
    cases h'
    exact ⟨rfl, rfl, rfl⟩
  | plain parsed isPlain _ ih =>
    cases h' with
    | plain parsed' _ rest' =>
      cases parsed.symm.trans parsed'
      obtain ⟨rfl, rfl, rfl⟩ := ih rest'
      exact ⟨rfl, rfl, rfl⟩
    | splice parsed' => exact absurd (Except.ok.inj (parsed.symm.trans parsed')) (isPlain _)
  | splice parsed loaded _ _ ihIncluded ihRest =>
    cases h' with
    | plain parsed' isPlain' => exact absurd (Except.ok.inj (parsed'.symm.trans parsed)) (isPlain' _)
    | splice parsed' loaded' included' rest' =>
      cases parsed.symm.trans parsed'
      cases loaded.symm.trans loaded'
      obtain ⟨rfl, rfl, rfl⟩ := ihIncluded included'
      obtain ⟨rfl, rfl, rfl⟩ := ihRest rest'
      exact ⟨rfl, rfl, rfl⟩

end Yields

/-! ## Reading lines -/

variable {files left : SourceFiles} {path text : String} {statements : List LocatedStatement} {depth : Nat}

/-- The step for an include of a file that is read to its end. -/
theorem walkLine_of_load {inside mid : SourceFiles} {line target : String} {n : Nat} {inner : List LocatedStatement}
    (h : Statement.parse line = .ok (.splice target))
    (hload : files.load (SourcePath.resolve path target) = .ok (text, inside))
    (hread : readNested inside depth (SourcePath.resolve path target) text = ⟨inner, .ok mid⟩) :
    walkLine .reader path (splicing .reader (depth + 1) path) files (n, line) =
      ⟨⟨⟨path, n⟩, .splice (SourcePath.resolve path target)⟩ :: inner, .ok mid⟩ := by
  rw [walkLine_of_splice h, splicing_of_load _ hload, hread]
  rfl

/-- Lines that yield statements are read as these statements. -/
theorem Yields.foldList {lines : List (Nat × String)} {height : Nat}
    (h : Yields files path lines statements height left) (hle : height ≤ depth) :
    Traced.foldList (walkLine .reader path (splicing .reader depth path)) files lines = ⟨statements, .ok left⟩ := by
  induction h generalizing depth with
  | nil => rfl
  | plain parsed isPlain _ ih =>
    rw [Traced.foldList, walkLine_of_plain parsed isPlain, reader_step, Traced.mk_bind, ih hle]
    rfl
  | splice parsed loaded _ _ ihIncluded ihRest =>
    obtain ⟨depth, rfl⟩ : ∃ d, depth = d + 1 := ⟨depth - 1, by omega⟩
    have hread := (readNested_eq ..).trans (@ihIncluded depth (by omega))
    rw [Traced.foldList, walkLine_of_load parsed loaded hread, Traced.mk_bind, ihRest (by omega)]
    rfl

/-- The step for a line succeeds if the line is a statement other than an include, and if it is an include of a file
that is read to its end. -/
theorem of_walkLine_eq_ok {mid : SourceFiles} {line : String} {n : Nat}
    (h : (walkLine .reader path (splicing .reader depth path) files (n, line)).result = .ok mid) :
    (∃ statement, Statement.parse line = .ok statement ∧ (∀ target, statement ≠ .splice target) ∧ mid = files) ∨
      ∃ d target text inside inner, depth = d + 1 ∧ Statement.parse line = .ok (.splice target) ∧
        files.load (SourcePath.resolve path target) = .ok (text, inside) ∧
        readNested inside d (SourcePath.resolve path target) text = ⟨inner, .ok mid⟩ := by
  cases hparse : Statement.parse line with
  | error fault =>
    rw [walkLine_of_fault hparse] at h
    cases h
  | ok statement =>
    by_cases hplain : ∀ target, statement ≠ .splice target
    · rw [walkLine_of_plain hparse hplain, reader_step] at h
      exact .inl ⟨statement, rfl, hplain, (Except.ok.inj h).symm⟩
    · obtain ⟨target, rfl⟩ := not_forall_not.1 hplain
      rw [walkLine_of_splice hparse] at h
      cases depth with
      | zero => cases h
      | succ d =>
        cases hload : files.load (SourcePath.resolve path target) with
        | error cause =>
          rw [splicing_of_unreadable _ hload] at h
          cases h
        | ok loaded =>
          rw [splicing_of_load _ hload, Traced.result_bind, Traced.result_emit, Except.ok_bind] at h
          exact .inr ⟨d, target, loaded.1, loaded.2, _, rfl, rfl, hload, congrArg (Traced.mk _) h⟩

/-- Lines that are read to their end yield what is read. -/
theorem exists_yields_of_foldList {lines : List (Nat × String)}
    (h : (Traced.foldList (walkLine .reader path (splicing .reader depth path)) files lines).result = .ok left) :
    ∃ statements height, height ≤ depth ∧ Yields files path lines statements height left := by
  -- on the depth, for the included files, and then on the lines
  induction depth using Nat.strong_induction_on generalizing path files left lines with
  | _ depth ihDepth =>
    induction lines generalizing files with
    | nil =>
      cases h
      exact ⟨[], 0, Nat.zero_le _, .nil ..⟩
    | cons line lines ih =>
      obtain ⟨n, line⟩ := line
      rw [Traced.foldList, Traced.result_bind] at h
      obtain ⟨mid, hmid, h⟩ := Except.bind_eq_ok.1 h
      obtain ⟨statements, height, hle, hrest⟩ := ih h
      obtain ⟨statement, hparse, hplain, rfl⟩ | ⟨d, target, text, inside, inner, rfl, hparse, hload, hread⟩ :=
        of_walkLine_eq_ok hmid
      · exact ⟨_, height, hle, .plain hparse hplain hrest⟩
      · rw [readNested_eq] at hread
        obtain ⟨inner', height', hle', hinner⟩ := ihDepth d (Nat.lt_succ_self d) (congrArg Traced.result hread)
        exact ⟨_, _, Nat.max_le.2 ⟨Nat.succ_le_succ hle', hle⟩, .splice hparse hload hinner hrest⟩

/-- **Reading is yielding within a depth.** -/
theorem readNested_eq_ok_iff :
    readNested files depth path text = ⟨statements, .ok left⟩ ↔
      ∃ height, height ≤ depth ∧ Yields files path (numberedLines text) statements height left := by
  rw [readNested_eq]
  constructor
  · intro h
    obtain ⟨statements', height, hle, hyields⟩ := exists_yields_of_foldList (congrArg Traced.result h)
    obtain rfl : statements' = statements := congrArg Traced.reports ((hyields.foldList hle).symm.trans h)
    exact ⟨height, hle, hyields⟩
  · rintro ⟨height, hle, hyields⟩
    exact hyields.foldList hle

/-- What is read where lines yield statements within the limit. -/
theorem Yields.read_eq {height : Nat} (h : Yields files path (numberedLines text) statements height left)
    (hle : height ≤ includeLimit) : read files path text = ⟨statements, .ok left⟩ :=
  readNested_eq_ok_iff.2 ⟨height, hle, h⟩

/-- **A source that makes a program** yields what is read, within the limit. -/
theorem exists_yields_of_ofSource {origin : UInt16} {program : Program}
    (h : (Program.ofSource files origin path text).result = .ok program) :
    ∃ height left, height ≤ includeLimit ∧
      Yields files path (numberedLines text) (read files path text).reports height left := by
  obtain ⟨⟨left, hleft⟩, -⟩ := Program.exists_ofSource_iff.1 ⟨program, h⟩
  obtain ⟨height, hle, hyields⟩ := readNested_eq_ok_iff.1 (congrArg (Traced.mk (read files path text).reports) hleft)
  exact ⟨height, left, hle, hyields⟩

end Octet.SourceTree
