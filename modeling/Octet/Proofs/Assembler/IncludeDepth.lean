import Octet.Proofs.Assembler.LineFaults
import Octet.Proofs.Assembler.OpenFiles
/-!
How deep includes are nested.

* `SourceTree.HasHeight`: how deep the includes in a file go, and `Nest.exists_height`, that they go less deep in a
  file than in those that it is open inside of;
* `Progress.Nest.nodup`: so no included file is opened inside itself, if the tree ends;
* `Progress.Next.full_of_includeDepth`: where includes are refused for their depth;
* `ends_within_includeLimit`: what becomes of a source tree, however its files include one another.
-/

namespace Octet

namespace SourceTree

/-! ## Heights -/

variable {files left : SourceFiles} {path text : String} {lines : List (Nat × String)}
  {statements : List LocatedStatement} {height : Nat}

/-- How deep the includes in a file are nested; there is no such number if a line is wrong or a file includes
itself. -/
def HasHeight (files : SourceFiles) (path text : String) (height : Nat) : Prop :=
  ∃ statements left, Yields files path (numberedLines text) statements height left

theorem HasHeight.unique {height' : Nat} (h : HasHeight files path text height)
    (h' : HasHeight files path text height') : height' = height := by
  obtain ⟨_, _, hyields⟩ := h
  obtain ⟨_, _, hyields'⟩ := h'
  exact (hyields.unique hyields').2.1

theorem Yields.left_eq (hfiles : files.Held) (h : Yields files path lines statements height left) : left = files := by
  induction h with
  | nil => rfl
  | plain _ _ _ ih => exact ih hfiles
  | splice _ loaded _ _ ihIncluded ihRest =>
    obtain ⟨-, rfl⟩ := hfiles.load_eq_ok_iff.1 loaded
    obtain rfl := ihIncluded hfiles
    exact ihRest hfiles

/-- **An included file** has its includes less deep than the file that includes it. -/
theorem Yields.exists_included (hfiles : files.Held) (h : Yields files path lines statements height left)
    {line : Nat × String} (hline : line ∈ lines) {target inner : String}
    (hparse : Statement.parse line.2 = .ok (.splice target))
    (hfound : files.text (SourcePath.resolve path target) = .ok inner) :
    ∃ depth, depth < height ∧ HasHeight files (SourcePath.resolve path target) inner depth := by
  induction h with
  | nil => cases hline
  | plain parsed isPlain _ ih =>
    obtain rfl | hline := List.mem_cons.1 hline
    · exact absurd (Except.ok.inj (parsed.symm.trans hparse)) (isPlain target)
    · exact ih hfiles hline hfound
  | splice parsed loaded included _ _ ihRest =>
    obtain ⟨found, rfl⟩ := hfiles.load_eq_ok_iff.1 loaded
    obtain rfl | hline := List.mem_cons.1 hline
    · cases parsed.symm.trans hparse
      cases found.symm.trans hfound
      exact ⟨_, Nat.lt_of_lt_of_le (Nat.lt_succ_self _) (Nat.le_max_left ..), _, _, included⟩
    · obtain rfl := included.left_eq hfiles
      obtain ⟨depth, hlt, hdepth⟩ := ihRest hfiles hline hfound
      exact ⟨depth, Nat.lt_of_lt_of_le hlt (Nat.le_max_right ..), hdepth⟩

/-- Lines yield as deep a tree under any path of their file. -/
theorem Yields.exists_of_segments_eq (hfiles : files.Held) (h : Yields files path lines statements height left)
    {path' : String} (hpath : SourcePath.segments path = SourcePath.segments path') :
    ∃ statements', Yields files path' lines statements' height left := by
  induction h generalizing path' with
  | nil => exact ⟨_, .nil ..⟩
  | plain parsed isPlain _ ih =>
    obtain ⟨_, hrest⟩ := ih hfiles hpath
    exact ⟨_, .plain parsed isPlain hrest⟩
  | @splice files inside mid left path line target text _ _ _ _ _ _ parsed loaded included _ ihIncluded ihRest =>
    obtain ⟨found, rfl⟩ := hfiles.load_eq_ok_iff.1 loaded
    obtain rfl := included.left_eq hfiles
    have hinner := SourcePath.segments_resolve_congr hpath target
    obtain ⟨_, hincluded⟩ := ihIncluded hfiles hinner
    obtain ⟨_, hrest⟩ := ihRest hfiles hpath
    exact ⟨_, .splice parsed (hfiles.load_eq_ok_iff.2 ⟨hfiles.text_congr hinner ▸ found, rfl⟩) hincluded hrest⟩

theorem HasHeight.of_segments_eq (hfiles : files.Held) (h : HasHeight files path text height) {path' : String}
    (hpath : SourcePath.segments path = SourcePath.segments path') : HasHeight files path' text height := by
  obtain ⟨_, left, hyields⟩ := h
  obtain ⟨statements, hyields'⟩ := hyields.exists_of_segments_eq hfiles hpath
  exact ⟨statements, left, hyields'⟩

end SourceTree

/-! ## What else is wrong with lines -/

/-- A fault of an escape is a fault of its line. -/
theorem EscapeFault.mapError_ne_includeDepth (x : Except EscapeFault (List UInt8)) :
    x.mapError EscapeFault.toFault ≠ .error .includeDepth := by
  cases x with
  | error fault => cases fault <;> rintro ⟨⟩
  | ok bytes => rintro ⟨⟩

theorem dataBytes_ne_includeDepth (width : DataWidth) (offset : Nat) (list : List Char) :
    dataBytes width offset list ≠ .error .includeDepth := by
  unfold dataBytes
  split
  · split <;> rintro ⟨⟩
  · refine Except.map_ne_error (Except.mapM_ne_error fun item => ?_)
    unfold DataItem.bytes
    split
    · exact EscapeFault.mapError_ne_includeDepth _
    · exact Except.map_ne_error (EscapeFault.mapError_ne_includeDepth _)
    all_goals split <;> rintro ⟨⟩

/-- **A line by itself** is not nested too deeply. -/
theorem Statement.parse_ne_includeDepth (line : String) : parse line ≠ .error .includeDepth := by
  intro h
  rcases fault_of_parse h with hplain | ⟨l, -, hbytes⟩
  · cases hplain
  · exact dataBytes_ne_includeDepth _ _ _ hbytes

theorem faultIn_ne_includeDepth {x : Except Fault Symbols} (h : x ≠ .error .includeDepth) (loc loc' : Location) :
    Program.faultIn loc x ≠ .error (.inLine .includeDepth loc') := by
  cases x with
  | error fault =>
    intro he
    cases he
    exact h rfl
  | ok a => rintro ⟨⟩

/-- To collect a statement is not to nest too deeply. -/
theorem Program.collect_ne_includeDepth (c : Program.Collection) (s : LocatedStatement) (loc : Location) :
    (Program.collect c s).result ≠ .error (.inLine .includeDepth loc) := by
  obtain ⟨_, statement⟩ := s
  cases statement with
  | instruction | origin | splice => rintro ⟨⟩
  | label =>
    simp only [Program.collect, Traced.result_bind, Traced.result_lift, Traced.result_emit]
    refine Except.bind_ne_error (faultIn_ne_includeDepth ?_ _ _) fun _ => by rintro ⟨⟩
    unfold Symbols.declareProcedure
    split <;> rintro ⟨⟩
  | constant =>
    simp only [Program.collect, Traced.result_bind, Traced.result_lift, Traced.result_emit, Except.ok_bind]
    refine Except.bind_ne_error (faultIn_ne_includeDepth ?_ _ _) fun _ => by rintro ⟨⟩
    unfold Symbols.defineConstant
    split <;> rintro ⟨⟩
  | data | reserve =>
    simp only [Program.collect, Traced.result_bind, Traced.result_lift, Traced.result_emit, Except.ok_bind]
    refine Except.bind_ne_error (faultIn_ne_includeDepth ?_ _ _) fun _ => by rintro ⟨⟩
    unfold Symbols.addDatum
    split <;> rintro ⟨⟩

open SourceTree

namespace Progress

/-! ## Files that are open -/

variable {p q : Progress} {files : SourceFiles} {path text : String} {file : OpenFile} {below stack : List OpenFile}
  {height : Nat} {loc : Location}

namespace Nest

/-- **Heights fall** from a file to those that are open inside it. -/
theorem exists_height (hfiles : files.Held) (hmain : HasHeight files path text height)
    (h : Nest files path text (file :: below)) :
    ∃ d, HasHeight files file.path file.text d ∧
      ∀ outer ∈ below, ∃ d', HasHeight files outer.path outer.text d' ∧ d < d' := by
  induction below generalizing file with
  | nil =>
    cases h with
    | main => exact ⟨height, hmain, fun _ h => absurd h List.not_mem_nil⟩
  | cons outer below ih =>
    cases h with
    | inner nest mem parsed found =>
      obtain ⟨d', houter, hbelow⟩ := ih nest
      obtain ⟨_, _, hyields⟩ := houter
      obtain ⟨d, hlt, hinner⟩ := hyields.exists_included hfiles mem parsed found
      refine ⟨d, hinner, List.forall_mem_cons.2 ⟨⟨d', ⟨_, _, hyields⟩, hlt⟩, fun o ho => ?_⟩⟩
      obtain ⟨e, he, hlt'⟩ := hbelow o ho
      exact ⟨e, he, hlt.trans hlt'⟩

/-- The text of an included file is the one that is held. -/
theorem found_of_mem (h : Nest files path text stack) (hfile : file ∈ stack.dropLast) :
    files.text file.path = .ok file.text := by
  induction h with
  | nil | main => cases hfile
  | inner _ _ _ found _ ih =>
    rw [List.dropLast_cons_cons] at hfile
    obtain rfl | hfile := List.mem_cons.1 hfile
    · exact found
    · exact ih hfile

/-- **No included file is open twice**, if the tree ends. -/
theorem nodup (hfiles : files.Held) (hmain : HasHeight files path text height) (h : Nest files path text stack) :
    (stack.dropLast.map fun file => SourcePath.segments file.path).Nodup := by
  induction h with
  | nil | main => exact List.nodup_nil
  | @inner outer below line target inner rest nest mem parsed found suffix ih =>
    rw [List.dropLast_cons_cons, List.map_cons, List.nodup_cons]
    refine ⟨fun hmem => ?_, ih⟩
    obtain ⟨file, hfile, hsegments⟩ := List.mem_map.1 hmem
    have hopen := List.mem_of_mem_dropLast hfile
    obtain ⟨d, hd, hbelow⟩ := exists_height hfiles hmain (.inner nest mem parsed found suffix)
    obtain ⟨d', hd', hlt⟩ := hbelow file hopen
    -- a file that is open twice has one text, and so one height
    have htext := (hfiles.text_congr hsegments).symm.trans (nest.found_of_mem hfile)
    cases found.symm.trans htext
    exact hlt.ne' ((hd'.of_segments_eq hfiles hsegments).unique hd).symm

end Nest

/-- **An include is refused** for its depth where as many files as may be nested are open below the one that it stands
in. -/
theorem Next.full_of_includeDepth (h : Next p (.error (.inLine .includeDepth loc))) :
    ∃ path text n line rest below target, p.stack = ⟨path, text, (n, line) :: rest⟩ :: below ∧
      Statement.parse line = .ok (.splice target) ∧ includeLimit ≤ below.length ∧ loc = ⟨path, n⟩ := by
  cases h with
  | fault parsed => exact absurd parsed (Statement.parse_ne_includeDepth _)
  | refuse _ _ collected => exact absurd collected (Program.collect_ne_includeDepth _ _ _)
  | full parsed noRoom => exact ⟨_, _, _, _, _, _, _, rfl, parsed, noRoom, rfl⟩

/-- A result that is refused for the depth of an include is the error of a step. -/
theorem Ends.exists_run_error (h : p.Ends (.error (.inLine .includeDepth loc))) :
    ∃ k, (p.run k).result = .error (.inLine .includeDepth loc) := by
  generalize hresult : Except.error (AsmError.inLine .includeDepth loc) = result at h
  cases h with
  | failed stopped =>
    cases hresult
    exact ⟨_, stopped⟩
  | finished =>
    -- what can be wrong at the end is a label that waits
    unfold Program.finish at hresult
    split at hresult <;> cases hresult

end Progress

open Progress

section
variable {files : SourceFiles} {origin : UInt16} {path text : String}

/-- Where a source is refused for the depth of an include, the include stands in the innermost of as many nested files
as there may be. -/
theorem exists_nest_of_ofSource (hfiles : files.Held) {loc : Location}
    (h : (Program.ofSource files origin path text).result = .error (.inLine .includeDepth loc)) :
    ∃ k q file below n line target, ((start files origin path text).run k).result = .ok q ∧ q.stack = file :: below ∧
      Nest files path text (file :: below) ∧ below.length = includeLimit ∧ (n, line) ∈ numberedLines file.text ∧
        Statement.parse line = .ok (.splice target) ∧ loc = ⟨file.path, n⟩ := by
  have hends := ends_ofSource files origin path text
  rw [h] at hends
  obtain ⟨k, hk⟩ := hends.exists_run_error
  obtain ⟨j, q, hq, hnext⟩ := exists_next_of_run_error hk
  obtain ⟨innermost, inner, n, line, rest, below, target, hstack, hparse, hfull, hloc⟩ :=
    Next.full_of_includeDepth (hnext ▸ next_cases q)
  obtain ⟨-, hnest, hlength⟩ := within_of_run hfiles hq
  rw [hstack] at hnest hlength
  exact ⟨j, q, _, below, n, line, target, hq, hstack, hnest, Nat.le_antisymm (Nat.le_of_succ_le_succ hlength) hfull,
    hnest.suffix.subset List.mem_cons_self, hparse, hloc⟩

/-- A source whose includes are nested no deeper than is allowed makes a program, if nothing else is wrong. -/
theorem exists_ofSource_of_yields {left : SourceFiles} {statements : List LocatedStatement} {height : Nat}
    (hyields : Yields files path (numberedLines text) statements height left) (hle : height ≤ includeLimit)
    (hdistinct : Program.Distinct statements) (hwaiting : waitingFrom [] statements = []) :
    ∃ program, (Program.ofSource files origin path text).result = .ok program := by
  refine Program.exists_ofSource_iff.2 ⟨⟨left, ?_⟩, ?_, ?_⟩
  all_goals rw [hyields.read_eq hle]
  · exact hdistinct
  · exact hwaiting

end

/-- **Processing a source tree ends**, whatever files there are and however they include one another.

* If it ends with a program, includes are nested at most 16 deep, and at no time has a file that was included been open
  twice.
* If it ends because an include is too deep, the include stands in a file that exactly 16 nested includes lead to.
* Includes that are nested 16 deep or less are not the reason why there is no program. -/
theorem ends_within_includeLimit (texts : List (String × String)) (origin : UInt16) (path text : String) :
    let files := SourceFiles.ofList texts
    let main := start files origin path text
    let result := (Program.ofSource files origin path text).result
    main.Ends result ∧
    (∀ program, result = .ok program →
      (∃ statements height left, height ≤ 16 ∧
        Yields files path (numberedLines text) statements height left) ∧
      ∀ k q, (main.run k).result = .ok q → q.stack.length ≤ 16 + 1 ∧
        (q.stack.dropLast.map fun file => SourcePath.segments file.path).Nodup) ∧
    (∀ loc, result = .error (.inLine .includeDepth loc) →
      ∃ k q file below n line target, (main.run k).result = .ok q ∧ q.stack = file :: below ∧
        Nest files path text (file :: below) ∧ below.length = 16 ∧ (n, line) ∈ numberedLines file.text ∧
          Statement.parse line = .ok (.splice target) ∧ loc = ⟨file.path, n⟩) ∧
    ∀ statements height left, Yields files path (numberedLines text) statements height left →
      height ≤ 16 → Program.Distinct statements → waitingFrom [] statements = [] →
        ∃ program, result = .ok program := by
  intro files main result
  have hfiles := SourceFiles.held_ofList texts
  refine ⟨ends_ofSource files origin path text, fun program hprogram => ?_,
    fun loc hloc => exists_nest_of_ofSource hfiles hloc, fun statements height left => exists_ofSource_of_yields⟩
  obtain ⟨height, left, hle, hyields⟩ := exists_yields_of_ofSource hprogram
  refine ⟨⟨_, height, left, hle, hyields⟩, fun k q hq => ?_⟩
  obtain ⟨-, hnest, hlength⟩ := within_of_run hfiles hq
  exact ⟨hlength, hnest.nodup hfiles ⟨_, left, hyields⟩⟩

/-- Files that each include the one before. -/
def includeChain (n : Nat) : List (String × String) :=
  ("0", "nop") :: (List.range n).map fun i => (toString (i + 1), "#include " ++ toString i)

/-- A chain of as many includes as may be nested makes a program; a file that includes itself is given up. -/
theorem ends_within_includeLimit_chain :
    (∃ program, (Program.ofSource (.ofList (includeChain 15)) 0 "16" "#include 15").result = .ok program ∧
      ∀ k q, ((start (.ofList (includeChain 15)) 0 "16" "#include 15").run k).result = .ok q →
        (q.stack.dropLast.map fun file => SourcePath.segments file.path).Nodup) ∧
    (Program.ofSource (.ofList [("A", "#include A")]) 0 "A" "#include A").result =
      .error (.inLine .includeDepth ⟨"A", 1⟩) ∧
    ∃ k q, ((start (.ofList [("A", "#include A")]) 0 "A" "#include A").run k).result = .ok q ∧
      q.stack.length = 16 + 1 := by
  have hok : (Program.ofSource (.ofList (includeChain 15)) 0 "16" "#include 15").result.isOk = true := by cbv
  have hself : (Program.ofSource (.ofList [("A", "#include A")]) 0 "A" "#include A").result =
      .error (.inLine .includeDepth ⟨"A", 1⟩) := by cbv
  obtain ⟨-, hends, -, haccepts⟩ := ends_within_includeLimit (includeChain 15) 0 "16" "#include 15"
  obtain ⟨-, -, hrefuses, -⟩ := ends_within_includeLimit [("A", "#include A")] 0 "A" "#include A"
  refine ⟨?_, hself, ?_⟩
  · cases hchain : (Program.ofSource (.ofList (includeChain 15)) 0 "16" "#include 15").result with
    | error e =>
      rw [hchain] at hok
      cases hok
    | ok program =>
      -- the chain is read to its end, and so it yields statements that are accepted
      obtain ⟨-, hdistinct, hwaiting⟩ := Program.exists_ofSource_iff.1 ⟨program, hchain⟩
      obtain ⟨height, left, hle, hyields⟩ := exists_yields_of_ofSource hchain
      obtain ⟨program', haccepted⟩ := haccepts _ height left hyields hle hdistinct hwaiting
      exact ⟨program', hchain ▸ haccepted, fun k q hq => ((hends program' haccepted).2 k q hq).2⟩
  · obtain ⟨k, q, file, below, -, -, -, hq, hstack, -, hlength, -⟩ := hrefuses _ hself
    exact ⟨k, q, hq, by rw [hstack, List.length_cons, hlength]⟩

end Octet
