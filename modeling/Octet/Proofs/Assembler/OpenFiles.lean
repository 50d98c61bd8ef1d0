import Octet.Proofs.Assembler.Collection
import Octet.Proofs.Assembler.Paths
import Octet.Proofs.Assembler.Splices
/-!
A source tree processed line by line, with the files that are open.

An include puts its file on top of the open ones, and the file goes when its lines are used up.

* `Progress.next`: one line, or the end of a file;
* `Progress.Next`: what one step comes to;
* `Progress.exists_run_start`: some number of steps gets to the end of a source tree, or to its first error;
* `Progress.Nest`: how the open files include one another, and `Progress.within_of_run`, that they do at every step.
-/

namespace Octet

open SourceTree

/-- A file that is being processed, with the lines that have not been taken. -/
structure OpenFile where
  path : String
  text : String
  rest : List (Nat × String)

/-- A file of which no line has been taken. -/
def OpenFile.ofText (path text : String) : OpenFile := ⟨path, text, numberedLines text⟩

/-- How far the processing of a source tree has come. -/
structure Progress where
  /-- The files that are being processed, each one included by the next. -/
  stack : List OpenFile
  files : SourceFiles
  collection : Program.Collection

namespace Progress

/-- A file that is about to be processed. -/
def start (files : SourceFiles) (origin : UInt16) (path text : String) : Progress :=
  ⟨[.ofText path text], files, { origin := origin }⟩

/-- Loads the file that an include in `outer` names, unless it would be nested too deeply. -/
def enter (p : Progress) (outer : OpenFile) (below : List OpenFile) (loc : Location) (target : String) :
    Traced AsmEvent AsmError Progress :=
  if includeLimit ≤ below.length then Traced.fail (.inLine .includeDepth loc)
  else do
    let path := SourcePath.resolve outer.path target
    let collection ← Program.collect p.collection ⟨loc, .splice path⟩
    match p.files.load path with
    | .error cause => Traced.fail (.inLine (.unreadableInclude path cause) loc)
    | .ok (text, files) => return ⟨.ofText path text :: outer :: below, files, collection⟩

/-- Takes a line of the innermost file, or leaves the file if there is none. -/
def next (p : Progress) : Traced AsmEvent AsmError Progress :=
  match p.stack with
  | [] => return p
  | ⟨_, _, []⟩ :: below => return { p with stack := below }
  | ⟨path, text, (n, line) :: rest⟩ :: below =>
    match Statement.parse line with
    | .error fault => Traced.fail (.inLine fault ⟨path, n⟩)
    | .ok (.splice target) => p.enter ⟨path, text, rest⟩ below ⟨path, n⟩ target
    | .ok statement => do
      let collection ← Program.collect p.collection ⟨⟨path, n⟩, statement⟩
      return { p with stack := ⟨path, text, rest⟩ :: below, collection := collection }

/-- Some steps. -/
def run : Nat → Progress → Traced AsmEvent AsmError Progress
  | 0, p => return p
  | k + 1, p => p.next >>= run k

variable {p q : Progress} {files left : SourceFiles} {c : Program.Collection} {k : Nat}
  {path text line : String} {n : Nat} {rest : List (Nat × String)} {below : List OpenFile} {loc : Location}

/-! ## Steps -/

theorem next_of_fault {fault : Fault} (h : Statement.parse line = .error fault) :
    next ⟨⟨path, text, (n, line) :: rest⟩ :: below, files, c⟩ = Traced.fail (.inLine fault ⟨path, n⟩) := by
  unfold next
  dsimp only
  rw [h]

theorem next_of_plain {statement : Statement} (h : Statement.parse line = .ok statement)
    (hplain : ∀ target, statement ≠ .splice target) :
    next ⟨⟨path, text, (n, line) :: rest⟩ :: below, files, c⟩ = do
      let collection ← Program.collect c ⟨⟨path, n⟩, statement⟩
      return ⟨⟨path, text, rest⟩ :: below, files, collection⟩ := by
  unfold next
  dsimp only
  rw [h]
  cases statement with
  | splice target => exact absurd rfl (hplain target)
  | _ => rfl

theorem next_of_splice {target : String} (h : Statement.parse line = .ok (.splice target)) :
    next ⟨⟨path, text, (n, line) :: rest⟩ :: below, files, c⟩ =
      enter ⟨⟨path, text, (n, line) :: rest⟩ :: below, files, c⟩ ⟨path, text, rest⟩ below ⟨path, n⟩ target := by
  unfold next
  dsimp only
  rw [h]

theorem enter_of_load {outer : OpenFile} {target inner : String} (room : below.length < includeLimit)
    (loaded : p.files.load (SourcePath.resolve outer.path target) = .ok (inner, left)) :
    p.enter outer below loc target = Traced.emit (.spliced (SourcePath.resolve outer.path target) loc) >>= fun _ =>
      return ⟨.ofText (SourcePath.resolve outer.path target) inner :: outer :: below, left, p.collection⟩ := by
  unfold enter
  rw [if_neg (Nat.not_le_of_lt room)]
  dsimp only
  rw [loaded]
  rfl

theorem enter_of_unreadable {outer : OpenFile} {target : String} {cause : FileFault}
    (room : below.length < includeLimit)
    (loaded : p.files.load (SourcePath.resolve outer.path target) = .error cause) :
    p.enter outer below loc target = Traced.emit (.spliced (SourcePath.resolve outer.path target) loc) >>= fun _ =>
      Traced.fail (.inLine (.unreadableInclude (SourcePath.resolve outer.path target) cause) loc) := by
  unfold enter
  rw [if_neg (Nat.not_le_of_lt room)]
  dsimp only
  rw [loaded]
  rfl

theorem enter_of_full {outer : OpenFile} {target : String} (full : includeLimit ≤ below.length) :
    p.enter outer below loc target = Traced.fail (.inLine .includeDepth loc) := if_pos full

/-- What one step comes to: the open files after it, or what is wrong. -/
inductive Next : Progress → Except AsmError Progress → Prop
  | idle (files : SourceFiles) (c : Program.Collection) : Next ⟨[], files, c⟩ (.ok ⟨[], files, c⟩)
  | leave (path text : String) (below : List OpenFile) (files : SourceFiles) (c : Program.Collection) :
      Next ⟨⟨path, text, []⟩ :: below, files, c⟩ (.ok ⟨below, files, c⟩)
  | fault {path text line : String} {n : Nat} {rest : List (Nat × String)} {below : List OpenFile}
      {files : SourceFiles} {c : Program.Collection} {fault : Fault} (parsed : Statement.parse line = .error fault) :
      Next ⟨⟨path, text, (n, line) :: rest⟩ :: below, files, c⟩ (.error (.inLine fault ⟨path, n⟩))
  | take {path text line : String} {n : Nat} {rest : List (Nat × String)} {below : List OpenFile}
      {files : SourceFiles} {c c' : Program.Collection} {statement : Statement}
      (parsed : Statement.parse line = .ok statement) (isPlain : ∀ target, statement ≠ .splice target)
      (collected : (Program.collect c ⟨⟨path, n⟩, statement⟩).result = .ok c') :
      Next ⟨⟨path, text, (n, line) :: rest⟩ :: below, files, c⟩ (.ok ⟨⟨path, text, rest⟩ :: below, files, c'⟩)
  | refuse {path text line : String} {n : Nat} {rest : List (Nat × String)} {below : List OpenFile}
      {files : SourceFiles} {c : Program.Collection} {statement : Statement} {e : AsmError}
      (parsed : Statement.parse line = .ok statement) (isPlain : ∀ target, statement ≠ .splice target)
      (collected : (Program.collect c ⟨⟨path, n⟩, statement⟩).result = .error e) :
      Next ⟨⟨path, text, (n, line) :: rest⟩ :: below, files, c⟩ (.error e)
  | enter {path text line target inner : String} {n : Nat} {rest : List (Nat × String)} {below : List OpenFile}
      {files left : SourceFiles} {c : Program.Collection} (parsed : Statement.parse line = .ok (.splice target))
      (room : below.length < includeLimit)
      (loaded : files.load (SourcePath.resolve path target) = .ok (inner, left)) :
      Next ⟨⟨path, text, (n, line) :: rest⟩ :: below, files, c⟩
        (.ok ⟨.ofText (SourcePath.resolve path target) inner :: ⟨path, text, rest⟩ :: below, left, c⟩)
  | unreadable {path text line target : String} {n : Nat} {rest : List (Nat × String)} {below : List OpenFile}
      {files : SourceFiles} {c : Program.Collection} {cause : FileFault}
      (parsed : Statement.parse line = .ok (.splice target)) (room : below.length < includeLimit)
      (loaded : files.load (SourcePath.resolve path target) = .error cause) :
      Next ⟨⟨path, text, (n, line) :: rest⟩ :: below, files, c⟩
        (.error (.inLine (.unreadableInclude (SourcePath.resolve path target) cause) ⟨path, n⟩))
  | full {path text line target : String} {n : Nat} {rest : List (Nat × String)} {below : List OpenFile}
      {files : SourceFiles} {c : Program.Collection} (parsed : Statement.parse line = .ok (.splice target))
      (noRoom : includeLimit ≤ below.length) :
      Next ⟨⟨path, text, (n, line) :: rest⟩ :: below, files, c⟩ (.error (.inLine .includeDepth ⟨path, n⟩))

/-- **One step.** -/
theorem next_cases (p : Progress) : Next p p.next.result := by
  obtain ⟨stack, files, c⟩ := p
  match stack with
  | [] => exact .idle files c
  | ⟨path, text, []⟩ :: below => exact .leave path text below files c
  | ⟨path, text, (n, line) :: rest⟩ :: below =>
    cases hparse : Statement.parse line with
    | error fault =>
      rw [next_of_fault hparse]
      exact .fault hparse
    | ok statement =>
      by_cases hplain : ∀ target, statement ≠ .splice target
      · rw [next_of_plain hparse hplain, Traced.result_bind]
        cases hcollect : (Program.collect c ⟨⟨path, n⟩, statement⟩).result with
        | error e => exact .refuse hparse hplain hcollect
        | ok c' => exact .take hparse hplain hcollect
      · obtain ⟨target, rfl⟩ := not_forall_not.1 hplain
        rw [next_of_splice hparse]
        obtain hroom | hfull := Nat.lt_or_ge below.length includeLimit
        · cases hload : files.load (SourcePath.resolve path target) with
          | error cause =>
            rw [enter_of_unreadable hroom hload]
            exact .unreadable hparse hroom hload
          | ok loaded =>
            rw [enter_of_load hroom hload]
            exact .enter hparse hroom hload
        · rw [enter_of_full hfull]
          exact .full hparse hfull

/-! ## Runs -/

theorem run_add (j k : Nat) (p : Progress) : p.run (j + k) = p.run j >>= run k := by
  induction j generalizing p with
  | zero => rw [Nat.zero_add, run, pure_bind]
  | succ j ih =>
    rw [Nat.succ_add, run, run, bind_assoc]
    exact congrArg _ (funext ih)

/-- What every step leaves true stays true. -/
theorem run_induction {P : Progress → Prop} (hp : P p) (hnext : ∀ q r, P q → Next q (.ok r) → P r)
    (h : (p.run k).result = .ok q) : P q := by
  induction k generalizing p with
  | zero =>
    cases h
    exact hp
  | succ k ih =>
    rw [run, Traced.result_bind] at h
    obtain ⟨r, hr, h⟩ := Except.bind_eq_ok.1 h
    exact ih (hnext p r hp (hr ▸ next_cases p)) h

/-- A run that fails gets to a step that does. -/
theorem exists_next_of_run_error {e : AsmError} (h : (p.run k).result = .error e) :
    ∃ j q, (p.run j).result = .ok q ∧ q.next.result = .error e := by
  induction k generalizing p with
  | zero => cases h
  | succ k ih =>
    rw [run, Traced.result_bind] at h
    obtain h | ⟨r, hr, h⟩ := Except.bind_eq_error.1 h
    · exact ⟨0, p, rfl, h⟩
    · obtain ⟨j, q, hq, he⟩ := ih h
      refine ⟨j + 1, q, ?_, he⟩
      rw [run, Traced.result_bind, hr]
      exact hq

/-- A run that comes to where `x` comes to, and then goes on. -/
theorem exists_run_bind {α : Type} {x : Traced AsmEvent AsmError α} {f : α → Progress}
    {g : α → Traced AsmEvent AsmError Progress} (hx : ∃ j, p.run j = x >>= fun a => return f a)
    (hg : ∀ a, ∃ k, (f a).run k = g a) : ∃ k, p.run k = x >>= g := by
  obtain ⟨j, hj⟩ := hx
  obtain ⟨reports, result⟩ := x
  cases result with
  | error e => exact ⟨j, hj⟩
  | ok a =>
    obtain ⟨k, hk⟩ := hg a
    refine ⟨j + k, ?_⟩
    rw [run_add, hj, bind_assoc, Traced.mk_bind, Traced.mk_bind, pure_bind, hk]

/-- One line more than none. -/
theorem run_one (p : Progress) : p.run 1 = p.next := bind_pure _

/-- The step of a collection for a line, as the end of a run. -/
abbrev walked (path : String) (depth : Nat) (s : Program.Collection × SourceFiles) (line : Nat × String) :
    Traced AsmEvent AsmError (Program.Collection × SourceFiles) :=
  walkLine (.collecting Program.collect) path (splicing (.collecting Program.collect) depth path) s line

/-- What a collection does at an include of a file that can be read. -/
theorem splicing_of_load {depth : Nat} {target inner : String}
    (loaded : files.load (SourcePath.resolve path target) = .ok (inner, left)) :
    splicing (.collecting Program.collect) (depth + 1) path (c, files) loc target =
      Traced.emit (.spliced (SourcePath.resolve path target) loc) >>= fun _ =>
        walkNested (.collecting Program.collect) depth (SourcePath.resolve path target) inner (c, left) := by
  rw [splicing.eq_2]
  simp only [Walker.collecting, Program.collect, loaded, bind_assoc, pure_bind, Except.map]

/-- What a collection does at an include of a file that cannot be read. -/
theorem splicing_of_unreadable {depth : Nat} {target : String} {cause : FileFault}
    (loaded : files.load (SourcePath.resolve path target) = .error cause) :
    splicing (.collecting Program.collect) (depth + 1) path (c, files) loc target =
      Traced.emit (.spliced (SourcePath.resolve path target) loc) >>= fun _ =>
        Traced.fail (.inLine (.unreadableInclude (SourcePath.resolve path target) cause) loc) := by
  rw [splicing.eq_2]
  simp only [Walker.collecting, Program.collect, loaded, bind_assoc, pure_bind, Except.map]

/-- Any file on top of others is walked through in some number of steps, where includes may go `depth` deep. -/
def Passes (depth : Nat) (below : List OpenFile) : Prop :=
  ∀ (path text : String) (lines : List (Nat × String)) (files : SourceFiles) (c : Program.Collection),
    ∃ k, run k ⟨⟨path, text, lines⟩ :: below, files, c⟩ =
      Traced.foldList (walked path depth) (c, files) lines >>= fun s => return ⟨below, s.2, s.1⟩

/-- A line is walked through, if the file that it includes is. -/
theorem exists_run_line {depth : Nat} (hdepth : below.length + depth = includeLimit)
    (hinner : ∀ d, d + 1 = depth → Passes d (⟨path, text, rest⟩ :: below)) :
    ∃ k, run k ⟨⟨path, text, (n, line) :: rest⟩ :: below, files, c⟩ =
      walked path depth (c, files) (n, line) >>= fun s => return ⟨⟨path, text, rest⟩ :: below, s.2, s.1⟩ := by
  unfold walked
  cases hparse : Statement.parse line with
  | error fault => exact ⟨1, by rw [run_one, next_of_fault hparse, walkLine_of_fault hparse]; rfl⟩
  | ok statement =>
    by_cases hplain : ∀ target, statement ≠ .splice target
    · refine ⟨1, ?_⟩
      rw [run_one, next_of_plain hparse hplain, walkLine_of_plain hparse hplain]
      simp only [Walker.collecting, bind_assoc, pure_bind]
    · obtain ⟨target, rfl⟩ := not_forall_not.1 hplain
      rw [walkLine_of_splice hparse]
      cases depth with
      | zero =>
        refine ⟨1, ?_⟩
        rw [run_one, next_of_splice hparse, enter_of_full hdepth.ge]
        rfl
      | succ depth =>
        cases hload : files.load (SourcePath.resolve path target) with
        | error cause =>
          refine ⟨1, ?_⟩
          rw [run_one, next_of_splice hparse, enter_of_unreadable (by omega) hload,
            Progress.splicing_of_unreadable hload]
          rfl
        | ok loaded =>
          obtain ⟨inner, left⟩ := loaded
          obtain ⟨k, hk⟩ := hinner depth rfl (SourcePath.resolve path target) inner (numberedLines inner) left c
          refine ⟨k + 1, ?_⟩
          rw [run, next_of_splice hparse, enter_of_load (by omega) hload, Progress.splicing_of_load hload, bind_assoc,
            bind_assoc, walkNested_eq_walkLines]
          simp only [pure_bind]
          exact congrArg _ (funext fun _ => hk)

/-- **A file is walked through**, with all that it includes. -/
theorem passes {depth : Nat} (hdepth : below.length + depth = includeLimit) : Passes depth below := by
  -- on the depth, for the included files, and then on the lines
  induction depth using Nat.strong_induction_on generalizing below with
  | _ depth ihDepth =>
    intro path text lines
    induction lines with
    | nil => exact fun files c => ⟨1, rfl⟩
    | cons line rest ih =>
      intro files c
      rw [Traced.foldList, bind_assoc]
      refine exists_run_bind (f := fun s => ⟨⟨path, text, rest⟩ :: below, s.2, s.1⟩) ?_ fun s => ih s.2 s.1
      refine exists_run_line hdepth fun d hd => ihDepth d (by omega) ?_
      rw [List.length_cons]
      omega

/-- **A source tree is processed to its end**, or to its first error, in some number of steps. -/
theorem exists_run_start (files : SourceFiles) (origin : UInt16) (path text : String) :
    ∃ k, (start files origin path text).run k =
      walk files Program.collect path text { origin := origin } >>= fun s => return ⟨[], s.2, s.1⟩ := by
  have hpasses : Passes includeLimit [] := passes rfl
  obtain ⟨k, hk⟩ := hpasses path text (numberedLines text) files { origin := origin }
  exact ⟨k, hk⟩

/-- The result that a run comes to: that of a collection once all files are left, or the error of a step. -/
inductive Ends (p : Progress) : Except AsmError Program → Prop
  | finished {k : Nat} {q : Progress} (reached : (p.run k).result = .ok q) (left : q.stack = []) :
      Ends p (Program.finish q.collection)
  | failed {k : Nat} {e : AsmError} (stopped : (p.run k).result = .error e) : Ends p (.error e)

/-- **Processing ends**, with the program in the file or with what is wrong there. -/
theorem ends_ofSource (files : SourceFiles) (origin : UInt16) (path text : String) :
    (start files origin path text).Ends (Program.ofSource files origin path text).result := by
  obtain ⟨k, hk⟩ := exists_run_start files origin path text
  rw [Program.ofSource, Traced.result_bind]
  cases hwalk : (walk files Program.collect path text { origin := origin }).result with
  | error e => exact .failed (k := k) (by rw [hk, Traced.result_bind, hwalk]; rfl)
  | ok s => exact .finished (k := k) (q := ⟨[], s.2, s.1⟩) (by rw [hk, Traced.result_bind, hwalk]; rfl) rfl

/-! ## How the open files include one another -/

/-- Files that are open at one time: the last one is that at `path`, and each other one is included by a line of the
next. -/
inductive Nest (files : SourceFiles) (path text : String) : List OpenFile → Prop
  | nil : Nest files path text []
  | main {rest : List (Nat × String)} (suffix : rest <:+ numberedLines text) : Nest files path text [⟨path, text, rest⟩]
  | inner {outer : OpenFile} {below : List OpenFile} {line : Nat × String} {target inner : String}
      {rest : List (Nat × String)} (nest : Nest files path text (outer :: below))
      (mem : line ∈ numberedLines outer.text) (parsed : Statement.parse line.2 = .ok (.splice target))
      (found : files.text (SourcePath.resolve outer.path target) = .ok inner) (suffix : rest <:+ numberedLines inner) :
      Nest files path text (⟨SourcePath.resolve outer.path target, inner, rest⟩ :: outer :: below)

namespace Nest

variable {file : OpenFile} {lines : List (Nat × String)}

theorem tail (h : Nest files path text (file :: below)) : Nest files path text below := by
  cases h with
  | main => exact .nil
  | inner nest => exact nest

theorem suffix (h : Nest files path text (file :: below)) : file.rest <:+ numberedLines file.text := by
  cases h with
  | main suffix => exact suffix
  | inner _ _ _ _ suffix => exact suffix

/-- The innermost file may have other lines left. -/
theorem withRest (h : Nest files path text (file :: below)) (hrest : rest <:+ numberedLines file.text) :
    Nest files path text ({ file with rest := rest } :: below) := by
  cases h with
  | main => exact .main hrest
  | inner nest mem parsed found => exact .inner nest mem parsed found hrest

end Nest

/-- What holds all the time: the files are those of the start, and the open ones include one another, in no more than
`includeLimit` steps. -/
structure Within (files : SourceFiles) (path text : String) (p : Progress) : Prop where
  files_eq : p.files = files
  nest : Nest files path text p.stack
  length_le : p.stack.length ≤ includeLimit + 1

/-- **One step** keeps to the files. -/
theorem Within.next (hfiles : files.Held) {path text : String} (h : p.Within files path text)
    (hnext : Next p (.ok q)) : q.Within files path text := by
  obtain ⟨rfl, nest, length_le⟩ := h
  cases hnext with
  | idle => exact ⟨rfl, nest, length_le⟩
  | leave => exact ⟨rfl, nest.tail, (Nat.le_succ _).trans length_le⟩
  | take => exact ⟨rfl, nest.withRest ((List.suffix_cons ..).trans nest.suffix), length_le⟩
  | enter parsed room loaded =>
    obtain ⟨found, rfl⟩ := hfiles.load_eq_ok_iff.1 loaded
    have hrest := (List.suffix_cons ..).trans nest.suffix
    exact ⟨rfl, .inner (nest.withRest hrest) (nest.suffix.subset List.mem_cons_self) parsed found List.suffix_rfl,
      Nat.succ_le_succ room⟩

/-- **All steps** keep to the files. -/
theorem within_of_run (hfiles : files.Held) {origin : UInt16} {path text : String}
    (h : ((start files origin path text).run k).result = .ok q) : q.Within files path text := by
  have hstart : (start files origin path text).Within files path text :=
    ⟨rfl, .main List.suffix_rfl, Nat.succ_le_succ (Nat.zero_le _)⟩
  exact run_induction hstart (fun _ _ => Within.next hfiles) h

end Progress

end Octet
