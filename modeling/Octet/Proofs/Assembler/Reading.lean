import Octet.Assembler.SourceTree
import Octet.Proofs.Outcomes
/-!
The files that are read on the way through a source tree.

* `SourceTree.splicing`: what is done at an include;
* `SourceTree.Reads`: the files that are read, each with its path and its text;
* `SourceTree.Reads.mem_reports`: where reading succeeds, every line of each of them is read.
-/

namespace Octet

/-- Where a fold succeeds it gets to every element, and reports what is reported there. -/
theorem Traced.foldList_split {ω ε σ α : Type} {step : σ → α → Traced ω ε σ} {s t : σ} {before after : List α} {x : α}
    (h : (foldList step s (before ++ x :: after)).result = .ok t) :
    ∃ s', (foldList step s before).result = .ok s' ∧ (∃ s'', (step s' x).result = .ok s'') ∧
      ∀ r ∈ (step s' x).reports, r ∈ (foldList step s (before ++ x :: after)).reports := by
  rw [foldList_append, result_bind] at h
  obtain ⟨s', hs', h⟩ := Except.bind_eq_ok.1 h
  rw [foldList.eq_2, result_bind] at h
  obtain ⟨s'', hs'', -⟩ := Except.bind_eq_ok.1 h
  refine ⟨s', hs', ⟨s'', hs''⟩, fun r hr => ?_⟩
  rw [foldList_append, reports_bind, hs']
  refine List.mem_append_right _ ?_
  dsimp only
  rw [foldList.eq_2, reports_bind]
  exact List.mem_append_left _ hr

namespace SourceTree

/-- What is done at an include that may go `depth` deep. -/
def splicing {τ ω : Type} (walker : Walker τ ω) : Nat → String → τ → Location → String → Traced ω AsmError τ
  | 0, _ => fun _ loc _ => Traced.fail (.inLine .includeDepth loc)
  | depth + 1, path => fun t loc target => do
    let inner := SourcePath.resolve path target
    let t ← walker.step t ⟨loc, .splice inner⟩
    match walker.load t inner with
    | .error cause => Traced.fail (.inLine (.unreadableInclude inner cause) loc)
    | .ok (innerText, t) => walkNested walker depth inner innerText t

/-- A file is walked line by line. -/
theorem walkNested_eq_walkLines {τ ω : Type} (walker : Walker τ ω) (depth : Nat) (path text : String) (t : τ) :
    walkNested walker depth path text t = walkLines walker path text (splicing walker depth path) t := by
  cases depth <;> rfl

theorem readNested_eq (files : SourceFiles) (depth : Nat) (path text : String) :
    readNested files depth path text =
      Traced.foldList (walkLine .reader path (splicing .reader depth path)) files (numberedLines text) :=
  walkNested_eq_walkLines .reader depth path text files

section
variable {τ ω : Type} {walker : Walker τ ω} {t : τ} {path line : String} {n : Nat}
  {splice : τ → Location → String → Traced ω AsmError τ}

/-- The step for a line that is no statement. -/
theorem walkLine_of_fault {fault : Fault} (h : Statement.parse line = .error fault) :
    walkLine walker path splice t (n, line) = Traced.fail (.inLine fault ⟨path, n⟩) := by
  unfold walkLine
  rw [h]

/-- The step for a line that is no include. -/
theorem walkLine_of_plain {statement : Statement} (h : Statement.parse line = .ok statement)
    (hplain : ∀ target, statement ≠ .splice target) :
    walkLine walker path splice t (n, line) = walker.step t ⟨⟨path, n⟩, statement⟩ := by
  unfold walkLine
  rw [h]
  cases statement with
  | splice target => exact absurd rfl (hplain target)
  | _ => rfl

/-- The step for an include is what is done at an include. -/
theorem walkLine_of_splice {target : String} (h : Statement.parse line = .ok (.splice target)) :
    walkLine walker path splice t (n, line) = splice t ⟨path, n⟩ target := by
  unfold walkLine
  rw [h]

end

/-- A reader reports a statement. -/
theorem reader_step (files : SourceFiles) (s : LocatedStatement) : Walker.reader.step files s = ⟨[s], .ok files⟩ := rfl

/-- An include of a file that can be read is a report, and then what the file reports. -/
theorem splicing_of_load {files inside : SourceFiles} {depth : Nat} {path target innerText : String} (loc : Location)
    (h : files.load (SourcePath.resolve path target) = .ok (innerText, inside)) :
    splicing .reader (depth + 1) path files loc target =
      (Traced.emit ⟨loc, .splice (SourcePath.resolve path target)⟩ >>= fun _ =>
        readNested inside depth (SourcePath.resolve path target) innerText) := by
  have hload : Walker.reader.load files (SourcePath.resolve path target) = .ok (innerText, inside) := h
  rw [splicing.eq_2]
  dsimp only
  rw [reader_step, Traced.mk_bind, hload]
  rfl

/-- An include of a file that cannot be read. -/
theorem splicing_of_unreadable {files : SourceFiles} {depth : Nat} {path target : String} {cause : FileFault}
    (loc : Location) (h : files.load (SourcePath.resolve path target) = .error cause) :
    splicing .reader (depth + 1) path files loc target =
      (Traced.emit ⟨loc, .splice (SourcePath.resolve path target)⟩ >>= fun _ =>
        Traced.fail (.inLine (.unreadableInclude (SourcePath.resolve path target) cause) loc)) := by
  have hload : Walker.reader.load files (SourcePath.resolve path target) = .error cause := h
  rw [splicing.eq_2]
  dsimp only
  rw [reader_step, Traced.mk_bind, hload]
  rfl

/-- The files that are read on the way through a source tree, each with its path and its text. -/
inductive Reads : Nat → SourceFiles → String → String → String → String → Prop
  | self (depth : Nat) (files : SourceFiles) (path text : String) : Reads depth files path text path text
  | splice {depth : Nat} {files files' inside : SourceFiles} {path text path' text' innerText target : String}
      {before after : List (Nat × String)} {line : Nat × String}
      (lines : numberedLines text = before ++ line :: after)
      (statement : Statement.parse line.2 = .ok (.splice target))
      (passed : (Traced.foldList (walkLine .reader path (splicing .reader (depth + 1) path)) files before).result =
        .ok files')
      (loaded : files'.load (SourcePath.resolve path target) = .ok (innerText, inside))
      (inner : Reads depth inside (SourcePath.resolve path target) innerText path' text') :
      Reads (depth + 1) files path text path' text'

/-- **Where reading succeeds, every line of each file is read.** -/
theorem Reads.mem_reports {depth : Nat} {files left : SourceFiles} {path text path' text' : String}
    (h : Reads depth files path text path' text') (hok : (readNested files depth path text).result = .ok left)
    {line : Nat × String} (hline : line ∈ numberedLines text') {statement : Statement}
    (hs : Statement.parse line.2 = .ok statement) (hplain : ∀ target, statement ≠ .splice target) :
    ⟨⟨path', line.1⟩, statement⟩ ∈ (readNested files depth path text).reports := by
  rw [readNested_eq] at hok ⊢
  induction h generalizing left with
  | self depth files path text =>
    obtain ⟨before, after, hsplit⟩ := List.append_of_mem hline
    rw [hsplit] at hok ⊢
    obtain ⟨files', -, -, hreports⟩ := Traced.foldList_split hok
    refine hreports _ ?_
    rw [walkLine_of_plain hs hplain]
    exact List.mem_singleton_self _
  | @splice depth files files' inside path text path' text' innerText target before after line' hlines hstatement
      hpassed hloaded _ ih =>
    rw [hlines] at hok ⊢
    obtain ⟨passed, hpassed', ⟨left', hleft⟩, hreports⟩ := Traced.foldList_split hok
    obtain rfl : passed = files' := Except.ok.inj (hpassed'.symm.trans hpassed)
    rw [walkLine_of_splice hstatement, splicing_of_load _ hloaded] at hleft hreports
    rw [Traced.result_bind, Traced.result_emit, Except.ok_bind] at hleft
    refine hreports _ ?_
    rw [Traced.reports_bind, Traced.result_emit]
    rw [readNested_eq] at hleft ⊢
    exact List.mem_append_right _ (ih hleft hline)

end SourceTree

end Octet
