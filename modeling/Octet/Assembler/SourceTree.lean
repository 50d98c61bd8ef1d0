import Octet.Assembler.SourceFiles
import Octet.Assembler.Statement
import Octet.Traced
/-!
A source file with the files that it includes, as one sequence of statements.

The statements of a file come in the order of its lines, with the statements of an included file right after its
include. The sequence ends at the first line that is no statement, at the first file that cannot be read, and at an
include nested more than `includeLimit` deep.

* `SourceTree.walk` runs a step for each statement while it reads;
* `SourceTree.read` is the sequence itself, and `walk_eq` says that a walk goes through it.
-/

namespace Octet

/-- How deep includes may be nested. -/
def includeLimit : Nat := 16

/-- A statement with the line that it stands in. The path of a splice is that of the file itself. -/
structure LocatedStatement where
  loc : Location
  statement : Statement
deriving DecidableEq, Repr

namespace SourceTree

/-- The normalized lines of a text that are not empty, with their numbers. -/
def numberedLines (text : String) : List (Nat × String) :=
  let lines := (Text.lines text.toList).zipIdx 1
  (lines.map fun (line, n) => (n, normalize (String.ofList line))).filter fun p => p.2 ≠ ""

/-- What is done on the way through a source tree, with a state that is handed on. -/
structure Walker (τ ω : Type) where
  /-- Takes a statement. -/
  step : τ → LocatedStatement → Traced ω AsmError τ
  /-- Reads an included file. -/
  load : τ → String → Except FileFault (String × τ)

variable {σ τ ω : Type}

/-- Takes the statement in a line; `splice` takes over at an include. -/
def walkLine (walker : Walker τ ω) (path : String) (splice : τ → Location → String → Traced ω AsmError τ) (t : τ)
    (line : Nat × String) : Traced ω AsmError τ :=
  let loc : Location := ⟨path, line.1⟩
  match Statement.parse line.2 with
  | .error fault => Traced.fail (.inLine fault loc)
  | .ok (.splice target) => splice t loc target
  | .ok statement => walker.step t ⟨loc, statement⟩

/-- Takes the statements of a file in order. -/
def walkLines (walker : Walker τ ω) (path text : String) (splice : τ → Location → String → Traced ω AsmError τ)
    (t : τ) : Traced ω AsmError τ :=
  Traced.foldList (walkLine walker path splice) t (numberedLines text)

/-- Takes the statements of a file and of those that it includes, with includes nested at most `depth` deep. -/
def walkNested (walker : Walker τ ω) : Nat → String → String → τ → Traced ω AsmError τ
  | 0, path, text => walkLines walker path text fun _ loc _ => Traced.fail (.inLine .includeDepth loc)
  | depth + 1, path, text => walkLines walker path text fun t loc target => do
    let inner := SourcePath.resolve path target
    let t ← walker.step t ⟨loc, .splice inner⟩
    match walker.load t inner with
    | .error cause => Traced.fail (.inLine (.unreadableInclude inner cause) loc)
    | .ok (innerText, t) => walkNested walker depth inner innerText t

/-- Hands the statements to `step`, and reads from `files`. -/
def Walker.collecting (step : σ → LocatedStatement → Traced ω AsmError σ) : Walker (σ × SourceFiles) ω where
  step := fun (s, files) statement => do return (← step s statement, files)
  load := fun (s, files) path => (files.load path).map fun (text, files) => (text, (s, files))

/-- Hands the statements of a file and of those that it includes to `step`. Nothing is read after a step that
fails. -/
def walk (files : SourceFiles) (step : σ → LocatedStatement → Traced ω AsmError σ) (path text : String) (s : σ) :
    Traced ω AsmError (σ × SourceFiles) :=
  walkNested (.collecting step) includeLimit path text (s, files)

/-! ## The stream -/

/-- A stream of statements, which an error may end. Otherwise it ends with the files as they are left. -/
abbrev Stream := Traced LocatedStatement AsmError SourceFiles

/-- Reports the statements. -/
def Walker.reader : Walker SourceFiles LocatedStatement where
  step := fun files statement => do
    Traced.emit statement
    return files
  load := SourceFiles.load

/-- The statements of a file and of those that it includes, nested at most `depth` deep. -/
def readNested (files : SourceFiles) (depth : Nat) (path text : String) : Stream :=
  walkNested .reader depth path text files

/-- The statements of a file and of those that it includes. -/
def read (files : SourceFiles) (path text : String) : Stream := readNested files includeLimit path text

/-- To collect a statement is to go through the report of it. -/
theorem collecting_step (step : σ → LocatedStatement → Traced ω AsmError σ) (p : σ × SourceFiles)
    (statement : LocatedStatement) :
    (Walker.collecting step).step p statement =
      (Walker.reader.step p.2 statement).foldReports step p.1 := by
  simp [Walker.collecting, Walker.reader, -bind_pure_comp]

/-- To read for a collection is to read. -/
theorem collecting_load (step : σ → LocatedStatement → Traced ω AsmError σ) (p : σ × SourceFiles) (path : String) :
    (Walker.collecting step).load p path = (Walker.reader.load p.2 path).map fun q => (q.1, (p.1, q.2)) := rfl

/-- Lines are walked as they are read, if includes are. -/
theorem walkLines_eq {step : σ → LocatedStatement → Traced ω AsmError σ} {path text : String}
    {splice : σ × SourceFiles → Location → String → Traced ω AsmError (σ × SourceFiles)}
    {spliced : SourceFiles → Location → String → Stream}
    (h : ∀ p loc target, splice p loc target = (spliced p.2 loc target).foldReports step p.1)
    (s : σ) (files : SourceFiles) :
    walkLines (.collecting step) path text splice (s, files) =
      (walkLines .reader path text spliced files).foldReports step s := by
  refine Eq.trans ?_ (Traced.foldReports_foldList step s (walkLine .reader path spliced) files _).symm
  refine congrArg (fun f => Traced.foldList f (s, files) (numberedLines text)) ?_
  funext p line
  unfold walkLine
  split <;> simp [h, collecting_step]

theorem walkNested_eq (step : σ → LocatedStatement → Traced ω AsmError σ) (depth : Nat) (path text : String)
    (s : σ) (files : SourceFiles) :
    walkNested (.collecting step) depth path text (s, files) =
      (readNested files depth path text).foldReports step s := by
  induction depth generalizing path text s files with
  | zero =>
    simp only [readNested, walkNested]
    refine walkLines_eq (fun _ _ _ => ?_) s files
    rfl
  | succ depth ih =>
    simp only [readNested, walkNested] at ih ⊢
    refine walkLines_eq (fun p loc target => ?_) s files
    simp only [collecting_step, collecting_load, Traced.foldReports_bind]
    congr; funext p
    cases Walker.reader.load p.2 (SourcePath.resolve path target) with
    | error cause => rfl
    | ok q => exact ih _ q.1 p.1 q.2

/-- To walk through a file is to go through its stream. -/
theorem walk_eq (files : SourceFiles) (step : σ → LocatedStatement → Traced ω AsmError σ) (path text : String)
    (s : σ) : walk files step path text s = (read files path text).foldReports step s :=
  walkNested_eq step includeLimit path text s files

end SourceTree

end Octet
