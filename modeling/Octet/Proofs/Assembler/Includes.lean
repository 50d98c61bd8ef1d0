import Octet.Proofs.Assembler.Collection
import Octet.Proofs.Assembler.Locations
import Octet.Proofs.Assembler.Reading
/-!
An include says what the lines of the file say in its place.

* `SourceTree.Follows`: one reading says what another one does, unless it ends because includes are nested too deeply;
* `SourceTree.follows_splicing`: what is done at an include depends neither on the file that it stands in nor on how
  deep it may go, as long as it names the same file;
* `SourceTree.follows_spliced`: a file with an include, and the same with the lines of the included file in its place;
* `include_is_textual`: they make the same program or the same error, but for places.
-/

namespace Octet

/-! ## Files -/

namespace SourceFiles

/-- The same files, of which the input may have been used up. -/
structure SameTexts (files left : SourceFiles) : Prop where
  text : left.text = files.text
  isInput : left.isInput = files.isInput

variable {files left last : SourceFiles}

theorem SameTexts.refl (files : SourceFiles) : files.SameTexts files := ⟨rfl, rfl⟩

/-- Reading a file uses up the input at most. -/
theorem SameTexts.load {path text : String} (h : files.SameTexts left) (hl : left.load path = .ok (text, last)) :
    files.SameTexts last := by
  have hmap {inside : SourceFiles} (hi : files.SameTexts inside)
      (hm : (fun t => (t, inside)) <$> left.text path = .ok (text, last)) : files.SameTexts last := by
    obtain ⟨_, _, hp⟩ := Except.map_eq_ok.1 hm
    obtain ⟨-, rfl⟩ := Prod.mk.inj hp
    exact hi
  unfold SourceFiles.load at hl
  split at hl
  · split at hl
    · cases hl
      exact h
    · exact @hmap { left with inputUsed := true } ⟨h.text, h.isInput⟩ hl
  · exact hmap h hl

/-- A file other than the input reads the same later on. -/
theorem SameTexts.load_eq {path text : String} (h : files.SameTexts left) (hi : files.isInput path = false)
    (ht : files.text path = .ok text) : left.load path = .ok (text, left) := by
  rw [load_of_not_isInput (by rw [h.isInput, hi]), h.text, ht]
  rfl

end SourceFiles

namespace SourceTree

variable {files left : SourceFiles} {d d' : Nat}

/-! ## Lines with their numbers -/

/-- The normalized lines that are not empty, with numbers from `start` on. -/
def numberedFrom (start : Nat) (lines : List (List Char)) : List (Nat × String) :=
  ((lines.zipIdx start).map fun (line, n) => (n, normalize (String.ofList line))).filter fun p => p.2 ≠ ""

theorem numberedFrom_append (start : Nat) (xs ys : List (List Char)) :
    numberedFrom start (xs ++ ys) = numberedFrom start xs ++ numberedFrom (start + xs.length) ys := by
  simp [numberedFrom, List.zipIdx_append]

theorem numberedFrom_cons (start : Nat) {line : List Char} (lines : List (List Char))
    (h : normalize (String.ofList line) ≠ "") :
    numberedFrom start (line :: lines) = (start, normalize (String.ofList line)) :: numberedFrom (start + 1) lines := by
  simp [numberedFrom, List.zipIdx_cons, h]

/-- The numbers apart, the lines are what their texts make them. -/
theorem map_snd_numberedFrom (start : Nat) (lines : List (List Char)) :
    (numberedFrom start lines).map (·.2) =
      (lines.map fun line => normalize (String.ofList line)).filter (· ≠ "") := by
  induction lines generalizing start with
  | nil => rfl
  | cons line lines ih =>
    by_cases h : normalize (String.ofList line) = ""
    · have hskip : numberedFrom start (line :: lines) = numberedFrom (start + 1) lines := by
        simp [numberedFrom, List.zipIdx_cons, h]
      rw [hskip, ih, List.map_cons, List.filter_cons_of_neg (by simp [h])]
    · rw [numberedFrom_cons start lines h, List.map_cons, ih, List.map_cons, List.filter_cons_of_pos (by simp [h])]

/-- The statements of some lines of a file, the first of which has the number `start`. -/
def readLines (files : SourceFiles) (depth : Nat) (path : String) (start : Nat) (lines : List (List Char)) : Stream :=
  Traced.foldList (walkLine .reader path (splicing .reader depth path)) files (numberedFrom start lines)

theorem readNested_eq_readLines (files : SourceFiles) (depth : Nat) (path text : String) :
    readNested files depth path text = readLines files depth path 1 (Text.lines text.toList) :=
  readNested_eq files depth path text

theorem readLines_append (files : SourceFiles) (depth : Nat) (path : String) (start : Nat) (xs ys : List (List Char)) :
    readLines files depth path start (xs ++ ys) =
      readLines files depth path start xs >>= fun left => readLines left depth path (start + xs.length) ys := by
  simp only [readLines, numberedFrom_append, Traced.foldList_append]

/-! ## Two readings in step -/

/-- Two readings end in the same files, or in errors that differ in their places. -/
inductive EndsAlike (files : SourceFiles) : Except AsmError SourceFiles → Except AsmError SourceFiles → Prop
  | error {e e' : AsmError} (h : e.unlocated = e'.unlocated) : EndsAlike files (.error e) (.error e')
  | ok {left : SourceFiles} (h : files.SameTexts left) : EndsAlike files (.ok left) (.ok left)

theorem EndsAlike.unlocatedIn_eq {r r' : Except AsmError SourceFiles} (h : EndsAlike files r r') :
    unlocatedIn id r = unlocatedIn id r' := by
  cases h with
  | error h => exact congrArg Except.error h
  | ok => rfl

theorem EndsAlike.eq_ok {r : Except AsmError SourceFiles} (h : EndsAlike files (.ok left) r) :
    r = .ok left ∧ files.SameTexts left := by
  cases h with
  | ok h => exact ⟨rfl, h⟩

/-- A reading `x` says what `y` does and ends as `y` does, but for places, or it has said what `y` says first when
includes turn out to be nested too deeply. -/
inductive Follows (files : SourceFiles) (x y : Stream) : Prop
  | tooDeep (loc : Location) (stopped : x.result = .error (.inLine .includeDepth loc))
      (said_first : said x.reports <+: said y.reports)
  | alike (ends : EndsAlike files x.result y.result) (said_eq : said x.reports = said y.reports)

namespace Follows

variable {x y x' y' : Stream} {loc loc' : Location} {path path' : String}

/-- Only what readings say and how they end matters. -/
theorem congr (h : Follows files x y) (hx : x'.result = x.result) (hy : y'.result = y.result)
    (hsx : said x'.reports = said x.reports) (hsy : said y'.reports = said y.reports) : Follows files x' y' := by
  cases h with
  | tooDeep loc stopped said_first => exact .tooDeep loc (hx.trans stopped) (by rwa [hsx, hsy])
  | alike ends said_eq => exact .alike (by rwa [hx, hy]) (by rw [hsx, hsy, said_eq])

theorem fail {e e' : AsmError} (h : e.unlocated = e'.unlocated) : Follows files (Traced.fail e) (Traced.fail e') :=
  .alike (.error h) rfl

theorem pure (h : files.SameTexts left) : Follows files (Pure.pure left) (Pure.pure left) := .alike (.ok h) rfl

/-- Statements that say the same. -/
theorem step (h : files.SameTexts left) (statement : Statement) :
    Follows files (Walker.reader.step left ⟨loc, statement⟩) (Walker.reader.step left ⟨loc', statement⟩) :=
  .alike (.ok h) (by cases statement <;> rfl)

/-- An include has said nothing yet. -/
theorem reports_enter :
    (Traced.emit ⟨loc, .splice path⟩ >>= fun _ => x).reports = ⟨loc, .splice path⟩ :: x.reports := by
  rw [Traced.reports_bind]
  rfl

theorem result_enter {s : LocatedStatement} : (Traced.emit s >>= fun _ => x).result = x.result := by
  rw [Traced.result_bind]
  rfl

theorem enter_left (h : Follows files x y) : Follows files (Traced.emit ⟨loc, .splice path⟩ >>= fun _ => x) y :=
  h.congr result_enter rfl (by rw [reports_enter, said_cons_splice]) rfl

theorem enter_right (h : Follows files x y) : Follows files x (Traced.emit ⟨loc, .splice path⟩ >>= fun _ => y) :=
  h.congr rfl result_enter rfl (by rw [reports_enter, said_cons_splice])

theorem same (h : Follows files x y) (hx : x.result = .ok left) : files.SameTexts left := by
  cases h with
  | tooDeep loc stopped => cases stopped.symm.trans hx
  | alike ends =>
    rw [hx] at ends
    exact ends.eq_ok.2

/-- Where a reading ends in an error nothing comes after it. -/
theorem bind_of_error {f : SourceFiles → Stream} {e : AsmError} (h : x.result = .error e) :
    (x >>= f).result = .error e ∧ (x >>= f).reports = x.reports := by
  rw [Traced.result_bind, Traced.reports_bind, h, List.append_nil]
  exact ⟨rfl, rfl⟩

theorem bind_of_ok {f : SourceFiles → Stream} (h : x.result = .ok left) :
    (x >>= f).result = (f left).result ∧ (x >>= f).reports = x.reports ++ (f left).reports := by
  rw [Traced.result_bind, Traced.reports_bind, h]
  exact ⟨rfl, rfl⟩

/-- One reading after another. -/
theorem bind {f g : SourceFiles → Stream} (h : Follows files x y)
    (hf : ∀ left, files.SameTexts left → Follows files (f left) (g left)) : Follows files (x >>= f) (y >>= g) := by
  cases h with
  | tooDeep loc stopped said_first =>
    obtain ⟨hresult, hreports⟩ := bind_of_error (f := f) stopped
    refine .tooDeep loc hresult ?_
    rw [hreports, Traced.reports_bind, said_append]
    exact said_first.trans (List.prefix_append ..)
  | alike ends said_eq =>
    cases hx : x.result with
    | error e =>
      cases hy : y.result with
      | ok left => rw [hx, hy] at ends; cases ends
      | error e' =>
        obtain ⟨hxe, hxr⟩ := bind_of_error (f := f) hx
        obtain ⟨hye, hyr⟩ := bind_of_error (f := g) hy
        exact .alike (by rwa [hxe, hye, ← hx, ← hy]) (by rw [hxr, hyr, said_eq])
    | ok left =>
      rw [hx] at ends
      obtain ⟨hy, hsame⟩ := ends.eq_ok
      obtain ⟨hxe, hxr⟩ := bind_of_ok (f := f) hx
      obtain ⟨hye, hyr⟩ := bind_of_ok (f := g) hy
      cases hf left hsame with
      | tooDeep loc stopped said_first =>
        refine .tooDeep loc (hxe.trans stopped) ?_
        rw [hxr, hyr, said_append, said_append, said_eq]
        exact (List.prefix_append_right_inj _).2 said_first
      | alike ends' said_eq' =>
        exact .alike (by rwa [hxe, hye]) (by rw [hxr, hyr, said_append, said_append, said_eq, said_eq'])

/-- Lines with the same texts, one after another. -/
theorem foldList {step step' : SourceFiles → Nat × String → Stream} {xs ys : List (Nat × String)}
    (hsame : files.SameTexts left) (h : xs.map (·.2) = ys.map (·.2))
    (hstep : ∀ line ∈ xs.map (·.2), ∀ n n' left, files.SameTexts left →
      Follows files (step left (n, line)) (step' left (n', line))) :
    Follows files (Traced.foldList step left xs) (Traced.foldList step' left ys) := by
  induction xs generalizing left ys with
  | nil =>
    obtain rfl := List.map_eq_nil_iff.1 h.symm
    exact .pure hsame
  | cons x xs ih =>
    obtain ⟨⟨n', line⟩, ys, rfl, hxy, hrest⟩ := List.map_eq_cons_iff.1 h.symm
    obtain rfl : line = x.2 := hxy
    rw [List.map_cons, List.forall_mem_cons] at hstep
    exact (hstep.1 x.1 n' left hsame).bind fun left' hsame' => ih hsame' hrest.symm hstep.2

end Follows

/-- **One line** in two files, if its include leads on alike. -/
theorem follows_walkLine {splice splice' : SourceFiles → Location → String → Stream} {path path' line : String}
    (n n' : Nat) (hsame : files.SameTexts left) (hsplice : ∀ target, Statement.parse line = .ok (.splice target) →
      Follows files (splice left ⟨path, n⟩ target) (splice' left ⟨path', n'⟩ target)) :
    Follows files (walkLine .reader path splice left (n, line)) (walkLine .reader path' splice' left (n', line)) := by
  unfold walkLine
  cases hs : Statement.parse line with
  | error fault => exact .fail rfl
  | ok statement =>
    cases statement with
    | splice target => exact hsplice target hs
    | _ => exact .step hsame _

/-- **An include**: what comes of it depends neither on the file that it stands in nor on how deep it may go, as long
as it names the same file. -/
theorem follows_splicing {path path' target : String} {loc loc' : Location} (hd : d ≤ d')
    (hsame : files.SameTexts left) (hr : SourcePath.resolve path target = SourcePath.resolve path' target) :
    Follows files (splicing .reader d path left loc target) (splicing .reader d' path' left loc' target) := by
  induction d generalizing d' path path' target loc loc' left with
  | zero => exact .tooDeep loc rfl (List.nil_prefix ..)
  | succ d ih =>
    obtain ⟨d', rfl⟩ : ∃ e, d' = e + 1 := ⟨d' - 1, by omega⟩
    cases hload : left.load (SourcePath.resolve path target) with
    | error cause =>
      rw [splicing_of_unreadable loc hload, splicing_of_unreadable loc' (hr ▸ hload), hr]
      exact .enter_left (.enter_right (.fail rfl))
    | ok p =>
      obtain ⟨innerText, inside⟩ := p
      rw [splicing_of_load loc hload, splicing_of_load loc' (hr ▸ hload), readNested_eq, readNested_eq, hr]
      refine .enter_left (.enter_right (.foldList (hsame.load hload) rfl fun line _ n n' left' hsame' => ?_))
      exact follows_walkLine n n' hsame' fun target _ => ih (by omega) hsame' rfl

/-- A line that includes a file. -/
def Includes (line : List Char) (target : String) : Prop :=
  Statement.parse (normalize (String.ofList line)) = .ok (.splice target)

theorem Includes.ne_empty {line : List Char} {target : String} (h : Includes line target) :
    normalize (String.ofList line) ≠ "" := by
  intro he
  rw [Includes, he, show Statement.parse "" = .ok (.instruction (splitTokens "")) from rfl] at h
  cases h

section
variable {path text target innerText : String} {before after : List (List Char)} {line : List Char}

/-- An include says what the included file says, and then come the lines behind it. -/
theorem readLines_of_includes (start : Nat) (hsame : files.SameTexts left) (hline : Includes line target)
    (hinput : files.isInput (SourcePath.resolve path target) = false)
    (hread : files.text (SourcePath.resolve path target) = .ok innerText) :
    readLines left (d + 1) path start (line :: after) =
      Traced.emit ⟨⟨path, start⟩, .splice (SourcePath.resolve path target)⟩ >>= fun _ =>
        readNested left d (SourcePath.resolve path target) innerText >>= fun left =>
          readLines left (d + 1) path (start + 1) after := by
  have hparse : Statement.parse (normalize (String.ofList line)) = .ok (.splice target) := hline
  have hwalk : walkLine .reader path (splicing .reader (d + 1) path) left (start, normalize (String.ofList line)) =
      splicing .reader (d + 1) path left ⟨path, start⟩ target := walkLine_of_splice hparse
  rw [readLines, numberedFrom_cons _ _ hline.ne_empty, Traced.foldList, hwalk,
    splicing_of_load _ (hsame.load_eq hinput hread), bind_assoc]
  rfl

/-- Lines that say the same in one file, whatever their numbers. -/
theorem Follows.readLines (start start' : Nat) (hsame : files.SameTexts left) (lines : List (List Char)) :
    Follows files (readLines left d path start lines) (readLines left d path start' lines) :=
  .foldList hsame (by rw [map_snd_numberedFrom, map_snd_numberedFrom]) fun _ _ n n' _ hsame =>
    follows_walkLine n n' hsame fun _ _ => follows_splicing (Nat.le_refl d) hsame rfl

/-- **A file with an include** says what the file with the lines of the included one in its place says. -/
theorem follows_spliced {spliced : String} (hlines : Text.lines text.toList = before ++ line :: after)
    (hline : Includes line target) (hinput : files.isInput (SourcePath.resolve path target) = false)
    (hread : files.text (SourcePath.resolve path target) = .ok innerText)
    (hinner : ∀ inner ∈ Text.lines innerText.toList, ∀ target', Includes inner target' →
      SourcePath.resolve (SourcePath.resolve path target) target' = SourcePath.resolve path target')
    (hspliced : Text.lines spliced.toList = before ++ (Text.lines innerText.toList ++ after)) :
    Follows files (readNested files (d + 1) path text) (readNested files (d + 1) path spliced) := by
  rw [readNested_eq_readLines, readNested_eq_readLines, hlines, hspliced, readLines_append, readLines_append]
  refine .bind (.readLines 1 1 (.refl files) before) fun left hsame => ?_
  rw [readLines_of_includes _ hsame hline hinput hread, readLines_append]
  refine .enter_left (.bind ?_ fun left' hsame' => .readLines _ _ hsame' after)
  -- The lines of the included file, in that file and in the other one.
  rw [readNested_eq_readLines]
  refine .foldList hsame ?_ fun inner hmem n n' left' hsame' => ?_
  · rw [map_snd_numberedFrom, map_snd_numberedFrom]
  · refine follows_walkLine n n' hsame' fun target' ht => follows_splicing (Nat.le_succ d) hsame' ?_
    rw [map_snd_numberedFrom] at hmem
    obtain ⟨raw, hraw, rfl⟩ := List.mem_map.1 (List.mem_of_mem_filter hmem)
    exact hinner raw hraw target' ht

/-- What is reported where a file with an include is read to its end. -/
theorem reports_of_includes (hlines : Text.lines text.toList = before ++ line :: after)
    (hline : Includes line target) (hinput : files.isInput (SourcePath.resolve path target) = false)
    (hread : files.text (SourcePath.resolve path target) = .ok innerText)
    (hok : (readNested files (d + 1) path text).result = .ok left) :
    ∃ opened closed, (readLines files (d + 1) path 1 before).result = .ok opened ∧
      (readNested opened d (SourcePath.resolve path target) innerText).result = .ok closed ∧
      (readNested files (d + 1) path text).reports = (readLines files (d + 1) path 1 before).reports ++
        ⟨⟨path, before.length + 1⟩, .splice (SourcePath.resolve path target)⟩ ::
          ((readNested opened d (SourcePath.resolve path target) innerText).reports ++
            (readLines closed (d + 1) path (before.length + 2) after).reports) := by
  rw [readNested_eq_readLines, hlines, readLines_append] at hok ⊢
  rw [Traced.result_bind] at hok
  obtain ⟨opened, hopened, hok⟩ := Except.bind_eq_ok.1 hok
  have hsame : files.SameTexts opened := (Follows.readLines 1 1 (.refl files) before).same hopened
  rw [readLines_of_includes _ hsame hline hinput hread, Follows.result_enter, Traced.result_bind] at hok
  obtain ⟨closed, hclosed, -⟩ := Except.bind_eq_ok.1 hok
  refine ⟨opened, closed, hopened, hclosed, ?_⟩
  rw [Traced.reports_bind, hopened]
  dsimp only
  rw [readLines_of_includes _ hsame hline hinput hread, Follows.reports_enter, Traced.reports_bind, hclosed,
    Nat.add_comm 1 before.length]

end

/-- What becomes of a reading that is not nested too deeply becomes of one that it follows. -/
theorem Follows.unlocatedIn_ofStream {x y : Stream} {origin : UInt16} (h : Follows files x y)
    (hdepth : ∀ loc, (Program.ofStream origin x).result ≠ .error (.inLine .includeDepth loc)) :
    unlocatedIn Program.unlocated (Program.ofStream origin x).result =
      unlocatedIn Program.unlocated (Program.ofStream origin y).result := by
  cases h with
  | tooDeep loc stopped said_first =>
    -- The collection ends in an error before the reading does, and the other one ends there, too.
    obtain ⟨first, rest, hreports, hfirst⟩ := exists_append_of_said said_first
    have hfold := Program.unlocatedIn_foldList (c := { origin := origin }) rfl hfirst
    have hx := hdepth loc
    rw [Program.result_ofStream, stopped] at hx
    rw [Program.result_ofStream, Program.result_ofStream, stopped, hreports, Traced.foldList_append, Traced.result_bind]
    cases hc : (Traced.foldList Program.collect { origin := origin } x.reports).result with
    | ok c => exact absurd (by rw [hc]; rfl) hx
    | error e =>
      rw [hc] at hfold
      cases hf : (Traced.foldList Program.collect { origin := origin } first).result with
      | ok c => rw [hf] at hfold; cases hfold
      | error e' => rw [hf] at hfold; exact congrArg Except.error (Except.error.inj hfold)
  | alike ends said_eq => exact Program.unlocatedIn_ofStream origin said_eq ends.unlocatedIn_eq

end SourceTree

/-! ## Labels at the ends of a file -/

/-- Labels that wait go to the first instruction. -/
theorem exists_head_linesFrom {waiting : List String} {statements : List LocatedStatement} {name : String}
    (hn : name ∈ waiting) (hi : instructionsOf statements ≠ []) :
    ∃ line, (linesFrom waiting statements).head? = some line ∧ name ∈ line.labels := by
  rcases no_instruction_or_first statements with hnone | ⟨between, loc, tokens, after, rfl, hbetween⟩
  · exact absurd (List.filterMap_eq_nil_iff.2 hnone) hi
  · obtain ⟨hwaits, hnil⟩ := waitingFrom_of_no_instruction hbetween hn
    rw [linesFrom_append, hnil]
    exact ⟨_, rfl, hwaits⟩

/-- Labels wait at the end whatever waits in front. -/
theorem waitingFrom_subset {waiting waiting' : List String} (h : waiting ⊆ waiting')
    (statements : List LocatedStatement) : waitingFrom waiting statements ⊆ waitingFrom waiting' statements := by
  induction statements generalizing waiting waiting' with
  | nil => exact h
  | cons s rest ih =>
    obtain ⟨loc, statement⟩ := s
    cases statement with
    | label name =>
      exact ih (List.append_subset.2 ⟨fun _ hm => List.mem_append_left _ (h hm), List.subset_append_right ..⟩)
    | instruction tokens => exact ih (List.Subset.refl [])
    | data | reserve | origin | constant | splice => exact ih h

/-- The lines of a program in whose source the statements of a file stand between others: labels that wait in front of
the file go to its first instruction, and labels that end it go to the first instruction behind it. -/
structure JoinsLabels (before inside after : List LocatedStatement) (lines : List Line) : Prop where
  lines : lines = linesFrom [] before ++ linesFrom (waitingFrom [] before) inside ++
    linesFrom (waitingFrom (waitingFrom [] before) inside) after
  pending : ∀ name ∈ waitingFrom [] before, instructionsOf inside ≠ [] →
    ∃ line, (linesFrom (waitingFrom [] before) inside).head? = some line ∧ name ∈ line.labels
  trailing : ∀ name ∈ waitingFrom [] inside,
    ∃ line, (linesFrom (waitingFrom (waitingFrom [] before) inside) after).head? = some line ∧ name ∈ line.labels

theorem Program.Collects.joinsLabels {start : UInt16} {program : Program} {before inside after : List LocatedStatement}
    {loc : Location} {path : String}
    (h : program.Collects start (before ++ ⟨loc, .splice path⟩ :: (inside ++ after))) :
    JoinsLabels before inside after program.lines := by
  have hlines : program.lines = linesFrom [] before ++ (linesFrom (waitingFrom [] before) inside ++
      linesFrom (waitingFrom (waitingFrom [] before) inside) after) :=
    h.lines.trans ((linesFrom_append ..).trans (congrArg _ (linesFrom_append (waitingFrom [] before) inside after)))
  have hwaiting : waitingFrom (waitingFrom (waitingFrom [] before) inside) after = [] :=
    (waitingFrom_append (waitingFrom [] before) inside after).symm.trans
      ((waitingFrom_append [] before (⟨loc, .splice path⟩ :: (inside ++ after))).symm.trans h.waiting)
  refine ⟨by rw [hlines, List.append_assoc], fun name hn hi => exists_head_linesFrom hn hi, fun name hn => ?_⟩
  · have hwaits := waitingFrom_subset (List.nil_subset (waitingFrom [] before)) inside hn
    refine exists_head_linesFrom hwaits fun hnil => ?_
    have hstill := (waitingFrom_of_no_instruction (List.filterMap_eq_nil_iff.1 hnil) hwaits).1
    rw [hwaiting] at hstill
    cases hstill

/-! ## The theorem -/

/-- **An include is a splice of text.** If the file that a line includes can be read, if it is not the input, which can
be read once only, if its own includes name the same files from the file that includes it, and if includes are not
nested too deeply, then the program, or the error, is that of the text with the lines of the included file in the place
of the include, but for places. In particular labels wait across both ends of the included file. -/
theorem include_is_textual {files : SourceFiles} {origin : UInt16} {path text target innerText : String}
    {before after : List (List Char)} {line : List Char} (hlines : Text.lines text.toList = before ++ line :: after)
    (hline : SourceTree.Includes line target) (hread : files.text (SourcePath.resolve path target) = .ok innerText)
    (hinput : files.isInput (SourcePath.resolve path target) = false)
    (hinner : ∀ inner ∈ Text.lines innerText.toList, ∀ target', SourceTree.Includes inner target' →
      SourcePath.resolve (SourcePath.resolve path target) target' = SourcePath.resolve path target')
    (hdepth : ∀ loc, (Program.ofSource files origin path text).result ≠ .error (.inLine .includeDepth loc)) :
    (∀ spliced : String, Text.lines spliced.toList = before ++ (Text.lines innerText.toList ++ after) →
      unlocatedIn Program.unlocated (Program.ofSource files origin path text).result =
        unlocatedIn Program.unlocated (Program.ofSource files origin path spliced).result) ∧
    ∀ program, (Program.ofSource files origin path text).result = .ok program → ∃ opened closed,
      (SourceTree.readLines files includeLimit path 1 before).result = .ok opened ∧
      (SourceTree.readNested opened (includeLimit - 1) (SourcePath.resolve path target) innerText).result = .ok closed ∧
      JoinsLabels (SourceTree.readLines files includeLimit path 1 before).reports
        (SourceTree.readNested opened (includeLimit - 1) (SourcePath.resolve path target) innerText).reports
        (SourceTree.readLines closed includeLimit path (before.length + 2) after).reports program.lines := by
  constructor
  · intro spliced hspliced
    rw [Program.ofSource_eq] at hdepth ⊢
    rw [Program.ofSource_eq]
    exact (SourceTree.follows_spliced hlines hline hinput hread hinner hspliced).unlocatedIn_ofStream hdepth
  · intro program hok
    have hcollects := Program.collects_of_ofSource hok
    rw [Program.ofSource_eq, Program.result_ofStream] at hok
    obtain ⟨c, -, hok⟩ := Except.bind_eq_ok.1 hok
    obtain ⟨left, hleft, -⟩ := Except.bind_eq_ok.1 hok
    obtain ⟨opened, closed, hopened, hclosed, hreports⟩ :=
      SourceTree.reports_of_includes hlines hline hinput hread hleft
    refine ⟨opened, closed, hopened, hclosed, ?_⟩
    rw [show (SourceTree.read files path text).reports = _ from hreports] at hcollects
    exact hcollects.joinsLabels

/-- A file that ends in a label and includes another one. -/
def sampleIncludes : SourceFiles where
  text := fun path =>
    if path = "lib/io" then .ok "#INCLUDE \"nop\"\nLAST:"
    else if path = "lib/nop" then .ok "NOP"
    else .error .missing

/-- A label in front of an include, and one at the end of the included file. -/
theorem include_is_textual_between_labels :
    unlocatedIn Program.unlocated
        (Program.ofSource sampleIncludes 0 "lib/main" "FIRST:\n#INCLUDE \"io\"\nHLT").result =
      unlocatedIn Program.unlocated
        (Program.ofSource sampleIncludes 0 "lib/main" "FIRST:\n#INCLUDE \"nop\"\nLAST:\nHLT").result ∧
    ∃ before inside after lines, JoinsLabels before inside after lines ∧ lines.map (·.labels) = [["FIRST"], ["LAST"]] ∧
      "FIRST" ∈ waitingFrom [] before ∧ "LAST" ∈ waitingFrom [] inside := by
  have hresolve : SourcePath.resolve "lib/main" "io" = "lib/io" := by cbv
  have hdirectory : SourcePath.directory "lib/io" = SourcePath.directory "lib/main" := by cbv
  have hok : (Program.ofSource sampleIncludes 0 "lib/main" "FIRST:\n#INCLUDE \"io\"\nHLT").result =
      .ok { origin := 0, symbols := { procedures := [("FIRST", none), ("LAST", none)] },
            lines := [{ loc := ⟨"lib/nop", 1⟩, mnemonic := "NOP", labels := ["FIRST"] },
              { loc := ⟨"lib/main", 3⟩, mnemonic := "HLT", labels := ["LAST"] }] } := by cbv
  have hinner : ∀ inner ∈ Text.lines "#INCLUDE \"nop\"\nLAST:".toList, ∀ target', SourceTree.Includes inner target' →
      SourcePath.resolve (SourcePath.resolve "lib/main" "io") target' = SourcePath.resolve "lib/main" target' := by
    intro inner _ target' _
    rw [hresolve]
    exact congrArg (SourcePath.join · target') hdirectory
  obtain ⟨hspliced, hjoins⟩ := @include_is_textual sampleIncludes 0 "lib/main"
    "FIRST:\n#INCLUDE \"io\"\nHLT" "io" "#INCLUDE \"nop\"\nLAST:" ["FIRST:".toList] ["HLT".toList]
    "#INCLUDE \"io\"".toList (by cbv) (by unfold SourceTree.Includes; cbv) (by rw [hresolve]; rfl) rfl hinner
    (fun loc he => by cases hok.symm.trans he)
  refine ⟨hspliced _ (by cbv), ?_⟩
  obtain ⟨opened, closed, hopened, -, hlabels⟩ := hjoins _ hok
  have hstart : (SourceTree.readLines sampleIncludes includeLimit "lib/main" 1 ["FIRST:".toList]).result =
      .ok sampleIncludes := by cbv
  obtain rfl : sampleIncludes = opened := Except.ok.inj (hstart.symm.trans hopened)
  refine ⟨_, _, _, _, hlabels, rfl, ?_, ?_⟩
  · rw [show waitingFrom [] (SourceTree.readLines sampleIncludes includeLimit "lib/main" 1 ["FIRST:".toList]).reports =
      ["FIRST"] by cbv]
    exact List.mem_singleton_self _
  · rw [hresolve, show waitingFrom [] (SourceTree.readNested sampleIncludes (includeLimit - 1) "lib/io"
      "#INCLUDE \"nop\"\nLAST:").reports = ["LAST"] by cbv]
    exact List.mem_singleton_self _

end Octet
