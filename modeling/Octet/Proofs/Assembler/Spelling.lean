import Octet.Assembler.Assembly
import Octet.Proofs.Assembler.NormalForm
import Octet.Proofs.Assembler.Reading
/-!
Sources that are spelled alike: line by line they differ in case outside quotes and in comments.

* `Traced.InStep`: two computations that report the same, and end in the same error or in values that are related;
* `SpelledAlike`, `SourceFiles.SpelledAlike`: texts, and the files that they include;
* `SourceTree.inStep_readNested`: sources that are spelled alike are read as the same statements;
* `normal_form_is_stable`: they are assembled alike.
-/

namespace Octet

/-! ## Computations in step -/

section
variable {ε ω α β α' β' : Type} {R : α → α' → Prop} {Q : β → β' → Prop}

/-- The same error, or values that are related. -/
inductive Except.InStep (R : α → α' → Prop) : Except ε α → Except ε α' → Prop
  | error (e : ε) : InStep R (.error e) (.error e)
  | ok {a : α} {a' : α'} : R a a' → InStep R (.ok a) (.ok a')

theorem Except.InStep.map {x : Except ε α} {x' : Except ε α'} {f : α → β} {f' : α' → β'} (h : InStep R x x')
    (hf : ∀ a a', R a a' → Q (f a) (f' a')) : InStep Q (x.map f) (x'.map f') := by
  cases h with
  | error e => exact .error e
  | ok h => exact .ok (hf _ _ h)

/-- Two computations that report the same and end in step. -/
structure Traced.InStep (R : α → α' → Prop) (x : Traced ω ε α) (x' : Traced ω ε α') : Prop where
  reports : x.reports = x'.reports
  result : Except.InStep R x.result x'.result

namespace Traced.InStep

theorem fail (e : ε) : InStep R (Traced.fail e : Traced ω ε α) (Traced.fail e) := ⟨rfl, .error e⟩

theorem bind {x : Traced ω ε α} {x' : Traced ω ε α'} {f : α → Traced ω ε β} {f' : α' → Traced ω ε β'}
    (h : InStep R x x') (hf : ∀ a a', R a a' → InStep Q (f a) (f' a')) : InStep Q (x >>= f) (x' >>= f') := by
  obtain ⟨reports, result⟩ := x
  obtain ⟨reports', result'⟩ := x'
  obtain ⟨rfl, hresult⟩ := h
  cases hresult with
  | error e => exact ⟨rfl, .error e⟩
  | ok h =>
    obtain ⟨hreports, hresult⟩ := hf _ _ h
    exact ⟨congrArg (reports ++ ·) hreports, hresult⟩

theorem foldList {γ : Type} {step : α → γ → Traced ω ε α} {step' : α' → γ → Traced ω ε α'} {a : α} {a' : α'}
    (h : R a a') (xs : List γ) (hstep : ∀ x a a', R a a' → InStep R (step a x) (step' a' x)) :
    InStep R (Traced.foldList step a xs) (Traced.foldList step' a' xs) := by
  induction xs generalizing a a' with
  | nil => exact ⟨rfl, .ok h⟩
  | cons x xs ih => exact (hstep x a a' h).bind fun b b' hb => ih hb

end Traced.InStep

end

/-! ## Texts and files -/

/-- Two texts with as many lines, each of which differs from the other in case outside quotes and in comments. -/
def SpelledAlike (text text' : String) : Prop :=
  List.Forall₂ (Relation.EqvGen Respelled) (Text.lines text.toList) (Text.lines text'.toList)

/-- Lines that are spelled alike have one normal form. -/
theorem normalize_of_eqvGen {line line' : List Char} (h : Relation.EqvGen Respelled line line') :
    normalize (String.ofList line) = normalize (String.ofList line') := by
  induction h with
  | rel line line' h => exact (normalize_of_respelled h).symm
  | refl line => rfl
  | symm line line' _ ih => exact ih.symm
  | trans line line' line'' _ _ ih ih' => exact ih.trans ih'

/-- Texts that are spelled alike have the same lines in normal form, with the same numbers. -/
theorem SpelledAlike.numberedLines_eq {text text' : String} (h : SpelledAlike text text') :
    SourceTree.numberedLines text = SourceTree.numberedLines text' := by
  have hlines : (Text.lines text.toList).map (fun line => normalize (String.ofList line)) =
      (Text.lines text'.toList).map fun line => normalize (String.ofList line) := by
    rw [← List.forall₂_eq_eq_eq, List.forall₂_map_left_iff, List.forall₂_map_right_iff]
    exact h.imp fun _ _ => normalize_of_eqvGen
  have hnumbered (text : String) : SourceTree.numberedLines text =
      ((((Text.lines text.toList).map fun line => normalize (String.ofList line)).zipIdx 1).map Prod.swap).filter
        fun p => p.2 ≠ "" := by
    rw [List.zipIdx_map, List.map_map]
    rfl
  rw [hnumbered, hnumbered, hlines]

namespace SourceFiles

/-- The same files, with texts that are spelled alike. -/
structure SpelledAlike (files files' : SourceFiles) : Prop where
  text : ∀ path, Except.InStep Octet.SpelledAlike (files.text path) (files'.text path)
  isInput : files'.isInput = files.isInput
  inputUsed : files'.inputUsed = files.inputUsed

variable {files files' : SourceFiles}

/-- A file is read alike, and what is left of the files is spelled alike. -/
theorem SpelledAlike.load (h : files.SpelledAlike files') (path : String) :
    Except.InStep (fun p p' => Octet.SpelledAlike p.1 p'.1 ∧ SpelledAlike p.2 p'.2) (files.load path)
      (files'.load path) := by
  have hused : SpelledAlike { files with inputUsed := true } ⟨files'.text, files.isInput, true⟩ :=
    ⟨h.text, rfl, rfl⟩
  have hempty : Octet.SpelledAlike "" "" := by simp [Octet.SpelledAlike, Text.lines]
  unfold SourceFiles.load
  simp only [h.isInput, h.inputUsed]
  split
  · split
    · exact .ok ⟨hempty, h⟩
    · exact (h.text path).map fun _ _ htext => ⟨htext, hused⟩
  · exact (h.text path).map fun _ _ htext => ⟨htext, h⟩

end SourceFiles

/-! ## Reading -/

namespace SourceTree

variable {files files' : SourceFiles}

/-- **One line**, if its include is read alike. -/
theorem inStep_walkLine {path : String} {splice splice' : SourceFiles → Location → String → Stream}
    (hsplice : ∀ loc target files files', files.SpelledAlike files' →
      Traced.InStep SourceFiles.SpelledAlike (splice files loc target) (splice' files' loc target))
    (line : Nat × String) (h : files.SpelledAlike files') :
    Traced.InStep SourceFiles.SpelledAlike (walkLine .reader path splice files line)
      (walkLine .reader path splice' files' line) := by
  obtain ⟨n, line⟩ := line
  cases hparse : Statement.parse line with
  | error fault =>
    rw [walkLine_of_fault hparse, walkLine_of_fault hparse]
    exact .fail _
  | ok statement =>
    by_cases hplain : ∀ target, statement ≠ .splice target
    · rw [walkLine_of_plain hparse hplain, walkLine_of_plain hparse hplain]
      exact ⟨rfl, .ok h⟩
    · obtain ⟨target, htarget⟩ := not_forall_not.1 hplain
      subst htarget
      rw [walkLine_of_splice hparse, walkLine_of_splice hparse]
      exact hsplice _ target _ _ h

/-- **An include**, whatever the depth. -/
theorem inStep_splicing (depth : Nat) (path : String) (loc : Location) (target : String)
    (h : files.SpelledAlike files') :
    Traced.InStep SourceFiles.SpelledAlike (splicing .reader depth path files loc target)
      (splicing .reader depth path files' loc target) := by
  induction depth generalizing path loc target files files' with
  | zero => exact .fail _
  | succ depth ih =>
    have hload := h.load (SourcePath.resolve path target)
    cases hl : files.load (SourcePath.resolve path target) with
    | error cause =>
      rw [hl] at hload
      cases hl' : files'.load (SourcePath.resolve path target) with
      | ok p =>
        rw [hl'] at hload
        cases hload
      | error cause' =>
        rw [hl'] at hload
        cases hload
        rw [splicing_of_unreadable loc hl, splicing_of_unreadable loc hl']
        exact ⟨rfl, .error _⟩
    | ok p =>
      obtain ⟨text, inside⟩ := p
      rw [hl] at hload
      cases hl' : files'.load (SourcePath.resolve path target) with
      | error cause =>
        rw [hl'] at hload
        cases hload
      | ok p =>
        obtain ⟨text', inside'⟩ := p
        rw [hl'] at hload
        cases hload with
        | ok hboth =>
          rw [splicing_of_load loc hl, splicing_of_load loc hl', readNested_eq, readNested_eq,
            ← hboth.1.numberedLines_eq]
          have hemit : Traced.InStep (ω := LocatedStatement) (ε := AsmError) (fun _ _ : Unit => True)
              (Traced.emit ⟨loc, .splice (SourcePath.resolve path target)⟩)
              (Traced.emit ⟨loc, .splice (SourcePath.resolve path target)⟩) := ⟨rfl, .ok trivial⟩
          exact hemit.bind fun _ _ _ => .foldList hboth.2 _ fun line _ _ h =>
            inStep_walkLine (fun loc target _ _ h => ih _ loc target h) line h

/-- **Sources that are spelled alike** are read as the same statements. -/
theorem inStep_readNested (depth : Nat) (path : String) {text text' : String} (h : files.SpelledAlike files')
    (ht : Octet.SpelledAlike text text') :
    Traced.InStep SourceFiles.SpelledAlike (readNested files depth path text) (readNested files' depth path text') := by
  rw [readNested_eq, readNested_eq, ← ht.numberedLines_eq]
  exact .foldList h _ fun line _ _ h => inStep_walkLine (fun loc target _ _ h => inStep_splicing _ _ loc target h) line h

end SourceTree

/-- A stream makes a program by what it reports and by how it ends. -/
theorem Program.ofStream_congr {R : SourceFiles → SourceFiles → Prop} (origin : UInt16) {x x' : SourceTree.Stream}
    (h : Traced.InStep R x x') : ofStream origin x = ofStream origin x' := by
  obtain ⟨reports, result⟩ := x
  obtain ⟨reports', result'⟩ := x'
  obtain ⟨rfl, hresult⟩ := h
  cases hresult with
  | error e => rfl
  | ok h =>
    simp only [ofStream, Traced.foldReports, bind_assoc]
    rfl

/-! ## The theorem -/

/-- **Normal forms are stable, and blind to case and comments.** The normal form of a normal form is itself; outside
quotes the case of a character makes no difference, and in quotes every character is kept, blanks at the end of a quote
that is never closed apart; a comment behind a line that no quote and no backslash is open in makes no difference. So
sources whose lines differ in nothing else are assembled to the same image, or with the same error. -/
theorem normal_form_is_stable :
    (∀ raw, normalize (normalize raw) = normalize raw) ∧
    (∀ raw raw' : String, Recased {} raw.toList raw'.toList → normalize raw' = normalize raw) ∧
    (∀ raw, ∃ front kept back comment, Keeps raw front kept back comment) ∧
    (∀ raw comment : String, stateAfter {} raw.toList = {} → normalize (raw ++ ";" ++ comment) = normalize raw) ∧
    ∀ (files files' : SourceFiles) (origin : UInt16) (path text text' : String), files.SpelledAlike files' →
      SpelledAlike text text' → assemble files origin path text = assemble files' origin path text' := by
  refine ⟨normalize_normalize, fun raw raw' h => ?_, exists_keeps, fun raw comment h => ?_,
    fun files files' origin path text text' h ht => ?_⟩
  · simpa using normalize_of_respelled (.recased h)
  · have hline : raw ++ ";" ++ comment = String.ofList (raw.toList ++ ';' :: comment.toList) := by
      rw [← String.toList_inj]
      simp
    simpa [hline] using normalize_of_respelled (.commented comment.toList h)
  · have hprogram : Program.ofSource files origin path text = Program.ofSource files' origin path text' := by
      rw [Program.ofSource_eq, Program.ofSource_eq]
      exact Program.ofStream_congr origin (SourceTree.inStep_readNested includeLimit path h ht)
    simp only [assemble, hprogram]

/-- The files of a source in lower case, and of one in upper case with comments. -/
def lowerFiles : SourceFiles where
  text := fun path => if path = "key" then .ok "#db key 'k'" else .error .missing

@[inherit_doc lowerFiles]
def upperFiles : SourceFiles where
  text := fun path => if path = "key" then .ok "#DB KEY 'k';'" else .error .missing

/-- Two sources with an include, and a line of each kind; they make one image. -/
theorem normal_form_is_stable_key :
    normalize "LC A, 'x'" = normalize "lc a, 'x'" ∧
    normalize ("lc a, ';'" ++ ";" ++ "it's") = normalize "lc a, ';'" ∧
    (assemble lowerFiles 0 "main" "#include \"key\"\nlc a, key.l").result = .ok ⟨0, [0x03, 0x06, 0x03], [0x6B]⟩ ∧
    assemble lowerFiles 0 "main" "#include \"key\"\nlc a, key.l" =
      assemble upperFiles 0 "main" "#include \"key\";\"\nLC A, Key.L" := by
  obtain ⟨-, hcase, -, hcomment, hassemble⟩ := normal_form_is_stable
  have hkey : SpelledAlike "#db key 'k'" "#DB KEY 'k';'" := by
    have hupper : Recased {} "#db key 'k'".toList "#DB KEY 'k'".toList :=
      .same (.recased rfl rfl (.recased rfl rfl (.same (.recased rfl rfl (.recased rfl rfl (.recased rfl rfl
        (.same (.same (.same (.same (.nil _)))))))))))
    rw [SpelledAlike, show Text.lines "#db key 'k'".toList = ["#db key 'k'".toList] by cbv,
      show Text.lines "#DB KEY 'k';'".toList = ["#DB KEY 'k';'".toList] by cbv]
    refine .cons ?_ .nil
    exact .trans _ _ _ (.rel _ _ (.recased hupper)) (.rel _ _ (.commented "'".toList (by decide)))
  have hmain : SpelledAlike "#include \"key\"\nlc a, key.l" "#include \"key\";\"\nLC A, Key.L" := by
    rw [SpelledAlike, show Text.lines "#include \"key\"\nlc a, key.l".toList =
        ["#include \"key\"".toList, "lc a, key.l".toList] by cbv,
      show Text.lines "#include \"key\";\"\nLC A, Key.L".toList =
        ["#include \"key\";\"".toList, "LC A, Key.L".toList] by cbv]
    refine .cons (.rel _ _ (.commented "\"".toList (by decide))) (.cons (.rel _ _ (.recased ?_)) .nil)
    exact .recased rfl rfl (.recased rfl rfl (.same (.recased rfl rfl (.same (.same (.recased rfl rfl (.same (.same
      (.same (.recased rfl rfl (.nil _)))))))))))
  refine ⟨hcase _ _ ?_, hcomment _ _ (by decide), by cbv, hassemble _ _ _ _ _ _ ⟨fun path => ?_, rfl, rfl⟩ hmain⟩
  · exact .recased rfl rfl (.recased rfl rfl (.same (.recased rfl rfl (.same (.same (.same (.same (.same
      (.nil _)))))))))
  · by_cases h : path = "key"
    · simp only [lowerFiles, upperFiles, if_pos h]
      exact .ok hkey
    · simp only [lowerFiles, upperFiles, if_neg h]
      exact .error _

end Octet
