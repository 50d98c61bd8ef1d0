import Octet.Proofs.Assembler.Collection
/-!
The names of symbols: every one is an identifier, so it is neither a number, nor a dollar sign, nor a name with a dot.

* `IsName`: what characters a name is made of;
* `Statement.Named`, `Statement.Checked`: what a statement declares is a name, and one that may be declared;
* `checked_of_mem_read`, `named_of_mem_read`: so it is for all statements of a source tree.
-/

namespace Octet

/-! ## Identifiers -/

/-- An identifier: a first character that can start a name, then characters that can go on it. -/
def IsName (name : String) : Prop :=
  ∃ first rest, name.toList = first :: rest ∧ startsName first = true ∧ ∀ c ∈ rest, continuesName c = true

/-- A text is read as a whole where nothing is left of it. -/
theorem Scanner.whole?_eq_some_iff {α : Type} {scan : Scanner α} {text : String} {x : α} :
    scan.whole? text = some x ↔ scan text.toList = .ok (x, []) := by
  unfold whole?
  constructor
  · intro h
    split at h
    · rename_i hscan
      rw [hscan, Option.some.inj h]
    · cases h
  · intro h
    rw [h]

theorem isName_of_isIdentifier {name : String} (h : isIdentifier name = true) : IsName name := by
  obtain ⟨found, h⟩ := Option.isSome_iff_exists.1 h
  have hscan := Scanner.whole?_eq_some_iff.1 h
  unfold scanIdentifier at hscan
  split at hscan
  · cases hscan
  · rename_i first rest hlist
    split at hscan
    · rename_i hstart
      have hdrop := (Prod.mk.inj (Except.ok.inj hscan)).2
      exact ⟨first, rest, hlist, hstart, List.dropWhile_eq_nil_iff.1 hdrop⟩
    · cases hscan

theorem continuesName_of_startsName {c : Char} (h : startsName c = true) : continuesName c = true := by
  unfold startsName at h
  unfold continuesName
  rw [Bool.or_eq_true] at h ⊢
  rcases h with h | h
  · exact .inl (by rw [Char.isAlphanum, h]; rfl)
  · exact .inr h

namespace IsName

variable {name : String}

theorem continuesName (h : IsName name) : ∀ c ∈ name.toList, continuesName c = true := by
  obtain ⟨first, rest, hlist, hstart, hrest⟩ := h
  rw [hlist]
  exact List.forall_mem_cons.2 ⟨continuesName_of_startsName hstart, hrest⟩

theorem ne_currentAddress (h : IsName name) : name ≠ "$" := by
  rintro rfl
  exact absurd (h.continuesName '$' (by decide)) (by decide)

/-- The token of a byte starts with a digit. -/
theorem ne_byteToken (h : IsName name) (v : UInt8) : name ≠ byteToken v := by
  rintro rfl
  obtain ⟨first, rest, hlist, hstart, -⟩ := h
  have hzero : (byteToken v).toList.head? = some '0' := by
    simp [byteToken]
  rw [hlist] at hzero
  cases hzero
  exact absurd hstart (by decide)

/-- There is no dot in a name. -/
theorem nameBefore?_eq_none (h : IsName name) (letter : Char) : Symbols.nameBefore? name letter = none := by
  unfold Symbols.nameBefore?
  split
  · rename_i c rest hlist
    have hdot : '.' ∈ name.toList := List.mem_reverse.1 (hlist ▸ by simp)
    exact absurd (h.continuesName '.' hdot) (by decide)
  · rfl

/-- A name with a dot and a letter behind it is none. -/
theorem not_append_dot (other : String) (letter : Char) : ¬ IsName (other ++ String.ofList ['.', letter]) := by
  intro h
  exact absurd (h.continuesName '.' (by simp)) (by decide)

theorem append_dot_ne_currentAddress (other : String) (letter : Char) : other ++ String.ofList ['.', letter] ≠ "$" := by
  intro he
  have hn := Symbols.nameBefore?_append_dot other letter letter
  rw [he, if_pos rfl] at hn
  cases hn

end IsName

/-! ## Statements -/

/-- The name that a statement declares, whatever for. -/
def Statement.name? : Statement → Option String
  | .label name => some name
  | .data name _ => some name
  | .reserve name _ => some name
  | .constant name _ => some name
  | .instruction _ => none
  | .origin _ => none
  | .splice _ => none

/-- A statement declares nothing but names. -/
def Statement.Named (statement : Statement) : Prop := ∀ name, statement.name? = some name → IsName name

/-- A statement declares nothing but names that may be declared: names of registers are not among them. -/
def Statement.Checked (statement : Statement) : Prop :=
  ∀ name, statement.name? = some name → Statement.checkName name = .ok ()

namespace Statement

theorem checkName_eq_ok_iff {name : String} :
    checkName name = .ok () ↔ isIdentifier name = true ∧ Register.ofName? name = none := by
  unfold checkName
  split
  · rename_i h
    simpa using h
  · rename_i h
    simpa using h

theorem isName_of_checkName {name : String} (h : checkName name = .ok ()) : IsName name :=
  isName_of_isIdentifier (checkName_eq_ok_iff.1 h).1

theorem checked_of_parseData {width : DataWidth} {directive : String} {line arguments : List Char} {s : Statement}
    (h : parseData width directive line arguments = .ok s) : s.Checked := by
  unfold parseData at h
  obtain ⟨u, hcheck, h⟩ := Except.bind_eq_ok.1 h
  dsimp only at h
  split at h
  · cases h
  · obtain ⟨bytes, -, h⟩ := Except.bind_eq_ok.1 h
    cases h
    rintro name ⟨⟩
    exact hcheck

theorem checked_of_parseReserve {arguments : List Char} {s : Statement} (h : parseReserve arguments = .ok s) :
    s.Checked := by
  unfold parseReserve at h
  obtain ⟨u, hcheck, h⟩ := Except.bind_eq_ok.1 h
  split at h
  · split at h
    · cases h
      rintro name ⟨⟩
      exact hcheck
    · cases h
  · cases h

theorem checked_of_parseConstant {arguments : List Char} {s : Statement} (h : parseConstant arguments = .ok s) :
    s.Checked := by
  unfold parseConstant at h
  obtain ⟨u, hcheck, h⟩ := Except.bind_eq_ok.1 h
  dsimp only at h
  split at h
  · cases h
  · cases h
    rintro name ⟨⟩
    exact hcheck

theorem checked_of_parseDirective {line body : List Char} {s : Statement} (h : parseDirective line body = .ok s) :
    s.Checked := by
  unfold parseDirective at h
  dsimp only at h
  split at h
  · exact checked_of_parseData h
  · exact checked_of_parseData h
  · exact checked_of_parseReserve h
  · unfold parseOrigin at h
    split at h
    · split at h
      · cases h; rintro name ⟨⟩
      · cases h
    · cases h
  · exact checked_of_parseConstant h
  · unfold parseSplice at h
    dsimp only at h
    split at h
    · cases h
    · cases h; rintro name ⟨⟩
  · cases h

/-- A line declares nothing but names that may be declared. -/
theorem checked_of_parse {line : String} {s : Statement} (h : parse line = .ok s) : s.Checked := by
  unfold parse at h
  split at h
  · obtain ⟨u, hcheck, h⟩ := Except.bind_eq_ok.1 h
    cases h
    rintro name ⟨⟩
    exact hcheck
  · split at h
    · exact checked_of_parseDirective h
    · cases h; rintro name ⟨⟩

end Statement

/-! ## Source trees -/

/-- Every report of a fold is a report of one of its steps. -/
theorem exists_of_mem_reports_foldList {ω ε σ α : Type} {step : σ → α → Traced ω ε σ} {xs : List α} {s : σ} {r : ω}
    (h : r ∈ (Traced.foldList step s xs).reports) : ∃ s' x, r ∈ (step s' x).reports := by
  induction xs generalizing s with
  | nil => cases h
  | cons x xs ih =>
    rw [Traced.foldList, Traced.reports_bind, List.mem_append] at h
    rcases h with h | h
    · exact ⟨s, x, h⟩
    · split at h
      · exact ih h
      · cases h

namespace SourceTree

/-- The statements in the lines of one file may be declared, if those of its includes may. -/
theorem checked_of_mem_walkLines {path text : String} {splice : SourceFiles → Location → String → Stream}
    (hsplice : ∀ files loc target, ∀ s ∈ (splice files loc target).reports, s.statement.Checked)
    {files : SourceFiles} {s : LocatedStatement} (h : s ∈ (walkLines .reader path text splice files).reports) :
    s.statement.Checked := by
  obtain ⟨files', line, h⟩ := exists_of_mem_reports_foldList h
  unfold walkLine at h
  dsimp only at h
  split at h
  · cases h
  · exact hsplice _ _ _ s h
  · rename_i statement _ hparse
    obtain rfl : s = ⟨⟨path, line.1⟩, statement⟩ := List.mem_singleton.1 h
    exact Statement.checked_of_parse hparse

theorem checked_of_mem_readNested {files : SourceFiles} {depth : Nat} {path text : String} {s : LocatedStatement}
    (h : s ∈ (readNested files depth path text).reports) : s.statement.Checked := by
  induction depth generalizing files path text s with
  | zero => exact checked_of_mem_walkLines (fun _ _ _ _ h => absurd h List.not_mem_nil) h
  | succ depth ih =>
    refine checked_of_mem_walkLines (fun files loc target s h => ?_) h
    rw [Traced.reports_bind, List.mem_append] at h
    rcases h with h | h
    · obtain rfl : s = ⟨loc, .splice (SourcePath.resolve path target)⟩ := List.mem_singleton.1 h
      rintro name ⟨⟩
    · split at h
      · split at h
        · cases h
        · exact ih h
      · cases h

/-- **Symbols have names that may be declared.** No statement of a source tree declares anything else. -/
theorem checked_of_mem_read {files : SourceFiles} {path text : String} {s : LocatedStatement}
    (h : s ∈ (read files path text).reports) : s.statement.Checked := checked_of_mem_readNested h

/-- **Symbols have names.** -/
theorem named_of_mem_read {files : SourceFiles} {path text : String} {s : LocatedStatement}
    (h : s ∈ (read files path text).reports) : s.statement.Named :=
  fun name hname => Statement.isName_of_checkName (checked_of_mem_read h name hname)

end SourceTree

/-! ## Tables -/

section
variable {statements : List LocatedStatement} {name : String}

/-- A label is the name that a statement declares. -/
theorem exists_name?_of_mem_labelsOf (h : name ∈ labelsOf statements) :
    ∃ s ∈ statements, s.statement.name? = some name := by
  obtain ⟨⟨loc, statement⟩, hmem, hl⟩ := List.mem_filterMap.1 h
  refine ⟨_, hmem, ?_⟩
  cases statement <;> cases hl
  rfl

theorem exists_name?_of_mem_dataOf {datum : Datum} (h : datum ∈ dataOf statements) :
    ∃ s ∈ statements, s.statement.name? = some datum.name := by
  obtain ⟨⟨loc, statement⟩, hmem, hd⟩ := List.mem_filterMap.1 h
  refine ⟨_, hmem, ?_⟩
  cases statement <;> cases hd <;> rfl

theorem exists_name?_of_mem_constantsOf {definition : String} (h : (name, definition) ∈ constantsOf statements) :
    ∃ s ∈ statements, s.statement.name? = some name := by
  obtain ⟨⟨loc, statement⟩, hmem, hc⟩ := List.mem_filterMap.1 h
  refine ⟨_, hmem, ?_⟩
  cases statement <;> cases hc
  rfl

variable (hs : ∀ s ∈ statements, s.statement.Named)
include hs

theorem isName_of_mem_labelsOf (h : name ∈ labelsOf statements) : IsName name := by
  obtain ⟨s, hmem, hname⟩ := exists_name?_of_mem_labelsOf h
  exact hs s hmem name hname

theorem isName_of_mem_constantsOf {definition : String} (h : (name, definition) ∈ constantsOf statements) :
    IsName name := by
  obtain ⟨s, hmem, hname⟩ := exists_name?_of_mem_constantsOf h
  exact hs s hmem name hname

end

end Octet
