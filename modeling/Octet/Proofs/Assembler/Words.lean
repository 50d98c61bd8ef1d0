import Octet.Assembler.Statement
import Mathlib
/-!
Lines made of plain words.

* `isPlain`: the characters that source text takes as they are, wherever they stand;
* `IsWord`: some of them, at least one;
* `normalize_spaced`, `parse_spaced`: a line of words with single spaces between them is in normal form, and is an
  instruction of these words;
* `lines_intercalate`: the lines of a text are those that it was made of.
-/

namespace Octet

open Text

/-! ## Plain characters -/

/-- An upper-case letter or a digit. -/
def isPlain (c : Char) : Bool := c.isUpper || c.isDigit

theorem isPlain_iff {c : Char} :
    isPlain c = true ↔ (65 ≤ c.toNat ∧ c.toNat ≤ 90) ∨ (48 ≤ c.toNat ∧ c.toNat ≤ 57) := by
  simp only [isPlain, Char.isUpper, Char.isDigit, Bool.or_eq_true, Bool.and_eq_true, decide_eq_true_iff, ge_iff_le,
    UInt32.le_iff_toNat_le]
  exact Iff.rfl

theorem ne_of_isPlain {c d : Char} (hc : isPlain c = true) (hd : isPlain d = false) : c ≠ d := by
  rintro rfl
  rw [hc] at hd
  cases hd

theorem not_isBlank_of_isPlain {c : Char} (h : isPlain c = true) : isBlank c = false := by
  rw [isPlain_iff] at h
  simp only [isBlank, Bool.or_eq_false_iff, Bool.and_eq_false_iff, decide_eq_false_iff_not, beq_eq_false_iff_ne]
  omega

theorem toUpper_of_isPlain {c : Char} (h : isPlain c = true) : c.toUpper = c := by
  rw [isPlain_iff] at h
  unfold Char.toUpper
  rw [dif_neg]
  simp only [UInt32.le_iff_toNat_le, not_and]
  show 97 ≤ c.toNat → ¬ c.toNat ≤ 122
  omega

/-! ## Words -/

/-- Some plain characters, at least one. -/
structure IsWord (word : List Char) : Prop where
  ne_nil : word ≠ []
  plain : ∀ c ∈ word, isPlain c = true

theorem IsWord.of_all {word : List Char} (h : word ≠ [] ∧ word.all isPlain = true) : IsWord word :=
  ⟨h.1, List.all_eq_true.1 h.2⟩

theorem intercalate_cons {α : Type} [DecidableEq α] (separator : α) (part : List α) (parts : List (List α)) :
    [separator].intercalate (part :: parts) =
      part ++ if parts = [] then [] else separator :: [separator].intercalate parts := by
  cases parts with
  | nil => simp
  | cons next parts => simp [List.intercalate_cons_cons]

/-- Words with a space between them. -/
def spaced (words : List (List Char)) : List Char := [' '].intercalate words

theorem spaced_cons (word : List Char) (words : List (List Char)) :
    spaced (word :: words) = word ++ if words = [] then [] else ' ' :: spaced words := intercalate_cons ..

variable {words : List (List Char)} {word : List Char}

/-- Between words there is nothing but spaces. -/
theorem plain_or_space_of_mem_spaced (hw : ∀ word ∈ words, IsWord word) {c : Char} (h : c ∈ spaced words) :
    isPlain c = true ∨ c = ' ' := by
  induction words with
  | nil => cases h
  | cons word words ih =>
    obtain ⟨hword, hwords⟩ := List.forall_mem_cons.1 hw
    rw [spaced_cons, List.mem_append] at h
    rcases h with h | h
    · exact .inl (hword.plain c h)
    · split at h
      · cases h
      · rcases List.mem_cons.1 h with rfl | h
        · exact .inr rfl
        · exact ih hwords h

/-- A line of words starts with a plain character. -/
theorem exists_head_spaced (hw : ∀ word ∈ words, IsWord word) (hne : words ≠ []) :
    ∃ c rest, spaced words = c :: rest ∧ isPlain c = true := by
  obtain ⟨word, words, rfl⟩ := List.exists_cons_of_ne_nil hne
  obtain ⟨hword, -⟩ := List.forall_mem_cons.1 hw
  obtain ⟨c, rest, rfl⟩ := List.exists_cons_of_ne_nil hword.ne_nil
  exact ⟨c, _, spaced_cons .., hword.plain c (List.mem_cons_self ..)⟩

/-- It ends with one, too. -/
theorem exists_last_spaced (hw : ∀ word ∈ words, IsWord word) (hne : words ≠ []) :
    ∃ init c, spaced words = init ++ [c] ∧ isPlain c = true := by
  induction words with
  | nil => exact absurd rfl hne
  | cons word words ih =>
    obtain ⟨hword, hwords⟩ := List.forall_mem_cons.1 hw
    rw [spaced_cons]
    by_cases hnil : words = []
    · obtain ⟨init, c, rfl⟩ := (List.eq_nil_or_concat' word).resolve_left hword.ne_nil
      exact ⟨init, c, by simp [hnil], hword.plain c (by simp)⟩
    · obtain ⟨init, c, hsplit, hc⟩ := ih hwords hnil
      exact ⟨word ++ ' ' :: init, c, by simp [hnil, hsplit], hc⟩

/-! ## Splitting -/

theorem splitRuns_of_separator {isSeparator : Char → Bool} {c : Char} (h : isSeparator c = true) (cs : List Char) :
    splitRuns isSeparator (c :: cs) = splitRuns isSeparator cs := by
  rw [splitRuns, splitRuns, List.dropWhile_cons_of_pos h]

/-- A run ends at the first separator. -/
theorem splitRuns_append {isSeparator : Char → Bool} {run rest : List Char} (hne : run ≠ [])
    (hrun : ∀ c ∈ run, isSeparator c = false) (hrest : ∀ c ∈ rest.head?, isSeparator c = true) :
    splitRuns isSeparator (run ++ rest) = run :: splitRuns isSeparator rest := by
  obtain ⟨c, run, rfl⟩ := List.exists_cons_of_ne_nil hne
  obtain ⟨hc, hrun⟩ := List.forall_mem_cons.1 hrun
  have hdrop : (c :: run ++ rest).dropWhile isSeparator = c :: (run ++ rest) := by
    rw [List.cons_append, List.dropWhile_cons_of_neg (by simp [hc])]
  have htake : rest.takeWhile (!isSeparator ·) = [] ∧ rest.dropWhile (!isSeparator ·) = rest := by
    cases rest with
    | nil => exact ⟨rfl, rfl⟩
    | cons d rest => simp [hrest d rfl]
  have hkeep : ∀ c ∈ run, (!isSeparator c) = true := fun c h => by rw [hrun c h]; rfl
  rw [splitRuns]
  split
  · rename_i hnil
    rw [hdrop] at hnil
    cases hnil
  · rename_i hcons
    rw [hdrop] at hcons
    cases hcons
    rw [List.takeWhile_append_of_pos hkeep, List.dropWhile_append_of_pos hkeep, htake.1, htake.2, List.append_nil]

/-- A separator parts the runs before it from those behind it. -/
theorem splitRuns_append_separator {isSeparator : Char → Bool} {c : Char} (h : isSeparator c = true)
    (xs ys : List Char) :
    splitRuns isSeparator (xs ++ c :: ys) = splitRuns isSeparator xs ++ splitRuns isSeparator ys := by
  induction hlength : xs.length using Nat.strong_induction_on generalizing xs with
  | _ n ih =>
    subst hlength
    cases xs with
    | nil =>
      have hnil : splitRuns isSeparator [] = [] := by rw [splitRuns]; rfl
      rw [List.nil_append, splitRuns_of_separator h, hnil, List.nil_append]
    | cons x xs =>
      by_cases hx : isSeparator x = true
      · rw [List.cons_append, splitRuns_of_separator hx, splitRuns_of_separator hx, ih xs.length (by simp) xs rfl]
      · -- the first run ends at a separator in `xs`, or at `c`
        let run := (x :: xs).takeWhile (!isSeparator ·)
        let rest := (x :: xs).dropWhile (!isSeparator ·)
        have hsplit : x :: xs = run ++ rest := (List.takeWhile_append_dropWhile).symm
        have hne : run ≠ [] := by simp [run, hx]
        have hrun : ∀ d ∈ run, isSeparator d = false := fun d hd => by simpa using List.mem_takeWhile_imp hd
        have hrest : ∀ d ∈ rest.head?, isSeparator d = true := by
          intro d hd
          have hnot := List.head?_dropWhile_not (!isSeparator ·) (x :: xs)
          rw [show ((x :: xs).dropWhile (!isSeparator ·)).head? = some d from hd] at hnot
          simpa using hnot
        have hrest' : ∀ d ∈ (rest ++ c :: ys).head?, isSeparator d = true := by
          intro d hd
          cases hr : rest with
          | nil =>
            rw [hr, List.nil_append, List.head?_cons, Option.mem_some_iff] at hd
            exact hd ▸ h
          | cons e rest' =>
            rw [hr, List.cons_append, List.head?_cons, Option.mem_some_iff] at hd
            exact hrest d (by rw [hr, hd]; rfl)
        have hshort : rest.length < (x :: xs).length := by
          have hpos := List.length_pos_iff.2 hne
          have hlength := congrArg List.length hsplit
          rw [List.length_append] at hlength
          omega
        rw [hsplit, List.append_assoc, splitRuns_append hne hrun hrest', splitRuns_append hne hrun hrest,
          ih rest.length hshort rest rfl, List.cons_append]

/-- Words with spaces between them are the runs of a text. -/
theorem splitRuns_spaced {isSeparator : Char → Bool} (hspace : isSeparator ' ' = true)
    (hplain : ∀ c, isPlain c = true → isSeparator c = false) (hw : ∀ word ∈ words, IsWord word) :
    splitRuns isSeparator (spaced words) = words := by
  induction words with
  | nil => rw [spaced, List.intercalate_nil, splitRuns]; rfl
  | cons word words ih =>
    obtain ⟨hword, hwords⟩ := List.forall_mem_cons.1 hw
    rw [spaced_cons, splitRuns_append hword.ne_nil fun c h => hplain c (hword.plain c h)]
    · split
      · rename_i hnil
        rw [hnil, splitRuns]
        rfl
      · rw [splitRuns_of_separator hspace, ih hwords]
    · split
      · simp
      · simpa using hspace

/-! ## Lines of words -/

theorem normalizeFrom_of_plain {cs : List Char} (h : ∀ c ∈ cs, isPlain c = true ∨ c = ' ') :
    normalizeFrom none false cs = cs := by
  induction cs with
  | nil => rfl
  | cons c cs ih =>
    obtain ⟨hc, hcs⟩ := List.forall_mem_cons.1 h
    -- what is plain escapes nothing, and starts no comment and no text
    have hne {d : Char} (hd : isPlain d = false) (hspace : d ≠ ' ') : c ≠ d := by
      rcases hc with hc | rfl
      · exact ne_of_isPlain hc hd
      · exact hspace.symm
    have hupper : c.toUpper = c := by
      rcases hc with hc | rfl
      · exact toUpper_of_isPlain hc
      · rfl
    have hquotes : ¬ (c = '"' ∨ c = '\'') :=
      not_or.2 ⟨hne (by decide) (by decide), hne (by decide) (by decide)⟩
    simp only [normalizeFrom, Bool.false_eq_true, if_false, if_neg (hne (d := '\\') (by decide) (by decide)),
      if_neg (hne (d := ';') (by decide) (by decide)), if_neg hquotes, hupper, ih hcs]

/-- A text with no white space at its ends has none to lose. -/
theorem trim_eq_self {c d : Char} {rest init : List Char} {cs : List Char} (hfirst : cs = c :: rest)
    (hc : isBlank c = false) (hlast : cs = init ++ [d]) (hd : isBlank d = false) : trim cs = cs := by
  have hstart : trimStart cs = cs := by
    rw [trimStart, hfirst, List.dropWhile_cons_of_neg (by simp [hc])]
  rw [trim, hstart, trimEnd, hlast, List.reverse_append, List.reverse_singleton, List.singleton_append,
    List.dropWhile_cons_of_neg (by simp [hd])]
  simp

/-- **A line of words is in normal form.** -/
theorem normalize_spaced (hw : ∀ word ∈ words, IsWord word) (hne : words ≠ []) :
    normalize (String.ofList (spaced words)) = String.ofList (spaced words) := by
  obtain ⟨c, rest, hfirst, hc⟩ := exists_head_spaced hw hne
  obtain ⟨init, d, hlast, hd⟩ := exists_last_spaced hw hne
  rw [normalize, String.toList_ofList, normalizeFrom_of_plain fun _ => plain_or_space_of_mem_spaced hw,
    trim_eq_self hfirst (not_isBlank_of_isPlain hc) hlast (not_isBlank_of_isPlain hd)]

/-- **A line of words is an instruction of these words.** -/
theorem parse_spaced (hw : ∀ word ∈ words, IsWord word) (hne : words ≠ []) :
    Statement.parse (String.ofList (spaced words)) = .ok (.instruction (words.map String.ofList)) := by
  obtain ⟨c, rest, hfirst, hc⟩ := exists_head_spaced hw hne
  obtain ⟨init, d, hlast, hd⟩ := exists_last_spaced hw hne
  -- no label, by its last character; no directive, by its first one
  have hlabel : Statement.labelName? (spaced words) = none := by
    rw [Statement.labelName?, hlast, List.getLast?_concat]
    exact if_neg fun h => ne_of_isPlain hd (by decide) (Option.some.inj h)
  have htokens : splitTokens (String.ofList (spaced words)) = words.map String.ofList := by
    rw [splitTokens, String.toList_ofList, splitRuns_spaced (by decide) _ hw]
    intro c hc
    rw [not_isBlank_of_isPlain hc, Bool.false_or]
    exact decide_eq_false (ne_of_isPlain hc (by decide))
  rw [Statement.parse, String.toList_ofList, hlabel]
  dsimp only
  rw [hfirst]
  split
  · rename_i hhash
    cases hhash
    cases hc
  · rw [← hfirst, htokens]

/-! ## Lines of a text -/

theorem lines_cons_append {line : List Char} (h : ∀ c ∈ line, c ≠ '\n') (hr : line.getLast? ≠ some '\r')
    (rest : List Char) : lines (line ++ '\n' :: rest) = line :: lines rest := by
  have hkeep : ∀ c ∈ line, (c != '\n') = true := fun c hc => bne_iff_ne.2 (h c hc)
  have hdrop : (line ++ '\n' :: rest).dropWhile (· != '\n') = '\n' :: rest := by
    rw [List.dropWhile_append_of_pos hkeep]
    rfl
  have htake : (line ++ '\n' :: rest).takeWhile (· != '\n') = line := by
    rw [List.takeWhile_append_of_pos hkeep]
    exact List.append_nil line
  obtain ⟨c, cs, hcs⟩ := List.exists_cons_of_ne_nil (show line ++ '\n' :: rest ≠ [] by simp)
  rw [hcs] at hdrop htake ⊢
  rw [lines]
  split
  · rename_i hnil
    rw [hdrop] at hnil
    cases hnil
  · rename_i hcons
    rw [hdrop] at hcons
    cases hcons
    rw [htake, if_neg hr]

/-- Text without a line feed is one line. -/
theorem lines_of_no_break {line : List Char} (h : ∀ c ∈ line, c ≠ '\n') (hne : line ≠ []) : lines line = [line] := by
  have hkeep : ∀ c ∈ line, (c != '\n') = true := fun c hc => bne_iff_ne.2 (h c hc)
  obtain ⟨c, cs, rfl⟩ := List.exists_cons_of_ne_nil hne
  rw [lines]
  split
  · rw [List.takeWhile_eq_self_iff.2 hkeep]
  · rename_i hcons
    rw [List.dropWhile_eq_nil_iff.2 hkeep] at hcons
    cases hcons

/-- **The lines of a text are those that it was made of**, with a line feed behind the last one or not. -/
theorem lines_intercalate {texts : List (List Char)} {ending : List Char} (hne : texts ≠ [])
    (h : ∀ line ∈ texts, line ≠ [] ∧ (∀ c ∈ line, c ≠ '\n') ∧ line.getLast? ≠ some '\r')
    (he : ending = [] ∨ ending = ['\n']) : lines (['\n'].intercalate texts ++ ending) = texts := by
  induction texts with
  | nil => exact absurd rfl hne
  | cons line texts ih =>
    obtain ⟨⟨hline, hbreak, hr⟩, htexts⟩ := List.forall_mem_cons.1 h
    rw [intercalate_cons]
    by_cases hnil : texts = []
    · rw [if_pos hnil, hnil, List.append_nil]
      rcases he with rfl | rfl
      · rw [List.append_nil, lines_of_no_break hbreak hline]
      · rw [lines_cons_append hbreak hr, lines]
    · rw [if_neg hnil, List.append_assoc, List.cons_append, lines_cons_append hbreak hr, ih hnil htexts]

end Octet
