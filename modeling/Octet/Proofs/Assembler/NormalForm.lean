import Octet.Proofs.Assembler.QuotedLine
/-!
What the normal form of a line keeps, and what makes no difference to it.

* `LineState`: the quote that is open at a place of a line, and whether a backslash hides what follows;
* `seenFrom`: the characters of a line up to its comment, each with the state in front of it;
* `normalizeFrom_eq`: the normal form is made of these characters, and only those outside quotes lose their case;
* `Recased`, `Respelled`: lines that differ in the case of what stands outside quotes, or in a comment;
* `normalize_normalize`, `exists_keeps`, `normalize_of_respelled`: normal forms are stable, keep what stands in quotes,
  and are blind to case and comments.
-/

namespace Octet

open Text

/-! ## Case -/

/-- What has no case is the upper-case form of itself only. -/
theorem toUpper_eq_iff {c d : Char} (h : d.isAlpha = false) : c.toUpper = d ↔ c = d := by
  have hlower {e : Char} (he : e.isAlpha = false) : ¬ e.isLower = true := by
    intro hl
    rw [Char.isAlpha, hl, Bool.or_true] at he
    cases he
  constructor
  · intro he
    have hc : c.isAlpha = false := by
      rw [← Char.isUpper_toUpper_eq_isAlpha, he]
      rw [Char.isAlpha, Bool.or_eq_false_iff] at h
      exact h.1
    rwa [Char.toUpper_eq_of_not_isLower (hlower hc)] at he
  · rintro rfl
    exact Char.toUpper_eq_of_not_isLower (hlower h)

/-! ## States -/

/-- The quote that a character opens where none is open. -/
def Quote.ofChar? (c : Char) : Option Quote :=
  if c = '"' then some .double else if c = '\'' then some .single else none

/-- What a reader of a line remembers at a place. -/
structure LineState where
  /-- The quote that is open. -/
  quote : Option Quote := none
  /-- Whether a backslash hides the next character. -/
  escaped : Bool := false
deriving DecidableEq, Repr

namespace LineState

/-- The state behind a character. -/
def next (s : LineState) (c : Char) : LineState :=
  if s.escaped then { s with escaped := false }
  else if c = '\\' then { s with escaped := true }
  else match s.quote with
    | some q => if c = q.char then {} else s
    | none => { quote := Quote.ofChar? c }

/-- Where a comment starts: no quote is open, no backslash hides the semicolon. -/
abbrev Ends (s : LineState) (c : Char) : Prop := s = {} ∧ c = ';'

variable (s : LineState) {c c' : Char}

/-- A character and its upper-case form are alike to a reader. -/
theorem next_congr (h : c'.toUpper = c.toUpper) : s.next c' = s.next c ∧ (s.Ends c' ↔ s.Ends c) := by
  have hsame {d : Char} (hd : d.isAlpha = false) : c' = d ↔ c = d := by
    rw [← toUpper_eq_iff hd, h, toUpper_eq_iff hd]
  have hquote (q : Quote) : c' = q.char ↔ c = q.char := hsame (by cases q <;> decide)
  have hopens : Quote.ofChar? c' = Quote.ofChar? c := by
    simp only [Quote.ofChar?, hsame (d := '"') (by decide), hsame (d := '\'') (by decide)]
  refine ⟨?_, by simp only [Ends, hsame (d := ';') (by decide)]⟩
  simp only [next, hsame (d := '\\') (by decide), hquote, hopens]

/-- A blank opens no quote and closes none. -/
theorem quote_next_of_isBlank (h : isBlank c = true) : (s.next c).quote = s.quote := by
  obtain ⟨hslash, -, hdouble, hsingle⟩ := isBare_iff.1 (isBare_of_isBlank h).1
  have hclose (q : Quote) : c ≠ q.char := by cases q <;> assumption
  obtain ⟨quote, escaped⟩ := s
  cases escaped <;> cases quote <;> simp [next, hslash, hdouble, hsingle, hclose, Quote.ofChar?]

end LineState

/-- A character of a line, with the state in front of it. -/
structure Seen where
  state : LineState
  char : Char
deriving DecidableEq, Repr

/-- The character in normal form: outside quotes it loses its case. -/
def Seen.normal (x : Seen) : Char := if x.state.quote = none then x.char.toUpper else x.char

/-- The characters of a line from a place on, up to its comment. -/
def seenFrom (s : LineState) : List Char → List Seen
  | [] => []
  | c :: cs => if s.Ends c then [] else ⟨s, c⟩ :: seenFrom (s.next c) cs

/-- The state at the end of a line, or where its comment starts. -/
def stateAfter (s : LineState) : List Char → LineState
  | [] => s
  | c :: cs => if s.Ends c then s else stateAfter (s.next c) cs

theorem seenFrom_cons {s : LineState} {c : Char} (h : ¬ s.Ends c) (cs : List Char) :
    seenFrom s (c :: cs) = ⟨s, c⟩ :: seenFrom (s.next c) cs := if_neg h

theorem stateAfter_cons {s : LineState} {c : Char} (h : ¬ s.Ends c) (cs : List Char) :
    stateAfter s (c :: cs) = stateAfter (s.next c) cs := if_neg h

theorem seenFrom_of_ends {s : LineState} {c : Char} (h : s.Ends c) (cs : List Char) : seenFrom s (c :: cs) = [] :=
  if_pos h

theorem stateAfter_of_ends {s : LineState} {c : Char} (h : s.Ends c) (cs : List Char) : stateAfter s (c :: cs) = s :=
  if_pos h

/-- **The normal form is made of the characters that are seen.** -/
theorem normalizeFrom_eq (s : LineState) (cs : List Char) :
    normalizeFrom (s.quote.map Quote.char) s.escaped cs = (seenFrom s cs).map Seen.normal := by
  induction cs generalizing s with
  | nil => rfl
  | cons c cs ih =>
    obtain ⟨quote, escaped⟩ := s
    by_cases hend : (⟨quote, escaped⟩ : LineState).Ends c
    · obtain ⟨hs, rfl⟩ := hend
      cases hs
      rfl
    rw [seenFrom_cons hend, List.map_cons, ← ih]
    cases quote with
    | some q =>
      have hslash := q.char_ne_backslash
      cases escaped with
      | true => simp [normalizeFrom, LineState.next, Seen.normal]
      | false =>
        by_cases hc : c = '\\'
        · simp [normalizeFrom, LineState.next, Seen.normal, hc, hslash.symm]
        · by_cases hq : c = q.char <;> simp [normalizeFrom, LineState.next, Seen.normal, hq, hc, hslash]
    | none =>
      cases escaped with
      | true => simp [normalizeFrom, LineState.next, Seen.normal]
      | false =>
        have hsemicolon : c ≠ ';' := fun hc => hend ⟨rfl, hc⟩
        by_cases hslash : c = '\\'
        · subst hslash
          simp [normalizeFrom, LineState.next, Seen.normal]
        by_cases hdouble : c = '"'
        · subst hdouble
          simp [normalizeFrom, LineState.next, Seen.normal, Quote.ofChar?, Quote.char]
        by_cases hsingle : c = '\''
        · subst hsingle
          simp [normalizeFrom, LineState.next, Seen.normal, Quote.ofChar?, Quote.char]
        simp [normalizeFrom, LineState.next, Seen.normal, Quote.ofChar?, hsemicolon, hslash, hdouble, hsingle]

/-- The normal form of a whole line. -/
theorem normalize_eq (raw : String) :
    normalize raw = String.ofList (trim ((seenFrom {} raw.toList).map Seen.normal)) :=
  congrArg (fun cs => String.ofList (trim cs)) (normalizeFrom_eq {} raw.toList)

/-! ## What is seen -/

/-- Nothing but the comment is left out. -/
theorem exists_comment (s : LineState) (cs : List Char) : ∃ comment, cs = (seenFrom s cs).map Seen.char ++ comment ∧
    (comment = [] ∨ comment.head? = some ';') := by
  induction cs generalizing s with
  | nil => exact ⟨[], rfl, .inl rfl⟩
  | cons c cs ih =>
    by_cases hend : s.Ends c
    · rw [seenFrom_of_ends hend]
      exact ⟨c :: cs, rfl, .inr (congrArg some hend.2)⟩
    · obtain ⟨comment, hcs, hcomment⟩ := ih (s.next c)
      rw [seenFrom_cons hend]
      exact ⟨comment, congrArg (c :: ·) hcs, hcomment⟩

/-- What is seen of a line is seen again without its comment. -/
theorem seenFrom_map_char (s : LineState) (cs : List Char) :
    seenFrom s ((seenFrom s cs).map Seen.char) = seenFrom s cs := by
  induction cs generalizing s with
  | nil => rfl
  | cons c cs ih =>
    by_cases hend : s.Ends c
    · rw [seenFrom_of_ends hend]
      rfl
    · rw [seenFrom_cons hend, List.map_cons, seenFrom_cons hend, ih]

/-- A comment behind the line is not seen. -/
theorem seenFrom_append_comment {s : LineState} {cs : List Char} (h : stateAfter s cs = {}) (comment : List Char) :
    seenFrom s (cs ++ ';' :: comment) = seenFrom s cs := by
  induction cs generalizing s with
  | nil => exact seenFrom_of_ends ⟨h, rfl⟩ comment
  | cons c cs ih =>
    by_cases hend : s.Ends c
    · rw [List.cons_append, seenFrom_of_ends hend, seenFrom_of_ends hend]
    · rw [stateAfter_cons hend] at h
      rw [List.cons_append, seenFrom_cons hend, seenFrom_cons hend, ih h]

/-- Blanks leave the quote as it is. -/
theorem quote_of_blank {s : LineState} {cs : List Char} (h : ∀ x ∈ seenFrom s cs, isBlank x.char = true) :
    (∀ x ∈ seenFrom s cs, x.state.quote = s.quote) ∧ (stateAfter s cs).quote = s.quote := by
  induction cs generalizing s with
  | nil => exact ⟨List.forall_mem_nil _, rfl⟩
  | cons c cs ih =>
    by_cases hend : s.Ends c
    · rw [seenFrom_of_ends hend, stateAfter_of_ends hend]
      exact ⟨List.forall_mem_nil _, rfl⟩
    · rw [seenFrom_cons hend, List.forall_mem_cons] at h
      have hquote := s.quote_next_of_isBlank h.1
      obtain ⟨hseen, hafter⟩ := ih h.2
      rw [hquote] at hseen hafter
      rw [seenFrom_cons hend, stateAfter_cons hend]
      exact ⟨List.forall_mem_cons.2 ⟨rfl, hseen⟩, hafter⟩

/-- Blanks at the end stand in the quote that is open there. -/
theorem quote_of_blank_end {s : LineState} {cs : List Char} {before blanks : List Seen}
    (hseen : seenFrom s cs = before ++ blanks) (h : ∀ x ∈ blanks, isBlank x.char = true) :
    ∀ x ∈ blanks, x.state.quote = (stateAfter s cs).quote := by
  induction before generalizing s cs with
  | nil =>
    rw [List.nil_append] at hseen
    subst hseen
    obtain ⟨hquote, hafter⟩ := quote_of_blank h
    rwa [hafter]
  | cons y before ih =>
    cases cs with
    | nil => cases hseen
    | cons c cs =>
      by_cases hend : s.Ends c
      · rw [seenFrom_of_ends hend] at hseen
        cases hseen
      · rw [seenFrom_cons hend, List.cons_append] at hseen
        rw [stateAfter_cons hend]
        exact ih (List.cons.inj hseen).2

/-- Blanks at the start stand in no quote. -/
theorem quote_of_blank_start {s : LineState} {cs : List Char} {blanks after : List Seen}
    (hseen : seenFrom s cs = blanks ++ after) (h : ∀ x ∈ blanks, isBlank x.char = true) :
    ∀ x ∈ blanks, x.state.quote = s.quote := by
  induction blanks generalizing s cs with
  | nil => exact List.forall_mem_nil _
  | cons y blanks ih =>
    cases cs with
    | nil => cases hseen
    | cons c cs =>
      by_cases hend : s.Ends c
      · rw [seenFrom_of_ends hend] at hseen
        cases hseen
      · rw [seenFrom_cons hend, List.cons_append] at hseen
        obtain ⟨rfl, hrest⟩ := List.cons.inj hseen
        rw [List.forall_mem_cons] at h
        have hblanks := ih hrest h.2
        rw [s.quote_next_of_isBlank h.1] at hblanks
        exact List.forall_mem_cons.2 ⟨rfl, hblanks⟩

/-! ## White space at the ends -/

/-- Trimming takes away blanks at both ends, and nothing else. -/
theorem exists_trim (cs : List Char) : ∃ front back, cs = front ++ trim cs ++ back ∧
    (∀ c ∈ front, isBlank c = true) ∧ ∀ c ∈ back, isBlank c = true := by
  have hstart : cs = cs.takeWhile isBlank ++ trimStart cs := (List.takeWhile_append_dropWhile).symm
  have hend (ds : List Char) : ds = trimEnd ds ++ (ds.reverse.takeWhile isBlank).reverse := by
    rw [trimEnd, ← List.reverse_append, List.takeWhile_append_dropWhile, List.reverse_reverse]
  refine ⟨cs.takeWhile isBlank, ((trimStart cs).reverse.takeWhile isBlank).reverse, ?_, fun c hc => ?_, fun c hc => ?_⟩
  · rw [List.append_assoc, trim, ← hend, ← hstart]
  · exact List.mem_takeWhile_imp hc
  · exact List.mem_takeWhile_imp (List.mem_reverse.1 hc)

theorem trim_trim (cs : List Char) : trim (trim cs) = trim cs := by
  have hstart : trimStart (trim cs) = trim cs := by
    rw [trimStart, List.dropWhile_eq_self_iff]
    intro hpos
    -- the first character is the one that the first trimming has left in front
    obtain ⟨rest, hrest⟩ : trim cs <+: trimStart cs := List.rdropWhile_prefix isBlank _
    have hfirst : 0 < (trimStart cs).length := by rw [← hrest, List.length_append]; omega
    have hnot := List.dropWhile_eq_self_iff.1 (List.dropWhile_idempotent isBlank cs) hfirst
    have hsame : (trimStart cs)[0] = (trim cs)[0] := by
      simp only [← hrest, List.getElem_append_left hpos]
    exact hsame ▸ hnot
  rw [trim, hstart]
  exact List.rdropWhile_idempotent isBlank (trimStart cs)

/-! ## Stability -/

/-- Two lines of which the second has other cases outside quotes. -/
inductive Recased : LineState → List Char → List Char → Prop
  | nil (s : LineState) : Recased s [] []
  | same {s : LineState} {c : Char} {cs cs' : List Char} : Recased (s.next c) cs cs' → Recased s (c :: cs) (c :: cs')
  | recased {s : LineState} {c c' : Char} {cs cs' : List Char} : s.quote = none → c'.toUpper = c.toUpper →
      Recased (s.next c) cs cs' → Recased s (c :: cs) (c' :: cs')

/-- **Case outside quotes makes no difference.** -/
theorem Recased.map_normal {s : LineState} {cs cs' : List Char} (h : Recased s cs cs') :
    (seenFrom s cs').map Seen.normal = (seenFrom s cs).map Seen.normal := by
  induction h with
  | nil => rfl
  | @same s c cs cs' _ ih =>
    by_cases hend : s.Ends c
    · rw [seenFrom_of_ends hend, seenFrom_of_ends hend]
    · rw [seenFrom_cons hend, seenFrom_cons hend, List.map_cons, List.map_cons, ih]
  | @recased s c c' cs cs' hquote hcase _ ih =>
    obtain ⟨hnext, hends⟩ := s.next_congr hcase
    by_cases hend : s.Ends c
    · rw [seenFrom_of_ends hend, seenFrom_of_ends (hends.2 hend)]
    · rw [seenFrom_cons hend, seenFrom_cons (fun he => hend (hends.1 he)), List.map_cons, List.map_cons, hnext, ih]
      simp [Seen.normal, hquote, hcase]

/-- The normal form of what is seen differs from it in case outside quotes. -/
theorem recased_map_normal (s : LineState) (cs : List Char) :
    Recased s ((seenFrom s cs).map Seen.char) ((seenFrom s cs).map Seen.normal) := by
  induction cs generalizing s with
  | nil => exact .nil s
  | cons c cs ih =>
    by_cases hend : s.Ends c
    · rw [seenFrom_of_ends hend]
      exact .nil s
    · rw [seenFrom_cons hend, List.map_cons, List.map_cons]
      by_cases hquote : s.quote = none
      · refine .recased hquote ?_ (ih _)
        simp [Seen.normal, hquote, Char.toUpper_toUpper_eq_toUpper]
      · rw [show (⟨s, c⟩ : Seen).normal = c from if_neg hquote]
        exact .same (ih _)

/-- What is in normal form stays as it is, wherever it is cut off. -/
theorem map_normal_of_append {s : LineState} {xs ys : List Char}
    (h : (seenFrom s (xs ++ ys)).map Seen.normal = xs ++ ys) : (seenFrom s xs).map Seen.normal = xs := by
  induction xs generalizing s with
  | nil => rfl
  | cons x xs ih =>
    by_cases hend : s.Ends x
    · rw [List.cons_append, seenFrom_of_ends hend] at h
      cases h
    · rw [List.cons_append, seenFrom_cons hend, List.map_cons, List.cons.injEq] at h
      rw [seenFrom_cons hend, List.map_cons, h.1, ih h.2]

/-- **Normal forms are stable.** -/
theorem normalize_normalize (raw : String) : normalize (normalize raw) = normalize raw := by
  generalize hcs : (seenFrom {} raw.toList).map Seen.normal = cs
  have hnormal : (seenFrom {} cs).map Seen.normal = cs := by
    rw [← hcs, (recased_map_normal {} raw.toList).map_normal, seenFrom_map_char]
  obtain ⟨front, back, hsplit, hfront, -⟩ := exists_trim cs
  -- blanks in front leave the reader in the state in which it starts
  have hrest : (seenFrom {} (trim cs ++ back)).map Seen.normal = trim cs ++ back := by
    have hbare : normalizeFrom none false (front ++ (trim cs ++ back)) =
        front.map Char.toUpper ++ normalizeFrom none false (trim cs ++ back) :=
      normalizeFrom_bare (fun c hc => (isBare_of_isBlank (hfront c hc)).1) _
    have hcase : front.map Char.toUpper = front := map_toUpper_eq_self fun c hc => (isBare_of_isBlank (hfront c hc)).2
    have hwhole : normalizeFrom none false (front ++ (trim cs ++ back)) = front ++ (trim cs ++ back) := by
      rw [← List.append_assoc, ← hsplit]
      exact (normalizeFrom_eq {} cs).trans hnormal
    rw [hbare, hcase, List.append_cancel_left_eq] at hwhole
    exact (normalizeFrom_eq {} _).symm.trans hwhole
  rw [normalize_eq raw, hcs, normalize_eq, String.toList_ofList, map_normal_of_append hrest, trim_trim]

/-! ## What is kept -/

/-- How a line and its normal form correspond: blanks `front` and `back` are left out, and so is a comment, and what
is `kept` is kept as it is in quotes. Blanks in quotes are left out only where the quote is not closed. -/
structure Keeps (raw : String) (front kept back : List Seen) (comment : List Char) : Prop where
  seen : seenFrom {} raw.toList = front ++ kept ++ back
  written : raw.toList = (front ++ kept ++ back).map Seen.char ++ comment
  comment : comment = [] ∨ comment.head? = some ';'
  normal : (normalize raw).toList = kept.map Seen.normal
  front : ∀ x ∈ front, isBlank x.char = true ∧ x.state.quote = none
  back : ∀ x ∈ back, isBlank x.char = true ∧ (x.state.quote ≠ none → (stateAfter {} raw.toList).quote ≠ none)

/-- A blank is no letter. -/
theorem isAlpha_of_isBlank {c : Char} (h : isBlank c = true) : c.isAlpha = false := by
  cases hletter : c.isAlpha with
  | false => rfl
  | true =>
    have hname : continuesName c = true := continuesName_of_startsName (by rw [startsName, hletter]; rfl)
    rw [not_isBlank_of_continuesName hname] at h
    cases h

/-- What is blank in upper case is blank. -/
theorem isBlank_of_isBlank_normal {x : Seen} (h : isBlank x.normal = true) : isBlank x.char = true := by
  unfold Seen.normal at h
  split at h
  · rwa [(toUpper_eq_iff (isAlpha_of_isBlank h)).1 rfl]
  · exact h

/-- **What stands in quotes is kept.** -/
theorem exists_keeps (raw : String) : ∃ front kept back comment, Keeps raw front kept back comment := by
  obtain ⟨comment, hraw, hcomment⟩ := exists_comment {} raw.toList
  obtain ⟨front', back', hsplit, hfront, hback⟩ := exists_trim ((seenFrom {} raw.toList).map Seen.normal)
  obtain ⟨rest, back, hseen, hrest, rfl⟩ := List.map_eq_append_iff.1 hsplit
  obtain ⟨front, kept, rfl, rfl, hkept⟩ := List.map_eq_append_iff.1 hrest
  have hblank {xs : List Seen} (h : ∀ c ∈ xs.map Seen.normal, isBlank c = true) : ∀ x ∈ xs, isBlank x.char = true :=
    fun x hx => isBlank_of_isBlank_normal (h _ (List.mem_map.2 ⟨x, hx, rfl⟩))
  refine ⟨front, kept, back, comment, hseen, hseen ▸ hraw, hcomment, ?_, fun x hx => ?_, fun x hx => ?_⟩
  · rw [normalize_eq, String.toList_ofList, hkept]
  · refine ⟨hblank hfront x hx, ?_⟩
    rw [List.append_assoc] at hseen
    exact quote_of_blank_start hseen (hblank hfront) x hx
  · refine ⟨hblank hback x hx, fun hquote => ?_⟩
    rwa [← quote_of_blank_end hseen (hblank hback) x hx]

/-! ## What makes no difference -/

/-- A line that differs from another one in case outside quotes, or that has a comment behind it. -/
inductive Respelled : List Char → List Char → Prop
  | recased {line line' : List Char} : Recased {} line line' → Respelled line line'
  | commented {line : List Char} (comment : List Char) : stateAfter {} line = {} →
      Respelled line (line ++ ';' :: comment)

/-- **Case and comments make no difference.** -/
theorem normalize_of_respelled {line line' : List Char} (h : Respelled line line') :
    normalize (String.ofList line') = normalize (String.ofList line) := by
  have hseen : (seenFrom {} line').map Seen.normal = (seenFrom {} line).map Seen.normal := by
    cases h with
    | recased h => exact h.map_normal
    | commented comment h => rw [seenFrom_append_comment h]
  rw [normalize_eq, normalize_eq, String.toList_ofList, String.toList_ofList, hseen]

end Octet
