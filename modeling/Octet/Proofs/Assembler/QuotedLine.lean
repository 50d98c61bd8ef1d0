import Octet.Proofs.Assembler.Names
import Octet.Proofs.Assembler.Quoting
import Octet.Proofs.Assembler.Words
/-!
Lines that put texts in quotes into memory.

* `normalizeFrom_bare`, `QuotedList.normalizeFrom_source`: outside quotes a line loses its case, inside it loses nothing;
* `QuotedLine`: a data directive with a list of texts, and what may stand behind it;
* `QuotedLine.normalize_source`, `QuotedLine.parse_normal`: such a line is a directive that puts the bytes of the texts
  under its name, whatever the texts are.
-/

namespace Octet

open Text

/-! ## Normal form -/

/-- A character that opens no text and no comment and hides nothing. -/
def isBare (c : Char) : Bool := c ≠ '\\' && c ≠ ';' && c ≠ '"' && c ≠ '\''

theorem isBare_iff {c : Char} : isBare c = true ↔ c ≠ '\\' ∧ c ≠ ';' ∧ c ≠ '"' ∧ c ≠ '\'' := by
  simp [isBare, and_assoc]

/-- **Outside quotes a line loses its case.** -/
theorem normalizeFrom_bare {cs : List Char} (h : ∀ c ∈ cs, isBare c = true) (rest : List Char) :
    normalizeFrom none false (cs ++ rest) = cs.map Char.toUpper ++ normalizeFrom none false rest := by
  induction cs with
  | nil => rfl
  | cons c cs ih =>
    obtain ⟨hc, hcs⟩ := List.forall_mem_cons.1 h
    obtain ⟨hslash, hsemicolon, hdouble, hsingle⟩ := isBare_iff.1 hc
    simp [normalizeFrom, hslash, hsemicolon, hdouble, hsingle, ih hcs]

namespace Quote

variable (q : Quote)

/-- **Inside quotes it loses nothing.** -/
theorem normalizeFrom_escaped (s rest : List Char) :
    normalizeFrom (some q.char) false (q.escaped s ++ q.char :: rest) =
      q.escaped s ++ q.char :: normalizeFrom none false rest := by
  have hslash := q.char_ne_backslash
  induction s with
  | nil => simp [escaped, normalizeFrom, hslash]
  | cons c s ih =>
    rw [escaped_cons, List.append_assoc, List.append_assoc]
    rcases q.escape_cases c with ⟨e, b, he, -, -⟩ | ⟨hc, hother, hquote⟩
    · -- the backslash opens an escape, and the character behind it ends the escape and nothing else
      simp [he, normalizeFrom, hslash.symm, ih]
    · simp [hc, normalizeFrom, hother, hquote, ih]

end Quote

theorem QuotedItem.normalizeFrom_source (x : QuotedItem) (rest : List Char) :
    normalizeFrom none false (x.source ++ rest) = x.source ++ normalizeFrom none false rest := by
  have hopen : normalizeFrom none false (x.quote.char :: (x.body ++ x.quote.char :: rest)) =
      x.quote.char :: normalizeFrom (some x.quote.char) false (x.body ++ x.quote.char :: rest) := by
    cases x.quote <;> simp [normalizeFrom, Quote.char]
  rw [QuotedItem.source_append, hopen, body, Quote.normalizeFrom_escaped, QuotedItem.source_append]
  rfl

/-- Separators are bare, and have no case. -/
theorem isBare_of_isSeparator {c : Char} (h : isSeparator c = true) : isBare c = true ∧ c.toUpper = c := by
  rcases isSeparator_iff.1 h with rfl | rfl | rfl <;> decide

theorem map_toUpper_eq_self {cs : List Char} (h : ∀ c ∈ cs, c.toUpper = c) : cs.map Char.toUpper = cs :=
  (List.map_congr_left h).trans (List.map_id cs)

namespace QuotedList

theorem normalizeFrom_sources {more : List (List Char × QuotedItem)}
    (h : ∀ p ∈ more, p.1 ≠ [] ∧ ∀ c ∈ p.1, isSeparator c = true) (rest : List Char) :
    normalizeFrom none false (sources more ++ rest) = sources more ++ normalizeFrom none false rest := by
  induction more with
  | nil => rfl
  | cons p more ih =>
    obtain ⟨⟨-, hseparator⟩, hmore⟩ := List.forall_mem_cons.1 h
    have hbare : ∀ c ∈ p.1, isBare c = true := fun c hc => (isBare_of_isSeparator (hseparator c hc)).1
    have hcase : p.1.map Char.toUpper = p.1 :=
      map_toUpper_eq_self fun c hc => (isBare_of_isSeparator (hseparator c hc)).2
    have hsplit (tail : List Char) : sources (p :: more) ++ tail = p.1 ++ (p.2.source ++ (sources more ++ tail)) := by
      simp [sources]
    rw [hsplit, normalizeFrom_bare hbare, hcase, QuotedItem.normalizeFrom_source, ih hmore, hsplit]

variable (l : QuotedList)

theorem normalizeFrom_source (rest : List Char) :
    normalizeFrom none false (l.source ++ rest) = l.source ++ normalizeFrom none false rest := by
  rw [source, List.append_assoc, QuotedItem.normalizeFrom_source, normalizeFrom_sources l.separated,
    List.append_assoc]

/-- A list starts with a quote. -/
theorem exists_head_source : ∃ q : Quote, ∃ rest, l.source = q.char :: rest :=
  ⟨l.first.quote, _, QuotedItem.source_append l.first (sources l.more)⟩

theorem exists_last_sources {more : List (List Char × QuotedItem)} (hne : more ≠ []) :
    ∃ init, ∃ q : Quote, sources more = init ++ [q.char] := by
  obtain ⟨init, ⟨separator, x⟩, rfl⟩ := (List.eq_nil_or_concat' more).resolve_left hne
  exact ⟨sources init ++ separator ++ x.quote.char :: x.body, x.quote, by simp [sources, QuotedItem.source]⟩

/-- It ends with one, too. -/
theorem exists_last_source : ∃ init, ∃ q : Quote, l.source = init ++ [q.char] := by
  by_cases hnil : l.more = []
  · exact ⟨l.first.quote.char :: l.first.body, l.first.quote, by simp [source, hnil, sources, QuotedItem.source]⟩
  · obtain ⟨init, q, hlast⟩ := exists_last_sources hnil
    exact ⟨l.first.source ++ init, q, by simp [source, hlast]⟩

end QuotedList

/-! ## White space -/

theorem isBare_of_isBlank {c : Char} (h : isBlank c = true) : isBare c = true ∧ c.toUpper = c := by
  refine ⟨isBare_iff.2 ⟨?_, ?_, ?_, ?_⟩, ?_⟩
  iterate 4
    rintro rfl
    revert h
    decide
  unfold Char.toUpper
  rw [dif_neg]
  rintro ⟨hlow, hhigh⟩
  simp only [isBlank, Bool.or_eq_true, Bool.and_eq_true, decide_eq_true_eq, beq_iff_eq] at h
  have hlow : 97 ≤ c.toNat := hlow
  have hhigh : c.toNat ≤ 122 := hhigh
  omega

theorem Quote.not_isBlank_char (q : Quote) : isBlank q.char = false := by cases q <;> decide

/-- Nothing is trimmed in front, and behind only the blanks. -/
theorem trim_append {cs blanks : List Char} {c d : Char} {rest init : List Char} (hfirst : cs = c :: rest)
    (hc : isBlank c = false) (hlast : cs = init ++ [d]) (hd : isBlank d = false)
    (hblanks : ∀ c ∈ blanks, isBlank c = true) : trim (cs ++ blanks) = cs := by
  have hstart : trimStart (cs ++ blanks) = cs ++ blanks := by
    rw [trimStart, hfirst, List.cons_append, List.dropWhile_cons_of_neg (by simp [hc])]
  rw [trim, hstart, trimEnd, List.reverse_append, List.dropWhile_append_of_pos (by simpa using hblanks), hlast,
    List.reverse_append, List.reverse_singleton, List.singleton_append, List.dropWhile_cons_of_neg (by simp [hd])]
  simp

/-- A word ends at the first space. -/
theorem cutWord_append {word rest : List Char} {c : Char} {cs : List Char} (hne : word ≠ [])
    (hword : ∀ c ∈ word, isBlank c = false) (hrest : rest = c :: cs) (hc : isBlank c = false) :
    cutWord (word ++ ' ' :: rest) = (word, rest) := by
  have hkeep : ∀ c ∈ word, (!isBlank c) = true := fun c h => by rw [hword c h]; rfl
  have hstart : trimStart (word ++ ' ' :: rest) = word ++ ' ' :: rest := by
    obtain ⟨d, word, rfl⟩ := List.exists_cons_of_ne_nil hne
    rw [trimStart, List.cons_append, List.dropWhile_cons_of_neg (by simp [hword d (by simp)])]
  have hspace : isBlank ' ' = true := by decide
  rw [cutWord, hstart, List.takeWhile_append_of_pos hkeep, List.dropWhile_append_of_pos hkeep,
    List.takeWhile_cons_of_neg (by simp [hspace]), List.dropWhile_cons_of_neg (by simp [hspace]), List.append_nil,
    trimStart, List.dropWhile_cons_of_pos hspace, hrest, List.dropWhile_cons_of_neg (by simp [hc])]

/-! ## Names without case -/

/-- What holds of the first characters holds of every one that a name can have. -/
theorem forall_continuesName {P : Char → Prop} [DecidablePred P]
    (h : ∀ n : Fin 128, continuesName (Char.ofNat n) = true → P (Char.ofNat n)) {c : Char}
    (hc : continuesName c = true) : P c := by
  have hlt : c.toNat < 128 := by
    by_cases hunderscore : c = '_'
    · subst hunderscore
      decide
    · simp only [continuesName, hunderscore, Char.isAlphanum, Char.isAlpha, Char.isUpper, Char.isLower, Char.isDigit,
        decide_false, Bool.or_false, Bool.or_eq_true, Bool.and_eq_true, decide_eq_true_eq, UInt32.le_iff_toNat_le] at hc
      change ((65 ≤ c.toNat ∧ c.toNat ≤ 90) ∨ (97 ≤ c.toNat ∧ c.toNat ≤ 122)) ∨ (48 ≤ c.toNat ∧ c.toNat ≤ 57) at hc
      omega
  have hp := h ⟨c.toNat, hlt⟩
  rw [Char.ofNat_toNat] at hp
  exact hp hc

theorem continuesName_toUpper {c : Char} (h : continuesName c = true) : continuesName c.toUpper = true :=
  forall_continuesName (P := fun c => continuesName c.toUpper = true) (by decide) h

theorem startsName_toUpper {c : Char} (h : startsName c = true) : startsName c.toUpper = true :=
  forall_continuesName (P := fun c => startsName c = true → startsName c.toUpper = true) (by decide)
    (continuesName_of_startsName h) h

theorem isBare_of_continuesName {c : Char} (h : continuesName c = true) : isBare c = true :=
  forall_continuesName (P := fun c => isBare c = true) (by decide) h

theorem not_isBlank_of_continuesName {c : Char} (h : continuesName c = true) : isBlank c = false :=
  forall_continuesName (P := fun c => isBlank c = false) (by decide) h

theorem isIdentifier_of_isName {name : String} (h : IsName name) : isIdentifier name = true := by
  obtain ⟨first, rest, hlist, hstart, hrest⟩ := h
  have hscan : scanIdentifier name.toList = .ok (String.ofList (first :: rest.takeWhile continuesName), []) := by
    rw [hlist, scanIdentifier, if_pos hstart, List.dropWhile_eq_nil_iff.2 hrest]
  rw [isIdentifier, Scanner.whole?, hscan]
  rfl

theorem IsName.toUpper {name : String} (h : IsName name) : IsName name.toUpper := by
  obtain ⟨first, rest, hlist, hstart, hrest⟩ := h
  refine ⟨first.toUpper, rest.map Char.toUpper, by simp [String.toUpper, String.toList_map, hlist],
    startsName_toUpper hstart, ?_⟩
  intro c hc
  obtain ⟨d, hd, rfl⟩ := List.mem_map.1 hc
  exact continuesName_toUpper (hrest d hd)

/-- A register is named in either case. -/
theorem Register.ofName?_toUpper (name : String) : ofName? name.toUpper = ofName? name := by
  unfold ofName?
  rw [String.toUpper, String.toList_map]
  cases name.toList with
  | nil => rfl
  | cons c rest =>
    cases rest with
    | nil => simp [ofLetter?, Char.toUpper_toUpper_eq_toUpper]
    | cons d rest => rfl

namespace Statement

/-- **A name stays one without its case.** -/
theorem checkName_toUpper {name : String} (h : checkName name = .ok ()) : checkName name.toUpper = .ok () := by
  obtain ⟨hidentifier, hregister⟩ := checkName_eq_ok_iff.1 h
  have hname := isName_of_isIdentifier hidentifier
  refine checkName_eq_ok_iff.2 ⟨isIdentifier_of_isName hname.toUpper, ?_⟩
  rw [Register.ofName?_toUpper, hregister]

end Statement

/-! ## Lines -/

/-- A directive that puts texts into memory, and what may stand behind it: blanks and a comment. -/
structure QuotedLine where
  name : String
  list : QuotedList
  blanks : List Char
  comment? : Option (List Char)
  legal : Statement.checkName name = .ok ()
  blank : ∀ c ∈ blanks, isBlank c = true
  unbroken : ∀ c ∈ blanks ++ comment?.getD [], c ≠ '\n' ∧ c ≠ '\r'

namespace QuotedLine

/-- A comment with its semicolon. -/
def commentSource : Option (List Char) → List Char
  | none => []
  | some text => ';' :: text

variable (l : QuotedLine)

/-- The line as it is written. -/
def source : List Char :=
  ['#', 'D', 'B', ' '] ++ (l.name.toList ++ ' ' :: (l.list.source ++ (l.blanks ++ commentSource l.comment?)))

/-- The name that the line declares. -/
def symbol : String := l.name.toUpper

/-- The line in normal form. -/
def normal : List Char := ['#', 'D', 'B', ' '] ++ (l.symbol.toList ++ ' ' :: l.list.source)

theorem isName : IsName l.name := Statement.isName_of_checkName l.legal

theorem normalizeFrom_source : normalizeFrom none false l.source = l.normal ++ l.blanks := by
  have hmark : ∀ c ∈ ['#', 'D', 'B', ' '], isBare c = true := by simp [isBare]
  have hname : ∀ c ∈ l.name.toList ++ [' '], isBare c = true := by
    intro c hc
    rcases List.mem_append.1 hc with hc | hc
    · exact isBare_of_continuesName (l.isName.continuesName c hc)
    · obtain rfl := List.mem_singleton.1 hc
      decide
  have hblanks : l.blanks.map Char.toUpper = l.blanks :=
    map_toUpper_eq_self fun c hc => (isBare_of_isBlank (l.blank c hc)).2
  have hcomment : normalizeFrom none false (commentSource l.comment?) = [] := by
    cases l.comment? with
    | none => rfl
    | some text => simp [commentSource, normalizeFrom]
  have hsource : l.source =
      ['#', 'D', 'B', ' '] ++
        ((l.name.toList ++ [' ']) ++ (l.list.source ++ (l.blanks ++ commentSource l.comment?))) := by
    simp [source]
  rw [hsource, normalizeFrom_bare hmark, normalizeFrom_bare hname, QuotedList.normalizeFrom_source,
    normalizeFrom_bare fun c hc => (isBare_of_isBlank (l.blank c hc)).1, hblanks, hcomment]
  simp [normal, symbol, String.toUpper, String.toList_map]

/-- The line in normal form ends with a quote. -/
theorem exists_last_normal : ∃ init, ∃ q : Quote, l.normal = init ++ [q.char] := by
  obtain ⟨init, q, hlast⟩ := l.list.exists_last_source
  exact ⟨['#', 'D', 'B', ' '] ++ (l.symbol.toList ++ ' ' :: init), q, by simp [normal, hlast]⟩

/-- **Texts keep what they have between their quotes**; a comment goes away. -/
theorem normalize_source : normalize (String.ofList l.source) = String.ofList l.normal := by
  obtain ⟨init, q, hlast⟩ := l.exists_last_normal
  rw [normalize, String.toList_ofList, normalizeFrom_source,
    trim_append (show l.normal = '#' :: _ from rfl) (by decide) hlast q.not_isBlank_char l.blank]

/-- **The line is a directive that puts the bytes of the texts under its name.** -/
theorem parse_normal : Statement.parse (String.ofList l.normal) = .ok (.data l.symbol l.list.payload) := by
  obtain ⟨init, q, hlast⟩ := l.exists_last_normal
  obtain ⟨q', rest, hhead⟩ := l.list.exists_head_source
  have hname : IsName l.symbol := l.isName.toUpper
  have hlabel : Statement.labelName? l.normal = none := by
    rw [Statement.labelName?, hlast, List.getLast?_concat, if_neg]
    cases q <;> decide
  have hsymbol : cutWord (l.symbol.toList ++ ' ' :: l.list.source) = (l.symbol.toList, l.list.source) := by
    refine cutWord_append ?_ (fun c hc => not_isBlank_of_continuesName (hname.continuesName c hc)) hhead
      q'.not_isBlank_char
    obtain ⟨first, others, hfirst, -⟩ := hname
    simp [hfirst]
  have hcommand : cutWord (['D', 'B'] ++ ' ' :: (l.symbol.toList ++ ' ' :: l.list.source)) =
      (['D', 'B'], l.symbol.toList ++ ' ' :: l.list.source) := by
    obtain ⟨first, others, hfirst, hstart, -⟩ := hname
    have hrest : l.symbol.toList ++ ' ' :: l.list.source = first :: (others ++ ' ' :: l.list.source) := by
      rw [hfirst]
      rfl
    exact cutWord_append (by simp) (by simp [isBlank]) hrest
      (not_isBlank_of_continuesName (continuesName_of_startsName hstart))
  have hne : l.list.source ≠ [] := by simp [hhead]
  rw [Statement.parse, String.toList_ofList, hlabel]
  show Statement.parseDirective l.normal (['D', 'B'] ++ ' ' :: (l.symbol.toList ++ ' ' :: l.list.source)) = _
  rw [Statement.parseDirective, hcommand]
  show Statement.parseData .byte "DB" l.normal (l.symbol.toList ++ ' ' :: l.list.source) = _
  rw [Statement.parseData, hsymbol]
  dsimp only
  rw [String.ofList_toList, show Statement.checkName l.symbol = .ok () from Statement.checkName_toUpper l.legal,
    Except.ok_bind, if_neg hne, QuotedList.dataBytes_source, Except.ok_bind]
  rfl

theorem not_break_of_mem_items {x : QuotedItem} {c : Char} (h : c ∈ x.source) : c ≠ '\n' ∧ c ≠ '\r' := by
  simp only [QuotedItem.source, List.mem_cons, List.mem_append, List.not_mem_nil, or_false] at h
  rcases h with rfl | h | rfl
  · exact x.quote.char_not_break
  · exact x.quote.not_break_of_mem_escaped h
  · exact x.quote.char_not_break

theorem not_break_of_mem_source {c : Char} (h : c ∈ l.source) : c ≠ '\n' ∧ c ≠ '\r' := by
  simp only [source, List.mem_append, List.mem_cons, List.not_mem_nil, or_false] at h
  rcases h with h | h | rfl | h | h | h
  · rcases h with rfl | rfl | rfl | rfl <;> decide
  · exact forall_continuesName (P := fun c => c ≠ '\n' ∧ c ≠ '\r') (by decide) (l.isName.continuesName c h)
  · decide
  · rcases List.mem_append.1 h with h | h
    · exact not_break_of_mem_items h
    · obtain ⟨p, hp, h⟩ := List.mem_flatMap.1 h
      rcases List.mem_append.1 h with h | h
      · rcases isSeparator_iff.1 ((l.list.separated p hp).2 c h) with rfl | rfl | rfl <;> decide
      · exact not_break_of_mem_items h
  · exact l.unbroken c (List.mem_append_left _ h)
  · have hunbroken := l.unbroken c
    cases ht : l.comment? with
    | none => simp [commentSource, ht] at h
    | some text =>
      rw [ht, commentSource, List.mem_cons] at h
      rcases h with rfl | h
      · decide
      · exact hunbroken (List.mem_append_right _ (by simpa [ht] using h))

/-- **It is one line**, however many lines its texts have. -/
theorem lines_source : lines l.source = [l.source] :=
  lines_of_no_break (fun _ h => (l.not_break_of_mem_source h).1) (by simp [source])

end QuotedLine

end Octet
