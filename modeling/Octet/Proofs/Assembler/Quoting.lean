import Octet.Assembler.DataItem
import Octet.Proofs.Outcomes
/-!
Texts in quotes.

* `Quote.escaped`: a text as it is written between quotes;
* `Quote.quotedBody_escaped`, `Quote.unescape_escaped`: it ends at its closing quote, and is read back as its UTF-8;
* `QuotedList`: texts in quotes with separators between them;
* `QuotedList.dataBytes_source`: the bytes of such a list are those of its texts, one after the other.
-/

namespace Octet

/-! ## Scanning -/

theorem isSeparator_iff {c : Char} : isSeparator c = true ↔ c = ' ' ∨ c = ',' ∨ c = '\t' := by
  simp [isSeparator, or_assoc]

theorem quotedBody_quote (q : Char) (cs : List Char) : quotedBody q (q :: cs) = some ([], cs) := by
  rw [quotedBody.eq_def]
  exact if_pos rfl

theorem quotedBody_escape {q : Char} (hq : q ≠ '\\') (e : Char) (cs : List Char) :
    quotedBody q ('\\' :: e :: cs) = (quotedBody q cs).map fun (body, rest) => ('\\' :: e :: body, rest) := by
  rw [quotedBody.eq_def]
  exact (if_neg hq.symm).trans (if_pos rfl)

theorem quotedBody_cons {q c : Char} (hq : c ≠ q) (hslash : c ≠ '\\') (cs : List Char) :
    quotedBody q (c :: cs) = (quotedBody q cs).map fun (body, rest) => (c :: body, rest) := by
  rw [quotedBody.eq_def]
  exact (if_neg hq).trans (if_neg hslash)

theorem unescape_escape {e : Char} {b : UInt8} (h : escapedByte? e = some b) (cs : List Char) :
    unescape ('\\' :: e :: cs) = (b :: ·) <$> unescape cs := by
  rw [unescape.eq_def]
  simp only [if_pos, h]

theorem unescape_cons {c : Char} (h : c ≠ '\\') (cs : List Char) :
    unescape (c :: cs) = (String.utf8EncodeChar c ++ ·) <$> unescape cs := by
  rw [unescape.eq_def]
  exact if_neg h

/-- The quotes that a text can stand in. -/
inductive Quote where
  | single
  | double
deriving DecidableEq, Repr

namespace Quote

def char : Quote → Char
  | single => '\''
  | double => '"'

def form : Quote → DataForm
  | single => .chars
  | double => .string

/-- What follows the text in memory. -/
def ending : Quote → List UInt8
  | single => []
  | double => [0]

/-! ## Escapes -/

/-- A character between quotes. The backslash, the quote itself and the characters that end a line are escaped. -/
def escape (q : Quote) (c : Char) : List Char :=
  if c = '\\' ∨ c = q.char then ['\\', c]
  else if c = '\n' then ['\\', 'n']
  else if c = '\r' then ['\\', 'r']
  else [c]

def escaped (q : Quote) (s : List Char) : List Char := s.flatMap q.escape

variable (q : Quote)

theorem char_ne_backslash : q.char ≠ '\\' := by cases q <;> decide

theorem char_not_break : q.char ≠ '\n' ∧ q.char ≠ '\r' := by cases q <;> decide

/-- A character is escaped by another one that stands for its byte, or it is none of those that matter to a scanner. -/
theorem escape_cases (c : Char) :
    (∃ e b, q.escape c = ['\\', e] ∧ escapedByte? e = some b ∧ String.utf8EncodeChar c = [b]) ∨
      (q.escape c = [c] ∧ c ≠ '\\' ∧ c ≠ q.char) := by
  unfold escape
  by_cases hslash : c = '\\'
  · subst hslash
    exact .inl ⟨'\\', 0x5C, by simp, rfl, rfl⟩
  by_cases hquote : c = q.char
  · subst hquote
    cases q with
    | single => exact .inl ⟨'\'', 0x27, rfl, rfl, rfl⟩
    | double => exact .inl ⟨'"', 0x22, rfl, rfl, rfl⟩
  by_cases hfeed : c = '\n'
  · subst hfeed
    exact .inl ⟨'n', 0x0A, by simp [hquote], rfl, rfl⟩
  by_cases hreturn : c = '\r'
  · subst hreturn
    exact .inl ⟨'r', 0x0D, by simp [hquote], rfl, rfl⟩
  · exact .inr ⟨by simp [hslash, hquote, hfeed, hreturn], hslash, hquote⟩

theorem escaped_cons (c : Char) (s : List Char) : q.escaped (c :: s) = q.escape c ++ q.escaped s := rfl

/-- A text of several lines is written in one. -/
theorem not_break_of_mem_escaped {s : List Char} {c : Char} (h : c ∈ q.escaped s) : c ≠ '\n' ∧ c ≠ '\r' := by
  obtain ⟨d, -, hc⟩ := List.mem_flatMap.1 h
  unfold escape at hc
  split at hc
  · rename_i hd
    rw [List.mem_pair] at hc
    rcases hd with rfl | rfl <;> rcases hc with rfl | rfl
    · decide
    · decide
    · decide
    · exact q.char_not_break
  · split at hc
    · rcases List.mem_pair.1 hc with rfl | rfl <;> decide
    · split at hc
      · rcases List.mem_pair.1 hc with rfl | rfl <;> decide
      · rename_i hfeed hreturn
        rw [List.mem_singleton] at hc
        exact hc ▸ ⟨hfeed, hreturn⟩

/-- **A text ends at its closing quote.** -/
theorem quotedBody_escaped (s rest : List Char) :
    quotedBody q.char (q.escaped s ++ q.char :: rest) = some (q.escaped s, rest) := by
  induction s with
  | nil => exact quotedBody_quote q.char rest
  | cons c s ih =>
    rw [escaped_cons, List.append_assoc]
    rcases q.escape_cases c with ⟨e, b, he, -, -⟩ | ⟨hc, hslash, hquote⟩
    · simp [he, quotedBody_escape q.char_ne_backslash, ih]
    · simp [hc, quotedBody_cons hquote hslash, ih]

/-- **A text is read back as its UTF-8.** -/
theorem unescape_escaped (s : List Char) :
    unescape (q.escaped s) = .ok (s.flatMap String.utf8EncodeChar) := by
  induction s with
  | nil => rfl
  | cons c s ih =>
    rw [escaped_cons, List.flatMap_cons]
    rcases q.escape_cases c with ⟨e, b, he, hb, hc⟩ | ⟨hc, hslash, -⟩
    · rw [he, hc, List.cons_append, List.singleton_append, unescape_escape hb, ih]
      rfl
    · rw [hc, List.singleton_append, unescape_cons hslash, ih]
      rfl

end Quote

theorem toList_toUTF8 (s : String) : s.toUTF8.data.toList = s.toList.flatMap String.utf8EncodeChar := by
  rw [String.toUTF8, ← String.utf8Encode_toList, List.utf8Encode, List.toList_data_toByteArray]

/-! ## Items -/

/-- A text in quotes. -/
structure QuotedItem where
  quote : Quote
  text : String
deriving DecidableEq, Repr

namespace QuotedItem

variable (x : QuotedItem)

/-- The text between its quotes, as it is written. -/
def body : List Char := x.quote.escaped x.text.toList

def source : List Char := x.quote.char :: (x.body ++ [x.quote.char])

/-- The text in UTF-8, and a zero byte if the quotes are double. -/
def payload : List UInt8 := x.text.toUTF8.data.toList ++ x.quote.ending

theorem source_append (rest : List Char) : x.source ++ rest = x.quote.char :: (x.body ++ x.quote.char :: rest) := by
  simp [source]

/-- A text does not start with a separator. -/
theorem dropWhile_source (rest : List Char) : (x.source ++ rest).dropWhile isSeparator = x.source ++ rest := by
  have hquote : isSeparator x.quote.char = false := by cases x.quote <;> decide
  rw [source_append, List.dropWhile_cons_of_neg (by simp [hquote])]

/-- An item is scanned as the text. -/
def IsScannedAs (item : DataItem) : Prop := item.form = x.quote.form ∧ item.text = x.body

theorem scanItem_source (rest : List Char) :
    ∃ item, scanItem (x.source ++ rest) = .ok (item, rest) ∧ x.IsScannedAs item := by
  refine ⟨⟨x.quote.form, x.body, x.body ++ x.quote.char :: rest⟩, ?_, rfl, rfl⟩
  have hbody : quotedBody x.quote.char (x.body ++ x.quote.char :: rest) = some (x.body, rest) :=
    x.quote.quotedBody_escaped x.text.toList rest
  rw [source_append]
  generalize x.body = body at hbody ⊢
  cases hq : x.quote with
  | single | double =>
    rw [hq] at hbody
    unfold scanItem
    simp only [Quote.char] at hbody ⊢
    rw [hbody]
    rfl

variable {x}

theorem IsScannedAs.bytes {item : DataItem} (h : x.IsScannedAs item) (width : DataWidth) (offset : Nat)
    (list : List Char) : item.bytes width offset list = .ok x.payload := by
  obtain ⟨hform, htext⟩ := h
  have hread := x.quote.unescape_escaped x.text.toList
  unfold DataItem.bytes payload
  rw [hform, htext, body, hread, toList_toUTF8]
  cases x.quote with
  | single => simp [Quote.form, Quote.ending, Except.mapError]
  | double => rfl

end QuotedItem

/-! ## Lists -/

/-- Texts in quotes, and the separators in front of all but the first one. -/
structure QuotedList where
  first : QuotedItem
  more : List (List Char × QuotedItem)
  separated : ∀ p ∈ more, p.1 ≠ [] ∧ ∀ c ∈ p.1, isSeparator c = true

namespace QuotedList

/-- Texts with separators in front of them. -/
def sources (more : List (List Char × QuotedItem)) : List Char := more.flatMap fun p => p.1 ++ p.2.source

variable (l : QuotedList)

def items : List QuotedItem := l.first :: l.more.map (·.2)

def source : List Char := l.first.source ++ sources l.more

def payload : List UInt8 := l.items.flatMap (·.payload)

theorem scanMoreItems_sources {more : List (List Char × QuotedItem)}
    (h : ∀ p ∈ more, p.1 ≠ [] ∧ ∀ c ∈ p.1, isSeparator c = true) :
    ∃ found, scanMoreItems (sources more) = (found, []) ∧
      List.Forall₂ QuotedItem.IsScannedAs (more.map (·.2)) found := by
  induction more with
  | nil =>
    refine ⟨[], ?_, .nil⟩
    rw [sources, List.flatMap_nil, scanMoreItems]
    rfl
  | cons p more ih =>
    obtain ⟨separator, x⟩ := p
    obtain ⟨⟨hne, hseparator⟩, hmore⟩ := List.forall_mem_cons.1 h
    obtain ⟨found, hfound, hall⟩ := ih hmore
    obtain ⟨item, hitem, hx⟩ := x.scanItem_source (sources more)
    have hsplit : sources ((separator, x) :: more) = separator ++ (x.source ++ sources more) := by
      simp [sources]
    have hdrop : (separator ++ (x.source ++ sources more)).dropWhile isSeparator = x.source ++ sources more := by
      rw [List.dropWhile_append_of_pos hseparator, x.dropWhile_source]
    have hlonger : (x.source ++ sources more).length ≠ (separator ++ (x.source ++ sources more)).length := by
      have := List.length_pos_iff.2 hne
      simp only [List.length_append] at this ⊢
      omega
    refine ⟨item :: found, ?_, .cons hx hall⟩
    rw [hsplit, scanMoreItems, hdrop, if_neg hlonger]
    split
    · rename_i herror
      rw [hitem] at herror
      cases herror
    · rename_i hok
      rw [hitem] at hok
      cases hok
      rw [hfound]

theorem scanItems_source :
    ∃ found, scanItems l.source = .ok found ∧ List.Forall₂ QuotedItem.IsScannedAs l.items found := by
  obtain ⟨item, hitem, hfirst⟩ := l.first.scanItem_source (sources l.more)
  obtain ⟨found, hfound, hmore⟩ := scanMoreItems_sources l.separated
  refine ⟨item :: found, ?_, .cons hfirst hmore⟩
  rw [scanItems, source, QuotedItem.dropWhile_source, hitem, Except.ok_bind]
  dsimp only
  rw [hfound]
  rfl

/-- **A list of texts stands for their bytes**, one after the other. -/
theorem dataBytes_source (width : DataWidth) (offset : Nat) : dataBytes width offset l.source = .ok l.payload := by
  obtain ⟨found, hfound, hall⟩ := l.scanItems_source
  have hbytes : (found.mapM fun item => item.bytes width offset l.source) = .ok (l.items.map (·.payload)) := by
    rw [Except.mapM_eq_ok_iff, List.forall₂_map_right_iff]
    exact hall.flip.imp fun item x hx => QuotedItem.IsScannedAs.bytes hx width offset l.source
  rw [dataBytes, hfound]
  show List.flatten <$> (found.mapM fun item => item.bytes width offset l.source) = _
  rw [hbytes]
  rfl

end QuotedList

end Octet
