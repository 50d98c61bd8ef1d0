import Octet.Proofs.Assembler.DataGrammar
/-!
Lists that are refused for an escape at their end.

* `Unclosed`, `CutOff`: a quoted text that nothing closes, and one whose last escape is not finished;
* `Behind`, `Stuck`: how far a list is scanned, and the first item that cannot be;
* `scanItems_eq_error_iff`: scanning fails at that item, and what it leaves over;
* `Unfinished`, `Misjudged`: lists that have an unfinished escape at their end, and lists that only look so;
* `escape_at_end`: these are the lists that are refused for it.
-/

namespace Octet

variable {q : Char} {cs body list : List Char}

/-! ## Texts without a closing quote -/

/-- No quote closes the text: a backslash hides each one. -/
def Unclosed (q : Char) (cs : List Char) : Prop := ∀ body rest, Closed q body → cs ≠ body ++ q :: rest

/-- The last backslash of a text hides the quote at its end, or has nothing behind it. -/
inductive CutOff (q : Char) : List Char → Prop
  | quote {body : List Char} : Closed q body → CutOff q (body ++ ['\\', q])
  | nothing {body : List Char} : Closed q body → CutOff q (body ++ ['\\'])

/-- The last escape of a text is complete, and is one of a backslash. -/
inductive Paired (q : Char) : List Char → Prop
  | intro {body : List Char} : Closed q body → Paired q (body ++ ['\\', '\\'])

/-- A text ends in a backslash, or in a backslash and a quote, whatever stands in front of it. -/
inductive EndsInBackslash (q : Char) : List Char → Prop
  | quote {front : List Char} : EndsInBackslash q (front ++ ['\\', q])
  | nothing {front : List Char} : EndsInBackslash q (front ++ ['\\'])

theorem closed_cons {c : Char} (hslash : c ≠ '\\') : Closed q (c :: cs) ↔ c ≠ q ∧ Closed q cs := by
  constructor
  · intro h
    cases h with
    | plain hc _ h => exact ⟨hc, h⟩
    | escape => exact absurd rfl hslash
  · exact fun ⟨hc, h⟩ => h.plain hc hslash

theorem closed_escape {c : Char} : Closed q ('\\' :: c :: cs) ↔ Closed q cs := by
  constructor
  · intro h
    cases h with
    | plain _ hslash => exact absurd rfl hslash
    | escape h => exact h
  · exact Closed.escape

namespace Closed

/-- What stands behind complete escapes is read on its own. -/
theorem quotedBody_append (h : Closed q body) (hq : q ≠ '\\') (cs : List Char) :
    quotedBody q (body ++ cs) = (quotedBody q cs).map fun (more, rest) => (body ++ more, rest) := by
  induction h with
  | nil => exact Option.map_id'.symm
  | plain hc hslash _ ih => rw [List.cons_append, quotedBody_cons hc hslash, ih, Option.map_map]; rfl
  | escape _ ih => rw [List.cons_append, List.cons_append, quotedBody_escape hq, ih, Option.map_map]; rfl

theorem append_iff (h : Closed q body) : Closed q (body ++ cs) ↔ Closed q cs := by
  induction h with
  | nil => rfl
  | plain hc hslash _ ih => rw [List.cons_append, closed_cons hslash, ih, and_iff_right hc]
  | escape _ ih => rw [List.cons_append, List.cons_append, closed_escape, ih]

/-- A backslash behind complete escapes has nothing to hide. -/
theorem not_concat_backslash (h : Closed q body) : ¬ Closed q (body ++ ['\\']) := by
  rw [h.append_iff]
  intro h
  cases h with
  | plain _ hslash => exact hslash rfl

end Closed

theorem quotedBody_eq_none_iff (hq : q ≠ '\\') : quotedBody q cs = none ↔ Unclosed q cs := by
  constructor
  · rintro h body rest hbody rfl
    rw [hbody.quotedBody_append hq, quotedBody_quote] at h
    cases h
  · intro h
    cases hbody : quotedBody q cs with
    | none => rfl
    | some found =>
      obtain ⟨hcs, hclosed⟩ := closed_of_quotedBody hbody
      exact absurd hcs (h _ _ hclosed)

/-- An unclosed text consists of complete escapes, up to a backslash at its end. -/
theorem unclosed_iff (hq : q ≠ '\\') :
    Unclosed q cs ↔ Closed q cs ∨ ∃ body, Closed q body ∧ cs = body ++ ['\\'] := by
  rw [← quotedBody_eq_none_iff hq]
  constructor
  · intro h
    -- The reader takes an escape as two characters, so a backslash is alone only where the text ends.
    fun_induction quotedBody q cs with
    | case1 => exact .inl .nil
    | case2 => cases h
    | case3 => exact .inr ⟨[], .nil, rfl⟩
    | case4 _ c cs ih =>
      rcases ih (Option.map_eq_none_iff.1 h) with h | ⟨body, hbody, rfl⟩
      · exact .inl h.escape
      · exact .inr ⟨_, hbody.escape, rfl⟩
    | case5 c cs hc hslash ih =>
      rcases ih (Option.map_eq_none_iff.1 h) with h | ⟨body, hbody, rfl⟩
      · exact .inl (h.plain hc hslash)
      · exact .inr ⟨_, hbody.plain hc hslash, rfl⟩
  · rintro (h | ⟨body, h, rfl⟩)
    · have hnone := h.quotedBody_append hq []
      rwa [List.append_nil] at hnone
    · rw [h.quotedBody_append hq, quotedBody.eq_def]
      simp [hq.symm]

namespace Unclosed

/-- No part of a text up to some place is closed if the text is not. -/
theorem of_append {more : List Char} (h : Unclosed q (cs ++ more)) : Unclosed q cs := by
  rintro body rest hbody rfl
  exact h body (rest ++ more) hbody (List.append_assoc ..)

/-- The last character of complete escapes stands for itself, or follows a backslash. -/
theorem concat_cases {c : Char} (hq : q ≠ '\\') (h : Closed q (cs ++ [c])) :
    (c ≠ q ∧ c ≠ '\\') ∨ ∃ body, Closed q body ∧ cs = body ++ ['\\'] := by
  have hcs : Unclosed q cs := of_append ((unclosed_iff hq).2 (.inl h))
  rcases (unclosed_iff hq).1 hcs with hclosed | hslash
  · refine .inl ?_
    cases hclosed.append_iff.1 h with
    | plain hc hslash => exact ⟨hc, hslash⟩
  · exact .inr hslash

/-- **How an unclosed text ends.** If it ends in a backslash, or in a backslash and a quote, then its last escape is not
finished, or is a complete one of a backslash. -/
theorem cutOff_or_paired (hq : q ≠ '\\') (h : Unclosed q cs) (hends : EndsInBackslash q cs) :
    CutOff q cs ∨ Paired q cs := by
  rcases (unclosed_iff hq).1 h with hclosed | ⟨body, hbody, rfl⟩
  -- All escapes are complete: what the text ends in cannot stand for itself, so a backslash in front of it hides it.
  · cases hends with
    | @quote front =>
      rw [List.append_cons] at hclosed
      rcases concat_cases hq hclosed with ⟨hne, -⟩ | ⟨body, hbody, hfront⟩
      · exact absurd rfl hne
      · obtain rfl := List.append_cancel_right hfront
        exact .inl (.quote hbody)
    | @nothing front =>
      rcases concat_cases hq hclosed with ⟨-, hne⟩ | ⟨body, hbody, rfl⟩
      · exact absurd rfl hne
      · rw [← List.append_cons]
        exact .inr ⟨hbody⟩
  · exact .inl (.nothing hbody)

end Unclosed

theorem CutOff.endsInBackslash (h : CutOff q cs) : EndsInBackslash q cs := by
  cases h with
  | quote => exact .quote
  | nothing => exact .nothing

theorem Paired.endsInBackslash (h : Paired q cs) : EndsInBackslash q cs := by
  obtain ⟨h⟩ := h
  rw [List.append_cons]
  exact .nothing

/-- An escape is finished or not. -/
theorem CutOff.not_paired (hq : q ≠ '\\') (h : CutOff q cs) : ¬ Paired q cs := by
  intro hpaired
  generalize hcs : cs = text at hpaired
  obtain @⟨body, hbody⟩ := hpaired
  rw [List.append_cons] at hcs
  cases h with
  | quote _ =>
    rw [List.append_cons] at hcs
    exact hq (List.singleton_inj.1 (List.append_inj_right' hcs rfl))
  | nothing h =>
    obtain rfl := List.append_cancel_right hcs
    exact hbody.not_concat_backslash h

theorem endsInEscape_iff (quote : Quote) :
    endsInEscape (quote.char :: cs) = true ↔ EndsInBackslash quote.char cs := by
  have hquote : quote.char = '"' ∨ quote.char = '\'' := by cases quote <;> simp [Quote.char]
  simp only [endsInEscape, if_pos hquote, Bool.or_eq_true, Bool.and_eq_true, decide_eq_true_eq,
    List.getLast?_eq_some_iff]
  constructor
  · rintro (⟨front, rfl⟩ | ⟨⟨front, rfl⟩, more, hfront⟩)
    · exact .nothing
    · rw [List.dropLast_concat] at hfront
      rw [hfront, ← List.append_cons]
      exact .quote
  · intro h
    cases h with
    | @quote front => exact .inr ⟨⟨front ++ ['\\'], by simp⟩, front, by simp⟩
    | @nothing front => exact .inl ⟨front, rfl⟩

/-- A text that starts with no quote is no quoted text. -/
theorem exists_quote_of_endsInEscape (h : endsInEscape cs = true) :
    ∃ (quote : Quote) (inner : List Char), cs = quote.char :: inner := by
  cases cs with
  | nil => cases h
  | cons c inner =>
    by_cases hc : c = '"' ∨ c = '\''
    · rcases hc with rfl | rfl
      · exact ⟨.double, inner, rfl⟩
      · exact ⟨.single, inner, rfl⟩
    · rw [endsInEscape, if_neg hc] at h
      cases h

/-! ## Where scanning stops -/

/-- The list goes on like this behind one of its items, all of which so far are scanned. -/
inductive Behind (list : List Char) : List Char → Prop
  | first {item : DataItem} {rest : List Char} : scanItem (list.dropWhile isSeparator) = .ok (item, rest) →
      Behind list rest
  | next {cs rest : List Char} {item : DataItem} : Behind list cs → cs.dropWhile isSeparator ≠ cs →
      scanItem (cs.dropWhile isSeparator) = .ok (item, rest) → Behind list rest

/-- The first item of a list that cannot be scanned, and all that follows it; the second text is what scanning leaves
over. Only in the first item of all, a minus sign is not left over. -/
inductive Stuck (list : List Char) : List Char → List Char → Prop
  | first {left : List Char} : scanItem (list.dropWhile isSeparator) = .error left →
      Stuck list (list.dropWhile isSeparator) left
  | later {cs cause : List Char} : Behind list cs → cs.dropWhile isSeparator ≠ cs →
      cs.dropWhile isSeparator ≠ [] → scanItem (cs.dropWhile isSeparator) = .error cause →
      Stuck list (cs.dropWhile isSeparator) (cs.dropWhile isSeparator)
  /-- No separator stands between two items. -/
  | glued {cs : List Char} : Behind list cs → cs.dropWhile isSeparator = cs → cs ≠ [] → Stuck list cs cs

variable {left item : List Char}

theorem Quote.char_ne_minus (quote : Quote) : quote.char ≠ '-' := by cases quote <;> decide

theorem scanItem_quote_eq_error_iff (quote : Quote) :
    scanItem (quote.char :: cs) = .error left ↔ Unclosed quote.char cs ∧ left = quote.char :: cs := by
  have hnumber : scanNumberItem (quote.char :: cs) = .error (quote.char :: cs) := by cases quote <;> rfl
  rw [scanItem_quote, ← quotedBody_eq_none_iff quote.char_ne_backslash]
  cases quotedBody quote.char cs with
  | none => simp [hnumber, eq_comm]
  | some found => simp

theorem scanItem_minus_quote (quote : Quote) (cs : List Char) :
    scanItem ('-' :: quote.char :: cs) = .error (quote.char :: cs) := by cases quote <;> rfl

/-- An item is left over as a whole, or but for its minus sign. -/
theorem eq_or_minus_of_scanItem_eq_error (h : scanItem cs = .error left) : cs = left ∨ cs = '-' :: left := by
  by_cases hquote : ∀ quote : Quote, cs.head? ≠ some quote.char
  · rw [scanItem_of_ne_quote hquote] at h
    unfold scanNumberItem at h
    obtain ⟨sign, ds, hsign, rfl, hlength⟩ := exists_sign cs
    dsimp only at h
    rw [hlength, List.drop_left] at h
    split at h
    · cases h
    · split at h
      · cases h
      · cases h
        rcases hsign with rfl | rfl
        · exact .inl rfl
        · exact .inr rfl
  · obtain ⟨quote, hquote⟩ := not_forall_not.1 hquote
    obtain ⟨inner, rfl⟩ := List.head?_eq_some_iff.1 hquote
    exact .inl ((scanItem_quote_eq_error_iff quote).1 h).2.symm

theorem dropWhile_eq_self_iff_length :
    cs.dropWhile isSeparator = cs ↔ (cs.dropWhile isSeparator).length = cs.length :=
  ⟨congrArg _, (List.dropWhile_suffix _).eq_of_length⟩

/-- Scanning goes on behind separators. -/
theorem scanMoreItems_next {rest : List Char} {item : DataItem} (hne : cs.dropWhile isSeparator ≠ cs)
    (h : scanItem (cs.dropWhile isSeparator) = .ok (item, rest)) :
    scanMoreItems cs = (item :: (scanMoreItems rest).1, (scanMoreItems rest).2) := by
  have hsplit := List.takeWhile_append_dropWhile (p := isSeparator) (l := cs)
  have hsome : cs.takeWhile isSeparator ≠ [] := fun hnil => by
    rw [hnil, List.nil_append] at hsplit
    exact hne hsplit
  have hnext := scanMoreItems_of_scanItem hsome (by rw [hsplit]) h
  rwa [hsplit] at hnext

/-- Scanning stops where no item follows. -/
theorem scanMoreItems_stop
    (h : cs.dropWhile isSeparator = cs ∨ ∃ cause, scanItem (cs.dropWhile isSeparator) = .error cause) :
    scanMoreItems cs = ([], cs) := by
  rw [scanMoreItems]
  split
  · rfl
  · rename_i hlength
    rcases h with h | ⟨cause, h⟩
    · exact absurd (dropWhile_eq_self_iff_length.1 h) hlength
    · split
      · rfl
      · rename_i hok
        rw [h] at hok
        cases hok

/-- What is left over behind an item starts with one that cannot be scanned. -/
theorem stuck_of_scanMoreItems (h : Behind list cs) (hleft : (scanMoreItems cs).2.dropWhile isSeparator ≠ []) :
    Stuck list ((scanMoreItems cs).2.dropWhile isSeparator) ((scanMoreItems cs).2.dropWhile isSeparator) := by
  fun_induction scanMoreItems cs with
  | case1 cs hlength =>
    have hself := dropWhile_eq_self_iff_length.2 hlength
    rw [hself] at hleft ⊢
    exact .glued h hself hleft
  | case2 cs hlength cause hscan => exact .later h (mt dropWhile_eq_self_iff_length.1 hlength) hleft hscan
  | case3 cs hlength item rest hscan items leftover hmore ih =>
    rw [hmore] at ih
    exact ih (h.next (mt dropWhile_eq_self_iff_length.1 hlength) hscan) hleft

/-- Behind an item the list goes on like behind its first one. -/
theorem Behind.exists_first (h : Behind list cs) : ∃ item rest,
    scanItem (list.dropWhile isSeparator) = .ok (item, rest) ∧ (scanMoreItems rest).2 = (scanMoreItems cs).2 := by
  induction h with
  | first h => exact ⟨_, _, h, rfl⟩
  | next _ hne hscan ih =>
    obtain ⟨item, rest, hfirst, hmore⟩ := ih
    exact ⟨item, rest, hfirst, by rw [hmore, scanMoreItems_next hne hscan]⟩

/-- What no item follows is left over, but for the separators at its front. -/
theorem Behind.scanItems_eq (h : Behind list cs) (hstop : scanMoreItems cs = ([], cs))
    (hsome : cs.dropWhile isSeparator ≠ []) : scanItems list = .error (cs.dropWhile isSeparator) := by
  obtain ⟨first, rest, hfirst, hmore⟩ := h.exists_first
  rw [hstop] at hmore
  rw [scanItems, hfirst, Except.ok_bind]
  dsimp only
  rw [hmore]
  split
  · rename_i hnil
    exact absurd hnil hsome
  · rfl

/-- **Scanning fails at the first item that cannot be scanned.** -/
theorem scanItems_eq_error_iff : scanItems list = .error left ↔ ∃ item, Stuck list item left := by
  constructor
  · intro h
    rw [scanItems] at h
    rcases Except.bind_eq_error.1 h with h | ⟨⟨first, rest⟩, hfirst, h⟩
    · exact ⟨_, .first h⟩
    · dsimp only at h
      split at h
      · cases h
      · rename_i hsome
        cases h
        exact ⟨_, stuck_of_scanMoreItems (.first hfirst) hsome⟩
  · rintro ⟨item, h⟩
    cases h with
    | first h => exact Except.bind_eq_error.2 (.inl h)
    | later h hne hsome hscan => exact h.scanItems_eq (scanMoreItems_stop (.inr ⟨_, hscan⟩)) hsome
    | glued h hself hsome =>
      have hfail := h.scanItems_eq (scanMoreItems_stop (.inl hself)) (by rwa [hself])
      rwa [hself] at hfail

namespace Stuck

/-- An item is left over as a whole, or but for its minus sign. -/
theorem eq_or_minus (h : Stuck list item left) : item = left ∨ item = '-' :: left := by
  cases h with
  | first h => exact eq_or_minus_of_scanItem_eq_error h
  | later => exact .inl rfl
  | glued => exact .inl rfl

/-- The item is the first one of all, or it is left over as a whole. -/
theorem first_or_eq (h : Stuck list item left) :
    (item = list.dropWhile isSeparator ∧ scanItem (list.dropWhile isSeparator) = .error left) ∨
      item = left ∧ ∃ found, scanItem (list.dropWhile isSeparator) = .ok found := by
  cases h with
  | first h => exact .inl ⟨rfl, h⟩
  | later h | glued h =>
    obtain ⟨first, rest, hfirst, -⟩ := h.exists_first
    exact .inr ⟨rfl, _, hfirst⟩

/-- A list has one item at which scanning fails. -/
theorem unique {item' left' : List Char} (h : Stuck list item left) (h' : Stuck list item' left') :
    item = item' ∧ left = left' := by
  obtain rfl : left = left' :=
    Except.error.inj ((scanItems_eq_error_iff.2 ⟨_, h⟩).symm.trans (scanItems_eq_error_iff.2 ⟨_, h'⟩))
  refine ⟨?_, rfl⟩
  -- The first item of all either can be scanned or not; only if it can, the other one is some later item.
  rcases h.first_or_eq with ⟨rfl, hfail⟩ | ⟨rfl, found, hok⟩ <;>
    rcases h'.first_or_eq with ⟨rfl, hfail'⟩ | ⟨rfl, found', hok'⟩
  · rfl
  · rw [hfail] at hok'
    cases hok'
  · rw [hok] at hfail'
    cases hfail'
  · rfl

/-- A quoted item is left over as a whole. -/
theorem left_eq {quote : Quote} (h : Stuck list (quote.char :: cs) left) : left = quote.char :: cs := by
  rcases h.eq_or_minus with h | h
  · exact h.symm
  · exact absurd (List.cons.inj h).1 quote.char_ne_minus

/-- Only the first item of all is left over without its minus sign. -/
theorem eq_of_minus (h : Stuck list ('-' :: left) left) : list.dropWhile isSeparator = '-' :: left := by
  rcases h.first_or_eq with ⟨hfirst, -⟩ | ⟨hself, -⟩
  · exact hfirst.symm
  · exact absurd hself (List.cons_ne_self _ _)

/-- A closed text can be scanned, but not right behind an item. -/
theorem behind {quote : Quote} (h : Stuck list (quote.char :: cs) left) (hclosed : ¬ Unclosed quote.char cs) :
    Behind list (quote.char :: cs) := by
  have hscan {cause : List Char} : scanItem (quote.char :: cs) ≠ .error cause := fun hscan =>
    hclosed ((scanItem_quote_eq_error_iff quote).1 hscan).1
  generalize quote.char :: cs = text at h hscan
  cases h with
  | first h => exact absurd h hscan
  | later _ _ _ h => exact absurd h hscan
  | glued h => exact h

end Stuck

theorem Behind.stuck {quote : Quote} (h : Behind list (quote.char :: cs)) :
    Stuck list (quote.char :: cs) (quote.char :: cs) := by
  have hseparator : isSeparator quote.char = false := by cases quote <;> decide
  exact .glued h (List.dropWhile_cons_of_neg (by simp [hseparator])) (List.cons_ne_nil _ _)

/-! ## Escapes of items -/

/-- An item that is scanned as a quoted text is one between its quotes. -/
theorem exists_closed_of_scanItem {found : DataItem} {rest : List Char} (h : scanItem cs = .ok (found, rest))
    (hform : found.form = .chars ∨ found.form = .string) : ∃ q, Closed q found.text := by
  have hnumber : scanNumberItem cs ≠ .ok (found, rest) := fun hscan => by
    obtain ⟨-, ⟨hhex, -⟩ | ⟨hdecimal, -⟩⟩ := scanNumberItem_sound hscan
    · simp [hhex] at hform
    · simp [hdecimal] at hform
  by_cases hquote : ∀ quote : Quote, cs.head? ≠ some quote.char
  · exact absurd (scanItem_of_ne_quote hquote ▸ h) hnumber
  · obtain ⟨quote, hquote⟩ := not_forall_not.1 hquote
    obtain ⟨inner, rfl⟩ := List.head?_eq_some_iff.1 hquote
    rw [scanItem_quote] at h
    split at h
    · rename_i body rest' hbody
      cases h
      exact ⟨_, (closed_of_quotedBody hbody).2⟩
    · exact absurd h hnumber

theorem exists_scanItem_of_mem {items : List DataItem} (h : scanItems list = .ok items) :
    ∀ found ∈ items, ∃ cs rest, scanItem cs = .ok (found, rest) := by
  have hmore (cs : List Char) : ∀ found ∈ (scanMoreItems cs).1, ∃ cs rest, scanItem cs = .ok (found, rest) := by
    fun_induction scanMoreItems cs with
    | case1 | case2 => exact List.forall_mem_nil _
    | case3 cs _ item rest hscan items leftover hitems ih =>
      rw [hitems] at ih
      exact List.forall_mem_cons.2 ⟨⟨_, _, hscan⟩, ih⟩
  obtain ⟨first, rest, hfirst, -, rfl⟩ := scanItems_eq_ok_iff.1 h
  exact List.forall_mem_cons.2 ⟨⟨_, _, hfirst⟩, hmore rest⟩

/-- No escape is cut off in an item that is scanned. -/
theorem bytes_ne_escapeAtEnd {found : DataItem} {rest : List Char} (h : scanItem cs = .ok (found, rest))
    (width : DataWidth) (offset : Nat) (list : List Char) : found.bytes width offset list ≠ .error .escapeAtEnd := by
  have hquoted (hform : found.form = .chars ∨ found.form = .string) :
      (unescape found.text).mapError EscapeFault.toFault ≠ .error .escapeAtEnd := by
    obtain ⟨q, hclosed⟩ := exists_closed_of_scanItem h hform
    have hend := hclosed.unescape_ne_atEnd
    cases hu : unescape found.text with
    | ok bytes => rintro ⟨⟩
    | error fault =>
      rw [hu] at hend
      cases fault with
      | invalid c => rintro ⟨⟩
      | atEnd => exact absurd rfl hend
  unfold DataItem.bytes
  cases hform : found.form with
  | chars => exact hquoted (.inl hform)
  | string => exact Except.map_ne_error (hquoted (.inr hform))
  | hex | decimal =>
    dsimp only
    split <;> rintro ⟨⟩

/-- The fault of a list that cannot be scanned hangs on how the text that is left over starts and ends. -/
theorem Stuck.dataBytes_eq (h : Stuck list item left) (width : DataWidth) (offset : Nat) :
    dataBytes width offset list = .error (if endsInEscape left then .escapeAtEnd
      else .invalidLiteral (String.ofList (left.takeWhile (!isSeparator ·))) (offset + columnOf list left)) := by
  unfold dataBytes
  rw [scanItems_eq_error_iff.2 ⟨item, h⟩]
  dsimp only
  split <;> rfl

theorem exists_stuck_of_escapeAtEnd {width : DataWidth} {offset : Nat}
    (h : dataBytes width offset list = .error .escapeAtEnd) :
    ∃ item left, Stuck list item left ∧ endsInEscape left = true := by
  cases hscan : scanItems list with
  | error left =>
    obtain ⟨item, hstuck⟩ := scanItems_eq_error_iff.1 hscan
    refine ⟨item, left, hstuck, ?_⟩
    rw [hstuck.dataBytes_eq] at h
    by_contra hends
    rw [if_neg hends] at h
    cases h
  | ok items =>
    unfold dataBytes at h
    rw [hscan] at h
    obtain ⟨found, hmem, hfound⟩ := Except.exists_mem_of_mapM_eq_error (Except.map_eq_error.1 h)
    obtain ⟨cs, rest, hitem⟩ := exists_scanItem_of_mem hscan found hmem
    exact absurd hfound (bytes_ne_escapeAtEnd hitem width offset list)

/-! ## The theorem -/

/-- The first item that cannot be scanned is an unclosed text, and its last escape is not finished. -/
inductive Unfinished (list : List Char) : Prop
  | intro {quote : Quote} {cs left : List Char} : Stuck list (quote.char :: cs) left → Unclosed quote.char cs →
      CutOff quote.char cs → Unfinished list

/-- The text that is left over only looks as if its last escape were not finished. -/
inductive Misjudged (list : List Char) : Prop
  /-- Nothing closes the item, but its escapes are complete, and the last one is that of a backslash. -/
  | paired {quote : Quote} {cs left : List Char} : Stuck list (quote.char :: cs) left → Paired quote.char cs →
      Misjudged list
  /-- A quote closes the item, which stands right behind another one. -/
  | closed {quote : Quote} {cs : List Char} : Behind list (quote.char :: cs) → ¬ Unclosed quote.char cs →
      EndsInBackslash quote.char cs → Misjudged list
  /-- The list starts with a minus sign, and the quote follows. -/
  | minus {quote : Quote} {cs : List Char} : list.dropWhile isSeparator = '-' :: quote.char :: cs →
      EndsInBackslash quote.char cs → Misjudged list

theorem Unfinished.not_misjudged (h : Unfinished list) : ¬ Misjudged list := by
  obtain ⟨hstuck, hunclosed, hcut⟩ := h
  intro h
  cases h with
  | paired hstuck' hpaired =>
    obtain ⟨hquote, rfl⟩ := List.cons.inj (hstuck.unique hstuck').1
    rw [← hquote] at hpaired
    exact hcut.not_paired (Quote.char_ne_backslash _) hpaired
  | closed hbehind hclosed =>
    obtain ⟨hquote, rfl⟩ := List.cons.inj (hstuck.unique hbehind.stuck).1
    rw [← hquote] at hclosed
    exact hclosed hunclosed
  | minus hminus =>
    have hstuck' := Stuck.first (hminus ▸ scanItem_minus_quote _ _)
    rw [hminus] at hstuck'
    exact absurd (List.cons.inj (hstuck.unique hstuck').1).1 (Quote.char_ne_minus _)

theorem dataBytes_eq_escapeAtEnd_iff {width : DataWidth} {offset : Nat} :
    dataBytes width offset list = .error .escapeAtEnd ↔ Unfinished list ∨ Misjudged list := by
  have hquoted {quote : Quote} {cs left : List Char} (hstuck : Stuck list (quote.char :: cs) left)
      (hends : EndsInBackslash quote.char cs) : dataBytes width offset list = .error .escapeAtEnd := by
    rw [hstuck.dataBytes_eq, hstuck.left_eq, if_pos ((endsInEscape_iff quote).2 hends)]
  constructor
  · intro h
    obtain ⟨item, left, hstuck, hends⟩ := exists_stuck_of_escapeAtEnd h
    obtain ⟨quote, cs, rfl⟩ := exists_quote_of_endsInEscape hends
    rw [endsInEscape_iff] at hends
    -- The text that is left over is the item, except where it lacks the minus sign of the item.
    rcases hstuck.eq_or_minus with rfl | rfl
    · by_cases hunclosed : Unclosed quote.char cs
      · rcases hunclosed.cutOff_or_paired quote.char_ne_backslash hends with hcut | hpaired
        · exact .inl ⟨hstuck, hunclosed, hcut⟩
        · exact .inr (.paired hstuck hpaired)
      · exact .inr (.closed (hstuck.behind hunclosed) hunclosed hends)
    · exact .inr (.minus hstuck.eq_of_minus hends)
  · rintro (⟨hstuck, -, hcut⟩ | h)
    · exact hquoted hstuck hcut.endsInBackslash
    · cases h with
      | paired hstuck hpaired => exact hquoted hstuck hpaired.endsInBackslash
      | closed hbehind _ hends => exact hquoted hbehind.stuck hends
      | minus hminus hends =>
        have hstuck : Stuck list (list.dropWhile isSeparator) _ := .first (hminus ▸ scanItem_minus_quote _ _)
        rw [hstuck.dataBytes_eq, if_pos ((endsInEscape_iff _).2 hends)]

/-- **An escape at the end is an unfinished one, but for lists that only look so.** Where the text that is left over
does not mislead, a list is refused for an escape at its end iff the first item that cannot be scanned is an unclosed
text with its last escape unfinished, and for a literal if that item is another one. Where the text does mislead, an
escape at the end is reported, and there is none. -/
theorem escape_at_end (width : DataWidth) (offset : Nat) (list : List Char) :
    (¬ Misjudged list →
      (dataBytes width offset list = .error .escapeAtEnd ↔ Unfinished list) ∧
      ∀ item left, Stuck list item left → ¬ Unfinished list → dataBytes width offset list =
        .error (.invalidLiteral (String.ofList (left.takeWhile (!isSeparator ·))) (offset + columnOf list left))) ∧
    (Misjudged list → dataBytes width offset list = .error .escapeAtEnd ∧ ¬ Unfinished list) := by
  refine ⟨fun hclear => ⟨?_, fun item left hstuck hfinished => ?_⟩, fun h => ?_⟩
  · rw [dataBytes_eq_escapeAtEnd_iff, or_iff_left hclear]
  · have hends : endsInEscape left ≠ true := fun hends => by
      have hreported := hstuck.dataBytes_eq width offset
      rw [if_pos hends, dataBytes_eq_escapeAtEnd_iff] at hreported
      exact hreported.elim hfinished hclear
    rw [hstuck.dataBytes_eq, if_neg hends]
  · exact ⟨dataBytes_eq_escapeAtEnd_iff.2 (.inr h), fun hunfinished => hunfinished.not_misjudged h⟩

/-- A hidden quote, an escape in the middle, and two backslashes at the end. -/
theorem escape_at_end_hidden_quote :
    (¬ Misjudged "1 'a\\'".toList ∧ Unfinished "1 'a\\'".toList ∧
      dataBytes .byte 6 "1 'a\\'".toList = .error .escapeAtEnd) ∧
    (Stuck "'\\\\b".toList "'\\\\b".toList "'\\\\b".toList ∧
      ¬ Misjudged "'\\\\b".toList ∧ ¬ Unfinished "'\\\\b".toList ∧
      dataBytes .byte 6 "'\\\\b".toList = .error (.invalidLiteral "'\\\\b" 7)) ∧
    Misjudged "2 \"\\\\".toList ∧ ¬ Unfinished "2 \"\\\\".toList := by
  refine ⟨?_, ?_, ?_⟩
  · have hbehind : Behind "1 'a\\'".toList " 'a\\'".toList := .first (by cbv)
    have hstuck : Stuck "1 'a\\'".toList "'a\\'".toList "'a\\'".toList :=
      .later hbehind (by decide) (by decide) (by cbv)
    have hbody : quotedBody '\'' "a'".toList = some (['a'], []) := by cbv
    have hcut : CutOff '\'' "a\\'".toList := .quote (closed_of_quotedBody hbody).2
    have hunclosed : Unclosed '\'' "a\\'".toList := (quotedBody_eq_none_iff (by decide)).1 (by cbv)
    have hunfinished : Unfinished "1 'a\\'".toList := @Unfinished.intro _ .single _ _ hstuck hunclosed hcut
    have hclear := hunfinished.not_misjudged
    exact ⟨hclear, hunfinished, ((escape_at_end .byte 6 _).1 hclear).1.2 hunfinished⟩
  · have hstuck : Stuck "'\\\\b".toList "'\\\\b".toList "'\\\\b".toList := .first (by cbv)
    have hother : ¬ (Unfinished "'\\\\b".toList ∨ Misjudged "'\\\\b".toList) := fun h => by
      have hreported := hstuck.dataBytes_eq .byte 6
      rw [(dataBytes_eq_escapeAtEnd_iff).2 h] at hreported
      exact absurd hreported (by decide)
    rw [not_or] at hother
    exact ⟨hstuck, hother.2, hother.1, ((escape_at_end .byte 6 _).1 hother.2).2 _ _ hstuck hother.1⟩
  · have hbehind : Behind "2 \"\\\\".toList " \"\\\\".toList := .first (by cbv)
    have hstuck : Stuck "2 \"\\\\".toList "\"\\\\".toList "\"\\\\".toList :=
      .later hbehind (by decide) (by decide) (by cbv)
    have hpaired : Paired '"' "\\\\".toList := @Paired.intro _ [] .nil
    have hmisjudged : Misjudged "2 \"\\\\".toList := @Misjudged.paired _ .double _ _ hstuck hpaired
    exact ⟨hmisjudged, ((escape_at_end .byte 6 _).2 hmisjudged).2⟩

/-- Two backslashes at the end of an unclosed text make a complete escape, and are taken for an unfinished one. -/
theorem not_forall_escapeAtEnd_iff_unfinished :
    ¬ ∀ (width : DataWidth) (offset : Nat) (list : List Char),
      dataBytes width offset list = .error .escapeAtEnd ↔ Unfinished list := by
  intro h
  have hreported : dataBytes .byte 6 "\"abc\\\\".toList = .error .escapeAtEnd := by cbv
  have hstuck : Stuck "\"abc\\\\".toList "\"abc\\\\".toList "\"abc\\\\".toList := .first (by cbv)
  have hbody : quotedBody '"' "abc\"".toList = some ("abc".toList, []) := by cbv
  have hpaired : Paired '"' "abc\\\\".toList := ⟨(closed_of_quotedBody hbody).2⟩
  exact ((h .byte 6 _).1 hreported).not_misjudged (@Misjudged.paired _ .double _ _ hstuck hpaired)

end Octet
