import Octet.Proofs.Assembler.DataGrammar
import Octet.Proofs.Assembler.LineFaults
import Octet.Proofs.Assembler.NormalForm
/-!
The columns in which faulty literals are said to stand.

* `DataItem.Within`: an item, as a part of the list that it is scanned from; what scanners give back is a part of it;
* `exists_literal_of_dataBytes`: the literal that a list is refused for, and its column;
* `literal_column`: the column counts the bytes that wide blanks in front of the list take, and is right without them.
-/

namespace Octet

open Text

/-! ## Lists -/

/-- An item stands in a list from its start on. -/
structure DataItem.Within (item : DataItem) (list : List Char) : Prop where
  start : item.start <:+ list
  text : item.text <+: item.start

theorem DataItem.Within.mono {item : DataItem} {list list' : List Char} (h : item.Within list) (hl : list <:+ list') :
    item.Within list' :=
  ⟨h.start.trans hl, h.text⟩

/-- What is left of a list stands in it, and so does the place of a failure. -/
theorem scanNumberItem_within (cs : List Char) :
    (∀ e, scanNumberItem cs = .error e → e <:+ cs) ∧
      ∀ item rest, scanNumberItem cs = .ok (item, rest) → item.Within cs ∧ rest <:+ cs := by
  unfold scanNumberItem
  dsimp only
  generalize (if cs.head? = some '-' then 1 else 0 : Nat) = sign
  refine ⟨fun e h => ?_, fun item rest h => ?_⟩
  · split at h
    · cases h
    · split at h
      · cases h
      · cases h
        exact List.drop_suffix _ _
  · split at h
    · cases h
      exact ⟨⟨List.suffix_refl _, List.take_prefix _ _⟩, List.drop_suffix _ _⟩
    · split at h
      · cases h
        exact ⟨⟨List.suffix_refl _, List.take_prefix _ _⟩, List.drop_suffix _ _⟩
      · cases h

theorem scanItem_within (cs : List Char) :
    (∀ e, scanItem cs = .error e → e <:+ cs) ∧
      ∀ item rest, scanItem cs = .ok (item, rest) → item.Within cs ∧ rest <:+ cs := by
  by_cases hq : ∀ q : Quote, cs.head? ≠ some q.char
  · rw [scanItem_of_ne_quote hq]
    exact scanNumberItem_within cs
  · obtain ⟨q, hq⟩ := not_forall_not.1 hq
    obtain ⟨inner, rfl⟩ := List.head?_eq_some_iff.1 hq
    rw [scanItem_quote]
    cases hbody : quotedBody q.char inner with
    | none => exact scanNumberItem_within _
    | some found =>
      obtain ⟨body, rest⟩ := found
      obtain ⟨rfl, -⟩ := closed_of_quotedBody hbody
      refine ⟨fun e h => (by cases h), fun item rest' h => ?_⟩
      cases h
      refine ⟨⟨List.suffix_cons _ _, List.prefix_append _ _⟩, ?_⟩
      exact (List.suffix_cons _ _).trans ((List.suffix_append _ _).trans (List.suffix_cons _ _))

theorem scanMoreItems_within {cs rest : List Char} {items : List DataItem} (h : scanMoreItems cs = (items, rest)) :
    (∀ item ∈ items, item.Within cs) ∧ rest <:+ cs := by
  fun_induction scanMoreItems cs generalizing items rest with
  | case1 cs =>
    cases h
    exact ⟨List.forall_mem_nil _, List.suffix_refl _⟩
  | case2 cs =>
    cases h
    exact ⟨List.forall_mem_nil _, List.suffix_refl _⟩
  | case3 cs _ item rest' hscan items' leftover hmore ih =>
    cases h
    have hdrop : cs.dropWhile isSeparator <:+ cs := List.dropWhile_suffix _
    obtain ⟨hitem, hrest⟩ := (scanItem_within _).2 _ _ hscan
    obtain ⟨hitems, hleft⟩ := ih hmore
    have hcs := hrest.trans hdrop
    exact ⟨List.forall_mem_cons.2 ⟨hitem.mono hdrop, fun i hi => (hitems i hi).mono hcs⟩, hleft.trans hcs⟩

theorem scanItems_within (cs : List Char) :
    (∀ e, scanItems cs = .error e → e <:+ cs) ∧ ∀ items, scanItems cs = .ok items → ∀ item ∈ items, item.Within cs := by
  have hdrop : cs.dropWhile isSeparator <:+ cs := List.dropWhile_suffix _
  obtain ⟨hfail, hscan⟩ := scanItem_within (cs.dropWhile isSeparator)
  refine ⟨fun e h => ?_, fun items h => ?_⟩
  · unfold scanItems at h
    rcases Except.bind_eq_error.1 h with h | ⟨⟨first, rest⟩, hfirst, h⟩
    · exact (hfail _ h).trans hdrop
    · dsimp only at h
      split at h
      · cases h
      · cases h
        have hleft := (scanMoreItems_within (rfl : scanMoreItems rest = (_, _))).2
        exact (List.dropWhile_suffix _).trans (hleft.trans ((hscan _ _ hfirst).2.trans hdrop))
  · obtain ⟨first, rest, hfirst, -, rfl⟩ := scanItems_eq_ok_iff.1 h
    obtain ⟨hitem, hrest⟩ := hscan _ _ hfirst
    have hmore := (scanMoreItems_within (rfl : scanMoreItems rest = (_, _))).1
    exact List.forall_mem_cons.2 ⟨hitem.mono hdrop, fun i hi => (hmore i hi).mono (hrest.trans hdrop)⟩

/-! ## Columns in a list -/

/-- In one row the column counts the characters in front. -/
theorem columnOf_append {before rest : List Char} (h : '\n' ∉ before) :
    columnOf (before ++ rest) rest = before.length + 1 := by
  have hrow : before.reverse.takeWhile (· ≠ '\n') = before.reverse := by
    rw [List.takeWhile_eq_self_iff]
    intro c hc
    simp only [decide_not, Bool.not_eq_eq_eq_not, Bool.not_true, decide_eq_false_iff_not]
    rintro rfl
    exact h (List.mem_reverse.1 hc)
  simp only [columnOf, List.length_append, Nat.add_sub_cancel, List.take_left', hrow, List.length_reverse]

/-- A literal, and what a list has in front of it and from it on. -/
structure LiteralAt (list : List Char) (text : String) (before rest : List Char) : Prop where
  list_eq : list = before ++ rest
  text : text.toList <+: rest

/-- A number that its width has no place for. -/
theorem literal_of_bytes {item : DataItem} {width : DataWidth} {offset column : Nat} {list : List Char} {text : String}
    (h : item.bytes width offset list = .error (.invalidLiteral text column)) :
    text = String.ofList item.text ∧ column = offset + columnOf list item.start := by
  have hquoted {body : List Char} :
      (unescape body).mapError EscapeFault.toFault ≠ .error (.invalidLiteral text column) := by
    cases unescape body with
    | error e => cases e <;> rintro ⟨⟩
    | ok bytes => rintro ⟨⟩
  unfold DataItem.bytes at h
  cases hform : item.form with
  | chars =>
    rw [hform] at h
    exact absurd h hquoted
  | string =>
    rw [hform] at h
    exact absurd (Except.map_eq_error.1 h) hquoted
  | hex | decimal =>
    rw [hform] at h
    dsimp only at h
    split at h
    · cases h
    · cases h
      exact ⟨rfl, rfl⟩

theorem exists_literal_of_bytes {item : DataItem} {width : DataWidth} {offset column : Nat} {list : List Char}
    {text : String} (hitem : item.Within list) (hline : '\n' ∉ list)
    (h : item.bytes width offset list = .error (.invalidLiteral text column)) :
    ∃ before rest, LiteralAt list text before rest ∧ column = offset + (before.length + 1) := by
  obtain ⟨rfl, rfl⟩ := literal_of_bytes h
  obtain ⟨before, hbefore⟩ := hitem.start
  have hrow : '\n' ∉ before := fun hc => hline (hbefore ▸ List.mem_append_left _ hc)
  have hcolumn : columnOf (before ++ item.start) item.start = before.length + 1 := columnOf_append hrow
  refine ⟨before, item.start, ⟨hbefore.symm, by rw [String.toList_ofList]; exact hitem.text⟩, ?_⟩
  rw [← hcolumn, hbefore]

/-- **A list is refused for a literal that stands in it.** -/
theorem exists_literal_of_dataBytes {width : DataWidth} {offset column : Nat} {list : List Char} {text : String}
    (hline : '\n' ∉ list) (h : dataBytes width offset list = .error (.invalidLiteral text column)) :
    ∃ before rest, LiteralAt list text before rest ∧ column = offset + (before.length + 1) := by
  obtain ⟨hfail, hitems⟩ := scanItems_within list
  unfold dataBytes at h
  cases hscan : scanItems list with
  | error rest =>
    rw [hscan] at h
    dsimp only at h
    split at h
    · cases h
    · obtain ⟨rfl, rfl⟩ := Fault.invalidLiteral.inj (Except.error.inj h)
      obtain ⟨before, rfl⟩ := hfail rest hscan
      have hrow : '\n' ∉ before := fun hc => hline (List.mem_append_left _ hc)
      refine ⟨before, rest, ⟨rfl, by rw [String.toList_ofList]; exact List.takeWhile_prefix _⟩, ?_⟩
      rw [columnOf_append hrow]
  | ok items =>
    rw [hscan] at h
    obtain ⟨item, hmem, hitem⟩ := Except.exists_mem_of_mapM_eq_error (Except.map_eq_error.1 h)
    exact exists_literal_of_bytes (hitems items hscan item hmem) hline hitem

/-! ## Lines -/

/-- There is no line feed in a line. -/
theorem newline_notMem_of_mem_lines {cs line : List Char} (h : line ∈ lines cs) : '\n' ∉ line := by
  have hrow (cs : List Char) : '\n' ∉ cs.takeWhile (· != '\n') := fun hc => by simpa using List.mem_takeWhile_imp hc
  fun_induction lines cs with
  | case1 => cases h
  | case2 c r =>
    rw [List.mem_singleton.1 h]
    exact hrow _
  | case3 c r first x rest _ ih =>
    rcases List.mem_cons.1 h with rfl | h
    · split
      · exact fun hc => hrow _ (List.mem_of_mem_dropLast hc)
      · exact hrow _
    · exact ih h

/-- A line in normal form has no line feed that the line itself does not have. -/
theorem newline_notMem_normalize {raw : String} (h : '\n' ∉ raw.toList) : '\n' ∉ (normalize raw).toList := by
  intro hmem
  obtain ⟨comment, hraw, -⟩ := exists_comment {} raw.toList
  obtain ⟨front, back, htrim, -, -⟩ := exists_trim ((seenFrom {} raw.toList).map Seen.normal)
  rw [normalize_eq, String.toList_ofList] at hmem
  have hseen : '\n' ∈ (seenFrom {} raw.toList).map Seen.normal := by
    rw [htrim]
    exact List.mem_append_left _ (List.mem_append_right _ hmem)
  obtain ⟨x, hx, hnormal⟩ := List.mem_map.1 hseen
  have hchar : x.char = '\n' := by
    unfold Seen.normal at hnormal
    split at hnormal
    · exact (toUpper_eq_iff (by decide)).1 hnormal
    · exact hnormal
  refine h (hraw ▸ List.mem_append_left _ ?_)
  exact List.mem_map.2 ⟨x, hx, hchar⟩

/-! ## The theorem -/

/-- **Literals stand in their columns, but for wide blanks.** A line that is refused for a literal is a data directive,
the literal stands in its list, and the column counts the characters in front of the literal, from 1 on, and the bytes
that the blanks in front of the list take beyond one each. So the literal stands where it is said to if these blanks take
one byte each. -/
theorem literal_column {source : String} {raw : List Char} {text : String} {column : Nat}
    (hraw : raw ∈ lines source.toList)
    (h : Statement.parse (normalize (String.ofList raw)) = .error (.invalidLiteral text column)) :
    ∃ l : DataLine, (normalize (String.ofList raw)).toList = l.line ∧
      (∃ before rest, LiteralAt l.list text before rest ∧
        column = l.front.length + before.length + 1 + l.surplus) ∧
      text.toList <+: (normalize (String.ofList raw)).toList.drop (column - 1 - l.surplus) ∧
      ((∀ c ∈ l.blanks, c.utf8Size = 1) →
        text.toList <+: (normalize (String.ofList raw)).toList.drop (column - 1)) := by
  have hrow : '\n' ∉ (normalize (String.ofList raw)).toList := by
    refine newline_notMem_normalize ?_
    rw [String.toList_ofList]
    exact newline_notMem_of_mem_lines hraw
  rcases Statement.fault_of_parse h with hplain | ⟨l, hline, hbytes⟩
  · cases hplain
  rw [hline] at hrow ⊢
  have hlist : '\n' ∉ l.list := fun hc => hrow (List.mem_append_right _ hc)
  obtain ⟨before, rest, hat, hcolumn⟩ := exists_literal_of_dataBytes hlist hbytes
  rw [l.utf8Length_front] at hcolumn
  have hdrop : text.toList <+: l.line.drop (column - 1 - l.surplus) := by
    have hcount : column - 1 - l.surplus = (l.front ++ before).length := by
      rw [hcolumn, List.length_append]
      omega
    rw [DataLine.line, hat.list_eq, ← List.append_assoc, hcount, List.drop_left]
    exact hat.text
  refine ⟨l, rfl, ⟨before, rest, hat, by rw [hcolumn]; omega⟩, hdrop, fun hone => ?_⟩
  have hnone : l.surplus = 0 := extraBytes_eq_zero_iff.2 hone
  rwa [hnone, Nat.sub_zero] at hdrop

/-- A line of one-byte characters, with a tab behind the command. -/
theorem literal_column_tab :
    "#DB\tN 1,256".toList ∈ lines "NOP\n#DB\tN 1,256".toList ∧
    Statement.parse (normalize "#DB\tN 1,256") = .error (.invalidLiteral "256" 9) ∧
    "256".toList <+: (normalize "#DB\tN 1,256").toList.drop 8 := by
  have hmem : "#DB\tN 1,256".toList ∈ lines "NOP\n#DB\tN 1,256".toList := by
    rw [show lines "NOP\n#DB\tN 1,256".toList = ["NOP".toList, "#DB\tN 1,256".toList] by cbv]
    exact List.mem_cons_of_mem _ (List.mem_singleton_self _)
  have hparse : Statement.parse (normalize "#DB\tN 1,256") = .error (.invalidLiteral "256" 9) := by cbv
  have hnormal : normalize "#DB\tN 1,256" = "#DB\tN 1,256" := by cbv
  obtain ⟨l, hline, -, -, hdrop⟩ := literal_column hmem (by rw [String.ofList_toList]; exact hparse)
  rw [String.ofList_toList] at hline hdrop
  refine ⟨hmem, hparse, hdrop fun c hc => ?_⟩
  have hall : "#DB\tN 1,256".toList.all (fun c => c.utf8Size = 1) = true := by cbv
  have hmem : c ∈ "#DB\tN 1,256".toList := by
    rw [← hnormal, hline]
    exact l.mem_line_of_mem_blanks hc
  simpa using List.all_eq_true.1 hall c hmem

/-- A wide blank in front of the list moves the column. -/
theorem not_forall_literal_column :
    ¬ ∀ (source : String) (raw : List Char) (text : String) (column : Nat), raw ∈ lines source.toList →
      Statement.parse (normalize (String.ofList raw)) = .error (.invalidLiteral text column) →
      text.toList <+: (normalize (String.ofList raw)).toList.drop (column - 1) := by
  intro h
  have hmem : "#DB\u3000N 256".toList ∈ lines "#DB\u3000N 256".toList := by
    rw [show lines "#DB\u3000N 256".toList = ["#DB\u3000N 256".toList] by cbv]
    exact List.mem_singleton_self _
  have hparse : Statement.parse (normalize "#DB\u3000N 256") = .error (.invalidLiteral "256" 9) := by cbv
  have hnormal : normalize "#DB\u3000N 256" = "#DB\u3000N 256" := by cbv
  have hstarts := h _ _ "256" 9 hmem (by rw [String.ofList_toList]; exact hparse)
  rw [String.ofList_toList, hnormal] at hstarts
  exact absurd hstarts (by decide)

end Octet
