import Octet.Proofs.Assembler.Quoting
/-!
The grammar of item lists, and that lists are accepted exactly by it.

* `Written`: what is written between quotes for a text; `Numeral`: what digits are written for a number;
* `ItemText`, `ListText`: what is written for the bytes of an item, and of a list of items;
* `scanItem_sound`, `scanItem_complete`: an item that is scanned, and has bytes, is written for them, and the other way
  round where a separator or the end follows;
* `dataBytes_iff_listText`: a list has bytes iff it is written for them.
-/

namespace Octet

open Text (digit? digitsValue isHexDigit isDecimalDigit)

/-! ## Texts in quotes -/

/-- The letters that can follow a backslash, each with the character that it stands for there. -/
def escapes : List (Char × Char) :=
  [('0', '\x00'), ('a', '\x07'), ('b', '\x08'), ('t', '\t'), ('n', '\n'), ('v', '\x0b'), ('f', '\x0c'), ('r', '\r'),
    ('e', '\x1b'), ('\\', '\\'), ('\'', '\''), ('"', '"')]

/-- What is written between two quotes `q` for a text. -/
inductive Written (q : Char) : List Char → List Char → Prop
  | nil : Written q [] []
  | plain {c : Char} {body text : List Char} : c ≠ q → c ≠ '\\' → Written q body text →
      Written q (c :: body) (c :: text)
  | escape {letter c : Char} {body text : List Char} : (letter, c) ∈ escapes → Written q body text →
      Written q ('\\' :: letter :: body) (c :: text)

/-! ## Numbers -/

/-- What is written for a number in a base: its digits, the most significant one first, behind any number of zeros. -/
def Numeral (base : Nat) (text : List Char) (n : Nat) : Prop :=
  ∃ digits, List.Forall₂ (fun c d => digit? base c = some d) text digits ∧ n = Nat.ofDigits base digits.reverse

/-- What is written for a decimal number. -/
inductive Decimal : List Char → Int → Prop
  | plain {digits : List Char} {n : Nat} : digits ≠ [] → Numeral 10 digits n → Decimal digits n
  | minus {digits : List Char} {n : Nat} : digits ≠ [] → Numeral 10 digits n → Decimal ('-' :: digits) (-n)

namespace DataWidth

/-- The decimal numbers that have a place in an item. -/
def Holds : DataWidth → Int → Prop
  | byte, v => -128 ≤ v ∧ v ≤ 255
  | word, v => -32768 ≤ v ∧ v ≤ 65535

/-- The bytes of a number: the number modulo 256, or modulo 65536 with the high byte first. -/
def Encodes : DataWidth → Int → List UInt8 → Prop
  | byte, v, bytes => ∃ b : UInt8, bytes = [b] ∧ (b.toNat : Int) = v % 256
  | word, v, bytes => ∃ hi lo : UInt8, bytes = [hi, lo] ∧ (hi.toNat * 256 + lo.toNat : Int) = v % 65536

end DataWidth

/-! ## Items and lists -/

/-- What is written for the bytes of an item. -/
inductive ItemText (width : DataWidth) : List Char → List UInt8 → Prop
  | quoted (q : Quote) {body text : List Char} : Written q.char body text →
      ItemText width (q.char :: (body ++ [q.char])) (text.flatMap String.utf8EncodeChar ++ q.ending)
  | hex {mark : Char} {digits : List Char} {n : Nat} {bytes : List UInt8} : mark = 'x' ∨ mark = 'X' → digits ≠ [] →
      digits.length ≤ width.maxDigits → Numeral 16 digits n → width.Encodes n bytes →
      ItemText width ('0' :: mark :: digits) bytes
  | decimal {text : List Char} {v : Int} {bytes : List UInt8} : Decimal text v → width.Holds v →
      width.Encodes v bytes → ItemText width text bytes

/-- Nothing but spaces, commas and tabs. -/
def Separators (cs : List Char) : Prop := ∀ c ∈ cs, c = ' ' ∨ c = ',' ∨ c = '\t'

/-- What is written behind an item for the bytes of the items that follow. -/
inductive MoreText (width : DataWidth) : List Char → List UInt8 → Prop
  | nil {separators : List Char} : Separators separators → MoreText width separators []
  | cons {separators item rest : List Char} {bytes more : List UInt8} : separators ≠ [] → Separators separators →
      ItemText width item bytes → MoreText width rest more →
      MoreText width (separators ++ (item ++ rest)) (bytes ++ more)

/-- What is written for the bytes of a list. -/
inductive ListText (width : DataWidth) : List Char → List UInt8 → Prop
  | intro {separators item rest : List Char} {bytes more : List UInt8} : Separators separators →
      ItemText width item bytes → MoreText width rest more →
      ListText width (separators ++ (item ++ rest)) (bytes ++ more)

/-! ## Reading texts in quotes -/

/-- A letter stands for the one byte of its character. -/
theorem exists_escapedByte? {letter c : Char} (h : (letter, c) ∈ escapes) :
    ∃ b, escapedByte? letter = some b ∧ String.utf8EncodeChar c = [b] := by
  have hall : ∀ p ∈ escapes, (escapedByte? p.1).map (fun b => [b]) = some (String.utf8EncodeChar p.2) := by decide
  obtain ⟨b, hb, hc⟩ := Option.map_eq_some_iff.1 (hall _ h)
  exact ⟨b, hb, hc.symm⟩

/-- No other letter stands for a byte. -/
theorem exists_mem_escapes {letter : Char} {b : UInt8} (h : escapedByte? letter = some b) :
    ∃ c, (letter, c) ∈ escapes ∧ String.utf8EncodeChar c = [b] := by
  have hmem : letter ∈ escapes.map (·.1) := by
    by_contra hn
    simp only [escapes, List.map_cons, List.map_nil, List.mem_cons, List.not_mem_nil, or_false, not_or] at hn
    simp [escapedByte?, hn] at h
  obtain ⟨⟨_, c⟩, hc, rfl⟩ := List.mem_map.1 hmem
  obtain ⟨b', hb', hbyte⟩ := exists_escapedByte? hc
  obtain rfl := Option.some.inj (h.symm.trans hb')
  exact ⟨c, hc, hbyte⟩

/-- What can stand between two quotes: a backslash has a character behind it. -/
inductive Closed (q : Char) : List Char → Prop
  | nil : Closed q []
  | plain {c : Char} {body : List Char} : c ≠ q → c ≠ '\\' → Closed q body → Closed q (c :: body)
  | escape {c : Char} {body : List Char} : Closed q body → Closed q ('\\' :: c :: body)

theorem closed_of_quotedBody {q : Char} {cs body rest : List Char} (h : quotedBody q cs = some (body, rest)) :
    cs = body ++ q :: rest ∧ Closed q body := by
  fun_induction quotedBody q cs generalizing body with
  | case1 => cases h
  | case2 cs =>
    obtain ⟨rfl, rfl⟩ := Prod.mk.inj (Option.some.inj h)
    exact ⟨rfl, .nil⟩
  | case3 => cases h
  | case4 hq e cs ih =>
    obtain ⟨⟨b, r⟩, hb, he⟩ := Option.map_eq_some_iff.1 h
    obtain ⟨rfl, rfl⟩ := Prod.mk.inj he
    obtain ⟨rfl, hclosed⟩ := ih hb
    exact ⟨rfl, hclosed.escape⟩
  | case5 c cs hq hslash ih =>
    obtain ⟨⟨b, r⟩, hb, he⟩ := Option.map_eq_some_iff.1 h
    obtain ⟨rfl, rfl⟩ := Prod.mk.inj he
    obtain ⟨rfl, hclosed⟩ := ih hb
    exact ⟨rfl, hclosed.plain hq hslash⟩

theorem unescape_escape_eq (e : Char) (cs : List Char) :
    unescape ('\\' :: e :: cs) = match escapedByte? e with
      | none => .error (.invalid e)
      | some b => (b :: ·) <$> unescape cs := by
  rw [unescape.eq_def]
  exact if_pos rfl

namespace Closed

variable {q : Char} {body : List Char}

/-- **No escape is cut off** where a text ends at its closing quote. -/
theorem unescape_ne_atEnd (h : Closed q body) : unescape body ≠ .error .atEnd := by
  induction h with
  | nil => exact fun h => by cases h
  | @plain c body _ hslash _ ih =>
    rw [unescape_cons hslash]
    cases hb : unescape body with
    | ok bytes => exact fun h => by cases h
    | error fault => exact fun h => ih (hb.trans h)
  | @escape e body _ ih =>
    rw [unescape_escape_eq]
    cases escapedByte? e with
    | none => exact fun h => by cases h
    | some b =>
      cases hb : unescape body with
      | ok bytes => exact fun h => by cases h
      | error fault => exact fun h => ih (hb.trans h)

theorem exists_written (h : Closed q body) {bytes : List UInt8} (hb : unescape body = .ok bytes) :
    ∃ text, Written q body text ∧ bytes = text.flatMap String.utf8EncodeChar := by
  induction h generalizing bytes with
  | nil =>
    cases hb
    exact ⟨[], .nil, rfl⟩
  | @plain c body hq hslash _ ih =>
    rw [unescape_cons hslash] at hb
    obtain ⟨more, hmore, rfl⟩ := Except.map_eq_ok.1 hb
    obtain ⟨text, hw, rfl⟩ := ih hmore
    exact ⟨c :: text, hw.plain hq hslash, rfl⟩
  | @escape e body _ ih =>
    rw [unescape_escape_eq] at hb
    cases he : escapedByte? e with
    | none => rw [he] at hb; cases hb
    | some b =>
      rw [he] at hb
      obtain ⟨more, hmore, rfl⟩ := Except.map_eq_ok.1 hb
      obtain ⟨text, hw, rfl⟩ := ih hmore
      obtain ⟨c, hc, hbyte⟩ := exists_mem_escapes he
      exact ⟨c :: text, hw.escape hc, by rw [List.flatMap_cons, hbyte]; rfl⟩

end Closed

namespace Written

variable {q : Char} {body text : List Char}

theorem quotedBody_eq (h : Written q body text) (hq : q ≠ '\\') (rest : List Char) :
    quotedBody q (body ++ q :: rest) = some (body, rest) := by
  induction h with
  | nil => exact quotedBody_quote q rest
  | plain hc hslash _ ih => rw [List.cons_append, quotedBody_cons hc hslash, ih]; rfl
  | escape _ _ ih => rw [List.cons_append, List.cons_append, quotedBody_escape hq, ih]; rfl

theorem unescape_eq (h : Written q body text) : unescape body = .ok (text.flatMap String.utf8EncodeChar) := by
  induction h with
  | nil => rfl
  | plain _ hslash _ ih => rw [unescape_cons hslash, ih]; rfl
  | escape hmem _ ih =>
    obtain ⟨b, hb, hbyte⟩ := exists_escapedByte? hmem
    rw [unescape_escape hb, ih, List.flatMap_cons, hbyte]
    rfl

end Written

/-! ## Reading numbers -/

/-- The value of a run of digits, behind what has been read already. -/
theorem foldl_digits {base : Nat} {text : List Char} {digits : List Nat}
    (h : List.Forall₂ (fun c d => digit? base c = some d) text digits) (start : Nat) :
    text.foldl (fun n c => n * base + (digit? base c).getD 0) start =
      start * base ^ digits.length + Nat.ofDigits base digits.reverse := by
  induction h generalizing start with
  | nil => simp
  | @cons c d text digits hc _ ih =>
    rw [List.foldl_cons, ih, hc, List.reverse_cons, Nat.ofDigits_append, Nat.ofDigits_singleton, List.length_reverse,
      List.length_cons, Option.getD_some, Nat.pow_succ]
    ring

/-- **A run of digits is read as the number that it is written for.** -/
theorem numeral_iff {base n : Nat} {text : List Char} :
    Numeral base text n ↔ (∀ c ∈ text, (digit? base c).isSome = true) ∧ n = digitsValue base text := by
  constructor
  · rintro ⟨digits, h, rfl⟩
    refine ⟨?_, by simpa [digitsValue] using (foldl_digits h 0).symm⟩
    induction h with
    | nil => exact List.forall_mem_nil _
    | cons hc _ ih => exact List.forall_mem_cons.2 ⟨by rw [hc]; rfl, ih⟩
  · rintro ⟨h, rfl⟩
    have hall : List.Forall₂ (fun c d => digit? base c = some d) text (text.map fun c => (digit? base c).getD 0) := by
      rw [List.forall₂_map_right_iff, List.forall₂_same]
      exact fun c hc => (Option.some_get (h c hc)).symm.trans (congrArg some (Option.get_eq_getD _))
    exact ⟨_, hall, by simpa [digitsValue] using foldl_digits hall 0⟩

theorem minus_notMem_of_digits {digits : List Char} (h : ∀ c ∈ digits, isDecimalDigit c = true) : '-' ∉ digits :=
  fun hmem => absurd (h _ hmem) (by decide)

/-- A decimal number is read with its sign. -/
theorem decimal_iff {text : List Char} {v : Int} : Decimal text v ↔ ∃ sign digits, text = sign ++ digits ∧
    (sign = [] ∨ sign = ['-']) ∧ digits ≠ [] ∧ (∀ c ∈ digits, isDecimalDigit c = true) ∧ v = decimalValue text := by
  have hplain {digits : List Char} (h : ∀ c ∈ digits, isDecimalDigit c = true) :
      decimalValue digits = (digitsValue 10 digits : Int) := by
    unfold decimalValue
    split
    · exact absurd (List.mem_cons_self ..) (minus_notMem_of_digits h)
    · rfl
  constructor
  · intro h
    cases h with
    | plain hne hn =>
      obtain ⟨hdigits, rfl⟩ := numeral_iff.1 hn
      exact ⟨[], _, rfl, .inl rfl, hne, hdigits, (hplain hdigits).symm⟩
    | minus hne hn =>
      obtain ⟨hdigits, rfl⟩ := numeral_iff.1 hn
      exact ⟨['-'], _, rfl, .inr rfl, hne, hdigits, rfl⟩
  · rintro ⟨sign, digits, rfl, rfl | rfl, hne, hdigits, rfl⟩
    · rw [List.nil_append, hplain hdigits]
      exact .plain hne (numeral_iff.2 ⟨hdigits, rfl⟩)
    · exact .minus hne (numeral_iff.2 ⟨hdigits, rfl⟩)

namespace DataWidth

variable (width : DataWidth)

theorem holds_iff {v : Int} : width.Holds v ↔ -((width.modulus : Int) / 2) ≤ v ∧ v < width.modulus := by
  cases width with
  | byte => simp only [Holds, modulus]; omega
  | word => simp only [Holds, modulus]; omega

/-- A number leaves the same rest as its rest. -/
theorem emod_modulus (v : Int) : v % width.modulus = ((v % width.modulus).toNat : Int) % width.modulus := by
  cases width with
  | byte => simp only [modulus]; omega
  | word => simp only [modulus]; omega

/-- The bytes of a number are those of every number that leaves the same rest. -/
theorem encodes_iff {v : Int} {n : Nat} (h : v % width.modulus = n % width.modulus) {bytes : List UInt8} :
    width.Encodes v bytes ↔ bytes = width.bytesOf n := by
  cases width with
  | byte =>
    simp only [modulus] at h
    constructor
    · rintro ⟨b, rfl, hb⟩
      have hn : b = UInt8.ofNat n := by
        apply UInt8.toNat_inj.1
        rw [UInt8.toNat_ofNat']
        omega
      rw [hn]; rfl
    · rintro rfl
      refine ⟨_, rfl, ?_⟩
      rw [UInt8.toNat_ofNat']
      omega
  | word =>
    simp only [modulus] at h
    constructor
    · rintro ⟨hi, lo, rfl, hb⟩
      have hhi := hi.toNat_lt
      have hlo := lo.toNat_lt
      have hn : hi = UInt8.ofNat (n / 256) ∧ lo = UInt8.ofNat n := by
        rw [← UInt8.toNat_inj, ← UInt8.toNat_inj, UInt8.toNat_ofNat', UInt8.toNat_ofNat']
        omega
      rw [hn.1, hn.2]; rfl
    · rintro rfl
      refine ⟨_, _, rfl, ?_⟩
      rw [UInt8.toNat_ofNat', UInt8.toNat_ofNat']
      omega

end DataWidth

/-! ## Scanning numbers -/

theorem afterHexMark?_eq_some_iff {cs ds : List Char} :
    afterHexMark? cs = some ds ↔ ∃ mark, (mark = 'x' ∨ mark = 'X') ∧ cs = '0' :: mark :: ds := by
  constructor
  · intro h
    unfold afterHexMark? at h
    split at h
    · cases h; exact ⟨'x', .inl rfl, rfl⟩
    · cases h; exact ⟨'X', .inr rfl, rfl⟩
    · cases h
  · rintro ⟨mark, rfl | rfl, rfl⟩ <;> rfl

theorem take_length_takeWhile {α : Type} (p : α → Bool) (xs : List α) :
    xs.take (xs.takeWhile p).length = xs.takeWhile p := by
  conv_lhs => rw [← List.takeWhile_append_dropWhile (p := p) (l := xs), List.take_left' (by simp)]

/-- A minus sign in front of a text, or none. -/
theorem exists_sign (cs : List Char) : ∃ sign ds, (sign = [] ∨ sign = ['-']) ∧ cs = sign ++ ds ∧
    (if cs.head? = some '-' then 1 else 0) = sign.length := by
  by_cases hminus : cs.head? = some '-'
  · obtain ⟨ds, rfl⟩ := List.head?_eq_some_iff.1 hminus
    exact ⟨['-'], ds, .inr rfl, rfl, if_pos rfl⟩
  · exact ⟨[], cs, .inl rfl, rfl, if_neg hminus⟩

/-- **What is scanned as a number**: marked hexadecimal digits, or decimal digits with their sign. -/
theorem scanNumberItem_sound {cs rest : List Char} {item : DataItem} (h : scanNumberItem cs = .ok (item, rest)) :
    cs = item.text ++ rest ∧
      ((item.form = .hex ∧ ∃ mark digits, item.text = '0' :: mark :: digits ∧ (mark = 'x' ∨ mark = 'X') ∧ digits ≠ [] ∧
          ∀ c ∈ digits, isHexDigit c = true) ∨
        item.form = .decimal ∧ ∃ sign digits, item.text = sign ++ digits ∧ (sign = [] ∨ sign = ['-']) ∧ digits ≠ [] ∧
          ∀ c ∈ digits, isDecimalDigit c = true) := by
  unfold scanNumberItem at h
  dsimp only at h
  split at h
  · rename_i hcount
    obtain ⟨rfl, rfl⟩ := Prod.mk.inj (Except.ok.inj h)
    refine ⟨(List.take_append_drop ..).symm, .inl ⟨rfl, ?_⟩⟩
    cases hmark : afterHexMark? cs with
    | none => rw [hmark] at hcount; exact absurd rfl hcount
    | some ds =>
      obtain ⟨mark, hm, rfl⟩ := afterHexMark?_eq_some_iff.1 hmark
      rw [hmark, Option.getD_some] at hcount
      refine ⟨mark, ds.takeWhile isHexDigit, ?_, hm, List.ne_nil_of_length_pos (Nat.pos_of_ne_zero hcount),
        fun c hc => List.mem_takeWhile_imp hc⟩
      rw [Option.getD_some, Nat.add_comm, List.take_succ_cons, List.take_succ_cons, take_length_takeWhile]
  · obtain ⟨sign, ds, hs, rfl, hlength⟩ := exists_sign cs
    rw [hlength, List.drop_left] at h
    split at h
    · rename_i hcount
      obtain ⟨rfl, rfl⟩ := Prod.mk.inj (Except.ok.inj h)
      refine ⟨(List.take_append_drop ..).symm, .inr ⟨rfl, sign, ds.takeWhile isDecimalDigit, ?_, hs,
        List.ne_nil_of_length_pos (Nat.pos_of_ne_zero hcount), fun c hc => List.mem_takeWhile_imp hc⟩⟩
      rw [List.take_length_add_append, take_length_takeWhile]
    · cases h

/-- What follows an item: a separator, or nothing. -/
def EndsItem (rest : List Char) : Prop := ∀ c ∈ rest.head?, c = ' ' ∨ c = ',' ∨ c = '\t'

/-- A run of characters ends where the item does. -/
theorem takeWhile_append_of_endsItem {p : Char → Bool} {run rest : List Char} (hrun : ∀ c ∈ run, p c = true)
    (hrest : EndsItem rest) (hseparators : p ' ' = false ∧ p ',' = false ∧ p '\t' = false) :
    (run ++ rest).takeWhile p = run := by
  rw [List.takeWhile_append_of_pos hrun]
  cases rest with
  | nil => simp
  | cons c rest =>
    have hc : p c = false := by
      rcases hrest c rfl with rfl | rfl | rfl
      exacts [hseparators.1, hseparators.2.1, hseparators.2.2]
    rw [List.takeWhile_cons_of_neg (by simp [hc]), List.append_nil]

theorem scanNumberItem_hex {mark : Char} {digits rest : List Char} (hm : mark = 'x' ∨ mark = 'X') (hne : digits ≠ [])
    (hdigits : ∀ c ∈ digits, isHexDigit c = true) (hrest : EndsItem rest) :
    scanNumberItem ('0' :: mark :: (digits ++ rest)) =
      .ok (⟨.hex, '0' :: mark :: digits, '0' :: mark :: (digits ++ rest)⟩, rest) := by
  have hmark : afterHexMark? ('0' :: mark :: (digits ++ rest)) = some (digits ++ rest) :=
    afterHexMark?_eq_some_iff.2 ⟨mark, hm, rfl⟩
  have hrun : (digits ++ rest).takeWhile isHexDigit = digits :=
    takeWhile_append_of_endsItem hdigits hrest (by decide)
  unfold scanNumberItem
  dsimp only
  rw [hmark, Option.getD_some, hrun, if_pos (by simpa using hne), Nat.add_comm]
  simp

theorem scanNumberItem_decimal {sign digits rest : List Char} (hs : sign = [] ∨ sign = ['-']) (hne : digits ≠ [])
    (hdigits : ∀ c ∈ digits, isDecimalDigit c = true) (hrest : EndsItem rest) :
    scanNumberItem (sign ++ digits ++ rest) = .ok (⟨.decimal, sign ++ digits, sign ++ digits ++ rest⟩, rest) := by
  have hrun : (digits ++ rest).takeWhile isDecimalDigit = digits :=
    takeWhile_append_of_endsItem hdigits hrest (by decide)
  obtain ⟨d, ds, rfl⟩ := List.exists_cons_of_ne_nil hne
  have hd : isDecimalDigit d = true := hdigits d (List.mem_cons_self ..)
  -- neither a digit nor a separator marks hexadecimal digits
  have hmark : afterHexMark? (sign ++ (d :: ds) ++ rest) = none := by
    rw [Option.eq_none_iff_forall_ne_some]
    intro found h
    obtain ⟨mark, hm, hcs⟩ := afterHexMark?_eq_some_iff.1 h
    have hmark : isDecimalDigit mark = false ∧ mark ≠ ' ' ∧ mark ≠ ',' ∧ mark ≠ '\t' := by
      rcases hm with rfl | rfl <;> decide
    rcases hs with rfl | rfl
    · cases ds with
      | nil =>
        obtain rfl : rest = mark :: found := (List.cons.inj hcs).2
        have := hrest mark rfl
        tauto
      | cons e ds =>
        obtain rfl : e = mark := (List.cons.inj (List.cons.inj hcs).2).1
        rw [hdigits e (by simp)] at hmark
        exact absurd hmark.1 (by decide)
    · exact absurd (List.cons.inj hcs).1 (by decide)
  have hlength : (if (sign ++ (d :: ds) ++ rest).head? = some '-' then 1 else 0) = sign.length := by
    rcases hs with rfl | rfl
    · refine if_neg fun h => ?_
      rw [Option.some.inj h] at hd
      exact absurd hd (by decide)
    · exact if_pos rfl
  unfold scanNumberItem
  dsimp only
  rw [hmark, hlength, if_neg (by simp), List.append_assoc, List.drop_left, hrun, if_pos (by simp)]
  simp [List.take_length_add_append, List.drop_length_add_append]

/-! ## Scanning items -/

variable {width : DataWidth}

/-- The bytes of a numeric item are those of its value. -/
theorem bytes_of_number {item : DataItem} (h : item.form = .hex ∨ item.form = .decimal) {offset : Nat}
    {list : List Char}
    {bytes : List UInt8} : item.bytes width offset list = .ok bytes ↔
      ∃ v, item.value? width = some v ∧ width.bytesOf v = bytes := by
  unfold DataItem.bytes
  rcases h with h | h <;> rw [h] <;> cases item.value? width <;> simp

theorem value?_hex {item : DataItem} (h : item.form = .hex) {mark : Char} {digits : List Char}
    (ht : item.text = '0' :: mark :: digits) {v : Nat} :
    item.value? width = some v ↔ digits.length ≤ width.maxDigits ∧ digitsValue 16 digits = v := by
  simp [DataItem.value?, h, ht]

theorem value?_decimal {item : DataItem} (h : item.form = .decimal) {v : Nat} :
    item.value? width = some v ↔
      width.Holds (decimalValue item.text) ∧ (decimalValue item.text % width.modulus).toNat = v := by
  simp [DataItem.value?, h, DataWidth.holds_iff, and_assoc]

/-- What is scanned as a number and has bytes is written for them. -/
theorem itemText_of_scanNumberItem {cs rest : List Char} {item : DataItem} {offset : Nat} {list : List Char}
    {bytes : List UInt8} (h : scanNumberItem cs = .ok (item, rest)) (hb : item.bytes width offset list = .ok bytes) :
    ∃ text, cs = text ++ rest ∧ ItemText width text bytes := by
  obtain ⟨hcs, ⟨hform, mark, digits, htext, hm, hne, hdigits⟩ | ⟨hform, sign, digits, htext, hs, hne, hdigits⟩⟩ :=
    scanNumberItem_sound h
  · obtain ⟨v, hv, rfl⟩ := (bytes_of_number (.inl hform)).1 hb
    obtain ⟨hlength, rfl⟩ := (value?_hex hform htext).1 hv
    refine ⟨_, hcs, htext ▸ .hex hm hne hlength (numeral_iff.2 ⟨hdigits, rfl⟩) ?_⟩
    exact (width.encodes_iff rfl).2 rfl
  · obtain ⟨v, hv, rfl⟩ := (bytes_of_number (.inr hform)).1 hb
    obtain ⟨hholds, rfl⟩ := (value?_decimal hform).1 hv
    refine ⟨_, hcs, .decimal (decimal_iff.2 ⟨sign, digits, htext, hs, hne, hdigits, rfl⟩) hholds ?_⟩
    exact (width.encodes_iff (width.emod_modulus _)).2 rfl

theorem scanItem_quote (q : Quote) (inner : List Char) :
    scanItem (q.char :: inner) = match quotedBody q.char inner with
      | some (body, rest) => .ok (⟨q.form, body, inner⟩, rest)
      | none => scanNumberItem (q.char :: inner) := by
  unfold scanItem
  cases q with
  | single | double =>
    simp only [Quote.char]
    cases quotedBody _ inner <;> rfl

/-- What does not start with a quote is a number. -/
theorem scanItem_of_ne_quote {cs : List Char} (h : ∀ q : Quote, cs.head? ≠ some q.char) :
    scanItem cs = scanNumberItem cs := by
  cases cs with
  | nil => rfl
  | cons c inner =>
    have hsingle : c ≠ '\'' := fun hc => h .single (congrArg some hc)
    have hdouble : c ≠ '"' := fun hc => h .double (congrArg some hc)
    unfold scanItem
    simp only [if_neg hsingle, if_neg hdouble]

theorem bytes_of_quote {item : DataItem} {q : Quote} (h : item.form = q.form) {offset : Nat} {list : List Char}
    {bytes : List UInt8} : item.bytes width offset list = .ok bytes ↔
      ∃ text, unescape item.text = .ok text ∧ text ++ q.ending = bytes := by
  unfold DataItem.bytes
  rw [h]
  cases hu : unescape item.text <;> cases q <;> simp [Quote.form, Quote.ending, Except.mapError]

/-- **An item that is scanned and has bytes is written for them.** -/
theorem scanItem_sound {cs rest : List Char} {item : DataItem} {offset : Nat} {list : List Char} {bytes : List UInt8}
    (h : scanItem cs = .ok (item, rest)) (hb : item.bytes width offset list = .ok bytes) :
    ∃ text, cs = text ++ rest ∧ ItemText width text bytes := by
  by_cases hq : ∀ q : Quote, cs.head? ≠ some q.char
  · rw [scanItem_of_ne_quote hq] at h
    exact itemText_of_scanNumberItem h hb
  · obtain ⟨q, hq⟩ := not_forall_not.1 hq
    obtain ⟨inner, rfl⟩ := List.head?_eq_some_iff.1 hq
    rw [scanItem_quote] at h
    split at h
    · rename_i body rest' hbody
      obtain ⟨rfl, rfl⟩ := Prod.mk.inj (Except.ok.inj h)
      obtain ⟨rfl, hclosed⟩ := closed_of_quotedBody hbody
      obtain ⟨text, htext, rfl⟩ := (bytes_of_quote rfl).1 hb
      obtain ⟨written, hw, rfl⟩ := hclosed.exists_written htext
      exact ⟨_, by simp, .quoted q hw⟩
    · exact itemText_of_scanNumberItem h hb

/-- **What is written for bytes is scanned as an item that has them**, where a separator or the end follows. -/
theorem scanItem_complete {text rest : List Char} {bytes : List UInt8} (h : ItemText width text bytes)
    (hrest : EndsItem rest) : ∃ item, scanItem (text ++ rest) = .ok (item, rest) ∧
      ∀ offset list, item.bytes width offset list = .ok bytes := by
  cases h with
  | @quoted q body text hw =>
    refine ⟨⟨q.form, body, body ++ q.char :: rest⟩, ?_, fun offset list => ?_⟩
    · rw [List.cons_append, List.append_assoc, List.singleton_append, scanItem_quote,
        hw.quotedBody_eq q.char_ne_backslash]
    · exact (bytes_of_quote rfl).2 ⟨_, hw.unescape_eq, rfl⟩
  | @hex mark digits n bytes hm hne hlength hn hb =>
    obtain ⟨hdigits, rfl⟩ := numeral_iff.1 hn
    refine ⟨⟨.hex, '0' :: mark :: digits, '0' :: mark :: (digits ++ rest)⟩, ?_, fun offset list => ?_⟩
    · rw [List.cons_append, List.cons_append, scanItem_of_ne_quote (fun q => by cases q <;> simp [Quote.char])]
      exact scanNumberItem_hex hm hne hdigits hrest
    · have hvalue := (width.encodes_iff rfl).1 hb
      exact (bytes_of_number (.inl rfl)).2 ⟨_, (value?_hex rfl rfl).2 ⟨hlength, rfl⟩, hvalue.symm⟩
  | @decimal _ v bytes hv hholds hb =>
    obtain ⟨sign, digits, rfl, hs, hne, hdigits, rfl⟩ := decimal_iff.1 hv
    refine ⟨⟨.decimal, sign ++ digits, sign ++ digits ++ rest⟩, ?_, fun offset list => ?_⟩
    · rw [scanItem_of_ne_quote fun q hq => ?_]
      · exact scanNumberItem_decimal hs hne hdigits hrest
      · obtain ⟨d, ds, rfl⟩ := List.exists_cons_of_ne_nil hne
        have hd : isDecimalDigit d = true := hdigits d (List.mem_cons_self ..)
        rcases hs with rfl | rfl
        · rw [Option.some.inj hq] at hd
          cases q <;> exact absurd hd (by decide)
        · cases q <;> exact absurd (Option.some.inj hq) (by decide)
    · exact (bytes_of_number (.inr rfl)).2 ⟨_, (value?_decimal rfl).2 ⟨hholds, rfl⟩,
        ((width.encodes_iff (width.emod_modulus _)).1 hb).symm⟩

/-! ## Scanning lists -/

theorem separators_iff {cs : List Char} : Separators cs ↔ cs.dropWhile isSeparator = [] := by
  simp only [Separators, List.dropWhile_eq_nil_iff, isSeparator_iff]

/-- An item starts with no separator. -/
theorem ItemText.exists_head {item : List Char} {bytes : List UInt8} (h : ItemText width item bytes) :
    ∃ c rest, item = c :: rest ∧ isSeparator c = false := by
  cases h with
  | quoted q hw => exact ⟨q.char, _, rfl, by cases q <;> decide⟩
  | hex => exact ⟨'0', _, rfl, by decide⟩
  | decimal hv =>
    obtain ⟨sign, digits, rfl, hs, hne, hdigits, rfl⟩ := decimal_iff.1 hv
    obtain ⟨d, ds, rfl⟩ := List.exists_cons_of_ne_nil hne
    rcases hs with rfl | rfl
    · refine ⟨d, ds, rfl, Bool.eq_false_iff.2 fun hd => ?_⟩
      have hdigit : isDecimalDigit d = true := hdigits d (List.mem_cons_self ..)
      rcases isSeparator_iff.1 hd with rfl | rfl | rfl <;> exact absurd hdigit (by decide)
    · exact ⟨'-', d :: ds, rfl, by decide⟩

theorem dropWhile_itemText {separators item : List Char} {bytes : List UInt8} (hs : Separators separators)
    (h : ItemText width item bytes) (rest : List Char) :
    (separators ++ (item ++ rest)).dropWhile isSeparator = item ++ rest := by
  obtain ⟨c, cs, rfl, hc⟩ := h.exists_head
  rw [List.dropWhile_append_of_pos fun d hd => isSeparator_iff.2 (hs d hd), List.cons_append,
    List.dropWhile_cons_of_neg (by simp [hc])]

/-- The items of a list have some bytes, each its own. -/
abbrev HaveBytes (width : DataWidth) (offset : Nat) (list : List Char) (items : List DataItem)
    (bytes : List (List UInt8)) : Prop :=
  List.Forall₂ (fun item bytes => item.bytes width offset list = .ok bytes) items bytes

theorem scanMoreItems_sound {cs leftover list : List Char} {items : List DataItem} {offset : Nat}
    {bytes : List (List UInt8)} (h : scanMoreItems cs = (items, leftover)) (hleft : Separators leftover)
    (hb : HaveBytes width offset list items bytes) : MoreText width cs bytes.flatten := by
  fun_induction scanMoreItems cs generalizing items bytes with
  | case1 cs hlength =>
    obtain ⟨rfl, rfl⟩ := Prod.mk.inj h
    cases hb
    exact .nil hleft
  | case2 cs hlength cause hscan =>
    obtain ⟨rfl, rfl⟩ := Prod.mk.inj h
    cases hb
    exact .nil hleft
  | case3 cs hlength item rest hscan items' leftover' hmore ih =>
    obtain ⟨rfl, rfl⟩ := Prod.mk.inj h
    cases hb with
    | cons hitem hitems =>
      obtain ⟨text, hcs, htext⟩ := scanItem_sound hscan hitem
      have hsplit := List.takeWhile_append_dropWhile (p := isSeparator) (l := cs)
      have hne : cs.takeWhile isSeparator ≠ [] := fun hnil => by
        rw [hnil, List.nil_append] at hsplit
        exact hlength (congrArg List.length hsplit)
      rw [← hsplit, hcs]
      exact .cons hne (fun c hc => isSeparator_iff.1 (List.mem_takeWhile_imp hc)) htext (ih hmore hitems)

theorem scanMoreItems_separators {cs : List Char} (h : Separators cs) : scanMoreItems cs = ([], cs) := by
  rw [scanMoreItems, separators_iff.1 h]
  split
  · rfl
  · rfl

theorem scanMoreItems_of_scanItem {separators cs rest : List Char} {item : DataItem} (hne : separators ≠ [])
    (hdrop : (separators ++ cs).dropWhile isSeparator = cs) (h : scanItem cs = .ok (item, rest)) :
    scanMoreItems (separators ++ cs) = (item :: (scanMoreItems rest).1, (scanMoreItems rest).2) := by
  have hlonger : cs.length ≠ (separators ++ cs).length := by
    have := List.length_pos_iff.2 hne
    rw [List.length_append]
    omega
  rw [scanMoreItems, hdrop, if_neg hlonger]
  split
  · rename_i herror
    rw [h] at herror
    cases herror
  · rename_i hok
    rw [h] at hok
    cases hok
    rfl

/-- **What is written for bytes is scanned** to the separators at its end. -/
theorem scanMoreItems_complete {cs : List Char} {bytes : List UInt8} (h : MoreText width cs bytes) :
    EndsItem cs ∧ Separators (scanMoreItems cs).2 ∧ ∃ all, all.flatten = bytes ∧
      ∀ offset list, HaveBytes width offset list (scanMoreItems cs).1 all := by
  induction h with
  | nil hs =>
    rw [scanMoreItems_separators hs]
    exact ⟨fun c hc => hs c (List.mem_of_mem_head? hc), hs, [], rfl, fun _ _ => .nil⟩
  | @cons separators item rest bytes more hne hs hitem _ ih =>
    obtain ⟨hends, hleft, all, rfl, hall⟩ := ih
    obtain ⟨found, hscan, hfound⟩ := scanItem_complete hitem hends
    rw [scanMoreItems_of_scanItem hne (dropWhile_itemText hs hitem rest) hscan]
    refine ⟨?_, hleft, bytes :: all, rfl, fun offset list => .cons (hfound offset list) (hall offset list)⟩
    obtain ⟨c, cs, rfl⟩ := List.exists_cons_of_ne_nil hne
    intro d hd
    obtain rfl := Option.some.inj hd
    exact hs c (List.mem_cons_self ..)

theorem scanItems_eq_ok_iff {cs : List Char} {items : List DataItem} :
    scanItems cs = .ok items ↔ ∃ first rest, scanItem (cs.dropWhile isSeparator) = .ok (first, rest) ∧
      Separators (scanMoreItems rest).2 ∧ first :: (scanMoreItems rest).1 = items := by
  rw [scanItems, Except.bind_eq_ok]
  constructor
  · rintro ⟨⟨first, rest⟩, hscan, h⟩
    dsimp only at h
    split at h
    · rename_i hleft
      exact ⟨first, rest, hscan, separators_iff.2 hleft, Except.ok.inj h⟩
    · cases h
  · rintro ⟨first, rest, hscan, hleft, rfl⟩
    refine ⟨(first, rest), hscan, ?_⟩
    dsimp only
    rw [separators_iff.1 hleft]
    rfl

theorem dataBytes_eq_ok_iff {offset : Nat} {list : List Char} {bytes : List UInt8} :
    dataBytes width offset list = .ok bytes ↔
      ∃ items all, scanItems list = .ok items ∧ HaveBytes width offset list items all ∧ all.flatten = bytes := by
  unfold dataBytes
  cases scanItems list with
  | error rest =>
    constructor
    · intro h
      dsimp only at h
      split at h <;> cases h
    · rintro ⟨items, all, h, -⟩
      cases h
  | ok items =>
    dsimp only
    rw [Except.map_eq_ok]
    constructor
    · rintro ⟨all, hall, rfl⟩
      exact ⟨items, all, rfl, Except.mapM_eq_ok_iff.1 hall, rfl⟩
    · rintro ⟨items', all, hitems, hall, rfl⟩
      cases hitems
      exact ⟨all, Except.mapM_eq_ok_iff.2 hall, rfl⟩

theorem listText_of_dataBytes {offset : Nat} {list : List Char} {bytes : List UInt8}
    (h : dataBytes width offset list = .ok bytes) : ListText width list bytes := by
  obtain ⟨items, all, hitems, hall, rfl⟩ := dataBytes_eq_ok_iff.1 h
  obtain ⟨first, rest, hscan, hleft, rfl⟩ := scanItems_eq_ok_iff.1 hitems
  cases hall with
  | cons hfirst hmore =>
    obtain ⟨text, hcs, htext⟩ := scanItem_sound hscan hfirst
    rw [← List.takeWhile_append_dropWhile (p := isSeparator) (l := list), hcs]
    exact .intro (fun c hc => isSeparator_iff.1 (List.mem_takeWhile_imp hc)) htext (scanMoreItems_sound rfl hleft hmore)

theorem dataBytes_of_listText {offset : Nat} {list : List Char} {bytes : List UInt8}
    (h : ListText width list bytes) : dataBytes width offset list = .ok bytes := by
  obtain ⟨hs, hitem, hmore⟩ := h
  obtain ⟨hends, hleft, all, rfl, hall⟩ := scanMoreItems_complete hmore
  obtain ⟨first, hscan, hfirst⟩ := scanItem_complete hitem hends
  refine dataBytes_eq_ok_iff.2 ⟨_, _ :: all, scanItems_eq_ok_iff.2 ⟨first, _, ?_, hleft, rfl⟩,
    .cons (hfirst offset _) (hall offset _), rfl⟩
  rw [dropWhile_itemText hs hitem, hscan]

/-- **Lists are accepted exactly by their grammar**, and stand for the bytes that they are written for. -/
theorem dataBytes_iff_listText (width : DataWidth) (offset : Nat) (list : List Char) :
    (∀ bytes, dataBytes width offset list = .ok bytes ↔ ListText width list bytes) ∧
    ∀ q cs body rest, quotedBody q cs = some (body, rest) → unescape body ≠ .error .atEnd := by
  refine ⟨fun bytes => ⟨listText_of_dataBytes, dataBytes_of_listText⟩, fun q cs body rest h => ?_⟩
  exact (closed_of_quotedBody h).2.unescape_ne_atEnd

/-- A text, a hexadecimal and a decimal number are written for their bytes; with a digit too many nothing is. -/
theorem dataBytes_iff_listText_mixed :
    ListText .word " 'a\\n',0x7F\t-01 ".toList [0x61, 0x0A, 0x00, 0x7F, 0xFF, 0xFF] ∧
    (∀ bytes, ¬ ListText .byte "1 0X123".toList bytes) ∧
    quotedBody '"' "\\\\\" ".toList = some ("\\\\".toList, [' ']) ∧ unescape "\\\\".toList ≠ .error .atEnd := by
  have hok : dataBytes .word 0 " 'a\\n',0x7F\t-01 ".toList = .ok [0x61, 0x0A, 0x00, 0x7F, 0xFF, 0xFF] := by cbv
  have hbad : dataBytes .byte 0 "1 0X123".toList = .error (.invalidLiteral "0X123" 3) := by cbv
  have hbody : quotedBody '"' "\\\\\" ".toList = some ("\\\\".toList, [' ']) := by cbv
  refine ⟨((dataBytes_iff_listText .word 0 _).1 _).1 hok, fun bytes h => ?_, hbody,
    (dataBytes_iff_listText .byte 0 []).2 _ _ _ _ hbody⟩
  have hok' := ((dataBytes_iff_listText .byte 0 _).1 _).2 h
  rw [hbad] at hok'
  cases hok'

end Octet
