import Octet.Proofs.Assembler.DataGrammar
import Octet.Proofs.Assembler.Names
import Octet.Proofs.Assembler.Stages
/-!
The tokens that are literal operands, and that no symbol has such a token for its name.

* `LiteralText`: what is written for an operand;
* `parseOperand_eq_some_iff`, `parseOperand_text`: tokens are read exactly by it, and every operand from its own text;
* `Symbols.Built`: the tables that a source can leave behind, wherever its reading stops;
* `Symbols.Checked`: tables in which every name may be declared; `Built.checked` says that all of these are so;
* `literal_is_no_symbol`: in none of them a literal is looked up as a symbol.
-/

namespace Octet

open Text (digit? digitsValue isHexDigit byteHex wordHex)

/-! ## The grammar -/

/-- What is written for an operand: the letter of a register in either case, or marked hexadecimal digits, up to two for
a byte and three or four for a word. -/
inductive LiteralText : List Char → Operand → Prop
  | reg {c : Char} {r : Register} : c = r.letter ∨ c = r.letter.toLower → LiteralText [c] (.reg r)
  | byte {mark : Char} {digits : List Char} {v : UInt8} : mark = 'x' ∨ mark = 'X' →
      digits.length = 1 ∨ digits.length = 2 → Numeral 16 digits v.toNat → LiteralText ('0' :: mark :: digits) (.byte v)
  | word {mark : Char} {digits : List Char} {v : UInt16} : mark = 'x' ∨ mark = 'X' →
      digits.length = 3 ∨ digits.length = 4 → Numeral 16 digits v.toNat → LiteralText ('0' :: mark :: digits) (.word v)

namespace Numeral

variable {base m n : Nat} {text more : List Char}

/-- A number is below the power of the base that the digits reach up to. -/
theorem lt_pow (hbase : 1 < base) (h : Numeral base text n) : n < base ^ text.length := by
  obtain ⟨digits, hdigits, rfl⟩ := h
  have hbelow : ∀ d ∈ digits, d < base := by
    induction hdigits with
    | nil => exact List.forall_mem_nil _
    | cons hc _ ih =>
      exact List.forall_mem_cons.2 ⟨by simpa using (Option.filter_eq_some_iff.1 hc).2, ih⟩
  rw [hdigits.length_eq, ← List.length_reverse]
  exact Nat.ofDigits_lt_base_pow_length hbase fun d hd => hbelow d (List.mem_reverse.1 hd)

/-- Digits behind others. -/
theorem append (h : Numeral base text m) (hmore : Numeral base more n) :
    Numeral base (text ++ more) (m * base ^ more.length + n) := by
  obtain ⟨digits, hdigits, rfl⟩ := h
  obtain ⟨digits', hdigits', rfl⟩ := hmore
  refine ⟨digits ++ digits', List.rel_append hdigits hdigits', ?_⟩
  rw [List.reverse_append, Nat.ofDigits_append, List.length_reverse, hdigits'.length_eq]
  ring

theorem byteHex (v : UInt8) : Numeral 16 (Text.byteHex v).toList v.toNat := by
  have hdigit : ∀ d < 16, digit? 16 (Text.hexDigit d) = some d := by decide
  have hlt := v.toNat_lt
  refine ⟨[v.toNat / 16, v.toNat % 16], ?_, ?_⟩
  · rw [Text.byteHex, String.toList_ofList]
    exact .cons (hdigit _ (by omega)) (.cons (hdigit _ (by omega)) .nil)
  · simp only [List.reverse_cons, List.reverse_nil, List.nil_append, List.cons_append, Nat.ofDigits_cons,
      Nat.ofDigits_nil]
    omega

theorem wordHex (v : UInt16) : Numeral 16 (Text.wordHex v).toList v.toNat := by
  have hboth := (byteHex (highByte v)).append (byteHex (lowByte v))
  have hlength : (Text.byteHex (lowByte v)).toList.length = 2 := by simp [Text.byteHex]
  have hvalue : v.toNat = (highByte v).toNat * 16 ^ 2 + (lowByte v).toNat := by
    rw [show 16 ^ 2 = 256 from rfl, ← wordOf_toNat, wordOf_highByte_lowByte]
  rw [hlength, ← hvalue] at hboth
  rwa [Text.wordHex, String.toList_append]

end Numeral

/-! ## Reading -/

/-- A letter of a register, in either case. -/
theorem Register.ofLetter?_eq_some_iff {c : Char} {r : Register} :
    ofLetter? c = some r ↔ c = r.letter ∨ c = r.letter.toLower := by
  constructor
  · intro h
    have hupper : r.letter = c.toUpper := by simpa using List.find?_some h
    by_cases hc : c.isLower = true
    · have hlower : c.toLower = c := Char.toLower_eq_of_not_isUpper (Char.not_isUpper_of_isLower hc)
      rw [hupper, Char.toLower_toUpper_eq_toLower, hlower]
      exact .inr rfl
    · rw [hupper, Char.toUpper_eq_of_not_isLower hc]
      exact .inl rfl
  · rintro (rfl | rfl) <;> cases r <;> decide

theorem scanRegister_eq_ok_iff {cs rest : List Char} {r : Register} :
    scanRegister cs = .ok (r, rest) ↔ ∃ c, cs = c :: rest ∧ Register.ofLetter? c = some r := by
  unfold scanRegister
  cases cs with
  | nil => simp
  | cons c cs => cases hr : Register.ofLetter? c <;> simp [hr, and_comm, eq_comm]

/-- **The two readers of register names agree.** -/
theorem whole?_scanRegister (text : String) : Scanner.whole? scanRegister text = Register.ofName? text := by
  ext r
  rw [Scanner.whole?_eq_some_iff, scanRegister_eq_ok_iff, Register.ofName?]
  split
  · rename_i c hlist
    simp [hlist]
  · rename_i hlist
    constructor
    · rintro ⟨c, hc, -⟩
      exact absurd hc (hlist c)
    · intro h
      cases h

/-- Marked digits that are read to the end are those of a byte or of a word. -/
theorem scanHex_eq_ok_iff {cs : List Char} {o : Operand} : scanHex cs = .ok (o, []) ↔
    ∃ mark digits, (mark = 'x' ∨ mark = 'X') ∧ cs = '0' :: mark :: digits ∧ (∀ c ∈ digits, isHexDigit c = true) ∧
      ((digits.length = 1 ∨ digits.length = 2) ∧ o = .byte (UInt8.ofNat (digitsValue 16 digits)) ∨
        (digits.length = 3 ∨ digits.length = 4) ∧ o = .word (UInt16.ofNat (digitsValue 16 digits))) := by
  unfold scanHex
  constructor
  · intro h
    split at h
    · cases h
    · rename_i ds hmark
      obtain ⟨mark, hm, rfl⟩ := afterHexMark?_eq_some_iff.1 hmark
      dsimp only at h
      split at h
      · cases h
      · rename_i hlength
        rw [not_or, ← ne_eq, ← List.length_pos_iff] at hlength
        split at h
        · rename_i hshort
          obtain ⟨rfl, hrest⟩ := Prod.mk.inj (Except.ok.inj h)
          have hdigits := List.dropWhile_eq_nil_iff.1 hrest
          rw [List.takeWhile_eq_self_iff.2 hdigits] at hlength hshort ⊢
          exact ⟨mark, ds, hm, rfl, hdigits, .inl ⟨by omega, rfl⟩⟩
        · rename_i hlong
          obtain ⟨rfl, hrest⟩ := Prod.mk.inj (Except.ok.inj h)
          have hdigits := List.dropWhile_eq_nil_iff.1 hrest
          rw [List.takeWhile_eq_self_iff.2 hdigits] at hlength hlong ⊢
          exact ⟨mark, ds, hm, rfl, hdigits, .inr ⟨by omega, rfl⟩⟩
  · rintro ⟨mark, digits, hm, rfl, hdigits, hlength⟩
    rw [afterHexMark?_eq_some_iff.2 ⟨mark, hm, rfl⟩]
    dsimp only
    rw [List.takeWhile_eq_self_iff.2 hdigits, List.dropWhile_eq_nil_iff.2 hdigits]
    have hne : digits ≠ [] := fun hnil => by simp [hnil] at hlength
    rcases hlength with ⟨hlength, rfl⟩ | ⟨hlength, rfl⟩
    · rw [if_neg (by simp only [hne, false_or]; omega), if_pos (by omega)]
    · rw [if_neg (by simp only [hne, false_or]; omega), if_neg (by omega)]

theorem scanOperand_eq_ok_iff {cs rest : List Char} {o : Operand} : scanOperand cs = .ok (o, rest) ↔
    (∃ r, scanRegister cs = .ok (r, rest) ∧ o = .reg r) ∨
      (∃ e, scanRegister cs = .error e) ∧ scanHex cs = .ok (o, rest) := by
  unfold scanOperand
  cases hr : scanRegister cs with
  | error e => simp
  | ok p =>
    obtain ⟨r, left⟩ := p
    simp only [Except.ok.injEq, Prod.mk.injEq, reduceCtorEq, exists_false, false_and, or_false]
    constructor
    · rintro ⟨rfl, rfl⟩
      exact ⟨r, ⟨rfl, rfl⟩, rfl⟩
    · rintro ⟨_, ⟨rfl, rfl⟩, rfl⟩
      exact ⟨rfl, rfl⟩

/-- **A token is read as the operand that it is written for.** -/
theorem parseOperand_eq_some_iff {token : String} {o : Operand} :
    parseOperand token = some o ↔ LiteralText token.toList o := by
  rw [parseOperand, Scanner.whole?_eq_some_iff, scanOperand_eq_ok_iff]
  constructor
  · rintro (⟨r, hr, rfl⟩ | ⟨-, hhex⟩)
    · obtain ⟨c, hc, hletter⟩ := scanRegister_eq_ok_iff.1 hr
      rw [hc]
      exact .reg (Register.ofLetter?_eq_some_iff.1 hletter)
    · obtain ⟨mark, digits, hm, hcs, hdigits, hlength⟩ := scanHex_eq_ok_iff.1 hhex
      have hvalue : Numeral 16 digits (digitsValue 16 digits) := numeral_iff.2 ⟨hdigits, rfl⟩
      have hlt := hvalue.lt_pow (by omega)
      rw [hcs]
      rcases hlength with ⟨hlength, rfl⟩ | ⟨hlength, rfl⟩
      · refine .byte hm hlength ?_
        have hbyte : 16 ^ digits.length ≤ 16 ^ 2 := Nat.pow_le_pow_right (by omega) (by omega)
        rwa [UInt8.toNat_ofNat', Nat.mod_eq_of_lt (by omega)]
      · refine .word hm hlength ?_
        have hword : 16 ^ digits.length ≤ 16 ^ 4 := Nat.pow_le_pow_right (by omega) (by omega)
        rwa [UInt16.toNat_ofNat', Nat.mod_eq_of_lt (by omega)]
  · have hzero (cs : List Char) : ∃ e, scanRegister ('0' :: cs) = .error e := ⟨'0' :: cs, rfl⟩
    generalize token.toList = cs
    intro h
    cases h with
    | @reg c r hc => exact .inl ⟨r, scanRegister_eq_ok_iff.2 ⟨c, rfl, Register.ofLetter?_eq_some_iff.2 hc⟩, rfl⟩
    | @byte mark digits v hm hlength hv =>
      obtain ⟨hdigits, hvalue⟩ := numeral_iff.1 hv
      have ho : v = UInt8.ofNat (digitsValue 16 digits) := by rw [← hvalue, UInt8.ofNat_toNat]
      exact .inr ⟨hzero _, scanHex_eq_ok_iff.2 ⟨mark, digits, hm, rfl, hdigits, .inl ⟨hlength, congrArg _ ho⟩⟩⟩
    | @word mark digits v hm hlength hv =>
      obtain ⟨hdigits, hvalue⟩ := numeral_iff.1 hv
      have ho : v = UInt16.ofNat (digitsValue 16 digits) := by rw [← hvalue, UInt16.ofNat_toNat]
      exact .inr ⟨hzero _, scanHex_eq_ok_iff.2 ⟨mark, digits, hm, rfl, hdigits, .inr ⟨hlength, congrArg _ ho⟩⟩⟩

/-- **Every operand is read back from its own text.** -/
theorem parseOperand_text (o : Operand) : parseOperand o.text = some o := by
  rw [parseOperand_eq_some_iff]
  cases o with
  | reg r =>
    have htext : r.name.toList = [r.letter] := by cases r <;> rfl
    rw [Operand.text, htext]
    exact .reg (.inl rfl)
  | byte v =>
    have htext : (byteToken v).toList = '0' :: 'X' :: (Text.byteHex v).toList := by simp [byteToken]
    rw [Operand.text, htext]
    exact .byte (.inr rfl) (by simp [Text.byteHex]) (.byteHex v)
  | word v =>
    have htext : (wordToken v).toList = '0' :: 'X' :: (Text.wordHex v).toList := by simp [wordToken]
    rw [Operand.text, htext]
    exact .word (.inr rfl) (by simp [Text.wordHex, Text.byteHex]) (.wordHex v)

/-! ## Names -/

section
variable {token : String} {o : Operand} (h : parseOperand token = some o)
include h

/-- A literal may not be declared: either it names a register, or it starts with a digit. -/
theorem checkName_ne_ok_of_parseOperand : Statement.checkName token ≠ .ok () := by
  intro hcheck
  obtain ⟨hidentifier, hregister⟩ := Statement.checkName_eq_ok_iff.1 hcheck
  obtain ⟨first, rest, hlist, hstart, -⟩ := isName_of_isIdentifier hidentifier
  have htext := parseOperand_eq_some_iff.1 h
  rw [hlist] at htext
  cases htext with
  | reg hc =>
    rw [Register.ofName?, hlist] at hregister
    exact absurd ((Register.ofLetter?_eq_some_iff.2 hc).symm.trans hregister) (by simp)
  | byte | word => exact absurd hstart (by decide)

/-- There is no dot in a literal. -/
theorem nameBefore?_of_parseOperand (letter : Char) : Symbols.nameBefore? token letter = none := by
  have hdot : '.' ∉ token.toList := by
    have htext := parseOperand_eq_some_iff.1 h
    have hdigits {digits : List Char} {n : Nat} (hn : Numeral 16 digits n) : '.' ∉ digits := fun hmem =>
      absurd ((numeral_iff.1 hn).1 _ hmem) (by decide)
    generalize token.toList = cs at htext
    cases htext with
    | @reg c r hc => rcases hc with rfl | rfl <;> cases r <;> decide
    | byte hm _ hn | word hm _ hn => rcases hm with rfl | rfl <;> simp [hdigits hn]
  cases hname : Symbols.nameBefore? token letter with
  | none => rfl
  | some name =>
    rw [Symbols.nameBefore?_eq_some_iff.1 hname] at hdot
    simp at hdot

end

/-! ## Tables -/

namespace Symbols

/-- Tables in which every name may be declared. -/
structure Checked (symbols : Symbols) : Prop where
  procedures : ∀ name ∈ symbols.procedureNames, Statement.checkName name = .ok ()
  constants : ∀ name ∈ symbols.constantNames, Statement.checkName name = .ok ()
  data : ∀ name ∈ symbols.dataNames, Statement.checkName name = .ok ()

/-- The tables that a source can leave behind: those of the statements in front of any place where its reading stops, and
those in which every address is known. -/
inductive Built (files : SourceFiles) (origin : UInt16) (path text : String) : Symbols → Prop
  | collected {statements : List LocatedStatement} {c : Program.Collection} :
      statements <+: (SourceTree.read files path text).reports →
      (Traced.foldList Program.collect { origin := origin } statements).result = .ok c →
      Built files origin path text c.symbols
  | laidOut {program : Program} {layout : Layout} : (Program.ofSource files origin path text).result = .ok program →
      program.layOut.result = .ok layout → Built files origin path text layout.symbols

variable {symbols symbols' : Symbols} {statements : List LocatedStatement}

theorem Declared.checked (h : symbols.Declared statements) (hs : ∀ s ∈ statements, s.statement.Checked) :
    symbols.Checked where
  procedures := by
    intro name hname
    rw [h.procedureNames_eq] at hname
    obtain ⟨s, hmem, hdeclares⟩ := exists_name?_of_mem_labelsOf hname
    exact hs s hmem name hdeclares
  constants := by
    intro name hname
    rw [constantNames, h.constants] at hname
    obtain ⟨⟨_, definition⟩, hmem, rfl⟩ := List.mem_map.1 hname
    obtain ⟨s, hmem, hdeclares⟩ := exists_name?_of_mem_constantsOf hmem
    exact hs s hmem _ hdeclares
  data := by
    intro name hname
    rw [dataNames, h.data] at hname
    obtain ⟨datum, hmem, rfl⟩ := List.mem_map.1 hname
    obtain ⟨s, hmem, hdeclares⟩ := exists_name?_of_mem_dataOf hmem
    exact hs s hmem _ hdeclares

theorem Checked.of_alike (h : symbols.Checked) (ha : symbols.Alike symbols') : symbols'.Checked where
  procedures := fun name hname =>
    h.procedures name (procedure?_isSome_iff.1 (ha.procedures name ▸ procedure?_isSome_iff.2 hname))
  constants := by
    rw [constantNames, ← ha.constants]
    exact h.constants
  data := fun name hname => h.data name (datum?_isSome_iff.1 (ha.data name ▸ datum?_isSome_iff.2 hname))

/-- **Every name in the tables of a source may be declared.** -/
theorem Built.checked {files : SourceFiles} {origin : UInt16} {path text : String}
    (h : Built files origin path text symbols) : symbols.Checked := by
  cases h with
  | @collected statements c hfront hc =>
    have hholds := Program.Collection.Holds.foldList ⟨rfl, Declared.nil, rfl, rfl⟩ hc
    rw [List.nil_append] at hholds
    exact hholds.symbols.checked fun s hs => SourceTree.checked_of_mem_read (hfront.subset hs)
  | laidOut hprogram hlayout =>
    have hcollects := Program.collects_of_ofSource hprogram
    obtain ⟨placed, sizes, hlaid⟩ := Program.exists_laidOut hlayout
    have hchecked := hcollects.symbols.checked fun s hs => SourceTree.checked_of_mem_read hs
    exact hchecked.of_alike (hlaid.alike hcollects)

/-- A literal is looked up in vain. -/
theorem Checked.lookup_of_parseOperand (h : symbols.Checked) {token : String} {o : Operand}
    (ht : parseOperand token = some o) : symbols.lookup token = none := by
  have hunchecked := checkName_ne_ok_of_parseOperand ht
  have hprocedure : symbols.procedure? token = none :=
    procedure?_eq_none fun hmem => hunchecked (h.procedures token hmem)
  have hconstant : symbols.constant? token = none :=
    constant?_eq_none fun hmem => hunchecked (h.constants token hmem)
  rw [lookup_of_none hprocedure, hconstant, Option.map_none]
  intro letter name hname
  rw [nameBefore?_of_parseOperand ht letter] at hname
  cases hname

/-- No name is a literal. -/
theorem Checked.parseOperand_eq_none (h : symbols.Checked) {name : String}
    (hname : name ∈ symbols.procedureNames ++ symbols.constantNames ++ symbols.dataNames) :
    parseOperand name = none := by
  have hcheck : Statement.checkName name = .ok () := by
    rw [List.mem_append, List.mem_append] at hname
    rcases hname with (hname | hname) | hname
    · exact h.procedures name hname
    · exact h.constants name hname
    · exact h.data name hname
  cases ho : parseOperand name with
  | none => rfl
  | some o => exact absurd hcheck (checkName_ne_ok_of_parseOperand ho)

end Symbols

/-- **Literals are never symbols.** A token is a literal operand iff it is written as one, an operand is read back from
its own text, and one letter is the name of a register to either reader. In the tables of a source no name is a literal,
and so every literal is looked up in vain, and stands for itself. -/
theorem literal_is_no_symbol :
    (∀ token o, parseOperand token = some o ↔ LiteralText token.toList o) ∧
    (∀ o, parseOperand o.text = some o) ∧
    (∀ token, Scanner.whole? scanRegister token = Register.ofName? token) ∧
    ∀ files origin path text symbols, Symbols.Built files origin path text symbols →
      (∀ name ∈ symbols.procedureNames ++ symbols.constantNames ++ symbols.dataNames, parseOperand name = none) ∧
      ∀ token o, parseOperand token = some o → symbols.lookup token = none ∧ symbols.operands token = .ok [o] ∧
        symbols.substitute token = .ok [token] := by
  refine ⟨fun token o => parseOperand_eq_some_iff, parseOperand_text, whole?_scanRegister,
    fun files origin path text symbols h => ⟨fun name => h.checked.parseOperand_eq_none, fun token o ht => ?_⟩⟩
  have hlookup := h.checked.lookup_of_parseOperand ht
  have hliteral : Symbols.literal token = .ok o := by rw [Symbols.literal, ht]
  refine ⟨hlookup, ?_, ?_⟩
  · rw [Symbols.operands, hlookup]
    simp [hliteral]
  · rw [Symbols.substitute, hlookup]
    simp [hliteral]

/-- Names that look like digits, in a table with addresses and in one that a faulty line leaves behind. -/
theorem literal_is_no_symbol_beef :
    (∃ layout : Layout, Symbols.Built (.ofList []) 0x8000 "main" "#DEFINE BEEF 0X01\nFACE:\nNOP" layout.symbols ∧
      layout.symbols.lookup "BEEF" = some (.constant "0X01") ∧
      layout.symbols.lookup "FACE" = some (.procedure (some 0x8000)) ∧
      layout.symbols.lookup "0xBEEF" = none ∧ layout.symbols.operands "0xBEEF" = .ok [.word 0xBEEF]) ∧
    ∃ c : Program.Collection, Symbols.Built (.ofList []) 0 "main" "#DB AB 1\n#DB A 1" c.symbols ∧
      c.symbols.dataNames = ["AB"] ∧ c.symbols.lookup "a" = none ∧ c.symbols.substitute "a" = .ok ["a"] := by
  obtain ⟨-, -, -, hbuilt⟩ := literal_is_no_symbol
  constructor
  · let program : Program := {
      origin := 0x8000
      lines := [{ loc := ⟨"main", 3⟩, mnemonic := "NOP", labels := ["FACE"] }]
      symbols := { constants := [("BEEF", "0X01")], procedures := [("FACE", none)] } }
    let layout : Layout := {
      origin := 0x8000
      lines := [{ loc := ⟨"main", 3⟩, mnemonic := "NOP" }]
      symbols := { constants := [("BEEF", "0X01")], procedures := [("FACE", some 0x8000)] }
      codeSize := 3
      totalSize := 3 }
    have hprogram :
        (Program.ofSource (.ofList []) 0x8000 "main" "#DEFINE BEEF 0X01\nFACE:\nNOP").result = .ok program := by cbv
    have hlayout : program.layOut.result = .ok layout := by cbv
    have hlaid := Symbols.Built.laidOut hprogram hlayout
    obtain ⟨hnone, hoperands, -⟩ := (hbuilt _ _ _ _ _ hlaid).2 "0xBEEF" (.word 0xBEEF) (by cbv)
    exact ⟨layout, hlaid, by cbv, by cbv, hnone, hoperands⟩
  · let c : Program.Collection := {
      origin := 0
      symbols := { data := [{ name := "AB", bytes := [1], loc := ⟨"main", 1⟩ }] } }
    have hread : (SourceTree.read (.ofList []) "main" "#DB AB 1\n#DB A 1").reports =
        [⟨⟨"main", 1⟩, .data "AB" [1]⟩] := by cbv
    have hcollect : (Traced.foldList Program.collect { origin := 0 } [⟨⟨"main", 1⟩, .data "AB" [1]⟩]).result = .ok c :=
      rfl
    rw [← hread] at hcollect
    have hcollected := Symbols.Built.collected (List.prefix_refl _) hcollect
    obtain ⟨hnone, -, hsubstitute⟩ := (hbuilt _ _ _ _ _ hcollected).2 "a" (.reg .a) (by decide)
    exact ⟨c, hcollected, rfl, hnone, hsubstitute⟩

end Octet
