import Octet.Proofs.Assembler.Substitution
/-!
The operands that a token stands for, and the tokens that replace it.

A line is measured by `Symbols.operands` and encoded from `Symbols.substitute`. The two agree on every token, but for a
procedure that has no address yet: it can be measured and not be encoded.

* `mapM_literal_eq_ok_iff`, `exists_of_mapM_literal_eq_error`: the tokens in the text of a constant;
* `Symbols.Agree`: the outcomes that a token can have with one and with the other; `Symbols.agree`: it has no others;
* `Symbols.substitute_agrees`: when both give a result, and how the results are related;
* `Line.resolve_fails_iff`: where the procedures of a line have their addresses, the line is refused when it is resolved
  iff it is refused when it is measured, for the same token.
-/

namespace Octet

namespace Symbols

variable {symbols : Symbols} {token : String}

/-! ## Literal tokens -/

theorem literal_eq_ok_iff {op : Operand} : literal token = .ok op ↔ parseOperand token = some op := by
  unfold literal
  cases parseOperand token <;> simp

theorem literal_eq_error_iff {fault : Fault} :
    literal token = .error fault ↔ parseOperand token = none ∧ fault = .invalidSymbol token := by
  unfold literal
  cases parseOperand token <;> simp [eq_comm]

/-- Tokens are operands iff each of them is read. -/
theorem mapM_literal_eq_ok_iff {tokens : List String} {ops : List Operand} :
    tokens.mapM literal = .ok ops ↔ tokens.map parseOperand = ops.map some := by
  rw [Except.mapM_eq_ok_iff, ← List.forall₂_eq_eq_eq, List.forall₂_map_left_iff, List.forall₂_map_right_iff]
  simp only [literal_eq_ok_iff]

/-- The fault names a token that cannot be read. -/
theorem exists_of_mapM_literal_eq_error {tokens : List String} {fault : Fault}
    (h : tokens.mapM literal = .error fault) : ∃ t ∈ tokens, parseOperand t = none ∧ fault = .invalidSymbol t := by
  obtain ⟨t, hmem, ht⟩ := Except.exists_mem_of_mapM_eq_error h
  exact ⟨t, hmem, literal_eq_error_iff.1 ht⟩

/-! ## Agreement -/

/-- The outcomes of `substitute` and of `operands` for a token of a line. -/
inductive Agree (symbols : Symbols) (loc : Location) (token : String) :
    Except AsmError (List String) → Except AsmError (List Operand) → Prop
  /-- The address of a procedure is one word, and it is replaced by tokens that are read as its two bytes. -/
  | procedure {address : UInt16} {tokens : List String} (bound : symbols.procedure? token = some (some address))
      (read : tokens.map parseOperand = [some (.byte (highByte address)), some (.byte (lowByte address))]) :
      Agree symbols loc token (.ok tokens) (.ok [.word address])
  /-- A procedure without an address counts as a word, and cannot be replaced. -/
  | unbound (h : symbols.procedure? token = some none) :
      Agree symbols loc token (.error (.inLine (.invalidSymbol token) loc)) (.ok [.word 0])
  /-- Anything else is replaced by tokens that are read as its operands, as many as there are and words included. -/
  | kept {tokens : List String} {ops : List Operand} (other : symbols.procedure? token = none)
      (read : tokens.map parseOperand = ops.map some) : Agree symbols loc token (.ok tokens) (.ok ops)
  /-- The token, or one in the text of the constant that it names, is no operand. -/
  | invalid {t : String} (other : symbols.procedure? token = none)
      (source : symbols.lookup token = none ∧ t = token ∨
        ∃ text, symbols.lookup token = some (.constant text) ∧ t ∈ splitTokens text)
      (unread : parseOperand t = none) :
      Agree symbols loc token (.error (.inLine (.invalidSymbol t) loc)) (.error (.inLine (.invalidSymbol t) loc))

/-- What is looked up as something else is no procedure. -/
theorem procedure?_eq_none_of_lookup (h : ∀ address, symbols.lookup token ≠ some (.procedure address)) :
    symbols.procedure? token = none := by
  cases hp : symbols.procedure? token with
  | none => rfl
  | some address => exact absurd (lookup_of_procedure? hp) (h address)

/-- Tokens that replace a token as they are. -/
theorem agree_of_mapM_literal (hp : symbols.procedure? token = none) {tokens : List String}
    (hsource : ∀ t ∈ tokens, symbols.lookup token = none ∧ t = token ∨
      ∃ text, symbols.lookup token = some (.constant text) ∧ t ∈ splitTokens text) (loc : Location) :
    symbols.Agree loc token (Program.faultIn loc (do let _ ← tokens.mapM literal; return tokens))
      (Program.faultIn loc (tokens.mapM literal)) := by
  cases hops : tokens.mapM literal with
  | ok ops => exact .kept hp (mapM_literal_eq_ok_iff.1 hops)
  | error fault =>
    obtain ⟨t, hmem, ht, rfl⟩ := exists_of_mapM_literal_eq_error hops
    exact .invalid hp (hsource t hmem) ht

/-- A byte of an address. -/
theorem agree_of_byte (hp : symbols.procedure? token = none) (loc : Location) (v : UInt8) :
    symbols.Agree loc token (.ok [byteToken v]) (.ok [.byte v]) :=
  .kept hp (by rw [List.map_singleton, parseOperand_byteToken]; rfl)

/-- A token has no other outcomes. -/
theorem agree (symbols : Symbols) (loc : Location) (token : String) :
    symbols.Agree loc token (Program.faultIn loc (symbols.substitute token))
      (Program.faultIn loc (symbols.operands token)) := by
  unfold substitute operands
  cases hl : symbols.lookup token with
  | none =>
    have hp : symbols.procedure? token = none := procedure?_eq_none_of_lookup (by simp [hl])
    have hagree := agree_of_mapM_literal hp (fun t (ht : t ∈ [token]) => .inl ⟨hl, List.mem_singleton.1 ht⟩) loc
    rw [mapM_literal_singleton] at hagree
    cases hop : literal token <;> rw [hop] at hagree <;> exact hagree
  | some ref =>
    cases ref with
    | procedure address =>
      have hp := procedure?_of_lookup hl
      cases address with
      | none => exact .unbound hp
      | some address =>
        refine .procedure hp ?_
        rw [List.map_cons, List.map_singleton, parseOperand_byteToken, parseOperand_byteToken]
        rfl
    | dataHigh datum => exact agree_of_byte (procedure?_eq_none_of_lookup (by simp [hl])) loc _
    | dataLow datum => exact agree_of_byte (procedure?_eq_none_of_lookup (by simp [hl])) loc _
    | constant text =>
      exact agree_of_mapM_literal (procedure?_eq_none_of_lookup (by simp [hl])) (fun t ht => .inr ⟨text, hl, ht⟩) loc

namespace Agree

variable {loc : Location} {tokens : Except AsmError (List String)} {ops : Except AsmError (List Operand)}

theorem ok_iff (h : symbols.Agree loc token tokens ops) (hb : symbols.procedure? token ≠ some none) :
    (∃ ts, tokens = .ok ts) ↔ ∃ os, ops = .ok os := by
  cases h with
  | unbound hn => exact absurd hn hb
  | invalid => exact ⟨fun ⟨_, h⟩ => (by cases h), fun ⟨_, h⟩ => (by cases h)⟩
  | procedure | kept => exact ⟨fun _ => ⟨_, rfl⟩, fun _ => ⟨_, rfl⟩⟩

theorem error_iff (h : symbols.Agree loc token tokens ops) (hb : symbols.procedure? token ≠ some none) (e : AsmError) :
    tokens = .error e ↔ ops = .error e := by
  cases h with
  | unbound hn => exact absurd hn hb
  | invalid => exact ⟨fun h => congrArg _ (Except.error.inj h), fun h => congrArg _ (Except.error.inj h)⟩
  | procedure | kept => exact ⟨fun h => (by cases h), fun h => (by cases h)⟩

/-- Operands are refused for the sake of a token that is none. -/
theorem exists_invalid {e : AsmError} (h : symbols.Agree loc token tokens ops) (he : ops = .error e) :
    ∃ t, e = .inLine (.invalidSymbol t) loc ∧ parseOperand t = none ∧
      (symbols.lookup token = none ∧ t = token ∨
        ∃ text, symbols.lookup token = some (.constant text) ∧ t ∈ splitTokens text) := by
  cases h with
  | invalid _ source unread =>
    cases he
    exact ⟨_, rfl, unread, source⟩
  | unbound | procedure | kept => cases he

theorem read_procedure {address : UInt16} {ts : List String} {os : List Operand}
    (h : symbols.Agree loc token (.ok ts) (.ok os)) (hp : symbols.procedure? token = some (some address)) :
    os = [.word address] ∧
      ts.map parseOperand = [some (.byte (highByte address)), some (.byte (lowByte address))] := by
  cases h with
  | procedure bound read =>
    cases hp.symm.trans bound
    exact ⟨rfl, read⟩
  | kept other => cases hp.symm.trans other

theorem read_kept {ts : List String} {os : List Operand} (h : symbols.Agree loc token (.ok ts) (.ok os))
    (hp : symbols.procedure? token = none) : ts.map parseOperand = os.map some := by
  cases h with
  | procedure bound => cases hp.symm.trans bound
  | kept _ read => exact read

theorem of_unbound (h : symbols.Agree loc token tokens ops) (hn : symbols.procedure? token = some none) :
    tokens = .error (.inLine (.invalidSymbol token) loc) ∧ ops = .ok [.word 0] := by
  cases h with
  | unbound => exact ⟨rfl, rfl⟩
  | procedure h | kept h | invalid h => cases h.symm.trans hn

end Agree

/-- **Measuring and encoding agree on every token.** A token other than a procedure without an address is replaced iff
it has operands, and otherwise it is refused by both with one error, which names the symbol that cannot be read: the
token itself, if it is looked up in vain, or one in the text of a constant. The tokens that replace a procedure are read
as the two bytes of its address, which is its only operand; those that replace anything else are read as its operands,
whatever their number and with words as they are. A procedure without an address counts as one word, and is not
replaced. -/
theorem substitute_agrees (symbols : Symbols) (loc : Location) (token : String) :
    (symbols.procedure? token ≠ some none →
      ((∃ tokens, Program.faultIn loc (symbols.substitute token) = .ok tokens) ↔
        ∃ ops, Program.faultIn loc (symbols.operands token) = .ok ops) ∧
      (∀ e, Program.faultIn loc (symbols.substitute token) = .error e ↔
        Program.faultIn loc (symbols.operands token) = .error e) ∧
      (∀ e, Program.faultIn loc (symbols.operands token) = .error e →
        ∃ t, e = .inLine (.invalidSymbol t) loc ∧ parseOperand t = none ∧
          (symbols.lookup token = none ∧ t = token ∨
            ∃ text, symbols.lookup token = some (.constant text) ∧ t ∈ splitTokens text)) ∧
      ∀ tokens ops, Program.faultIn loc (symbols.substitute token) = .ok tokens →
        Program.faultIn loc (symbols.operands token) = .ok ops →
          (∀ address, symbols.procedure? token = some (some address) → ops = [.word address] ∧
            tokens.map parseOperand = [some (.byte (highByte address)), some (.byte (lowByte address))]) ∧
          (symbols.procedure? token = none → tokens.map parseOperand = ops.map some)) ∧
    (symbols.procedure? token = some none →
      Program.faultIn loc (symbols.substitute token) = .error (.inLine (.invalidSymbol token) loc) ∧
      Program.faultIn loc (symbols.operands token) = .ok [.word 0]) := by
  have hagree := symbols.agree loc token
  refine ⟨fun hb => ⟨hagree.ok_iff hb, hagree.error_iff hb, fun e => hagree.exists_invalid, ?_⟩, hagree.of_unbound⟩
  intro tokens ops htokens hops
  rw [htokens, hops] at hagree
  exact ⟨fun address => hagree.read_procedure, hagree.read_kept⟩

/-- A procedure with its address, a constant of a word and a register, a constant that cannot be read, and a procedure
that waits for its address. -/
theorem substitute_agrees_mixed :
    let symbols : Symbols :=
      { constants := [("PAIR", "0X1234, B"), ("BAD", "Q")], procedures := [("LOOP", some 0x8010), ("LATER", none)] }
    let loc : Location := ⟨"main.asm", 3⟩
    (symbols.procedure? "LOOP" = some (some 0x8010) ∧
      Program.faultIn loc (symbols.substitute "LOOP") = .ok ["0X80", "0X10"] ∧
      ["0X80", "0X10"].map parseOperand = [some (.byte 0x80), some (.byte 0x10)]) ∧
    (symbols.procedure? "PAIR" = none ∧
      Program.faultIn loc (symbols.substitute "PAIR") = .ok ["0X1234", "B"] ∧
      ["0X1234", "B"].map parseOperand = [Operand.word 0x1234, .reg .b].map some) ∧
    (symbols.procedure? "BAD" = none ∧
      Program.faultIn loc (symbols.substitute "BAD") = .error (.inLine (.invalidSymbol "Q") loc) ∧
      Program.faultIn loc (symbols.operands "BAD") = .error (.inLine (.invalidSymbol "Q") loc) ∧
      parseOperand "Q" = none) ∧
    symbols.procedure? "LATER" = some none ∧
      Program.faultIn loc (symbols.substitute "LATER") = .error (.inLine (.invalidSymbol "LATER") loc) ∧
      Program.faultIn loc (symbols.operands "LATER") = .ok [.word 0] := by
  intro symbols loc
  have hloop : symbols.procedure? "LOOP" = some (some 0x8010) := rfl
  have hpair : symbols.procedure? "PAIR" = none := rfl
  have hbad : symbols.procedure? "BAD" = none := rfl
  have hlater : symbols.procedure? "LATER" = some none := rfl
  obtain ⟨-, -, -, hread⟩ := (substitute_agrees symbols loc "LOOP").1 (by rw [hloop]; decide)
  obtain ⟨-, -, -, hkept⟩ := (substitute_agrees symbols loc "PAIR").1 (by rw [hpair]; decide)
  obtain ⟨-, hfails, hnamed, -⟩ := (substitute_agrees symbols loc "BAD").1 (by rw [hbad]; decide)
  have hq : Program.faultIn loc (symbols.substitute "BAD") = .error (.inLine (.invalidSymbol "Q") loc) := by
    decide +kernel
  have hunread : parseOperand "Q" = none := by
    obtain ⟨t, he, ht, -⟩ := hnamed _ ((hfails _).1 hq)
    cases he
    exact ht
  have hpairTokens : Program.faultIn loc (symbols.substitute "PAIR") = .ok ["0X1234", "B"] := by decide +kernel
  have hpairOps : Program.faultIn loc (symbols.operands "PAIR") = .ok [.word 0x1234, .reg .b] := by decide +kernel
  have hloopTokens : Program.faultIn loc (symbols.substitute "LOOP") = .ok ["0X80", "0X10"] := by decide +kernel
  exact ⟨⟨hloop, hloopTokens, ((hread _ _ hloopTokens rfl).1 _ hloop).2⟩,
    ⟨hpair, hpairTokens, (hkept _ _ hpairTokens hpairOps).2 hpair⟩, ⟨hbad, hq, (hfails _).1 hq, hunread⟩,
    hlater, (substitute_agrees symbols loc "LATER").2 hlater⟩

end Symbols

/-! ## Lines -/

theorem Program.faultIn_mapM {α β : Type} (loc : Location) (f : α → Except Fault β) (xs : List α) :
    faultIn loc (xs.mapM f) = xs.mapM fun x => faultIn loc (f x) := by
  induction xs with
  | nil => rfl
  | cons x xs ih =>
    rw [List.mapM_cons, List.mapM_cons, ← ih]
    cases f x with
    | error fault => rfl
    | ok y => cases xs.mapM f <;> rfl

/-- **Lines are refused alike.** Where the procedures that a line names have their addresses, the line is refused when
its tokens are replaced iff it is refused when it is measured, and with the same error: the first token that is refused
is the same. -/
theorem Line.resolve_fails_iff {symbols : Symbols} {line : Line}
    (hb : ∀ token ∈ line.operands, symbols.procedure? token ≠ some none) (e : AsmError) :
    (line.resolve symbols).result = .error e ↔
      Program.faultIn line.loc (line.operands.mapM symbols.operands) = .error e := by
  -- Reports aside, resolving replaces the tokens one by one.
  have hresolve : (line.resolve symbols).result = .error e ↔
      line.operands.mapM (fun token => Program.faultIn line.loc (symbols.substitute token)) = .error e := by
    rw [resolve, Traced.result_bind, Traced.result_mapList]
    simp only [result_resolveToken]
    exact Except.map_eq_error (f := fun operands : List (List String) => { line with operands := operands.flatten })
  rw [hresolve, Program.faultIn_mapM]
  exact Except.mapM_eq_error_congr
    (fun token hmem => (symbols.agree line.loc token).error_iff (hb token hmem)) e

end Octet
