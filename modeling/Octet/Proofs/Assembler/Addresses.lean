import Octet.Machine.Cpu
import Octet.Proofs.Assembler.Names
import Octet.Proofs.Assembler.Stages
/-!
The addresses in an image.

* `lineAddress`, `dataAddress`: where lines and data stand, counted in numbers that do not wrap;
* `Denotes`: the operands that a token of a line has to stand for;
* `Image.Addressed`: an image whose operands, code and data are where the addresses say;
* `addressed_of_assemble`: every image that is assembled is one.
-/

namespace Octet

open Instruction

/-! ## Addresses -/

/-- The address of the line number `i`: the origin, and the lengths of the expansions of the lines before it. -/
def lineAddress (origin : UInt16) (expansions : List (List Instruction)) (i : Nat) : Nat :=
  origin.toNat + ((expansions.take i).map totalLength).sum

/-- The address of the datum number `k`: the end of the code, and the lengths of the data before it. -/
def dataAddress (origin : UInt16) (expansions : List (List Instruction)) (data : List Datum) (k : Nat) : Nat :=
  lineAddress origin expansions expansions.length + Program.dataLength (data.take k)

/-- The operands for an address: its high byte and its low byte. -/
def addressOperands (address : Nat) : List Operand :=
  [.byte (highByte (UInt16.ofNat address)), .byte (lowByte (UInt16.ofNat address))]

theorem lineAddress_succ {origin : UInt16} {expansions : List (List Instruction)} {i : Nat}
    {expansion : List Instruction} (h : expansions[i]? = some expansion) :
    lineAddress origin expansions (i + 1) = lineAddress origin expansions i + totalLength expansion := by
  rw [lineAddress, lineAddress, List.take_add_one, h, List.map_append, List.sum_append, Nat.add_assoc]
  rfl

/-! ## What a token stands for -/

/-- The operands that a token of the line number `i` stands for, in a program made of some statements. -/
structure Denotes (origin : UInt16) (statements : List LocatedStatement) (expansions : List (List Instruction))
    (i : Nat) (token : String) (ops : List Operand) : Prop where
  /-- `$` is the address of its own line. -/
  current : token = "$" → ops = addressOperands (lineAddress origin expansions i)
  /-- A label is the address of the line that it precedes. -/
  label : ∀ j, Precedes statements token j → ops = addressOperands (lineAddress origin expansions j)
  high : ∀ k datum, (dataOf statements)[k]? = some datum → token = datum.name ++ ".H" →
    ops = [.byte (highByte (UInt16.ofNat (dataAddress origin expansions (dataOf statements) k)))]
  low : ∀ k datum, (dataOf statements)[k]? = some datum → token = datum.name ++ ".L" →
    ops = [.byte (lowByte (UInt16.ofNat (dataAddress origin expansions (dataOf statements) k)))]
  /-- A constant that is not also a label is what its text says. -/
  constant : ∀ text, (token, text) ∈ constantsOf statements → token ∉ labelsOf statements →
    Symbols.constantOperands text = .ok ops
  /-- Anything else is literal. -/
  literal : token ≠ "$" → token ∉ labelsOf statements →
    (∀ datum ∈ dataOf statements, token ≠ datum.name ++ ".H" ∧ token ≠ datum.name ++ ".L") →
    (∀ text, (token, text) ∉ constantsOf statements) → ∃ op, parseOperand token = some op ∧ ops = [op]

/-! ## Images -/

/-- What stands where in an image that is assembled from some statements: the `i`-th line of the source becomes the
`i`-th expansion. -/
structure Image.Addressed (image : Image) (start : UInt16) (statements : List LocatedStatement)
    (expansions : List (List Instruction)) : Prop where
  origin : image.origin = originAfter start statements
  length_expansions : expansions.length = (instructionsOf statements).length
  /-- Every label precedes a line. -/
  labels : ∀ name ∈ labelsOf statements, ∃ i, i < expansions.length ∧ Precedes statements name i
  /-- A line is expanded with the operands that its tokens stand for. -/
  expansion : ∀ i tokens, (instructionsOf statements)[i]? = some tokens → ∃ name rest m operands expansion,
    tokens = name :: rest ∧ Mnemonic.ofName? name = some m ∧
      List.Forall₂ (Denotes image.origin statements expansions i) rest operands ∧
      m.expand operands.flatten (UInt16.ofNat (lineAddress image.origin expansions (i + 1))) = some expansion ∧
      expansions[i]? = some expansion
  /-- A call pushes the address after it, high byte first. -/
  call : ∀ i rest, (instructionsOf statements)[i]? = some ("CALL" :: rest) → ∃ after jump,
    lineAddress image.origin expansions (i + 1) = after ∧ after < 0x10000 ∧
      expansions[i]? = some (⟨.push, .source (.imm (highByte (UInt16.ofNat after)))⟩ ::
        ⟨.push, .source (.imm (lowByte (UInt16.ofNat after)))⟩ :: jump)
  /-- At the offset of a line stands the machine code of its expansion. -/
  code : ∀ i expansion, expansions[i]? = some expansion → ∃ bytes, encodeAll expansion = .ok bytes ∧
    bytes.length = totalLength expansion ∧
      (image.bytes.drop (lineAddress image.origin expansions i - image.origin.toNat)).take bytes.length = bytes
  /-- At the offset of data stand their bytes. -/
  payload : ∀ k datum, (dataOf statements)[k]? = some datum →
    (image.bytes.drop (dataAddress image.origin expansions (dataOf statements) k - image.origin.toNat)).take
      datum.bytes.length = datum.bytes
  /-- The data end where the image does, and start where the code ends. -/
  codeEnd : lineAddress image.origin expansions expansions.length = image.origin.toNat + image.code.length
  dataEnd : dataAddress image.origin expansions (dataOf statements) (dataOf statements).length =
    image.origin.toNat + image.bytes.length
  line_lt : ∀ i, i < expansions.length → lineAddress image.origin expansions i < 0x10000
  data_lt : ∀ k, k < (dataOf statements).length → dataAddress image.origin expansions (dataOf statements) k < 0x10000
  fits : image.origin.toNat + image.bytes.length ≤ 0x10000
  loads : ∀ cpu : Cpu, ∃ loaded, cpu.load image.origin image.bytes = .ok loaded

/-! ## Reading tokens -/

/-- There is no dot in the token of a byte. -/
theorem nameBefore?_byteToken (v : UInt8) (letter : Char) : Symbols.nameBefore? (byteToken v) letter = none := by
  have hdot : '.' ∉ (byteToken v).toList :=
    forall_byte (P := fun v => '.' ∉ (byteToken v).toList) (by decide +kernel) v
  cases hn : Symbols.nameBefore? (byteToken v) letter with
  | none => rfl
  | some name =>
    rw [Symbols.nameBefore?_eq_some_iff.1 hn] at hdot
    simp at hdot

/-- A token of a line at an address, with the address in place of `$`. -/
def tokenAt (address : UInt16) (token : String) : List String :=
  if token = currentAddressToken then [byteToken (highByte address), byteToken (lowByte address)] else [token]

theorem tokenAt_current (address : UInt16) :
    tokenAt address "$" = [byteToken (highByte address), byteToken (lowByte address)] := if_pos rfl

theorem tokenAt_of_ne {address : UInt16} {token : String} (h : token ≠ "$") : tokenAt address token = [token] :=
  if_neg h

/-- The literal operands as which a token of a line at an address is read in the end. -/
def Symbols.Reads (symbols : Symbols) (address : UInt16) (token : String) (ops : List Operand) : Prop :=
  ∃ tokens, (tokenAt address token).mapM symbols.substitute = .ok tokens ∧ tokens.flatten.mapM literal = .ok ops

/-- The operands of a line are those of its tokens, one token after the other. -/
theorem Symbols.exists_reads {symbols : Symbols} {address : UInt16} {tokens : List String}
    {replaced : List (List String)} {ops : List Operand}
    (hs : (tokens.flatMap (tokenAt address)).mapM symbols.substitute = .ok replaced)
    (hl : replaced.flatten.mapM literal = .ok ops) :
    ∃ operands, List.Forall₂ (symbols.Reads address) tokens operands ∧ operands.flatten = ops := by
  induction tokens generalizing replaced ops with
  | nil =>
    cases hs
    cases hl
    exact ⟨[], .nil, rfl⟩
  | cons token tokens ih =>
    rw [List.flatMap_cons, List.mapM_append] at hs
    obtain ⟨first, hfirst, hs⟩ := Except.bind_eq_ok.1 hs
    obtain ⟨rest, hrest, hs⟩ := Except.bind_eq_ok.1 hs
    cases hs
    rw [List.flatten_append, List.mapM_append] at hl
    obtain ⟨ops₁, hops₁, hl⟩ := Except.bind_eq_ok.1 hl
    obtain ⟨ops₂, hops₂, hl⟩ := Except.bind_eq_ok.1 hl
    cases hl
    obtain ⟨operands, hall, rfl⟩ := ih hrest hops₂
    exact ⟨ops₁ :: operands, .cons ⟨first, hfirst, hops₁⟩ hall, rfl⟩

namespace Symbols.Reads

variable {symbols : Symbols} {address : UInt16} {token : String} {ops : List Operand}

theorem mapM_literal (h : symbols.Reads address token ops) (hne : token ≠ "$") {tokens : List String}
    (hs : symbols.substitute token = .ok tokens) : tokens.mapM literal = .ok ops := by
  obtain ⟨replaced, hr, hl⟩ := h
  rw [tokenAt_of_ne hne, List.mapM_cons, hs, List.mapM_nil] at hr
  cases hr
  rwa [List.flatten_cons, List.flatten_nil, List.append_nil] at hl

/-- The address of a line is read as its two bytes, if no name looks like a number. -/
theorem current (h : symbols.Reads address "$" ops) (hb : ∀ v, symbols.lookup (byteToken v) = none) :
    ops = [.byte (highByte address), .byte (lowByte address)] := by
  obtain ⟨replaced, hr, hl⟩ := h
  have hs (v : UInt8) : symbols.substitute (byteToken v) = .ok [byteToken v] := by
    rw [substitute, hb, literal_byteToken]
    rfl
  rw [tokenAt_current, List.mapM_cons, hs, List.mapM_cons, hs, List.mapM_nil] at hr
  cases hr
  exact (Except.ok.inj (hl.symm.trans (mapM_literal_pair _ _)))

theorem procedure (h : symbols.Reads address token ops) (hne : token ≠ "$") {a : UInt16}
    (hp : symbols.procedure? token = some (some a)) : ops = [.byte (highByte a), .byte (lowByte a)] := by
  have hs : symbols.substitute token = .ok [byteToken (highByte a), byteToken (lowByte a)] := by
    rw [substitute, lookup_of_procedure? hp]
  exact Except.ok.inj ((h.mapM_literal hne hs).symm.trans (mapM_literal_pair _ _))

theorem byte (h : symbols.Reads address token ops) (hne : token ≠ "$") {v : UInt8}
    (hs : symbols.substitute token = .ok [byteToken v]) : ops = [.byte v] := by
  have hl := h.mapM_literal hne hs
  rw [mapM_literal_singleton, literal_byteToken] at hl
  exact (Except.ok.inj hl).symm

theorem constant (h : symbols.Reads address token ops) (hne : token ≠ "$") {text : String}
    (hl : symbols.lookup token = some (.constant text)) : constantOperands text = .ok ops := by
  obtain ⟨replaced, hr, -⟩ := id h
  rw [tokenAt_of_ne hne, List.mapM_cons] at hr
  obtain ⟨tokens, hs, -⟩ := Except.bind_eq_ok.1 hr
  have hread := h.mapM_literal hne hs
  rw [substitute, hl] at hs
  obtain ⟨ops', -, hs⟩ := Except.bind_eq_ok.1 hs
  cases hs
  exact hread

theorem literal (h : symbols.Reads address token ops) (hne : token ≠ "$") (hl : symbols.lookup token = none) :
    ∃ op, parseOperand token = some op ∧ ops = [op] := by
  obtain ⟨replaced, hr, -⟩ := id h
  rw [tokenAt_of_ne hne, List.mapM_cons] at hr
  obtain ⟨tokens, hs, -⟩ := Except.bind_eq_ok.1 hr
  have hread := h.mapM_literal hne hs
  rw [substitute, hl] at hs
  obtain ⟨op, hop, hs⟩ := Except.bind_eq_ok.1 hs
  cases hs
  rw [mapM_literal_singleton, hop] at hread
  refine ⟨op, ?_, (Except.ok.inj hread).symm⟩
  unfold Symbols.literal at hop
  split at hop
  · rename_i hp
    rw [hp, Except.ok.inj hop]
  · cases hop

end Symbols.Reads

/-! ## Lines -/

/-- A line whose mnemonic is no `$` has only its operands replaced. -/
theorem Line.replaceCurrentAddress_of_ne {line : Line} (address : UInt16) (h : line.mnemonic ≠ "$") :
    (line.replaceCurrentAddress address).mnemonic = line.mnemonic ∧
      (line.replaceCurrentAddress address).operands = line.operands.flatMap (tokenAt address) := by
  have hflat : line.tokens.flatMap (tokenAt address) = line.mnemonic :: line.operands.flatMap (tokenAt address) := by
    rw [Line.tokens, List.flatMap_cons, tokenAt_of_ne h]
    rfl
  exact ⟨congrArg (List.headD · "") hflat, congrArg List.tail hflat⟩

/-- What takes the place of `$` is the name of no instruction. -/
theorem Line.mnemonic_ne_of_ofName? {line : Line} {address : UInt16} {m : Mnemonic}
    (h : Mnemonic.ofName? (line.replaceCurrentAddress address).mnemonic = some m) : line.mnemonic ≠ "$" := by
  intro he
  have hbyte : (line.replaceCurrentAddress address).mnemonic = byteToken (highByte address) := by
    simp [replaceCurrentAddress, withTokens, Line.tokens, he, currentAddressToken]
  rw [hbyte, ofName?_byteToken] at h
  cases h

theorem getElem?_of_forall₂ {α β : Type} {R : α → β → Prop} {xs : List α} {ys : List β} (h : List.Forall₂ R xs ys)
    {i : Nat} {x : α} (hx : xs[i]? = some x) : ∃ y, ys[i]? = some y ∧ R x y := by
  induction h generalizing i with
  | nil => simp at hx
  | cons hxy _ ih =>
    cases i with
    | zero => cases hx; exact ⟨_, rfl, hxy⟩
    | succ i => exact ih hx

namespace Stages

variable {files : SourceFiles} {origin : UInt16} {path text : String} (s : Stages files origin path text)

/-- **What becomes of a line.** Its mnemonic expands the operands as which its tokens are read. -/
theorem exists_operands {i : Nat} {line : Line} (hl : s.program.lines[i]? = some line) :
    ∃ m operands expansion, s.expansions[i]? = some expansion ∧
      lineAddress s.layout.origin s.expansions i ≤ 0xFFFF ∧
      Mnemonic.ofName? line.mnemonic = some m ∧
      List.Forall₂ (s.layout.symbols.Reads (UInt16.ofNat (lineAddress s.layout.origin s.expansions i)))
        line.operands operands ∧
      m.expand operands.flatten (UInt16.ofNat (lineAddress s.layout.origin s.expansions (i + 1))) = some expansion ∧
      (m.isCall = true → lineAddress s.layout.origin s.expansions (i + 1) ≤ 0xFFFF) := by
  obtain ⟨placed, h⟩ := s.exists_laidOut
  obtain ⟨p, size, hp, hsize, hplaces⟩ := h.places i line hl
  have hresolved := Traced.result_mapList_eq_ok_iff.1 s.resolved_eq
  have hexpansions := Except.mapM_eq_ok_iff.1 s.expansions_eq
  rw [h.lines, List.forall₂_map_left_iff] at hresolved
  obtain ⟨resolved, hri, hr⟩ := getElem?_of_forall₂ hresolved hp
  obtain ⟨expansion, hei, he⟩ := getElem?_of_forall₂ hexpansions hri
  obtain ⟨replaced, hsub, rfl⟩ := Line.result_resolve_eq_ok_iff.1 hr
  obtain ⟨m, ops, hname, hlit, hexpand⟩ := Line.operations_eq_ok_iff.1 he
  obtain ⟨m', hm', hcall, hreturn⟩ := hplaces.measured
  obtain ⟨hname', -⟩ := Line.measure_eq_ok_iff.1 hm'
  obtain rfl : m = m' := Option.some.inj (hname.symm.trans hname')
  -- the offset of the line, and that of the next one
  have hline : lineAddress s.layout.origin s.expansions i =
      s.program.origin.toNat + ((s.expansions.map totalLength).take i).sum := by
    rw [lineAddress, h.origin, List.map_take]
  have hnext : lineAddress s.layout.origin s.expansions (i + 1) =
      s.program.origin.toNat + (((s.expansions.map totalLength).take i).sum + size) := by
    rw [List.getElem?_map, hei, Option.map_some] at hsize
    rw [lineAddress_succ hei, hline, Option.some.inj hsize, Nat.add_assoc]
  have haddress : p.address = UInt16.ofNat (lineAddress s.layout.origin s.expansions i) := by
    rw [hline]
    exact hplaces.address
  -- the tokens of the placed line are those of the line, with its address in place of `$`
  have htokens := hplaces.tokens
  have hmnemonic : (line.replaceCurrentAddress p.address).mnemonic = p.line.mnemonic := (List.cons.inj htokens).1.symm
  obtain ⟨hm₁, hops₁⟩ := Line.replaceCurrentAddress_of_ne p.address
    (Line.mnemonic_ne_of_ofName? (hmnemonic.symm ▸ hname))
  obtain ⟨hm₀, hops₀⟩ := List.cons.inj htokens
  rw [hm₁] at hm₀
  rw [hops₁] at hops₀
  rw [hops₀, haddress] at hsub
  obtain ⟨operands, hall, rfl⟩ := Symbols.exists_reads hsub hlit
  refine ⟨m, operands, expansion, hei, ?_, hm₀ ▸ hname, hall, ?_, ?_⟩
  · rw [hline]
    exact hplaces.inMemory
  · cases hc : m.isCall with
    | false => rwa [expand_of_not_isCall hc _ _ (p.line.returnAddress.getD 0)]
    | true =>
      rw [hreturn, hc, if_pos rfl, Option.getD_some] at hexpand
      rwa [hnext]
  · intro hc
    rw [hnext]
    exact hcall hc

/-! ## Symbols of the stages -/

/-- The statements of the source. -/
abbrev statements (_ : Stages files origin path text) : List LocatedStatement :=
  (SourceTree.read files path text).reports

theorem procedure?_of_precedes {name : String} {j : Nat} (hp : Precedes s.statements name j) :
    s.layout.symbols.procedure? name = some (some (UInt16.ofNat (lineAddress s.layout.origin s.expansions j))) := by
  obtain ⟨placed, h⟩ := s.exists_laidOut
  obtain ⟨line, hline, hname⟩ := hp.exists_line
  rw [← s.collects.lines] at hline
  obtain ⟨p, size, hpj, -, hplaces⟩ := h.places j line hline
  have haddress : p.address = UInt16.ofNat (lineAddress s.layout.origin s.expansions j) := by
    rw [hplaces.address, lineAddress, h.origin, List.map_take]
  rw [← haddress]
  exact h.procedure?_of_mem s.collects (List.mem_of_getElem? hpj) (hplaces.labels ▸ hname)

theorem procedure?_of_notMem {name : String} (hn : name ∉ labelsOf s.statements) :
    s.layout.symbols.procedure? name = none := by
  obtain ⟨placed, h⟩ := s.exists_laidOut
  exact h.procedure?_of_notMem s.collects hn

theorem datum?_of_getElem? {k : Nat} {datum : Datum} (hd : (dataOf s.statements)[k]? = some datum) :
    s.layout.symbols.datum? datum.name = some { datum with
      address := UInt16.ofNat (dataAddress s.layout.origin s.expansions (dataOf s.statements) k) } := by
  obtain ⟨placed, h⟩ := s.exists_laidOut
  have hdata := s.collects.symbols.data
  rw [← hdata] at hd ⊢
  have hcode : s.layout.origin.toNat + s.layout.codeSize =
      lineAddress s.layout.origin s.expansions s.expansions.length := by
    rw [lineAddress, List.take_length, h.codeSize]
  rw [dataAddress, ← hcode, Nat.add_assoc, h.origin]
  have hnames : (s.layout.symbols.data.map (·.name)).Nodup := by
    rw [h.map_data fun name _ => name, hdata]
    exact s.collects.symbols.nodup_data
  exact Symbols.datum?_of_getElem? hnames (h.data k datum hd).2

theorem datum?_of_notMem {name : String} (hn : ∀ datum ∈ dataOf s.statements, name ≠ datum.name) :
    s.layout.symbols.datum? name = none := by
  obtain ⟨placed, h⟩ := s.exists_laidOut
  rw [← Option.not_isSome_iff_eq_none, Symbols.datum?_isSome_iff]
  intro hmem
  rw [Symbols.dataNames, h.map_data fun name _ => name, s.collects.symbols.data] at hmem
  obtain ⟨datum, hd, rfl⟩ := List.mem_map.1 hmem
  exact hn datum hd rfl

theorem constant?_of_mem {name definition : String} (hc : (name, definition) ∈ constantsOf s.statements) :
    s.layout.symbols.constant? name = some definition := by
  obtain ⟨placed, h⟩ := s.exists_laidOut
  rw [Symbols.constant?, ← (h.alike s.collects).constants, s.collects.symbols.constants]
  exact Symbols.lookup_of_mem s.collects.symbols.nodup_constants hc

theorem constant?_of_notMem {name : String} (hc : ∀ definition, (name, definition) ∉ constantsOf s.statements) :
    s.layout.symbols.constant? name = none := by
  obtain ⟨placed, h⟩ := s.exists_laidOut
  refine Symbols.constant?_eq_none ?_
  rw [Symbols.constantNames, ← (h.alike s.collects).constants, s.collects.symbols.constants]
  rintro hmem
  obtain ⟨⟨_, definition⟩, hd, rfl⟩ := List.mem_map.1 hmem
  exact hc definition hd

theorem isName_of_label {name : String} (h : name ∈ labelsOf s.statements) : IsName name :=
  isName_of_mem_labelsOf (fun _ => SourceTree.named_of_mem_read) h

theorem isName_of_constant {name definition : String} (h : (name, definition) ∈ constantsOf s.statements) :
    IsName name :=
  isName_of_mem_constantsOf (fun _ => SourceTree.named_of_mem_read) h

/-- A token that is no name is no label and no constant. -/
theorem not_symbol_of_not_isName {token : String} (h : ¬ IsName token) :
    s.layout.symbols.procedure? token = none ∧ s.layout.symbols.constant? token = none :=
  ⟨s.procedure?_of_notMem fun hl => h (s.isName_of_label hl),
    s.constant?_of_notMem fun _ hc => h (s.isName_of_constant hc)⟩

/-- No symbol looks like a byte. -/
theorem lookup_byteToken (v : UInt8) : s.layout.symbols.lookup (byteToken v) = none := by
  obtain ⟨hp, hc⟩ := s.not_symbol_of_not_isName fun h => h.ne_byteToken v rfl
  rw [Symbols.lookup_of_none hp, hc, Option.map_none]
  intro letter name hn
  rw [nameBefore?_byteToken] at hn
  cases hn

/-- **Tokens are read as what they stand for.** -/
theorem denotes_of_reads {i : Nat} {token : String} {ops : List Operand}
    (h : s.layout.symbols.Reads (UInt16.ofNat (lineAddress s.layout.origin s.expansions i)) token ops) :
    Denotes s.layout.origin s.statements s.expansions i token ops where
  current := by
    rintro rfl
    exact h.current s.lookup_byteToken
  label := by
    intro j hj
    have hmem : token ∈ labelsOf s.statements := hj.mem_labelsOf
    exact h.procedure (s.isName_of_label hmem).ne_currentAddress (s.procedure?_of_precedes hj)
  high := by
    rintro k datum hd rfl
    have hhigh := Symbols.nameBefore?_append_dot datum.name 'H' 'H'
    obtain ⟨hp, -⟩ := s.not_symbol_of_not_isName (IsName.not_append_dot datum.name 'H')
    refine h.byte (IsName.append_dot_ne_currentAddress _ _) ?_
    rw [Symbols.substitute, Symbols.lookup_of_datum?_high hp hhigh (s.datum?_of_getElem? hd)]
  low := by
    rintro k datum hd rfl
    have hhigh := Symbols.nameBefore?_append_dot datum.name 'L' 'H'
    have hlow := Symbols.nameBefore?_append_dot datum.name 'L' 'L'
    obtain ⟨hp, -⟩ := s.not_symbol_of_not_isName (IsName.not_append_dot datum.name 'L')
    refine h.byte (IsName.append_dot_ne_currentAddress _ _) ?_
    rw [Symbols.substitute, Symbols.lookup_of_datum?_low hp hhigh hlow (s.datum?_of_getElem? hd)]
  constant := by
    intro definition hc hn
    have hname := s.isName_of_constant hc
    refine h.constant hname.ne_currentAddress ?_
    rw [Symbols.lookup_of_none (s.procedure?_of_notMem hn), s.constant?_of_mem hc]
    · rfl
    · intro letter name hl
      rw [hname.nameBefore?_eq_none] at hl
      cases hl
  literal := by
    intro hne hl hd hc
    refine h.literal hne ?_
    rw [Symbols.lookup_of_none (s.procedure?_of_notMem hl), s.constant?_of_notMem hc, Option.map_none]
    intro letter name hn hletter
    refine s.datum?_of_notMem fun datum hmem he => ?_
    have htoken := Symbols.nameBefore?_eq_some_iff.1 hn
    rw [he] at htoken
    rcases hletter with rfl | rfl
    · exact (hd datum hmem).1 htoken
    · exact (hd datum hmem).2 htoken

/-! ## The image of the stages -/

theorem length_expansions : s.expansions.length = (instructionsOf s.statements).length := by
  obtain ⟨placed, h⟩ := s.exists_laidOut
  have hlength := h.length_sizes
  rwa [List.length_map, s.collects.lines, length_linesFrom] at hlength

/-- The parts of the image: the code of each line, and then the bytes of each datum. -/
def parts : List (List UInt8) := s.expansions.map codeOf ++ (dataOf s.statements).map (·.bytes)

theorem bytes_image : s.image.bytes = s.parts.flatten := by
  obtain ⟨placed, h⟩ := s.exists_laidOut
  have hdata : s.layout.symbols.data.map (·.bytes) = (dataOf s.statements).map (·.bytes) := by
    rw [h.map_data fun _ bytes => bytes, s.collects.symbols.data]
  rw [parts, List.flatten_append, ← hdata]
  show codeOf s.operations ++ s.layout.symbols.data.flatMap (·.bytes) = _
  rw [operations, codeOf_flatten, List.flatMap_def]

theorem length_codeOf_expansion {expansion : List Instruction} (h : expansion ∈ s.expansions) :
    (codeOf expansion).length = totalLength expansion :=
  length_codeOf fun i hi => s.valid i (List.mem_flatten.2 ⟨expansion, h, hi⟩)

end Stages

/-- A part of a concatenation stands behind the parts before it. -/
theorem take_drop_flatten {α : Type} {parts : List (List α)} {j : Nat} {part : List α} (h : parts[j]? = some part) :
    (parts.flatten.drop (parts.take j).flatten.length).take part.length = part := by
  obtain ⟨hj, rfl⟩ := List.getElem?_eq_some_iff.1 h
  have hsplit : parts.flatten = (parts.take j).flatten ++ (parts[j] ++ (parts.drop (j + 1)).flatten) := by
    rw [← List.flatten_cons, ← List.flatten_append, ← List.drop_eq_getElem_cons hj, List.take_append_drop]
  rw [hsplit, List.drop_left, List.take_left]

namespace Stages

variable {files : SourceFiles} {origin : UInt16} {path text : String} (s : Stages files origin path text)

/-- The parts of the image before a line are as long as the expansions before it. -/
theorem length_take_codes (i : Nat) :
    (((s.expansions.map codeOf).take i).flatten).length = ((s.expansions.take i).map totalLength).sum := by
  rw [← List.map_take, List.length_flatten, List.map_map]
  refine congrArg List.sum (List.map_congr_left fun expansion h => ?_)
  exact s.length_codeOf_expansion (List.mem_of_mem_take h)

theorem slice_code {i : Nat} {expansion : List Instruction} (h : s.expansions[i]? = some expansion) :
    (s.image.bytes.drop (lineAddress s.image.origin s.expansions i - s.image.origin.toNat)).take
      (codeOf expansion).length = codeOf expansion := by
  have hi := (List.getElem?_eq_some_iff.1 h).1
  have hpart : s.parts[i]? = some (codeOf expansion) := by
    rw [parts, List.getElem?_append_left (by simpa using hi), List.getElem?_map, h]
    rfl
  have hbefore : s.parts.take i = (s.expansions.map codeOf).take i :=
    List.take_append_of_le_length (by simpa using Nat.le_of_lt hi)
  rw [lineAddress, Nat.add_sub_cancel_left, ← s.length_take_codes, s.bytes_image, ← hbefore]
  exact take_drop_flatten hpart

theorem slice_data {k : Nat} {datum : Datum} (h : (dataOf s.statements)[k]? = some datum) :
    (s.image.bytes.drop (dataAddress s.image.origin s.expansions (dataOf s.statements) k - s.image.origin.toNat)).take
      datum.bytes.length = datum.bytes := by
  have hpart : s.parts[s.expansions.length + k]? = some datum.bytes := by
    rw [parts, List.getElem?_append_right (by simp), List.length_map, Nat.add_sub_cancel_left, List.getElem?_map, h]
    rfl
  have hbefore : (s.parts.take (s.expansions.length + k)).flatten.length =
      dataAddress s.image.origin s.expansions (dataOf s.statements) k - s.image.origin.toNat := by
    have hcodes := s.length_take_codes s.expansions.length
    rw [List.take_of_length_le (by simp)] at hcodes
    have hlength : (s.expansions.map codeOf).length = s.expansions.length := List.length_map _
    rw [parts, ← hlength, List.take_length_add_append, List.flatten_append, List.length_append, hcodes, dataAddress,
      lineAddress, Nat.add_assoc, Nat.add_sub_cancel_left, ← List.map_take, List.length_flatten, List.map_map]
    rfl
  rw [← hbefore, s.bytes_image]
  exact take_drop_flatten hpart

theorem lineAddress_length :
    lineAddress s.image.origin s.expansions s.expansions.length = s.image.origin.toNat + s.layout.codeSize := by
  obtain ⟨placed, h⟩ := s.exists_laidOut
  rw [lineAddress, List.take_length, h.codeSize]

theorem exists_line {i : Nat} {tokens : List String} (h : (instructionsOf s.statements)[i]? = some tokens) :
    ∃ line, s.program.lines[i]? = some line ∧ line.mnemonic = tokens.headD "" ∧ line.operands = tokens.tail := by
  have hmap := congrArg (fun l => l[i]?) (map_tokens_linesFrom [] s.statements)
  simp only [List.getElem?_map, h, Option.map_some, Option.map_eq_some_iff, Prod.mk.injEq] at hmap
  rwa [s.collects.lines]

/-- The expansion of an instruction. -/
theorem exists_expansion {i : Nat} {tokens : List String} (h : (instructionsOf s.statements)[i]? = some tokens) :
    ∃ name rest m operands expansion, tokens = name :: rest ∧ Mnemonic.ofName? name = some m ∧
      List.Forall₂ (Denotes s.image.origin s.statements s.expansions i) rest operands ∧
      m.expand operands.flatten (UInt16.ofNat (lineAddress s.image.origin s.expansions (i + 1))) = some expansion ∧
      s.expansions[i]? = some expansion := by
  obtain ⟨line, hline, hmnemonic, hoperands⟩ := s.exists_line h
  obtain ⟨m, operands, expansion, hi, -, hname, hreads, hexpand, -⟩ := s.exists_operands hline
  cases tokens with
  | nil =>
    have hempty : Mnemonic.ofName? "" = none := by decide
    rw [hmnemonic] at hname
    cases hempty.symm.trans hname
  | cons name rest =>
    rw [hmnemonic] at hname
    rw [hoperands] at hreads
    exact ⟨name, rest, m, operands, expansion, rfl, hname, hreads.imp fun _ _ h => s.denotes_of_reads h, hexpand, hi⟩

/-- A call pushes the address after it. -/
theorem exists_pushes {i : Nat} {rest : List String} (h : (instructionsOf s.statements)[i]? = some ("CALL" :: rest)) :
    ∃ after jump, lineAddress s.image.origin s.expansions (i + 1) = after ∧ after < 0x10000 ∧
      s.expansions[i]? = some (⟨.push, .source (.imm (highByte (UInt16.ofNat after)))⟩ ::
        ⟨.push, .source (.imm (lowByte (UInt16.ofNat after)))⟩ :: jump) := by
  obtain ⟨line, hline, hmnemonic, -⟩ := s.exists_line h
  obtain ⟨m, operands, expansion, hi, -, hname, -, hexpand, hle⟩ := s.exists_operands hline
  have hcall : Mnemonic.ofName? "CALL" = some (.compound .call) := by decide
  rw [hmnemonic, List.headD_cons, hcall] at hname
  cases hname
  obtain ⟨jump, rfl⟩ := expand_of_isCall rfl hexpand
  exact ⟨_, jump, rfl, Nat.lt_succ_of_le (hle rfl), hi⟩

theorem lineAddress_lt {i : Nat} (hi : i < s.expansions.length) :
    lineAddress s.image.origin s.expansions i < 0x10000 := by
  obtain ⟨placed, h⟩ := s.exists_laidOut
  rw [← List.length_map totalLength, h.length_sizes] at hi
  obtain ⟨m, operands, expansion, -, hle, -⟩ := s.exists_operands (List.getElem?_eq_getElem hi)
  exact Nat.lt_succ_of_le hle

theorem dataAddress_lt {k : Nat} (hk : k < (dataOf s.statements).length) :
    dataAddress s.image.origin s.expansions (dataOf s.statements) k < 0x10000 := by
  obtain ⟨placed, h⟩ := s.exists_laidOut
  rw [dataAddress, s.lineAddress_length, Nat.add_assoc, show s.image.origin = s.program.origin from h.origin]
  rw [← s.collects.symbols.data] at hk ⊢
  exact Nat.lt_succ_of_le (h.data k _ (List.getElem?_eq_getElem hk)).1

end Stages

/-- **Every address in an image is right.** -/
theorem addressed_of_assemble {files : SourceFiles} {origin : UInt16} {path text : String} {image : Image}
    (h : (assemble files origin path text).result = .ok image) :
    ∃ expansions, image.Addressed origin (SourceTree.read files path text).reports expansions := by
  obtain ⟨s, rfl⟩ := assemble_eq_ok_iff.1 h
  obtain ⟨placed, hl⟩ := s.exists_laidOut
  refine ⟨s.expansions, {
    origin := hl.origin.trans s.collects.origin
    length_expansions := s.length_expansions
    labels := fun name hn => ?_
    expansion := fun i tokens h => s.exists_expansion h
    call := fun i rest h => ?_
    code := fun i expansion h => ?_
    payload := fun k datum h => s.slice_data h
    codeEnd := ?_
    dataEnd := ?_
    line_lt := fun i hi => ?_
    data_lt := fun k hk => ?_
    fits := s.fits
    loads := fun cpu => ?_ }⟩
  · rw [s.length_expansions]
    exact exists_precedes s.collects.waiting hn
  · exact s.exists_pushes h
  · have hmem := List.mem_of_getElem? h
    have hvalid : ∀ j ∈ expansion, j.Valid := fun j hj => s.valid j (List.mem_flatten.2 ⟨expansion, hmem, hj⟩)
    exact ⟨codeOf expansion, encodeAll_of_valid hvalid, length_codeOf hvalid, s.slice_code h⟩
  · rw [s.lineAddress_length, ← s.totalLength_operations, ← length_codeOf s.valid]
    rfl
  · rw [dataAddress, List.take_length, s.lineAddress_length, s.length_bytes, hl.totalSize, s.collects.symbols.data,
      Nat.add_assoc]
  · exact s.lineAddress_lt hi
  · exact s.dataAddress_lt hk
  · exact ⟨_, if_neg (Nat.not_lt.2 s.fits)⟩

/-- Calls a procedure that stands behind it and loads the first byte of a text. -/
def greeting : String := "#ORG 0x0100\nCALL GREET\nJMP $\nGREET:\nMOV A, TEXT.H, TEXT.L\nRET\n#DB TEXT \"hi\""

theorem addressed_of_assemble_greeting :
    ∃ image : Image, (assemble (.ofList []) 0x8000 "greeting.asm" greeting).result = .ok image ∧ image.size = 26 ∧
      ∃ expansions, image.Addressed 0x8000 (SourceTree.read (.ofList []) "greeting.asm" greeting).reports expansions := by
  have h : (assemble (.ofList []) 0x8000 "greeting.asm" greeting).result = .ok ⟨0x100,
    [0x8E, 0x01, 0x8E, 0x09, 0x02, 0x01, 0x0E, 0x88, 0x01, 0x02, 0x01, 0x09, 0x88, 0x01, 0x6B, 0x01, 0x17, 0x0F, 0x03,
      0x0F, 0x02, 0x88, 0x01],
    [0x68, 0x69, 0x00]⟩ := by cbv
  exact ⟨_, h, rfl, addressed_of_assemble h⟩

end Octet
