import Octet.Proofs.Assembler.Addresses
/-!
Two programs of the same lines, labels, constants and data, one of which stands some bytes lower.

* `Lowered`: an address, and the one some bytes lower;
* `Program.Twin`: the programs; the places of lines and data, and the order of the constants, are left free;
* `Program.Twin.exists_layOut`: where the upper one is laid out, so is the lower one;
* `Layout.Lowered`: what their layouts have to do with each other;
* `Stages.map_form_operations`, `Stages.operations_eq`: and their operations.
-/

namespace Octet

open Instruction

/-! ## Addresses -/

/-- An address, and the one `d` bytes lower. -/
def Lowered (d : Nat) (a a' : UInt16) : Prop := a'.toNat + d = a.toNat

theorem Lowered.eq {a a' : UInt16} (h : Lowered 0 a a') : a' = a := UInt16.toNat_inj.1 h

/-- Bytes as far behind two origins. -/
theorem Lowered.addressFrom {d offset : Nat} {o o' : UInt16} (h : Lowered d o o') (hle : o.toNat + offset ≤ 0xFFFF) :
    Lowered d (Program.addressFrom o offset) (Program.addressFrom o' offset) := by
  unfold Lowered at h ⊢
  rw [Program.toNat_addressFrom hle, Program.toNat_addressFrom (by omega)]
  omega

/-! ## Programs -/

/-- Lines of the same tokens and labels. -/
structure Line.Twin (line line' : Line) : Prop where
  mnemonic : line'.mnemonic = line.mnemonic
  operands : line'.operands = line.operands
  labels : line'.labels = line.labels

/-- Programs of the same lines, labels, constants and data, the second one `d` bytes lower. -/
structure Program.Twin (d : Nat) (p q : Program) : Prop where
  origin : Lowered d p.origin q.origin
  lines : List.Forall₂ Line.Twin p.lines q.lines
  procedures : q.symbols.procedures = p.symbols.procedures
  constants : ∀ name, q.symbols.constant? name = p.symbols.constant? name
  data : (q.symbols.data.map fun x => (x.name, x.bytes)) = p.symbols.data.map fun x => (x.name, x.bytes)

theorem Program.Twin.similar {d : Nat} {p q : Program} (h : p.Twin d q) : p.symbols.Similar q.symbols where
  constants name := (h.constants name).symm
  procedures name := by rw [Symbols.procedure?, Symbols.procedure?, h.procedures]
  data name := by
    have hnames := congrArg (List.map Prod.fst) h.data
    rw [List.map_map, List.map_map] at hnames
    rw [Bool.eq_iff_iff, Symbols.datum?_isSome_iff, Symbols.datum?_isSome_iff]
    exact iff_of_eq (congrArg (name ∈ ·) hnames.symm)

/-- Twins have the same labels. -/
theorem Program.Twin.flatMap_labels {d : Nat} {p q : Program} (h : p.Twin d q) :
    q.lines.flatMap (·.labels) = p.lines.flatMap (·.labels) := by
  have hlines := h.lines
  generalize p.lines = lines at hlines
  generalize q.lines = lines' at hlines
  induction hlines with
  | nil => rfl
  | cons htwin _ ih => rw [List.flatMap_cons, List.flatMap_cons, htwin.labels, ih]

/-! ## Sizes -/

namespace Symbols

variable {s s' : Symbols}

/-- No symbol looks like a byte. -/
def NoBytes (s : Symbols) : Prop := ∀ v, s.lookup (byteToken v) = none

theorem Similar.noBytes (h : s.Similar s') (hb : s.NoBytes) : s'.NoBytes := by
  intro v
  have hl := h.lookup (byteToken v)
  rw [hb v] at hl
  exact Option.map_eq_none_iff.1 hl.symm

theorem NoBytes.operands_byteToken (hb : s.NoBytes) (v : UInt8) : s.operands (byteToken v) = .ok [.byte v] := by
  rw [operands, hb v, literal_byteToken]
  rfl

/-- The forms of the operands of a token, with an address in place of `$`, do not depend on the address. -/
theorem Similar.mapM_form_tokenAt (h : s.Similar s') (hb : s.NoBytes) (a a' : UInt16) (token : String) :
    (tokenAt a token).mapM (fun t => List.map Operand.form <$> s.operands t) =
      (tokenAt a' token).mapM fun t => List.map Operand.form <$> s'.operands t := by
  by_cases hd : token = "$"
  · subst hd
    rw [tokenAt_current, tokenAt_current]
    simp only [List.mapM_cons, hb.operands_byteToken, (h.noBytes hb).operands_byteToken]
    rfl
  · rw [tokenAt_of_ne hd, tokenAt_of_ne hd, funext h.map_form_operands]

theorem Similar.mapM_form_flatMap (h : s.Similar s') (hb : s.NoBytes) (a a' : UInt16) (tokens : List String) :
    (tokens.flatMap (tokenAt a)).mapM (fun t => List.map Operand.form <$> s.operands t) =
      (tokens.flatMap (tokenAt a')).mapM fun t => List.map Operand.form <$> s'.operands t := by
  induction tokens with
  | nil => rfl
  | cons token tokens ih =>
    rw [List.flatMap_cons, List.flatMap_cons, List.mapM_append, List.mapM_append, h.mapM_form_tokenAt hb a a', ih]

end Symbols

/-- **The size of a line** depends neither on where it stands nor on any address. -/
theorem Line.Twin.measure {line line' : Line} {s s' : Symbols} {m : Mnemonic} {size : Nat} {a : UInt16}
    (h : line.Twin line') (hs : s.Similar s') (hb : s.NoBytes)
    (hm : (line.replaceCurrentAddress a).measure s = .ok (m, size)) (a' : UInt16) :
    (line'.replaceCurrentAddress a').measure s' = .ok (m, size) := by
  have hne : line.mnemonic ≠ "$" := mnemonic_ne_of_ofName? (measure_eq_ok_iff.1 hm).1
  obtain ⟨hn, ho⟩ := replaceCurrentAddress_of_ne a hne
  obtain ⟨hn', ho'⟩ := replaceCurrentAddress_of_ne a' (h.mnemonic ▸ hne)
  refine measure_of_forms (by rw [hn, hn', h.mnemonic]) ?_ hm
  rw [ho, ho', h.operands]
  exact hs.mapM_form_flatMap hb a a' line.operands

namespace Program

variable {d : Nat} {p q : Program} {origin origin' : UInt16} {symbols symbols' : Symbols}

/-- Symbols that are declared have names, and no name looks like a byte. -/
theorem Collects.noBytes {start : UInt16} {statements : List LocatedStatement} (h : p.Collects start statements)
    (hs : ∀ s ∈ statements, s.statement.Named) : p.symbols.NoBytes := by
  intro v
  have hprocedure : p.symbols.procedure? (byteToken v) = none := by
    refine Symbols.procedure?_eq_none ?_
    rw [h.symbols.procedureNames_eq]
    exact fun hmem => (isName_of_mem_labelsOf hs hmem).ne_byteToken v rfl
  have hconstant : p.symbols.constant? (byteToken v) = none := by
    refine Symbols.constant?_eq_none ?_
    rw [Symbols.constantNames, h.symbols.constants]
    intro hmem
    obtain ⟨⟨name, definition⟩, hdefinition, he⟩ := List.mem_map.1 hmem
    exact (isName_of_mem_constantsOf hs hdefinition).ne_byteToken v he
  rw [Symbols.lookup_of_none hprocedure, hconstant, Option.map_none]
  intro letter name hname
  rw [nameBefore?_byteToken] at hname
  cases hname

/-- What is measured is the line with its address. -/
theorem Places.exists_measure {offset size : Nat} {line : Line} {placed : PlacedLine}
    (h : Places origin symbols offset line placed size) :
    ∃ m, (line.replaceCurrentAddress placed.address).measure symbols = .ok (m, size) ∧
      (m.isCall = true → origin.toNat + (offset + size) ≤ 0xFFFF) ∧
        placed.line.returnAddress = if m.isCall then some (addressFrom origin (offset + size)) else none := by
  obtain ⟨m, hm, hcall, hreturn⟩ := h.measured
  obtain ⟨hn, ho⟩ := List.cons.inj h.tokens
  exact ⟨m, Line.measure_of_forms hn.symm (by rw [ho]) hm, hcall, hreturn⟩

/-- Where lines are placed, the same lines are placed as far behind a lower origin. -/
theorem exists_placeLines_of_twin {offset last : Nat} {lines lines' : List Line} {placed : List PlacedLine}
    (ho : Lowered d origin origin') (hs : symbols.Similar symbols') (hb : symbols.NoBytes)
    (hl : List.Forall₂ Line.Twin lines lines')
    (h : (placeLines origin symbols offset lines).result = .ok (placed, last)) :
    ∃ placed', (placeLines origin' symbols' offset lines').result = .ok (placed', last) := by
  unfold Lowered at ho
  induction hl generalizing offset placed with
  | nil =>
    cases h
    exact ⟨[], rfl⟩
  | cons htwin _ ih =>
    rw [placeLines, Traced.result_bind] at h
    obtain ⟨⟨first, size⟩, hfirst, h⟩ := Except.bind_eq_ok.1 h
    rw [Traced.result_bind] at h
    obtain ⟨⟨more, last'⟩, hmore, h⟩ := Except.bind_eq_ok.1 h
    cases h
    have hplaces := places_of_placeLine hfirst
    obtain ⟨m, hm, hcall, -⟩ := hplaces.exists_measure
    have hle : origin'.toNat + offset ≤ 0xFFFF := by have := hplaces.inMemory; omega
    have hafter (hc : m.isCall = true) : origin'.toNat + (offset + size) ≤ 0xFFFF := by have := hcall hc; omega
    obtain ⟨first', hfirst'⟩ := exists_placeLine hle (htwin.measure hs hb hm _) hafter
    obtain ⟨more', hmore'⟩ := ih hmore
    refine ⟨first' :: more', ?_⟩
    rw [placeLines, Traced.result_bind, hfirst', Except.ok_bind, Traced.result_bind, hmore']
    rfl

theorem dataLength_eq {data data' : List Datum}
    (h : (data'.map fun x => (x.name, x.bytes)) = data.map fun x => (x.name, x.bytes)) :
    dataLength data' = dataLength data := by
  have hlengths := congrArg (fun l => (l.map fun p : String × List UInt8 => p.2.length).sum) h
  simpa [dataLength, Function.comp_def] using hlengths

/-- Where data are placed, data of the same sizes are placed as far behind a lower origin. -/
theorem exists_placeData_of_twin {offset last : Nat} {data data' placed : List Datum} (ho : Lowered d origin origin')
    (hd : (data'.map fun x => (x.name, x.bytes)) = data.map fun x => (x.name, x.bytes))
    (h : (placeData origin offset data).result = .ok (placed, last)) :
    ∃ placed', (placeData origin' offset data').result = .ok (placed', last) := by
  unfold Lowered at ho
  obtain ⟨rfl, -, hplaced⟩ := placed_of_placeData h
  have hlength : data'.length = data.length := by simpa using congrArg List.length hd
  obtain ⟨placed', hplaced'⟩ := @exists_placeData origin' offset data' fun k hk => by
    have htake : dataLength (data'.take k) = dataLength (data.take k) :=
      dataLength_eq (by rw [List.map_take, hd, List.map_take])
    have hle := (hplaced k _ (List.getElem?_eq_getElem (hlength ▸ hk))).1
    omega
  exact ⟨placed', dataLength_eq hd ▸ hplaced'⟩

/-- **Where a program is laid out, so is its twin.** -/
theorem Twin.exists_layOut (h : p.Twin d q) (hb : p.symbols.NoBytes) {layout : Layout}
    (hl : p.layOut.result = .ok layout) : ∃ layout', q.layOut.result = .ok layout' := by
  obtain ⟨placed, codeSize, data, totalSize, hp, hd, hle, -⟩ := layOut_eq_ok_iff.1 hl
  obtain ⟨placed', hp'⟩ := exists_placeLines_of_twin h.origin h.similar hb h.lines hp
  obtain ⟨data', hd'⟩ := exists_placeData_of_twin h.origin h.data hd
  have ho : q.origin.toNat + d = p.origin.toNat := h.origin
  exact ⟨_, layOut_eq_ok_iff.2 ⟨placed', codeSize, data', totalSize, hp', hd', by omega, rfl⟩⟩

end Program

/-! ## Layouts -/

/-- Data and the same data at a lower address. -/
structure Datum.Lowered (d : Nat) (x x' : Datum) : Prop where
  name : x'.name = x.name
  bytes : x'.bytes = x.bytes
  address : Octet.Lowered d x.address x'.address

/-- Symbols and the same symbols with lower addresses. -/
structure Symbols.Lowered (d : Nat) (s s' : Symbols) : Prop where
  procedures : ∀ name, Option.Rel (Option.Rel (Octet.Lowered d)) (s.procedure? name) (s'.procedure? name)
  constants : ∀ name, s'.constant? name = s.constant? name
  data : List.Forall₂ (Datum.Lowered d) s.data s'.data

/-- A source line at an address and at a lower one: `$` and the return address are lower. -/
structure Line.Lowered (d : Nat) (source line line' : Line) : Prop where
  tokens : ∃ a a', Octet.Lowered d a a' ∧ line.tokens = (source.replaceCurrentAddress a).tokens ∧
    line'.tokens = (source.replaceCurrentAddress a').tokens
  returnAddress : Option.Rel (Octet.Lowered d) line.returnAddress line'.returnAddress

/-- A layout of some source lines, and the same with lower addresses. -/
structure Layout.Lowered (d : Nat) (source : List Line) (layout layout' : Layout) : Prop where
  origin : Octet.Lowered d layout.origin layout'.origin
  codeSize : layout'.codeSize = layout.codeSize
  totalSize : layout'.totalSize = layout.totalSize
  symbols : layout.symbols.Lowered d layout'.symbols
  lines : ∀ (i : Nat) (line : Line), source[i]? = some line →
    ∃ x x', layout.lines[i]? = some x ∧ layout'.lines[i]? = some x' ∧ line.Lowered d x x'

namespace Program.Twin

variable {d : Nat} {p q : Program} {placed placed' : List PlacedLine} {sizes sizes' : List Nat}
  {layout layout' : Layout} {start start' : UInt16} {statements statements' : List LocatedStatement}

theorem sizes_eq (h : p.Twin d q) (hb : p.symbols.NoBytes) (hp : p.LaidOut placed sizes layout)
    (hq : q.LaidOut placed' sizes' layout') : sizes' = sizes := by
  refine List.ext_getElem? fun i => ?_
  cases hl : p.lines[i]? with
  | none =>
    have hi := List.getElem?_eq_none_iff.1 hl
    rw [List.getElem?_eq_none (hq.length_sizes ▸ h.lines.length_eq ▸ hi),
      List.getElem?_eq_none (hp.length_sizes ▸ hi)]
  | some line =>
    obtain ⟨line', hl', htwin⟩ := getElem?_of_forall₂ h.lines hl
    obtain ⟨x, size, -, hsize, hplaces⟩ := hp.places i line hl
    obtain ⟨x', size', -, hsize', hplaces'⟩ := hq.places i line' hl'
    obtain ⟨m, hm, -⟩ := hplaces.exists_measure
    obtain ⟨m', hm', -⟩ := hplaces'.exists_measure
    have hsame := Except.ok.inj ((htwin.measure h.similar hb hm x'.address).symm.trans hm')
    rw [hsize, hsize', (Prod.mk.inj hsame).2]

/-- Lines of twins, with their addresses. -/
theorem lowered_lines (h : p.Twin d q) (hb : p.symbols.NoBytes) (hp : p.LaidOut placed sizes layout)
    (hq : q.LaidOut placed' sizes layout') {i : Nat} {line : Line} (hl : p.lines[i]? = some line) :
    ∃ x x', placed[i]? = some x ∧ placed'[i]? = some x' ∧ x.labels = line.labels ∧ x'.labels = line.labels ∧
      Lowered d x.address x'.address ∧ line.Lowered d x.line x'.line := by
  obtain ⟨line', hl', htwin⟩ := getElem?_of_forall₂ h.lines hl
  obtain ⟨x, size, hx, hsize, hplaces⟩ := hp.places i line hl
  obtain ⟨x', size', hx', hsize', hplaces'⟩ := hq.places i line' hl'
  obtain rfl : size = size' := Option.some.inj (hsize.symm.trans hsize')
  obtain ⟨m, hm, hcall, hreturn⟩ := hplaces.exists_measure
  obtain ⟨m', hm', -, hreturn'⟩ := hplaces'.exists_measure
  have hsame := Except.ok.inj ((htwin.measure h.similar hb hm x'.address).symm.trans hm')
  obtain rfl : m = m' := (Prod.mk.inj hsame).1
  have haddress : Lowered d x.address x'.address := by
    rw [hplaces.address, hplaces'.address]
    exact h.origin.addressFrom hplaces.inMemory
  refine ⟨x, x', hx, hx', hplaces.labels, hplaces'.labels.trans htwin.labels, haddress,
    ⟨_, _, haddress, hplaces.tokens, ?_⟩, ?_⟩
  · rw [hplaces'.tokens, Line.replaceCurrentAddress, Line.replaceCurrentAddress, Line.tokens, Line.tokens,
      htwin.mnemonic, htwin.operands]
    rfl
  · rw [hreturn, hreturn']
    cases hc : m.isCall with
    | false => exact .none
    | true => exact .some (h.origin.addressFrom (hcall hc))

/-- Labels of twins have lower addresses. -/
theorem lowered_procedures (h : p.Twin d q) (hb : p.symbols.NoBytes) (hp : p.LaidOut placed sizes layout)
    (hq : q.LaidOut placed' sizes layout') (hc : p.Collects start statements) (hc' : q.Collects start' statements')
    (name : String) :
    Option.Rel (Option.Rel (Lowered d)) (layout.symbols.procedure? name) (layout'.symbols.procedure? name) := by
  have hlabels : labelsOf statements' = labelsOf statements := by
    rw [← hc.flatMap_labels, ← hc'.flatMap_labels, h.flatMap_labels]
  by_cases hn : name ∈ labelsOf statements
  · obtain ⟨line, hline, hname⟩ := List.mem_flatMap.1 (hc.flatMap_labels.symm ▸ hn)
    obtain ⟨i, hi⟩ := List.mem_iff_getElem?.1 hline
    obtain ⟨x, x', hx, hx', hxl, hxl', ha, -⟩ := h.lowered_lines hb hp hq hi
    rw [hp.procedure?_of_mem hc (List.mem_of_getElem? hx) (hxl ▸ hname),
      hq.procedure?_of_mem hc' (List.mem_of_getElem? hx') (hxl' ▸ hname)]
    exact .some (.some ha)
  · rw [hp.procedure?_of_notMem hc hn, hq.procedure?_of_notMem hc' (hlabels ▸ hn)]
    exact .none

theorem lowered_data (h : p.Twin d q) (hp : p.LaidOut placed sizes layout) (hq : q.LaidOut placed' sizes layout') :
    List.Forall₂ (Datum.Lowered d) layout.symbols.data layout'.symbols.data := by
  have hlength : q.symbols.data.length = p.symbols.data.length := by simpa using congrArg List.length h.data
  refine List.forall₂_iff_get.2 ⟨by rw [hp.length_data, hq.length_data, hlength], fun k hk hk' => ?_⟩
  rw [hp.length_data] at hk
  rw [hq.length_data] at hk'
  obtain ⟨hle, hx⟩ := hp.data k _ (List.getElem?_eq_getElem hk)
  obtain ⟨-, hx'⟩ := hq.data k _ (List.getElem?_eq_getElem hk')
  have hsame := congrArg (fun l => l[k]?) h.data
  simp only [List.getElem?_map, List.getElem?_eq_getElem hk, List.getElem?_eq_getElem hk', Option.map_some,
    Option.some.injEq, Prod.mk.injEq] at hsame
  obtain ⟨_, hx⟩ := List.getElem?_eq_some_iff.1 hx
  obtain ⟨_, hx'⟩ := List.getElem?_eq_some_iff.1 hx'
  rw [List.get_eq_getElem, List.get_eq_getElem, hx, hx']
  refine ⟨hsame.1, hsame.2, ?_⟩
  have hbefore : dataLength (q.symbols.data.take k) = dataLength (p.symbols.data.take k) :=
    dataLength_eq (by simp only [List.map_take, h.data])
  dsimp only
  rw [hq.codeSize, ← hp.codeSize, hbefore]
  exact h.origin.addressFrom hle

/-- **Layouts of twins.** -/
theorem lowered_layout (h : p.Twin d q) (hb : p.symbols.NoBytes) (hc : p.Collects start statements)
    (hc' : q.Collects start' statements') (hl : p.layOut.result = .ok layout) (hl' : q.layOut.result = .ok layout') :
    layout.Lowered d p.lines layout' := by
  obtain ⟨placed, sizes, hp⟩ := exists_laidOut hl
  obtain ⟨placed', sizes', hq⟩ := exists_laidOut hl'
  obtain rfl := h.sizes_eq hb hp hq
  have hcode : layout'.codeSize = layout.codeSize := by rw [hp.codeSize, hq.codeSize]
  refine {
    origin := by rw [hp.origin, hq.origin]; exact h.origin
    codeSize := hcode
    totalSize := by rw [hp.totalSize, hq.totalSize, hcode, dataLength_eq h.data]
    symbols := ⟨h.lowered_procedures hb hp hq hc hc', fun name => ?_, h.lowered_data hp hq⟩
    lines := fun i line hi => ?_ }
  · rw [← (hp.alike hc).similar.constants, ← (hq.alike hc').similar.constants, h.constants]
  · obtain ⟨x, x', hx, hx', -, -, -, hlowered⟩ := h.lowered_lines hb hp hq hi
    refine ⟨x.line, x'.line, ?_, ?_, hlowered⟩
    · rw [hp.lines, List.getElem?_map, hx]
      rfl
    · rw [hq.lines, List.getElem?_map, hx']
      rfl

end Program.Twin

/-! ## Operands -/

section
variable {α α' β β' : Type} {r : α → α' → Prop} {r' : β → β' → Prop}

theorem rel_map {x : Option α} {y : Option α'} {f : α → β} {g : α' → β'} (h : Option.Rel r x y)
    (hf : ∀ a b, r a b → r' (f a) (g b)) : Option.Rel r' (x.map f) (y.map g) := by
  cases h with
  | none => exact .none
  | some h => exact .some (hf _ _ h)

theorem rel_or {x y : Option α} {x' y' : Option α'} (h : Option.Rel r x x') (h' : Option.Rel r y y') :
    Option.Rel r (x.or y) (x'.or y') := by
  cases h with
  | none => exact h'
  | some h => exact .some h

end

/-- What a token stands for, and the same with a lower address. -/
inductive SymbolRef.Lowered (d : Nat) : SymbolRef → SymbolRef → Prop
  | procedure {a a' : Option UInt16} : Option.Rel (Octet.Lowered d) a a' → Lowered d (.procedure a) (.procedure a')
  | dataHigh {x x' : Datum} : x.Lowered d x' → Lowered d (.dataHigh x) (.dataHigh x')
  | dataLow {x x' : Datum} : x.Lowered d x' → Lowered d (.dataLow x) (.dataLow x')
  | constant (text : String) : Lowered d (.constant text) (.constant text)

/-- Literal operands, and the same for a lower address. -/
inductive OperandsLowered (d : Nat) : List Operand → List Operand → Prop
  | address {a a' : UInt16} : Lowered d a a' →
      OperandsLowered d [.byte (highByte a), .byte (lowByte a)] [.byte (highByte a'), .byte (lowByte a')]
  | high {a a' : UInt16} : Lowered d a a' → OperandsLowered d [.byte (highByte a)] [.byte (highByte a')]
  | low {a a' : UInt16} : Lowered d a a' → OperandsLowered d [.byte (lowByte a)] [.byte (lowByte a')]
  | same (ops : List Operand) : OperandsLowered d ops ops

theorem OperandsLowered.map_form {d : Nat} {ops ops' : List Operand} (h : OperandsLowered d ops ops') :
    ops'.map Operand.form = ops.map Operand.form := by
  cases h <;> rfl

theorem OperandsLowered.eq {ops ops' : List Operand} (h : OperandsLowered 0 ops ops') : ops' = ops := by
  cases h with
  | address ha | high ha | low ha => rw [ha.eq]
  | same => rfl

namespace Symbols

variable {d : Nat} {s s' : Symbols} {a a' : UInt16} {token : String} {ops ops' : List Operand}

/-- A token that stands for no address. -/
def IsFixed (s : Symbols) (token : String) : Prop :=
  token ≠ "$" ∧ ∀ r, s.lookup token = some r → ∃ text, r = .constant text

namespace Lowered

theorem datum? (h : s.Lowered d s') (name : String) :
    Option.Rel (Datum.Lowered d) (s.datum? name) (s'.datum? name) := by
  have hdata := h.data
  unfold Symbols.datum?
  generalize s.data = data at hdata
  generalize s'.data = data' at hdata
  induction hdata with
  | nil => exact .none
  | @cons x x' _ _ hx _ ih =>
    by_cases hn : x.name = name
    · rw [List.find?_cons_of_pos (by simpa using hn), List.find?_cons_of_pos (by simpa [hx.name] using hn)]
      exact .some hx
    · rw [List.find?_cons_of_neg (by simpa using hn), List.find?_cons_of_neg (by simpa [hx.name] using hn)]
      exact ih

theorem lookup (h : s.Lowered d s') (token : String) :
    Option.Rel (SymbolRef.Lowered d) (s.lookup token) (s'.lookup token) := by
  have hdata (letter : Char) (ref : Datum → SymbolRef) (href : ∀ x x', x.Lowered d x' → (ref x).Lowered d (ref x')) :
      Option.Rel (SymbolRef.Lowered d) ((nameBefore? token letter).bind fun name => (s.datum? name).map ref)
        ((nameBefore? token letter).bind fun name => (s'.datum? name).map ref) := by
    cases nameBefore? token letter with
    | none => exact .none
    | some name => exact rel_map (h.datum? name) href
  simp only [Symbols.lookup, Option.orElse_eq_orElse, Option.orElse_eq_or, h.constants]
  refine rel_or (rel_map (h.procedures token) fun _ _ => .procedure) ?_
  refine rel_or (hdata 'H' _ fun _ _ => .dataHigh) (rel_or (hdata 'L' _ fun _ _ => .dataLow) ?_)
  cases s.constant? token with
  | none => exact .none
  | some text => exact .some (.constant text)

theorem noBytes (h : s.Lowered d s') (hb : s.NoBytes) : s'.NoBytes := by
  intro v
  have hl := h.lookup (byteToken v)
  rw [hb v] at hl
  cases hs : s'.lookup (byteToken v) with
  | none => rfl
  | some r =>
    rw [hs] at hl
    cases hl

/-- **A token is read** as the same operands, or as those for a lower address. -/
theorem operands (h : s.Lowered d s') (hb : s.NoBytes) (ha : Octet.Lowered d a a') (hr : s.Reads a token ops)
    (hr' : s'.Reads a' token ops') : OperandsLowered d ops ops' ∧ (s.IsFixed token → ops' = ops) := by
  by_cases hne : token = "$"
  · subst hne
    rw [hr.current hb, hr'.current (h.noBytes hb)]
    exact ⟨.address ha, fun hf => absurd rfl hf.1⟩
  have hl := h.lookup token
  have hstands {r : SymbolRef} (hs : s.lookup token = some r) (hr : ∀ text, r ≠ .constant text) :
      ¬ s.IsFixed token := by
    intro hf
    obtain ⟨text, he⟩ := hf.2 r hs
    exact hr text he
  cases hs : s.lookup token with
  | none =>
    cases hs' : s'.lookup token with
    | some r' => rw [hs, hs'] at hl; cases hl
    | none =>
      obtain ⟨op, hop, rfl⟩ := hr.literal hne hs
      obtain ⟨op', hop', rfl⟩ := hr'.literal hne hs'
      obtain rfl : op = op' := Option.some.inj (hop.symm.trans hop')
      exact ⟨.same _, fun _ => rfl⟩
  | some r =>
    cases hs' : s'.lookup token with
    | none => rw [hs, hs'] at hl; cases hl
    | some r' =>
      rw [hs, hs', Option.rel_some_some] at hl
      cases hl with
      | @procedure address address' hrel =>
        cases hrel with
        | none =>
          obtain ⟨replaced, hmap, -⟩ := hr
          rw [tokenAt_of_ne hne, List.mapM_cons, substitute, hs] at hmap
          cases hmap
        | some hlow =>
          rw [hr.procedure hne (procedure?_of_lookup hs), hr'.procedure hne (procedure?_of_lookup hs')]
          exact ⟨.address hlow, fun hf => absurd hf (hstands hs fun _ he => by cases he)⟩
      | @dataHigh x x' hx =>
        rw [hr.byte hne (by rw [substitute, hs]), hr'.byte hne (by rw [substitute, hs'])]
        exact ⟨.high hx.address, fun hf => absurd hf (hstands hs fun _ he => by cases he)⟩
      | @dataLow x x' hx =>
        rw [hr.byte hne (by rw [substitute, hs]), hr'.byte hne (by rw [substitute, hs'])]
        exact ⟨.low hx.address, fun hf => absurd hf (hstands hs fun _ he => by cases he)⟩
      | constant text =>
        obtain rfl : ops = ops' := Except.ok.inj ((hr.constant hne hs).symm.trans (hr'.constant hne hs'))
        exact ⟨.same _, fun _ => rfl⟩

/-- The same of the tokens of a line. -/
theorem forall_operands (h : s.Lowered d s') (hb : s.NoBytes) (ha : Octet.Lowered d a a') {tokens : List String}
    {operands operands' : List (List Operand)} (hr : List.Forall₂ (s.Reads a) tokens operands)
    (hr' : List.Forall₂ (s'.Reads a') tokens operands') :
    List.Forall₂ (OperandsLowered d) operands operands' ∧
      ((∀ token ∈ tokens, s.IsFixed token) → operands' = operands) := by
  induction hr generalizing operands' with
  | nil =>
    cases hr'
    exact ⟨.nil, fun _ => rfl⟩
  | cons hx _ ih =>
    cases hr' with
    | cons hx' hrest' =>
      obtain ⟨hlow, hfixed⟩ := h.operands hb ha hx hx'
      obtain ⟨hlows, hfixeds⟩ := ih hrest'
      refine ⟨.cons hlow hlows, fun hf => ?_⟩
      rw [List.forall_mem_cons] at hf
      rw [hfixed hf.1, hfixeds hf.2]

end Lowered

end Symbols

theorem map_form_flatten {d : Nat} {operands operands' : List (List Operand)}
    (h : List.Forall₂ (OperandsLowered d) operands operands') :
    operands'.flatten.map Operand.form = operands.flatten.map Operand.form := by
  induction h with
  | nil => rfl
  | cons hx _ ih => rw [List.flatten_cons, List.flatten_cons, List.map_append, List.map_append, hx.map_form, ih]

theorem eq_of_operandsLowered {operands operands' : List (List Operand)}
    (h : List.Forall₂ (OperandsLowered 0) operands operands') : operands' = operands := by
  induction h with
  | nil => rfl
  | cons hx _ ih => rw [hx.eq, ih]

/-- The forms of operations are those of the operands. -/
theorem map_form_of_expand {m : Mnemonic} {ops ops' : List Operand} {a a' : UInt16} {program program' : List Instruction}
    (h : m.expand ops a = some program) (h' : m.expand ops' a' = some program')
    (hf : ops'.map Operand.form = ops.map Operand.form) :
    program'.map Instruction.form = program.map Instruction.form := by
  have key : forms (m.expand ops' a') = forms (m.expand ops a) := by
    rw [← forms_expand m ops' a' a', hf, forms_expand]
  rw [h, h'] at key
  exact Option.some.inj key

/-! ## Stages -/

namespace Stages

variable {files files' : SourceFiles} {origin origin' : UInt16} {path path' text text' : String} {d : Nat}
  (s : Stages files origin path text) (s' : Stages files' origin' path' text')

theorem noBytes_layout : s.layout.symbols.NoBytes := s.lookup_byteToken

theorem noBytes_program : s.program.symbols.NoBytes :=
  s.collects.noBytes fun _ => SourceTree.named_of_mem_read

variable {s s'} (h : s.program.Twin d s'.program)

include h

theorem lowered_layout : s.layout.Lowered d s.program.lines s'.layout :=
  h.lowered_layout s.noBytes_program s.collects s'.collects s.layout_eq s'.layout_eq

theorem map_totalLength_eq : s'.expansions.map totalLength = s.expansions.map totalLength := by
  obtain ⟨placed, hp⟩ := s.exists_laidOut
  obtain ⟨placed', hq⟩ := s'.exists_laidOut
  exact h.sizes_eq s.noBytes_program hp hq

/-- Every line of the lower program stands `d` bytes lower. -/
theorem lineAddress_add (i : Nat) :
    lineAddress s'.layout.origin s'.expansions i + d = lineAddress s.layout.origin s.expansions i := by
  have ho : s'.layout.origin.toNat + d = s.layout.origin.toNat := (lowered_layout h).origin
  rw [lineAddress, lineAddress, List.map_take, List.map_take, map_totalLength_eq h]
  omega

/-- **Expansions of twins** have the same forms, and are the same where no address comes in. -/
theorem exists_expansion_lowered {i : Nat} {line : Line} (hl : s.program.lines[i]? = some line) :
    ∃ expansion expansion', s.expansions[i]? = some expansion ∧ s'.expansions[i]? = some expansion' ∧
      expansion'.map Instruction.form = expansion.map Instruction.form ∧
      (d = 0 ∨ Mnemonic.ofName? line.mnemonic ≠ some (.compound .call) ∧
        (∀ token ∈ line.operands, s.layout.symbols.IsFixed token) → expansion' = expansion) := by
  obtain ⟨line', hl', htwin⟩ := getElem?_of_forall₂ h.lines hl
  obtain ⟨m, operands, expansion, hi, hle, hname, hreads, hexpand, -⟩ := s.exists_operands hl
  obtain ⟨m', operands', expansion', hi', -, hname', hreads', hexpand', -⟩ := s'.exists_operands hl'
  rw [htwin.mnemonic] at hname'
  rw [htwin.operands] at hreads'
  obtain rfl : m = m' := Option.some.inj (hname.symm.trans hname')
  have haddress := lineAddress_add h i
  have hnext := lineAddress_add h (i + 1)
  have hlow : Lowered d (UInt16.ofNat (lineAddress s.layout.origin s.expansions i))
      (UInt16.ofNat (lineAddress s'.layout.origin s'.expansions i)) := by
    unfold Lowered
    rw [UInt16.toNat_ofNat_of_lt' (by show _ < 65536; omega), UInt16.toNat_ofNat_of_lt' (by show _ < 65536; omega)]
    exact haddress
  obtain ⟨hlows, hfixed⟩ := (lowered_layout h).symbols.forall_operands s.noBytes_layout hlow hreads hreads'
  refine ⟨expansion, expansion', hi, hi', map_form_of_expand hexpand hexpand' (map_form_flatten hlows), ?_⟩
  rintro (rfl | ⟨hcall, hf⟩)
  · rw [eq_of_operandsLowered hlows, ← Nat.add_zero (lineAddress _ _ _), hnext, hexpand] at hexpand'
    exact (Option.some.inj hexpand').symm
  · have hnot : m.isCall = false := by
      cases hm : m.isCall with
      | false => rfl
      | true => exact absurd (hname.trans (congrArg some (by simpa [Mnemonic.isCall] using hm))) hcall
    rw [hfixed hf, expand_of_not_isCall hnot _ _ (UInt16.ofNat (lineAddress s.layout.origin s.expansions (i + 1))),
      hexpand] at hexpand'
    exact (Option.some.inj hexpand').symm

/-- The expansions of twins are alike if those of each line are. -/
theorem map_expansions_eq {α : Type} {f : List Instruction → α}
    (hf : ∀ (i : Nat) (line : Line), s.program.lines[i]? = some line → ∃ expansion expansion',
      s.expansions[i]? = some expansion ∧ s'.expansions[i]? = some expansion' ∧ f expansion' = f expansion) :
    s'.expansions.map f = s.expansions.map f := by
  have hlength : s'.expansions.length = s.expansions.length := by
    simpa using congrArg List.length (map_totalLength_eq h)
  obtain ⟨placed, hp⟩ := s.exists_laidOut
  refine List.ext_getElem? fun i => ?_
  rw [List.getElem?_map, List.getElem?_map]
  cases hl : s.program.lines[i]? with
  | none =>
    have hi : s.expansions.length ≤ i := by
      have hsizes := hp.length_sizes
      rw [List.length_map] at hsizes
      exact hsizes ▸ List.getElem?_eq_none_iff.1 hl
    rw [List.getElem?_eq_none hi, List.getElem?_eq_none (hlength ▸ hi)]
  | some line =>
    obtain ⟨expansion, expansion', hi, hi', he⟩ := hf i line hl
    rw [hi, hi', Option.map_some, Option.map_some, he]

/-- **The operations of twins** are the same but for their values. -/
theorem map_form_operations : s'.operations.map Instruction.form = s.operations.map Instruction.form := by
  have hforms := map_expansions_eq h fun i line hl =>
    let ⟨expansion, expansion', hi, hi', hform, _⟩ := exists_expansion_lowered h hl
    ⟨expansion, expansion', hi, hi', hform⟩
  rw [operations, operations, List.map_flatten, List.map_flatten, hforms]

/-- **The operations of twins** are the same if no address comes in. -/
theorem operations_eq (hfixed : ∀ line ∈ s.program.lines, d = 0 ∨
    Mnemonic.ofName? line.mnemonic ≠ some (.compound .call) ∧
      ∀ token ∈ line.operands, s.layout.symbols.IsFixed token) : s'.operations = s.operations := by
  have hsame := map_expansions_eq (f := id) h fun i line hl =>
    let ⟨expansion, expansion', hi, hi', _, he⟩ := exists_expansion_lowered h hl
    ⟨expansion, expansion', hi, hi', he (hfixed line (List.mem_of_getElem? hl))⟩
  rw [List.map_id, List.map_id] at hsame
  rw [operations, operations, hsame]

theorem data_image_eq : s'.image.data = s.image.data := by
  have hdata := (lowered_layout h).symbols.data
  show s'.layout.symbols.data.flatMap (·.bytes) = s.layout.symbols.data.flatMap (·.bytes)
  generalize s.layout.symbols.data = data at hdata
  generalize s'.layout.symbols.data = data' at hdata
  induction hdata with
  | nil => rfl
  | cons hx _ ih => rw [List.flatMap_cons, List.flatMap_cons, hx.bytes, ih]

end Stages

end Octet
