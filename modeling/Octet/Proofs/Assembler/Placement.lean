import Octet.Assembler.Layout
import Octet.Proofs.Assembler.Collection
/-!
Where lines and data stand.

* `Program.Places`: what it means that a line stands at an offset from the origin and takes some bytes;
* `exists_sizes_of_placeLines`: the offset of a line is the sum of the sizes of the lines before it;
* `placed_of_placeData`: the offset of a datum is that of the first one and the sizes of the data before it;
* `procedure?_bindLabels`: a label has the address of the line that it names.
-/

namespace Octet.Program

variable {origin : UInt16} {symbols : Symbols}

/-- The address `offset` bytes after the origin, if it lies in memory. -/
abbrev addressFrom (origin : UInt16) (offset : Nat) : UInt16 := UInt16.ofNat (origin.toNat + offset)

theorem addressAt_eq_ok_iff {offset : Nat} {address : UInt16} :
    addressAt origin offset = .ok address ↔
      origin.toNat + offset ≤ 0xFFFF ∧ address = addressFrom origin offset := by
  unfold addressAt
  split <;> rename_i h <;> simp [h, eq_comm]

/-- An address in memory does not wrap. -/
theorem toNat_addressFrom {offset : Nat} (h : origin.toNat + offset ≤ 0xFFFF) :
    (addressFrom origin offset).toNat = origin.toNat + offset :=
  UInt16.toNat_ofNat_of_lt' (Nat.lt_succ_of_le h)

/-! ## Lines -/

/-- The line stands `offset` bytes after the origin and takes `size` bytes. -/
structure Places (origin : UInt16) (symbols : Symbols) (offset : Nat) (line : Line) (placed : PlacedLine)
    (size : Nat) : Prop where
  inMemory : origin.toNat + offset ≤ 0xFFFF
  address : placed.address = addressFrom origin offset
  labels : placed.labels = line.labels
  tokens : placed.line.tokens = (line.replaceCurrentAddress placed.address).tokens
  /-- A call knows the address after it, and nothing else does. -/
  measured : ∃ m, placed.line.measure symbols = .ok (m, size) ∧
    (m.isCall = true → origin.toNat + (offset + size) ≤ 0xFFFF) ∧
      placed.line.returnAddress = if m.isCall then some (addressFrom origin (offset + size)) else none

theorem places_of_placeLine {offset size : Nat} {line : Line} {placed : PlacedLine}
    (h : (placeLine origin symbols offset line).result = .ok (placed, size)) :
    Places origin symbols offset line placed size := by
  rw [placeLine, Traced.result_bind] at h
  obtain ⟨address, ha, h⟩ := Except.bind_eq_ok.1 h
  obtain ⟨hle, rfl⟩ := addressAt_eq_ok_iff.1 ha
  rw [Traced.result_bind] at h
  obtain ⟨-, -, h⟩ := Except.bind_eq_ok.1 h
  rw [Traced.result_emit_if, Traced.result_bind] at h
  obtain ⟨⟨m, size'⟩, hm, h⟩ := Except.bind_eq_ok.1 h
  dsimp only at h
  split at h
  · rename_i hc
    rw [Traced.result_bind] at h
    obtain ⟨after, hafter, h⟩ := Except.bind_eq_ok.1 h
    obtain ⟨hle', rfl⟩ := addressAt_eq_ok_iff.1 hafter
    cases h
    exact ⟨hle, rfl, rfl, rfl, m, hm, fun _ => hle', (if_pos hc).symm⟩
  · rename_i hc
    cases h
    exact ⟨hle, rfl, rfl, rfl, m, hm, fun h => absurd h hc, (if_neg hc).symm⟩

/-- A line that can be measured is placed where its first byte is in memory, and, for a call, the byte after it, too. -/
theorem exists_placeLine {offset size : Nat} {line : Line} {m : Mnemonic} (hle : origin.toNat + offset ≤ 0xFFFF)
    (hm : (line.replaceCurrentAddress (addressFrom origin offset)).measure symbols = .ok (m, size))
    (hcall : m.isCall = true → origin.toNat + (offset + size) ≤ 0xFFFF) :
    ∃ placed, (placeLine origin symbols offset line).result = .ok (placed, size) := by
  simp only [placeLine, Traced.result_bind, Traced.result_lift, Traced.result_emitAll, Traced.result_emit_if,
    addressAt_eq_ok_iff.2 ⟨hle, rfl⟩, hm, Except.ok_bind]
  by_cases hc : m.isCall = true
  · simp only [hc, if_true, Traced.result_bind, Traced.result_lift, Traced.result_emit,
      addressAt_eq_ok_iff.2 ⟨hcall hc, rfl⟩, Except.ok_bind]
    exact ⟨_, rfl⟩
  · simp only [hc]
    exact ⟨_, rfl⟩

/-- **Lines that fit can be placed.** Each takes at least one byte, and the address after a call lies in memory. -/
theorem exists_placeLines {offset : Nat} {lines : List Line} {measures : List (Mnemonic × Nat)}
    (h : List.Forall₂ (fun (line : Line) (m : Mnemonic × Nat) => 0 < m.2 ∧
      ∀ address, (line.replaceCurrentAddress address).measure symbols = .ok m) lines measures)
    (hle : origin.toNat + (offset + (measures.map (·.2)).sum) ≤ 0x10000)
    (hcall : ∀ i m, measures[i]? = some m → m.1.isCall = true →
      origin.toNat + (offset + ((measures.take (i + 1)).map (·.2)).sum) ≤ 0xFFFF) :
    ∃ placed, (placeLines origin symbols offset lines).result = .ok (placed, offset + (measures.map (·.2)).sum) := by
  induction h generalizing offset with
  | nil => exact ⟨[], rfl⟩
  | @cons line m lines measures hx _ ih =>
    obtain ⟨hpos, hm⟩ := hx
    rw [List.map_cons, List.sum_cons] at hle
    have hfirst : origin.toNat + offset ≤ 0xFFFF := by omega
    obtain ⟨p, hp⟩ := exists_placeLine hfirst (hm _) fun hc => by simpa using hcall 0 m rfl hc
    obtain ⟨more, hmore⟩ := @ih (offset + m.2) (by rwa [Nat.add_assoc]) fun i m' hm' hc => by
      simpa [Nat.add_assoc] using hcall (i + 1) m' hm' hc
    refine ⟨p :: more, ?_⟩
    rw [placeLines, Traced.result_bind, hp, Except.ok_bind, Traced.result_bind, hmore, List.map_cons, List.sum_cons,
      ← Nat.add_assoc]
    rfl

/-- **Lines stand one after the other.** The offset of a line is the sum of the sizes of the lines before it. -/
theorem exists_sizes_of_placeLines {offset last : Nat} {lines : List Line} {placed : List PlacedLine}
    (h : (placeLines origin symbols offset lines).result = .ok (placed, last)) :
    ∃ sizes : List Nat, last = offset + sizes.sum ∧ placed.length = lines.length ∧ sizes.length = lines.length ∧
      ∀ i line, lines[i]? = some line → ∃ p size, placed[i]? = some p ∧ sizes[i]? = some size ∧
        Places origin symbols (offset + (sizes.take i).sum) line p size := by
  induction lines generalizing offset placed with
  | nil =>
    cases h
    exact ⟨[], rfl, rfl, rfl, fun i line h => by simp at h⟩
  | cons line lines ih =>
    rw [placeLines, Traced.result_bind] at h
    obtain ⟨⟨p, size⟩, hp, h⟩ := Except.bind_eq_ok.1 h
    rw [Traced.result_bind] at h
    obtain ⟨⟨more, last'⟩, hmore, h⟩ := Except.bind_eq_ok.1 h
    cases h
    obtain ⟨sizes, rfl, hplaced, hsizes, hall⟩ := ih hmore
    refine ⟨size :: sizes, by rw [List.sum_cons, Nat.add_assoc], congrArg (· + 1) hplaced, congrArg (· + 1) hsizes, ?_⟩
    intro i l hl
    cases i with
    | zero =>
      cases hl
      exact ⟨p, size, rfl, rfl, places_of_placeLine hp⟩
    | succ i =>
      obtain ⟨p', size', hp', hsize', hplaces⟩ := hall i l hl
      refine ⟨p', size', hp', hsize', ?_⟩
      rw [List.take_succ_cons, List.sum_cons, ← Nat.add_assoc]
      exact hplaces

/-! ## Data -/

/-- The number of bytes of some data. -/
def dataLength (data : List Datum) : Nat := (data.map (·.bytes.length)).sum

/-- Data that start in memory can be placed. -/
theorem exists_placeData {offset : Nat} {data : List Datum}
    (h : ∀ k, k < data.length → origin.toNat + (offset + dataLength (data.take k)) ≤ 0xFFFF) :
    ∃ placed, (placeData origin offset data).result = .ok (placed, offset + dataLength data) := by
  induction data generalizing offset with
  | nil => exact ⟨[], rfl⟩
  | cons datum data ih =>
    have hfirst : origin.toNat + offset ≤ 0xFFFF := by simpa [dataLength] using h 0 (Nat.succ_pos _)
    obtain ⟨more, hmore⟩ := @ih (offset + datum.bytes.length) fun k hk => by
      simpa [dataLength, Nat.add_assoc] using h (k + 1) (Nat.succ_lt_succ hk)
    refine ⟨{ datum with address := addressFrom origin offset } :: more, ?_⟩
    rw [placeData]
    simp only [Traced.result_bind, Traced.result_lift, addressAt_eq_ok_iff.2 ⟨hfirst, rfl⟩, Traced.result_emit,
      Except.ok_bind, hmore]
    rw [dataLength, dataLength, List.map_cons, List.sum_cons, ← Nat.add_assoc]
    rfl

/-- **Data stand one after the other.** -/
theorem placed_of_placeData {offset last : Nat} {data placed : List Datum}
    (h : (placeData origin offset data).result = .ok (placed, last)) :
    last = offset + dataLength data ∧ placed.length = data.length ∧
      ∀ k datum, data[k]? = some datum → origin.toNat + (offset + dataLength (data.take k)) ≤ 0xFFFF ∧
        placed[k]? = some { datum with address := addressFrom origin (offset + dataLength (data.take k)) } := by
  induction data generalizing offset placed with
  | nil =>
    cases h
    exact ⟨rfl, rfl, fun k datum h => by simp at h⟩
  | cons datum data ih =>
    rw [placeData, Traced.result_bind] at h
    obtain ⟨address, ha, h⟩ := Except.bind_eq_ok.1 h
    obtain ⟨hle, rfl⟩ := addressAt_eq_ok_iff.1 ha
    simp only [Traced.result_bind] at h
    obtain ⟨-, -, h⟩ := Except.bind_eq_ok.1 h
    obtain ⟨⟨more, last'⟩, hmore, h⟩ := Except.bind_eq_ok.1 h
    cases h
    obtain ⟨rfl, hlength, hall⟩ := ih hmore
    refine ⟨by simp [dataLength, Nat.add_assoc], congrArg (· + 1) hlength, fun k d hd => ?_⟩
    cases k with
    | zero =>
      cases hd
      exact ⟨hle, rfl⟩
    | succ k =>
      have hsum : offset + dataLength ((datum :: data).take (k + 1)) =
          offset + datum.bytes.length + dataLength (data.take k) := by
        simp [dataLength, Nat.add_assoc]
      rw [hsum]
      exact hall k d hd

/-! ## Labels -/

/-- The addresses of the labels that name placed lines. -/
def bindings (placed : List PlacedLine) : List (String × UInt16) :=
  placed.flatMap fun p => p.labels.map fun label => (label, p.address)

theorem bindLabels_eq (symbols : Symbols) (placed : List PlacedLine) :
    bindLabels symbols placed = symbols.bindAll (bindings placed) := rfl

theorem map_fst_bindings (placed : List PlacedLine) :
    (bindings placed).map (·.1) = placed.flatMap (·.labels) := by
  simp [bindings, List.map_flatMap, Function.comp_def]

/-- A label has the address of the line that it names. -/
theorem procedure?_bindLabels_of_mem {placed : List PlacedLine} (hn : (placed.flatMap (·.labels)).Nodup)
    {p : PlacedLine} (hp : p ∈ placed) {name : String} (hl : name ∈ p.labels) :
    (bindLabels symbols placed).procedure? name = some (some p.address) := by
  rw [bindLabels_eq]
  refine Symbols.procedure?_bindAll_of_mem (map_fst_bindings placed ▸ hn) ?_
  exact List.mem_flatMap.2 ⟨p, hp, List.mem_map.2 ⟨name, hl, rfl⟩⟩

theorem procedure?_bindLabels_of_notMem {placed : List PlacedLine} {name : String}
    (h : name ∉ placed.flatMap (·.labels)) :
    (bindLabels symbols placed).procedure? name = symbols.procedure? name := by
  rw [bindLabels_eq]
  exact Symbols.procedure?_bindAll_of_notMem (map_fst_bindings placed ▸ h)

/-! ## Layouts -/

theorem layOut_eq_ok_iff {program : Program} {layout : Layout} :
    program.layOut.result = .ok layout ↔ ∃ placed codeSize data totalSize,
      (placeLines program.origin program.symbols 0 program.lines).result = .ok (placed, codeSize) ∧
      (placeData program.origin codeSize program.symbols.data).result = .ok (data, totalSize) ∧
      program.origin.toNat + totalSize ≤ 0x10000 ∧
      layout = {
        origin := program.origin
        lines := placed.map (·.line)
        symbols := { bindLabels program.symbols placed with data := data }
        codeSize := codeSize
        totalSize := totalSize } := by
  simp only [layOut, Traced.result_bind, Except.bind_eq_ok]
  constructor
  · rintro ⟨⟨placed, codeSize⟩, hp, ⟨data, totalSize⟩, hd, h⟩
    obtain ⟨hle, h⟩ := Traced.result_fail_if_eq_ok_iff.1 h
    cases h
    exact ⟨placed, codeSize, data, totalSize, hp, hd, Nat.le_of_not_lt hle, rfl⟩
  · rintro ⟨placed, codeSize, data, totalSize, hp, hd, hle, rfl⟩
    exact ⟨_, hp, _, hd, Traced.result_fail_if_eq_ok_iff.2 ⟨Nat.not_lt.2 hle, rfl⟩⟩

/-- What a layout says of the lines and data of a program: `placed` are the lines with their addresses, `sizes` the
numbers of their bytes. -/
structure LaidOut (program : Program) (placed : List PlacedLine) (sizes : List Nat) (layout : Layout) : Prop where
  origin : layout.origin = program.origin
  lines : layout.lines = placed.map (·.line)
  symbols : layout.symbols = { bindLabels program.symbols placed with data := layout.symbols.data }
  codeSize : layout.codeSize = sizes.sum
  totalSize : layout.totalSize = layout.codeSize + dataLength program.symbols.data
  inMemory : program.origin.toNat + layout.totalSize ≤ 0x10000
  length_placed : placed.length = program.lines.length
  length_sizes : sizes.length = program.lines.length
  places : ∀ i line, program.lines[i]? = some line → ∃ p size, placed[i]? = some p ∧ sizes[i]? = some size ∧
    Places program.origin program.symbols (sizes.take i).sum line p size
  length_data : layout.symbols.data.length = program.symbols.data.length
  data : ∀ k datum, program.symbols.data[k]? = some datum →
    let offset := layout.codeSize + dataLength (program.symbols.data.take k)
    program.origin.toNat + offset ≤ 0xFFFF ∧
      layout.symbols.data[k]? = some { datum with address := addressFrom program.origin offset }

theorem exists_laidOut {program : Program} {layout : Layout} (h : program.layOut.result = .ok layout) :
    ∃ placed sizes, program.LaidOut placed sizes layout := by
  obtain ⟨placed, codeSize, data, totalSize, hp, hd, hle, rfl⟩ := layOut_eq_ok_iff.1 h
  obtain ⟨sizes, hlast, hplaced, hsizes, hall⟩ := exists_sizes_of_placeLines hp
  obtain ⟨htotal, hlength, hdata⟩ := placed_of_placeData hd
  rw [Nat.zero_add] at hlast
  simp only [Nat.zero_add] at hall
  exact ⟨placed, sizes, {
    origin := rfl, lines := rfl, symbols := rfl, codeSize := hlast, totalSize := htotal, inMemory := hle
    length_placed := hplaced, length_sizes := hsizes, places := hall, length_data := hlength, data := hdata }⟩

namespace LaidOut

variable {program : Program} {placed : List PlacedLine} {sizes : List Nat} {layout : Layout}
  {start : UInt16} {statements : List LocatedStatement}

theorem map_labels (h : program.LaidOut placed sizes layout) :
    placed.map (·.labels) = program.lines.map (·.labels) := by
  refine List.ext_getElem? fun i => ?_
  rw [List.getElem?_map, List.getElem?_map]
  cases hl : program.lines[i]? with
  | none =>
    have hi := List.getElem?_eq_none_iff.1 hl
    rw [← h.length_placed] at hi
    rw [List.getElem?_eq_none hi]
    rfl
  | some line =>
    obtain ⟨p, size, hp, -, hplaces⟩ := h.places i line hl
    rw [hp]
    exact congrArg some hplaces.labels

/-- The labels of the placed lines are those that the source declares. -/
theorem flatMap_labels (h : program.LaidOut placed sizes layout) (hc : program.Collects start statements) :
    placed.flatMap (·.labels) = labelsOf statements := by
  rw [← hc.flatMap_labels, List.flatMap_def, List.flatMap_def, h.map_labels]

theorem map_data (h : program.LaidOut placed sizes layout) {α : Type} (f : String → List UInt8 → α) :
    (layout.symbols.data.map fun d => f d.name d.bytes) = program.symbols.data.map fun d => f d.name d.bytes := by
  refine List.ext_getElem? fun k => ?_
  rw [List.getElem?_map, List.getElem?_map]
  cases hd : program.symbols.data[k]? with
  | none =>
    have hk := List.getElem?_eq_none_iff.1 hd
    rw [← h.length_data] at hk
    rw [List.getElem?_eq_none hk]
  | some datum =>
    rw [(h.data k datum hd).2, Option.map_some, Option.map_some]

/-- Every line was measured with the symbols as they were before any address was known. -/
theorem measured (h : program.LaidOut placed sizes layout) :
    List.Forall₂ (fun (line : Line) size => ∃ m, line.measure program.symbols = .ok (m, size)) layout.lines sizes := by
  rw [h.lines]
  refine List.forall₂_iff_get.2 ⟨?_, fun i h₁ h₂ => ?_⟩
  · rw [List.length_map, h.length_placed, h.length_sizes]
  · rw [h.length_sizes] at h₂
    obtain ⟨p, size, hp, hsize, hplaces⟩ := h.places i program.lines[i] (List.getElem?_eq_getElem h₂)
    obtain ⟨_, rfl⟩ := List.getElem?_eq_some_iff.1 hp
    obtain ⟨_, rfl⟩ := List.getElem?_eq_some_iff.1 hsize
    obtain ⟨m, hm, -⟩ := hplaces.measured
    exact ⟨m, by simpa using hm⟩

end LaidOut

end Octet.Program
