import Octet.Proofs.Assembler.Twins
/-!
Which programs have room in memory, and what happens to those that have not.

* `Line.ExpandsAt`: the operations that a line counts as, where it stands at some address;
* `Program.Fits`: the last byte lies in memory, and so do the addresses after calls and those of data of no bytes;
* `Program.Unwrapped`: the addresses of a layout are sums that do not wrap;
* `layOut_of_accepts`: a program of lines that can be expanded is laid out iff it fits, without wrapping, and is too
  large otherwise.
-/

namespace Octet

open Instruction

/-! ## Lines -/

/-- The operations that a line counts as, with an address in place of `$`; the address after it is not known yet. -/
def Line.ExpandsAt (symbols : Symbols) (address : UInt16) (line : Line) (expansion : List Instruction) : Prop :=
  ∃ m operands, Mnemonic.ofName? line.mnemonic = some m ∧
    (line.operands.flatMap (tokenAt address)).mapM symbols.operands = .ok operands ∧
    m.expand operands.flatten 0 = some expansion

/-- The name of a mnemonic is not `$`. -/
theorem ne_currentAddress_of_ofName? {name : String} {m : Mnemonic} (h : Mnemonic.ofName? name = some m) :
    name ≠ "$" := by
  rintro rfl
  exact absurd h (by decide +revert)

/-- **The size of a line** is that of its operations at whatever address. -/
theorem Line.ExpandsAt.measure {symbols : Symbols} {address : UInt16} {line : Line} {expansion : List Instruction}
    (h : line.ExpandsAt symbols address expansion) (hb : symbols.NoBytes) :
    ∃ m, Mnemonic.ofName? line.mnemonic = some m ∧
      ∀ a, (line.replaceCurrentAddress a).measure symbols = .ok (m, totalLength expansion) := by
  obtain ⟨m, operands, hname, hoperands, hexpand⟩ := h
  obtain ⟨hmnemonic, htokens⟩ := replaceCurrentAddress_of_ne address (ne_currentAddress_of_ofName? hname)
  have hmeasure : (line.replaceCurrentAddress address).measure symbols = .ok (m, totalLength expansion) :=
    measure_eq_ok_iff.2 ⟨hmnemonic ▸ hname, operands, expansion, htokens ▸ hoperands, hexpand, rfl⟩
  exact ⟨m, hname, Line.Twin.measure ⟨rfl, rfl, rfl⟩ ⟨fun _ => rfl, fun _ => rfl, fun _ => rfl⟩ hb hmeasure⟩

/-! ## Errors -/

/-- The error for something so far behind the origin that it is not in memory. -/
def AsmError.TooLarge (origin : UInt16) (error : AsmError) : Prop :=
  ∃ size, error = .imageTooLarge origin size ∧ 0x10000 ≤ origin.toNat + size

namespace Program

variable {origin : UInt16} {symbols : Symbols} {error : AsmError}

theorem tooLarge_of_addressAt {offset : Nat} (h : addressAt origin offset = .error error) :
    error.TooLarge origin := by
  unfold addressAt at h
  split at h <;> rename_i hle
  · cases h
  · cases h
    exact ⟨offset, rfl, by omega⟩

/-- A line that can be measured is placed, unless it is too far behind the origin. -/
theorem tooLarge_of_placeLine {offset : Nat} {line : Line} {m : Mnemonic × Nat}
    (hm : ∀ address, (line.replaceCurrentAddress address).measure symbols = .ok m)
    (h : (placeLine origin symbols offset line).result = .error error) : error.TooLarge origin := by
  simp only [placeLine, Traced.result_bind, Traced.result_lift, Traced.result_emitAll, Traced.result_emit_if] at h
  obtain h | ⟨address, -, h⟩ := Except.bind_eq_error.1 h
  · exact tooLarge_of_addressAt h
  rw [Except.ok_bind, hm, Except.ok_bind] at h
  split at h
  · simp only [Traced.result_bind, Traced.result_lift, Traced.result_emit] at h
    obtain h | ⟨after, -, h⟩ := Except.bind_eq_error.1 h
    · exact tooLarge_of_addressAt h
    · cases h
  · cases h

theorem tooLarge_of_placeLines {offset : Nat} {lines : List Line}
    (hm : ∀ line ∈ lines, ∃ m, ∀ address, (line.replaceCurrentAddress address).measure symbols = .ok m)
    (h : (placeLines origin symbols offset lines).result = .error error) : error.TooLarge origin := by
  induction lines generalizing offset with
  | nil => cases h
  | cons line lines ih =>
    obtain ⟨⟨m, hline⟩, hlines⟩ := List.forall_mem_cons.1 hm
    simp only [placeLines, Traced.result_bind] at h
    obtain h | ⟨p, -, h⟩ := Except.bind_eq_error.1 h
    · exact tooLarge_of_placeLine hline h
    obtain h | ⟨more, -, h⟩ := Except.bind_eq_error.1 h
    · exact ih hlines h
    · cases h

theorem tooLarge_of_placeData {offset : Nat} {data : List Datum}
    (h : (placeData origin offset data).result = .error error) : error.TooLarge origin := by
  induction data generalizing offset with
  | nil => cases h
  | cons datum data ih =>
    simp only [placeData, Traced.result_bind, Traced.result_lift, Traced.result_emit] at h
    obtain h | ⟨address, -, h⟩ := Except.bind_eq_error.1 h
    · exact tooLarge_of_addressAt h
    rw [Except.ok_bind] at h
    obtain h | ⟨more, -, h⟩ := Except.bind_eq_error.1 h
    · exact ih h
    · cases h

/-- **Only its size is wrong** with a program whose lines can be measured. -/
theorem tooLarge_of_layOut {program : Program}
    (hm : ∀ line ∈ program.lines,
      ∃ m, ∀ address, (line.replaceCurrentAddress address).measure program.symbols = .ok m)
    (h : program.layOut.result = .error error) : error.TooLarge program.origin := by
  simp only [layOut, Traced.result_bind] at h
  obtain h | ⟨⟨placed, codeSize⟩, -, h⟩ := Except.bind_eq_error.1 h
  · exact tooLarge_of_placeLines hm h
  obtain h | ⟨⟨data, totalSize⟩, -, h⟩ := Except.bind_eq_error.1 h
  · exact tooLarge_of_placeData h
  dsimp only at h
  split at h
  · rename_i hlt
    cases h
    exact ⟨totalSize, rfl, hlt.le⟩
  · cases h

/-! ## Programs that fit -/

/-- The lines of a program can be expanded, each where it stands at some address. -/
def Accepts (program : Program) (expansions : List (List Instruction)) : Prop :=
  List.Forall₂ (fun line expansion => ∃ address, Line.ExpandsAt program.symbols address line expansion)
    program.lines expansions

/-- The number of bytes of all lines and data. -/
def total (program : Program) (expansions : List (List Instruction)) : Nat :=
  (expansions.map totalLength).sum + dataLength program.symbols.data

/-- A program has room in memory. -/
structure Fits (program : Program) (expansions : List (List Instruction)) : Prop where
  /-- The last byte lies in memory. -/
  total : program.origin.toNat + program.total expansions ≤ 0x10000
  /-- No call is the last thing in memory: there has to be an address after it. -/
  calls : ∀ i line, program.lines[i]? = some line → line.mnemonic = "CALL" →
    lineAddress program.origin expansions (i + 1) ≠ 0x10000
  /-- No data stand behind the last byte of memory, even if they have no bytes. -/
  data : ∀ k datum, program.symbols.data[k]? = some datum → datum.bytes = [] →
    dataAddress program.origin expansions program.symbols.data k ≠ 0x10000

/-- The addresses of a layout are the sums of the origin and of the sizes of what stands before, as numbers that do
not wrap. -/
structure Unwrapped (program : Program) (expansions : List (List Instruction)) (layout : Layout) : Prop where
  labels : ∀ i line name, program.lines[i]? = some line → name ∈ line.labels → ∃ address : UInt16,
    layout.symbols.procedure? name = some (some address) ∧
      address.toNat = lineAddress program.origin expansions i
  returns : ∀ i line, program.lines[i]? = some line → ∃ placed, layout.lines[i]? = some placed ∧
    placed.returnAddress.map UInt16.toNat =
      if line.mnemonic = "CALL" then some (lineAddress program.origin expansions (i + 1)) else none
  data : ∀ k datum, program.symbols.data[k]? = some datum → ∃ address : UInt16,
    layout.symbols.data[k]? = some { datum with address := address } ∧
      address.toNat = dataAddress program.origin expansions program.symbols.data k
  codeSize : layout.codeSize = (expansions.map totalLength).sum
  totalSize : layout.totalSize = program.total expansions

variable {program : Program} {expansions : List (List Instruction)}

/-- The mnemonics and sizes of the lines of a program. -/
theorem Accepts.exists_measures (h : program.Accepts expansions) (hb : program.symbols.NoBytes) :
    ∃ measures : List (Mnemonic × Nat), measures.map (·.2) = expansions.map totalLength ∧
      List.Forall₂ (fun (line : Line) (m : Mnemonic × Nat) => Mnemonic.ofName? line.mnemonic = some m.1 ∧ 0 < m.2 ∧
        ∀ address, (line.replaceCurrentAddress address).measure program.symbols = .ok m) program.lines measures := by
  unfold Accepts at h
  generalize program.lines = lines at h ⊢
  induction h with
  | nil => exact ⟨[], rfl, .nil⟩
  | @cons line expansion _ _ hx _ ih =>
    obtain ⟨address, hx⟩ := hx
    obtain ⟨m, hname, hm⟩ := hx.measure hb
    obtain ⟨measures, hsizes, hall⟩ := ih
    have hpos : 0 < totalLength expansion := by
      obtain ⟨_, _, _, _, hexpand⟩ := hx
      exact totalLength_pos (ne_nil_of_expand hexpand)
    exact ⟨(m, totalLength expansion) :: measures, congrArg (_ :: ·) hsizes, .cons ⟨hname, hpos, hm⟩ hall⟩

theorem dataLength_eq_of_getElem? {data : List Datum} {k : Nat} {datum : Datum} (h : data[k]? = some datum) :
    dataLength data =
      dataLength (data.take k) + (datum.bytes.length + dataLength (data.drop (k + 1))) := by
  obtain ⟨hk, rfl⟩ := List.getElem?_eq_some_iff.1 h
  have hsplit : data = data.take k ++ data[k] :: data.drop (k + 1) := by
    rw [← List.drop_eq_getElem_cons hk, List.take_append_drop]
  have hlength := congrArg dataLength hsplit
  rwa [dataLength, dataLength, List.map_append, List.sum_append] at hlength

/-! ## Layouts -/

section
variable {measures : List (Mnemonic × Nat)} {placed : List PlacedLine} {sizes : List Nat} {layout : Layout}
  (hsizes : measures.map (·.2) = expansions.map totalLength)
  (hm : List.Forall₂ (fun (line : Line) (m : Mnemonic × Nat) => Mnemonic.ofName? line.mnemonic = some m.1 ∧ 0 < m.2 ∧
    ∀ address, (line.replaceCurrentAddress address).measure program.symbols = .ok m) program.lines measures)
include hsizes

theorem lineAddress_eq (i : Nat) :
    lineAddress program.origin expansions i = program.origin.toNat + ((measures.take i).map (·.2)).sum := by
  rw [lineAddress, List.map_take, List.map_take, hsizes]

theorem dataAddress_eq (k : Nat) :
    dataAddress program.origin expansions program.symbols.data k = program.origin.toNat +
      ((measures.map (·.2)).sum + dataLength (program.symbols.data.take k)) := by
  rw [dataAddress, lineAddress, List.take_length, hsizes, Nat.add_assoc]

include hm

/-- A program that fits is laid out. -/
theorem Fits.exists_layOut (h : program.Fits expansions) : ∃ layout, program.layOut.result = .ok layout := by
  have htotal := h.total
  rw [Program.total, ← hsizes] at htotal
  have hlines : List.Forall₂ (fun (line : Line) (m : Mnemonic × Nat) => 0 < m.2 ∧
      ∀ address, (line.replaceCurrentAddress address).measure program.symbols = .ok m) program.lines measures :=
    hm.imp fun _ _ hx => hx.2
  obtain ⟨placed, hplaced⟩ := @exists_placeLines program.origin _ 0 _ _ hlines (by omega)
    fun i m hi hc => by
      obtain ⟨line, hline, hname, -⟩ := getElem?_of_forall₂ hm.flip hi
      have hne := h.calls i line hline ((Mnemonic.isCall_iff hname).1 hc)
      have hle : ((measures.take (i + 1)).map (·.2)).sum ≤ (measures.map (·.2)).sum := by
        rw [List.map_take]
        exact List.Sublist.sum_le_sum (List.take_sublist _ _) fun _ _ => Nat.zero_le _
      rw [lineAddress_eq hsizes] at hne
      omega
  obtain ⟨data, hdata⟩ := @exists_placeData program.origin (0 + (measures.map (·.2)).sum) program.symbols.data
    fun k hk => by
      have hne := h.data k _ (List.getElem?_eq_getElem hk)
      rw [dataAddress_eq hsizes] at hne
      have hsplit := dataLength_eq_of_getElem? (List.getElem?_eq_getElem hk)
      cases hb : program.symbols.data[k].bytes with
      | nil =>
        have := hne hb
        omega
      | cons b bytes =>
        rw [hb, List.length_cons] at hsplit
        omega
  exact ⟨_, layOut_eq_ok_iff.2 ⟨placed, _, data, _, hplaced, hdata, by omega, rfl⟩⟩

omit hsizes in
/-- The sizes in a layout are those that are measured. -/
theorem LaidOut.sizes_eq (h : program.LaidOut placed sizes layout) : sizes = measures.map (·.2) := by
  refine List.ext_getElem? fun i => ?_
  rw [List.getElem?_map]
  cases hl : program.lines[i]? with
  | none =>
    have hi := List.getElem?_eq_none_iff.1 hl
    rw [List.getElem?_eq_none (h.length_sizes ▸ hi), List.getElem?_eq_none (hm.length_eq ▸ hi)]
    rfl
  | some line =>
    obtain ⟨m, hi, -, -, hmeasure⟩ := getElem?_of_forall₂ hm hl
    obtain ⟨p, size, -, hsize, hplaces⟩ := h.places i line hl
    obtain ⟨m', hm', -⟩ := hplaces.exists_measure
    rw [hi, hsize, Option.map_some, Except.ok.inj ((hmeasure _).symm.trans hm')]

/-- A line of a layout, with the addresses of its start and of its end. -/
theorem LaidOut.exists_line (h : program.LaidOut placed sizes layout) {i : Nat} {line : Line}
    (hl : program.lines[i]? = some line) : ∃ m p, placed[i]? = some p ∧
      Mnemonic.ofName? line.mnemonic = some m ∧ p.labels = line.labels ∧
      p.address.toNat = lineAddress program.origin expansions i ∧
      (m.isCall = true → lineAddress program.origin expansions (i + 1) ≤ 0xFFFF) ∧
      p.line.returnAddress = if m.isCall then
        some (UInt16.ofNat (lineAddress program.origin expansions (i + 1))) else none := by
  obtain rfl := h.sizes_eq hm
  obtain ⟨⟨m, size⟩, hi, hname, -, hmeasure⟩ := getElem?_of_forall₂ hm hl
  obtain ⟨p, size', hp, hsize, hplaces⟩ := h.places i line hl
  obtain ⟨m', hm', hcall, hreturn⟩ := hplaces.exists_measure
  cases (hmeasure p.address).symm.trans hm'
  have hend : lineAddress program.origin expansions (i + 1) =
      program.origin.toNat + (((measures.map (·.2)).take i).sum + size) := by
    rw [lineAddress_eq hsizes, List.take_add_one, hi, List.map_append, List.sum_append, List.map_take]
    rfl
  refine ⟨m, p, hp, hname, hplaces.labels, ?_, fun hc => hend ▸ hcall hc, hend ▸ hreturn⟩
  rw [hplaces.address, toNat_addressFrom hplaces.inMemory, lineAddress_eq hsizes, List.map_take]

/-- The data of a layout, with their addresses. -/
theorem LaidOut.datum (h : program.LaidOut placed sizes layout) {k : Nat} {datum : Datum}
    (hd : program.symbols.data[k]? = some datum) :
    dataAddress program.origin expansions program.symbols.data k ≤ 0xFFFF ∧
      layout.symbols.data[k]? = some { datum with
        address := UInt16.ofNat (dataAddress program.origin expansions program.symbols.data k) } := by
  obtain rfl := h.sizes_eq hm
  rw [dataAddress_eq hsizes, ← h.codeSize]
  exact h.data k datum hd

/-- **What is laid out fits.** -/
theorem LaidOut.fits (h : program.LaidOut placed sizes layout) : program.Fits expansions where
  total := by
    obtain rfl := h.sizes_eq hm
    have hle := h.inMemory
    rwa [h.totalSize, h.codeSize, hsizes] at hle
  calls i line hl hcall := by
    obtain ⟨m, p, -, hname, -, -, hend, -⟩ := h.exists_line hsizes hm hl
    have := hend ((Mnemonic.isCall_iff hname).2 hcall)
    omega
  data k datum hd _ := by
    have := (h.datum hsizes hm hd).1
    omega

/-- **What is laid out does not wrap.** -/
theorem LaidOut.unwrapped (h : program.LaidOut placed sizes layout) {start : UInt16}
    {statements : List LocatedStatement} (hc : program.Collects start statements) :
    program.Unwrapped expansions layout where
  labels i line name hl hn := by
    obtain ⟨m, p, hp, -, hlabels, haddress, -⟩ := h.exists_line hsizes hm hl
    exact ⟨p.address, h.procedure?_of_mem hc (List.mem_of_getElem? hp) (hlabels ▸ hn), haddress⟩
  returns i line hl := by
    obtain ⟨m, p, hp, hname, -, -, hend, hreturn⟩ := h.exists_line hsizes hm hl
    refine ⟨p.line, by rw [h.lines, List.getElem?_map, hp]; rfl, ?_⟩
    rw [hreturn]
    by_cases hcall : m.isCall = true
    · rw [if_pos hcall, if_pos ((Mnemonic.isCall_iff hname).1 hcall), Option.map_some,
        UInt16.toNat_ofNat_of_lt' (Nat.lt_succ_of_le (hend hcall))]
    · rw [if_neg hcall, if_neg (mt (Mnemonic.isCall_iff hname).2 hcall), Option.map_none]
  data k datum hd := by
    obtain ⟨hle, hd'⟩ := h.datum hsizes hm hd
    exact ⟨_, hd', UInt16.toNat_ofNat_of_lt' (Nat.lt_succ_of_le hle)⟩
  codeSize := by
    obtain rfl := h.sizes_eq hm
    rw [h.codeSize, hsizes]
  totalSize := by
    obtain rfl := h.sizes_eq hm
    rw [h.totalSize, h.codeSize, hsizes, Program.total]

end

end Program

/-- **Memory is used to the last byte.** A program of lines that can be expanded is laid out iff it fits, and is too
large otherwise. Where it is laid out, no address wraps. -/
theorem layOut_of_accepts {files : SourceFiles} {origin : UInt16} {path text : String} {program : Program}
    {expansions : List (List Instruction)} (h : (Program.ofSource files origin path text).result = .ok program)
    (ha : program.Accepts expansions) :
    ((∃ layout, program.layOut.result = .ok layout) ↔ program.Fits expansions) ∧
      (¬ program.Fits expansions → ∃ size, program.layOut.result = .error (.imageTooLarge program.origin size) ∧
        0x10000 ≤ program.origin.toNat + size) ∧
      ∀ layout, program.layOut.result = .ok layout → program.Unwrapped expansions layout := by
  have hc := Program.collects_of_ofSource h
  obtain ⟨measures, hsizes, hm⟩ := ha.exists_measures (hc.noBytes fun _ => SourceTree.named_of_mem_read)
  have hfits (layout : Layout) (hl : program.layOut.result = .ok layout) :
      program.Fits expansions ∧ program.Unwrapped expansions layout := by
    obtain ⟨placed, sizes, hlaid⟩ := Program.exists_laidOut hl
    exact ⟨hlaid.fits hsizes hm, hlaid.unwrapped hsizes hm hc⟩
  refine ⟨⟨fun ⟨layout, hl⟩ => (hfits layout hl).1, fun hf => hf.exists_layOut hsizes hm⟩, fun hf => ?_,
    fun layout hl => (hfits layout hl).2⟩
  cases hl : program.layOut.result with
  | ok layout => exact absurd (hfits layout hl).1 hf
  | error error =>
    obtain ⟨size, rfl, hlt⟩ := Program.tooLarge_of_layOut (fun line hline => by
      obtain ⟨i, hi⟩ := List.mem_iff_getElem?.1 hline
      obtain ⟨m, -, -, -, hmeasure⟩ := getElem?_of_forall₂ hm hi
      exact ⟨m, hmeasure⟩) hl
    exact ⟨size, rfl, hlt⟩

/-- A call of nine bytes, and some data behind it. -/
def callProgram (origin : UInt16) (data : List Datum) : Program := {
  origin := origin
  lines := [{ loc := ⟨"full.asm", 2⟩, mnemonic := "CALL", operands := ["AGAIN"], labels := ["AGAIN"] }]
  symbols := { procedures := [("AGAIN", none)], data := data } }

/-- The operations of the call, as they are counted. -/
def countedCall : List Instruction :=
  [⟨.push, .source (.imm 0)⟩, ⟨.push, .source (.imm 0)⟩, ⟨.lda, .address 0 0⟩, ⟨.jnz, .source (.imm 1)⟩]

theorem layOut_of_accepts_call : ∃ full overfull layout,
    (Program.ofSource (.ofList []) 0xFFF6 "full.asm" "AGAIN:\nCALL AGAIN\n#DB LAST 7").result = .ok full ∧
    (Program.ofSource (.ofList []) 0xFFF7 "full.asm" "AGAIN:\nCALL AGAIN").result = .ok overfull ∧
    full.layOut.result = .ok layout ∧ full.Unwrapped [countedCall] layout ∧
    full.origin.toNat + layout.totalSize = 0x10000 ∧
    overfull.origin.toNat + overfull.total [countedCall] = 0x10000 ∧
    ∃ size, overfull.layOut.result = .error (.imageTooLarge 0xFFF7 size) := by
  have hfull : (Program.ofSource (.ofList []) 0xFFF6 "full.asm" "AGAIN:\nCALL AGAIN\n#DB LAST 7").result =
      .ok (callProgram 0xFFF6 [{ name := "LAST", bytes := [7], loc := ⟨"full.asm", 3⟩ }]) := by cbv
  have hoverfull : (Program.ofSource (.ofList []) 0xFFF7 "full.asm" "AGAIN:\nCALL AGAIN").result =
      .ok (callProgram 0xFFF7 []) := by cbv
  have haccepts (origin : UInt16) (data : List Datum) : (callProgram origin data).Accepts [countedCall] :=
    .cons ⟨0, .compound .call, [[.word 0]], by decide, by rfl, rfl⟩ .nil
  obtain ⟨hlayout, -, hunwrapped⟩ := layOut_of_accepts hfull (haccepts _ _)
  obtain ⟨layout, hl⟩ := hlayout.2 {
    total := by decide
    calls := by
      rintro (_ | i) line hl -
      · decide
      · cases hl
    data := by
      rintro (_ | k) datum hd hb
      · cases hd
        cases hb
      · cases hd }
  obtain ⟨-, htooLarge, -⟩ := layOut_of_accepts hoverfull (haccepts _ _)
  obtain ⟨size, herror, -⟩ := htooLarge fun hf => hf.calls 0 _ rfl rfl rfl
  exact ⟨_, _, layout, hfull, hoverfull, hl, hunwrapped layout hl, by rw [(hunwrapped layout hl).totalSize]; rfl, rfl,
    size, herror⟩

end Octet
