import Octet.Proofs.Assembler.Addresses
import Octet.Proofs.Assembler.QuotedLine
import Octet.Proofs.Assembler.Reading
/-!
Texts in quotes on their way from a source tree to memory.

* `QuotedLine.result_walkLine`: a line that puts texts into memory is accepted;
* `QuotedLine.exists_datum`: the bytes of the texts are in the image of every source that has the line;
* `quoted_data_survives`: both, for every line.
-/

namespace Octet

namespace QuotedLine

variable (l : QuotedLine)

theorem exists_mem_numberedLines {text : String} (h : l.source ∈ Text.lines text.toList) :
    ∃ n, (n, String.ofList l.normal) ∈ SourceTree.numberedLines text := by
  obtain ⟨k, hk, hget⟩ := List.mem_iff_getElem.1 h
  have hmem : (l.source, 1 + k) ∈ (Text.lines text.toList).zipIdx 1 := by
    rw [List.mk_add_mem_zipIdx_iff_getElem?, List.getElem?_eq_getElem hk, hget]
  refine ⟨1 + k, List.mem_filter.2 ⟨List.mem_map.2 ⟨_, hmem, ?_⟩, ?_⟩⟩
  · show (1 + k, normalize (String.ofList l.source)) = _
    rw [l.normalize_source]
  · simp [normal]

/-- **The line is accepted** wherever its name is not taken, and adds the bytes of its texts. -/
theorem result_walkLine {c : Program.Collection} (h : c.symbols.datum? l.symbol = none) (files : SourceFiles)
    (path : String) (n : Nat)
    (splice : Program.Collection × SourceFiles → Location → String →
      Traced AsmEvent AsmError (Program.Collection × SourceFiles)) :
    (SourceTree.walkLine (.collecting Program.collect) path splice (c, files)
      (n, normalize (String.ofList l.source))).result =
        .ok ({ c with symbols.data := c.symbols.data ++ [⟨l.symbol, l.list.payload, 0, ⟨path, n⟩⟩] }, files) := by
  have hadd : Program.faultIn ⟨path, n⟩
      (c.symbols.addDatum { name := l.symbol, bytes := l.list.payload, loc := ⟨path, n⟩ }) =
        .ok { c.symbols with data := c.symbols.data ++ [⟨l.symbol, l.list.payload, 0, ⟨path, n⟩⟩] } := by
    rw [Program.faultIn_eq_ok, Symbols.addDatum_eq_ok_iff]
    refine ⟨?_, rfl⟩
    rw [← Symbols.datum?_isSome_iff, h]
    simp
  rw [l.normalize_source]
  unfold SourceTree.walkLine
  rw [l.parse_normal]
  simp only [SourceTree.Walker.collecting, Program.collect, Traced.result_bind, Traced.result_emit, Traced.result_lift,
    Traced.result_pure, hadd, Except.ok_bind]

/-- **The bytes of the texts are in the image.** -/
theorem exists_datum {files : SourceFiles} {origin : UInt16} {path text path' text' : String}
    (s : Stages files origin path text) (hr : SourceTree.Reads includeLimit files path text path' text')
    (hl : l.source ∈ Text.lines text'.toList) :
    ∃ datum, s.layout.symbols.datum? l.symbol = some datum ∧ datum.bytes = l.list.payload ∧
      s.image.origin.toNat ≤ datum.address.toNat ∧
      (s.image.bytes.drop (datum.address.toNat - s.image.origin.toNat)).take l.list.payload.length = l.list.payload := by
  obtain ⟨n, hn⟩ := l.exists_mem_numberedLines hl
  obtain ⟨left, hleft⟩ : ∃ left, (SourceTree.read files path text).result = .ok left := by
    have hp := s.program_eq
    rw [Program.ofSource_eq, Program.ofStream, Traced.result_bind] at hp
    obtain ⟨⟨c, left⟩, hc, -⟩ := Except.bind_eq_ok.1 hp
    exact ⟨left, (Traced.result_foldReports_eq_ok_iff.1 hc).2⟩
  have hmem : ⟨⟨path', n⟩, .data l.symbol l.list.payload⟩ ∈ s.statements :=
    hr.mem_reports hleft hn l.parse_normal fun target h => by cases h
  have hdatum : (⟨l.symbol, l.list.payload, 0, ⟨path', n⟩⟩ : Datum) ∈ dataOf s.statements :=
    List.mem_filterMap.2 ⟨_, hmem, rfl⟩
  obtain ⟨k, hk, hget⟩ := List.mem_iff_getElem.1 hdatum
  have hget : (dataOf s.statements)[k]? = some ⟨l.symbol, l.list.payload, 0, ⟨path', n⟩⟩ := by
    rw [List.getElem?_eq_getElem hk, hget]
  -- the address does not wrap
  have haddress := s.dataAddress_lt hk
  have htoNat : (UInt16.ofNat (dataAddress s.image.origin s.expansions (dataOf s.statements) k)).toNat =
      dataAddress s.image.origin s.expansions (dataOf s.statements) k := by
    rw [UInt16.toNat_ofNat', Nat.mod_eq_of_lt haddress]
  refine ⟨_, s.datum?_of_getElem? hget, rfl, ?_, ?_⟩
  · show s.image.origin.toNat ≤ (UInt16.ofNat (dataAddress s.image.origin s.expansions _ k)).toNat
    rw [htoNat, dataAddress, lineAddress]
    omega
  · show (s.image.bytes.drop ((UInt16.ofNat (dataAddress s.image.origin s.expansions _ k)).toNat - _)).take _ = _
    rw [htoNat]
    exact s.slice_data hget

end QuotedLine

/-- **Texts survive the assembler.** -/
theorem quoted_data_survives (l : QuotedLine) :
    Text.lines l.source = [l.source] ∧
    (∀ c : Program.Collection, c.symbols.datum? l.symbol = none → ∀ files path n splice,
      (SourceTree.walkLine (.collecting Program.collect) path splice (c, files)
        (n, normalize (String.ofList l.source))).result =
          .ok ({ c with symbols.data := c.symbols.data ++ [⟨l.symbol, l.list.payload, 0, ⟨path, n⟩⟩] }, files)) ∧
    ∀ files origin path text image path' text', (assemble files origin path text).result = .ok image →
      SourceTree.Reads includeLimit files path text path' text' → l.source ∈ Text.lines text'.toList →
      ∃ program layout datum, (Program.ofSource files origin path text).result = .ok program ∧
        program.layOut.result = .ok layout ∧ layout.symbols.datum? l.symbol = some datum ∧
        datum.bytes = l.list.payload ∧ image.origin.toNat ≤ datum.address.toNat ∧
        (image.bytes.drop (datum.address.toNat - image.origin.toNat)).take l.list.payload.length = l.list.payload := by
  refine ⟨l.lines_source, fun c h files path n splice => l.result_walkLine h files path n splice, ?_⟩
  intro files origin path text image path' text' himage hr hl
  obtain ⟨s, rfl⟩ := assemble_eq_ok_iff.1 himage
  obtain ⟨datum, hdatum⟩ := l.exists_datum s hr hl
  exact ⟨s.program, s.layout, datum, s.program_eq, s.layout_eq, hdatum⟩

/-- A line with much that could end its texts early, and a comment that could open one. -/
def QuotedLine.sample : QuotedLine where
  name := "hello"
  list := {
    first := ⟨.double, "a;\\\"\n"⟩
    more := [([','], ⟨.single, "'\"ü "⟩)]
    separated := by simp [isSeparator] }
  blanks := [' ', '\t']
  comment? := some ['"', ' ', '!']
  legal := by decide
  blank := by simp [Text.isBlank]
  unbroken := by simp

/-- A file that has nothing but the line. -/
def QuotedLine.sampleFiles : SourceFiles := .ofList [("T", String.ofList QuotedLine.sample.source)]

theorem quoted_data_survives_include :
    ∃ (image : Image) (program : Program) (layout : Layout) (datum : Datum),
      QuotedLine.sample.source ∈ Text.lines (String.ofList QuotedLine.sample.source).toList ∧
      SourceTree.Reads includeLimit QuotedLine.sampleFiles "main.asm" "#INCLUDE T\nPUSH HELLO.L" "T"
        (String.ofList QuotedLine.sample.source) ∧
      (assemble QuotedLine.sampleFiles 0x200 "main.asm" "#INCLUDE T\nPUSH HELLO.L").result = .ok image ∧
      (Program.ofSource QuotedLine.sampleFiles 0x200 "main.asm" "#INCLUDE T\nPUSH HELLO.L").result = .ok program ∧
      program.layOut.result = .ok layout ∧ layout.symbols.datum? "HELLO" = some datum ∧
      datum.bytes = [0x61, 0x3B, 0x5C, 0x22, 0x0A, 0x00, 0x27, 0x22, 0xC3, 0xBC, 0x20] := by
  have himage : (assemble QuotedLine.sampleFiles 0x200 "main.asm" "#INCLUDE T\nPUSH HELLO.L").result = .ok ⟨0x200,
    [0x8E, 0x02], [0x61, 0x3B, 0x5C, 0x22, 0x0A, 0x00, 0x27, 0x22, 0xC3, 0xBC, 0x20]⟩ := by cbv
  have hline : QuotedLine.sample.source ∈ Text.lines (String.ofList QuotedLine.sample.source).toList := by
    rw [String.toList_ofList, QuotedLine.lines_source]
    exact List.mem_singleton_self _
  have hlines : SourceTree.numberedLines "#INCLUDE T\nPUSH HELLO.L" =
    [] ++ (1, "#INCLUDE T") :: [(2, "PUSH HELLO.L")] := by cbv
  have hinclude : Statement.parse "#INCLUDE T" = .ok (.splice "T") := by cbv
  have hpath : SourcePath.resolve "main.asm" "T" = "T" := by cbv
  have htext : QuotedLine.sampleFiles.text "T" = .ok (String.ofList QuotedLine.sample.source) := by cbv
  have hsymbol : QuotedLine.sample.symbol = "HELLO" := by cbv
  have hload : QuotedLine.sampleFiles.load (SourcePath.resolve "main.asm" "T") =
      .ok (String.ofList QuotedLine.sample.source, QuotedLine.sampleFiles) := by
    rw [hpath, SourceFiles.load_of_not_isInput rfl, htext]
    rfl
  have hreads : SourceTree.Reads includeLimit QuotedLine.sampleFiles "main.asm" "#INCLUDE T\nPUSH HELLO.L" "T"
      (String.ofList QuotedLine.sample.source) := by
    refine .splice hlines hinclude rfl hload ?_
    rw [hpath]
    exact .self ..
  obtain ⟨-, -, hdata⟩ := quoted_data_survives QuotedLine.sample
  obtain ⟨program, layout, datum, hp, hl, hd, hbytes, -⟩ := hdata _ _ _ _ _ _ _ himage hreads hline
  rw [hsymbol] at hd
  exact ⟨_, program, layout, datum, hline, hreads, himage, hp, hl, hd, hbytes⟩

end Octet
