import Octet.Assembler.Assembly
import Octet.Proofs.Assembler.Placement
import Octet.Proofs.Assembler.Substitution
/-!
The stages of an assembly, and that those after the layout cannot fail.

* `Stages`: what every stage of a successful assembly gives;
* `exists_stages_of_layOut`: every program that is laid out goes through the stages that follow;
* `assemble_eq_ok_iff`: an image is assembled iff there are stages that end in it.
-/

namespace Octet

open Instruction

/-! ## Images -/

namespace Image

theorem mapList_emitOperation {program : List Instruction} (hv : ∀ i ∈ program, i.Valid) :
    Traced.mapList emitOperation program = Pure.pure (program.map Instruction.code) := by
  induction program with
  | nil => rfl
  | cons i program ih =>
    have hi : emitOperation i = Pure.pure i.code := by
      rw [emitOperation, encode_eq_ok_iff.2 ⟨hv i (by simp), rfl⟩]
    rw [Traced.mapList, hi, ih fun j hj => hv j (by simp [hj])]
    rfl

/-- A program of valid operations is emitted as the layout says, and reports nothing but its data. -/
theorem emit_of_valid {origin : UInt16} {codeSize totalSize : Nat} {data : List Datum} {program : List Instruction}
    (hv : ∀ i ∈ program, i.Valid) (hc : totalLength program = codeSize)
    (ht : codeSize + Program.dataLength data = totalSize) :
    emit origin codeSize totalSize data program =
      ⟨data.map fun d => .dataEmitted d.name d.address d.bytes.length,
        .ok ⟨origin, codeOf program, data.flatMap (·.bytes)⟩⟩ := by
  have hcode : (program.flatMap Instruction.code).length = codeSize := (length_codeOf hv).trans hc
  have hsize : (⟨origin, program.flatMap Instruction.code, data.flatMap (·.bytes)⟩ : Image).size = totalSize := by
    rw [size, hcode, ← ht, List.length_flatMap]
    rfl
  rw [emit, mapList_emitOperation hv, pure_bind, ← List.flatMap_def, if_neg (not_not.2 hcode)]
  dsimp only
  rw [if_neg (not_not.2 hsize)]
  show (⟨_ ++ [], _⟩ : Traced AsmEvent AsmError Image) = _
  rw [List.append_nil]
  rfl

end Image

/-! ## Symbols of a layout -/

namespace Program.LaidOut

variable {program : Program} {placed : List PlacedLine} {sizes : List Nat} {layout : Layout}
  {start : UInt16} {statements : List LocatedStatement}

theorem procedure?_of_mem (h : program.LaidOut placed sizes layout) (hc : program.Collects start statements)
    {p : PlacedLine} (hp : p ∈ placed) {name : String} (hl : name ∈ p.labels) :
    layout.symbols.procedure? name = some (some p.address) := by
  rw [h.symbols]
  exact procedure?_bindLabels_of_mem ((h.flatMap_labels hc).symm ▸ hc.symbols.nodup_labels) hp hl

theorem procedure?_of_notMem (h : program.LaidOut placed sizes layout) (hc : program.Collects start statements)
    {name : String} (hn : name ∉ labelsOf statements) : layout.symbols.procedure? name = none := by
  rw [h.symbols]
  have hnone : program.symbols.procedure? name = none := Symbols.procedure?_eq_none (hc.symbols.procedureNames_eq ▸ hn)
  exact (procedure?_bindLabels_of_notMem ((h.flatMap_labels hc).symm ▸ hn)).trans hnone

/-- Every label of the source names a placed line. -/
theorem exists_mem_of_label (h : program.LaidOut placed sizes layout) (hc : program.Collects start statements)
    {name : String} (hn : name ∈ labelsOf statements) : ∃ p ∈ placed, name ∈ p.labels :=
  List.mem_flatMap.1 ((h.flatMap_labels hc).symm ▸ hn)

/-- **No procedure is left without an address.** -/
theorem bound (h : program.LaidOut placed sizes layout) (hc : program.Collects start statements) :
    layout.symbols.Bound := by
  intro name hname
  by_cases hn : name ∈ labelsOf statements
  · obtain ⟨p, hp, hl⟩ := h.exists_mem_of_label hc hn
    rw [h.procedure?_of_mem hc hp hl] at hname
    cases hname
  · rw [h.procedure?_of_notMem hc hn] at hname
    cases hname

/-- A layout gives addresses and adds no names. -/
theorem alike (h : program.LaidOut placed sizes layout) (hc : program.Collects start statements) :
    program.symbols.Alike layout.symbols where
  constants := by
    rw [h.symbols]
    exact (Symbols.constants_bindAll ..).symm
  procedures := by
    intro name
    rw [Bool.eq_iff_iff, Symbols.procedure?_isSome_iff, hc.symbols.procedureNames_eq]
    by_cases hn : name ∈ labelsOf statements
    · obtain ⟨p, hp, hl⟩ := h.exists_mem_of_label hc hn
      simp [hn, h.procedure?_of_mem hc hp hl]
    · simp [hn, h.procedure?_of_notMem hc hn]
  data := by
    intro name
    have hnames : layout.symbols.dataNames = program.symbols.dataNames := h.map_data fun name _ => name
    rw [Bool.eq_iff_iff, Symbols.datum?_isSome_iff, Symbols.datum?_isSome_iff, hnames]

end Program.LaidOut

/-! ## Stages -/

/-- What the stages of an assembly give. -/
structure Stages (files : SourceFiles) (origin : UInt16) (path text : String) where
  program : Program
  layout : Layout
  /-- The lines with literal operands. -/
  resolved : List Line
  /-- The operations of each line. -/
  expansions : List (List Instruction)
  program_eq : (Program.ofSource files origin path text).result = .ok program
  layout_eq : program.layOut.result = .ok layout
  resolved_eq : layout.resolve.result = .ok resolved
  expansions_eq : resolved.mapM Line.operations = .ok expansions

namespace Stages

variable {files : SourceFiles} {origin : UInt16} {path text : String}

/-- The operations of all lines. -/
def operations (s : Stages files origin path text) : List Instruction := s.expansions.flatten

/-- The image in which the stages end. -/
def image (s : Stages files origin path text) : Image :=
  ⟨s.layout.origin, codeOf s.operations, s.layout.symbols.data.flatMap (·.bytes)⟩

theorem expandLines_eq (s : Stages files origin path text) : expandLines s.resolved = .ok s.operations := by
  rw [expandLines, s.expansions_eq]
  rfl

end Stages

/-- Lines that were measured before addresses were known are resolved and expanded to as many bytes. -/
theorem exists_expansions {symbols symbols' : Symbols} (ha : symbols.Alike symbols') (hb : symbols'.Bound)
    {lines : List Line} {sizes : List Nat}
    (h : List.Forall₂ (fun (line : Line) size => ∃ m, line.measure symbols = .ok (m, size)) lines sizes) :
    ∃ resolved expansions, (Traced.mapList (Line.resolve symbols') lines).result = .ok resolved ∧
      resolved.mapM Line.operations = .ok expansions ∧ expansions.map totalLength = sizes := by
  simp only [Traced.result_mapList_eq_ok_iff, Except.mapM_eq_ok_iff]
  induction h with
  | nil => exact ⟨[], [], .nil, .nil, rfl⟩
  | cons hx _ ih =>
    obtain ⟨m, hm⟩ := hx
    obtain ⟨line, program, hr, ho, hlen⟩ := Line.exists_operations_of_measure hb (Line.measure_of_alike ha hm)
    obtain ⟨lines, programs, hrs, hos, hlens⟩ := ih
    exact ⟨line :: lines, program :: programs, .cons hr hrs, .cons ho hos, congrArg₂ List.cons hlen hlens⟩

/-- Operations of lines have machine code. -/
theorem valid_of_mapM_operations {lines : List Line} {expansions : List (List Instruction)}
    (h : lines.mapM Line.operations = .ok expansions) : ∀ expansion ∈ expansions, ∀ i ∈ expansion, i.Valid := by
  rw [Except.mapM_eq_ok_iff] at h
  induction h with
  | nil => exact List.forall_mem_nil _
  | cons hx _ ih =>
    obtain ⟨m, ops, -, -, hp⟩ := Line.operations_eq_ok_iff.1 hx
    exact List.forall_mem_cons.2 ⟨valid_of_expand hp, ih⟩

/-- **The stages after the layout cannot fail.** -/
theorem exists_stages_of_layOut {files : SourceFiles} {origin : UInt16} {path text : String} {program : Program}
    {layout : Layout} (hp : (Program.ofSource files origin path text).result = .ok program)
    (hl : program.layOut.result = .ok layout) :
    ∃ s : Stages files origin path text, s.program = program ∧ s.layout = layout := by
  have hc := Program.collects_of_ofSource hp
  obtain ⟨placed, sizes, h⟩ := Program.exists_laidOut hl
  obtain ⟨resolved, expansions, hr, he, -⟩ := exists_expansions (h.alike hc) (h.bound hc) h.measured
  exact ⟨⟨program, layout, resolved, expansions, hp, hl, hr, he⟩, rfl, rfl⟩

namespace Stages

variable {files : SourceFiles} {origin : UInt16} {path text : String} (s : Stages files origin path text)

theorem collects : s.program.Collects origin (SourceTree.read files path text).reports :=
  Program.collects_of_ofSource s.program_eq

/-- The lines were laid out with the sizes of their expansions. -/
theorem exists_laidOut : ∃ placed, s.program.LaidOut placed (s.expansions.map totalLength) s.layout := by
  obtain ⟨placed, sizes, h⟩ := Program.exists_laidOut s.layout_eq
  obtain ⟨resolved, expansions, hr, he, hlen⟩ := exists_expansions (h.alike s.collects) (h.bound s.collects) h.measured
  obtain rfl := Except.ok.inj (hr.symm.trans s.resolved_eq)
  obtain rfl := Except.ok.inj (he.symm.trans s.expansions_eq)
  exact ⟨placed, hlen ▸ h⟩

theorem valid : ∀ i ∈ s.operations, i.Valid := by
  intro i hi
  obtain ⟨expansion, he, hi⟩ := List.mem_flatten.1 hi
  exact valid_of_mapM_operations s.expansions_eq expansion he i hi

theorem totalLength_operations : totalLength s.operations = s.layout.codeSize := by
  obtain ⟨placed, h⟩ := s.exists_laidOut
  rw [operations, totalLength_flatten, h.codeSize]

theorem size_image : s.image.size = s.layout.totalSize := by
  obtain ⟨placed, h⟩ := s.exists_laidOut
  rw [h.totalSize, Image.size, image, length_codeOf s.valid, s.totalLength_operations, List.length_flatMap,
    h.map_data fun _ bytes => bytes.length]
  rfl

theorem length_bytes : s.image.bytes.length = s.layout.totalSize := (List.length_append ..).trans s.size_image

theorem fits : s.image.origin.toNat + s.image.bytes.length ≤ 0x10000 := by
  obtain ⟨placed, h⟩ := s.exists_laidOut
  rw [s.length_bytes, show s.image.origin = s.program.origin from h.origin]
  exact h.inMemory

theorem emit_eq : s.layout.emit s.operations =
    ⟨s.layout.symbols.data.map fun d => .dataEmitted d.name d.address d.bytes.length, .ok s.image⟩ := by
  obtain ⟨placed, h⟩ := s.exists_laidOut
  refine Image.emit_of_valid s.valid s.totalLength_operations ?_
  rw [h.totalSize, Program.dataLength, Program.dataLength, h.map_data fun _ bytes => bytes.length]

end Stages

/-- **An image is assembled iff the stages end in it.** -/
theorem assemble_eq_ok_iff {files : SourceFiles} {origin : UInt16} {path text : String} {image : Image} :
    (assemble files origin path text).result = .ok image ↔ ∃ s : Stages files origin path text, s.image = image := by
  simp only [assemble, Traced.result_bind, Traced.result_emit, Traced.result_lift, Traced.result_pure, Except.ok_bind]
  constructor
  · intro h
    obtain ⟨program, hp, h⟩ := Except.bind_eq_ok.1 h
    obtain ⟨layout, hl, h⟩ := Except.bind_eq_ok.1 h
    obtain ⟨s, rfl, rfl⟩ := exists_stages_of_layOut hp hl
    rw [s.resolved_eq, Except.ok_bind, s.expandLines_eq, Except.ok_bind, s.emit_eq] at h
    exact ⟨s, Except.ok.inj h⟩
  · rintro ⟨s, rfl⟩
    rw [s.program_eq, Except.ok_bind, s.layout_eq, Except.ok_bind, s.resolved_eq, Except.ok_bind, s.expandLines_eq,
      Except.ok_bind, s.emit_eq]
    rfl

/-! ## Agreement -/

/-- **Layout and emission agree on every program.** After the layout every stage succeeds. Every line is expanded to as
many bytes as it was measured to take, whatever addresses the symbols had then; the code, and the code with the data,
take the bytes that the layout says; and every operation is emitted. -/
theorem later_stages_succeed {files : SourceFiles} {origin : UInt16} {path text : String} {program : Program}
    {layout : Layout} (hp : (Program.ofSource files origin path text).result = .ok program)
    (hl : program.layOut.result = .ok layout) :
    ∃ resolved expansions image,
      layout.resolve.result = .ok resolved ∧
      resolved.mapM Line.operations = .ok expansions ∧
      expandLines resolved = .ok expansions.flatten ∧
      (layout.emit expansions.flatten).result = .ok image ∧
      List.Forall₂ (fun (line : Line) expansion => ∃ m, ∀ symbols, program.symbols.Alike symbols →
        line.measure symbols = .ok (m, totalLength expansion)) layout.lines expansions ∧
      encodeAll expansions.flatten = .ok image.code ∧
      image.code.length = layout.codeSize ∧
      image.size = layout.totalSize ∧
      ∀ operation fault, .operationSkipped operation fault ∉ (layout.emit expansions.flatten).reports := by
  obtain ⟨s, rfl, rfl⟩ := exists_stages_of_layOut hp hl
  obtain ⟨placed, h⟩ := s.exists_laidOut
  refine ⟨s.resolved, s.expansions, s.image, s.resolved_eq, s.expansions_eq, s.expandLines_eq, ?_, ?_,
    encodeAll_of_valid s.valid, ?_, ?_, ?_⟩
  · exact congrArg Traced.result s.emit_eq
  · have hm := h.measured
    rw [List.forall₂_map_right_iff] at hm
    exact hm.imp fun line expansion ⟨m, hm⟩ => ⟨m, fun symbols ha => Line.measure_of_alike ha hm⟩
  · exact (length_codeOf s.valid).trans s.totalLength_operations
  · exact s.size_image
  · intro operation fault hmem
    rw [show s.layout.emit s.expansions.flatten = _ from s.emit_eq] at hmem
    obtain ⟨d, -, hd⟩ := List.mem_map.1 hmem
    cases hd

theorem later_stages_succeed_call :
    ∃ program layout operations image,
      (Program.ofSource (.ofList []) 0 "loop.asm" "LOOP:\nCALL LOOP\nJMP $").result = .ok program ∧
      program.layOut.result = .ok layout ∧
      (layout.emit operations).result = .ok image ∧
      image.code.length = layout.codeSize := by
  have h : (assemble (.ofList []) 0 "loop.asm" "LOOP:\nCALL LOOP\nJMP $").result =
      .ok ⟨0, [0x8E, 0, 0x8E, 9, 2, 0, 0, 0x88, 1, 2, 0, 9, 0x88, 1], []⟩ := by cbv
  obtain ⟨s, -⟩ := assemble_eq_ok_iff.1 h
  obtain ⟨_, _, image, -, -, -, himage, -, -, hlength, -⟩ := later_stages_succeed s.program_eq s.layout_eq
  exact ⟨s.program, s.layout, _, image, s.program_eq, s.layout_eq, himage, hlength⟩

end Octet
