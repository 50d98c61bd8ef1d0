import Octet.Proofs.Assembler.QuotedLine
/-!
What a line is refused for.

* `extraBytes`: the bytes that characters take beyond one each; `utf8Length_eq` counts all of them;
* `DataLine`: a data directive, taken apart; `utf8Length_front` says at which byte its list starts;
* `Statement.fault_of_parse`: a line is refused for its name, for the form of its directive, or for the items of its list.
-/

namespace Octet

open Text

/-! ## Bytes -/

/-- The bytes that characters take beyond one each. -/
def extraBytes (cs : List Char) : Nat := (cs.map fun c => c.utf8Size - 1).sum

theorem extraBytes_append (xs ys : List Char) : extraBytes (xs ++ ys) = extraBytes xs + extraBytes ys := by
  rw [extraBytes, List.map_append, List.sum_append]
  rfl

theorem extraBytes_eq_zero_iff {cs : List Char} : extraBytes cs = 0 ↔ ∀ c ∈ cs, c.utf8Size = 1 := by
  rw [extraBytes, List.sum_eq_zero_iff_forall_eq_nat, List.forall_mem_map]
  refine forall₂_congr fun c _ => ?_
  have := c.utf8Size_pos
  omega

/-- A character takes one byte, and its extra ones. -/
theorem utf8Length_eq (cs : List Char) : utf8Length cs = cs.length + extraBytes cs := by
  induction cs with
  | nil => rfl
  | cons c cs ih =>
    have hpos := c.utf8Size_pos
    have hlength : utf8Length (c :: cs) = c.utf8Size + utf8Length cs := rfl
    have hextra : extraBytes (c :: cs) = (c.utf8Size - 1) + extraBytes cs := rfl
    rw [hlength, ih, hextra, List.length_cons]
    omega

/-! ## Data directives -/

/-- The command of a data directive. -/
def DataWidth.command : DataWidth → List Char
  | byte => ['D', 'B']
  | word => ['D', 'W']

/-- A data directive: a hash sign, the command, a name and a list, with blanks between them. -/
structure DataLine where
  width : DataWidth
  /-- The blanks in front of the command. -/
  lead : List Char
  /-- The blanks behind the command. -/
  gap : List Char
  name : String
  /-- The blanks in front of the list. -/
  inset : List Char
  list : List Char
  blank : ∀ c ∈ lead ++ gap ++ inset, isBlank c = true
  legal : Statement.checkName name = .ok ()

namespace DataLine

variable (l : DataLine)

/-- All blanks in front of the list. -/
def blanks : List Char := l.lead ++ l.gap ++ l.inset

/-- What stands in front of the list. -/
def front : List Char := '#' :: (l.lead ++ (l.width.command ++ (l.gap ++ (l.name.toList ++ l.inset))))

/-- The whole line. -/
def line : List Char := l.front ++ l.list

/-- The bytes that the blanks take beyond one each. -/
def surplus : Nat := extraBytes l.blanks

theorem mem_line_of_mem_blanks {c : Char} (h : c ∈ l.blanks) : c ∈ l.line := by
  simp only [blanks, List.mem_append] at h
  simp only [line, front, List.cons_append, List.mem_cons, List.mem_append]
  tauto

/-- Only blanks take more than one byte. -/
theorem utf8Length_front : utf8Length l.front = l.front.length + l.surplus := by
  have hcommand : extraBytes l.width.command = 0 := by cases l.width <;> rfl
  have hname : extraBytes l.name.toList = 0 := by
    rw [extraBytes_eq_zero_iff]
    intro c hc
    have hcontinues := (Statement.isName_of_checkName l.legal).continuesName c hc
    exact forall_continuesName (P := fun c => c.utf8Size = 1) (by decide) hcontinues
  have hhash : extraBytes ('#' :: (l.lead ++ (l.width.command ++ (l.gap ++ (l.name.toList ++ l.inset))))) =
      extraBytes (l.lead ++ (l.width.command ++ (l.gap ++ (l.name.toList ++ l.inset)))) := Nat.zero_add _
  rw [utf8Length_eq, surplus, blanks, front, hhash]
  simp only [extraBytes_append, hcommand, hname]
  omega

end DataLine

/-! ## Faults of lines -/

/-- A word is cut off between blanks. -/
theorem exists_cutWord (cs : List Char) : ∃ lead gap, cs = lead ++ ((cutWord cs).1 ++ (gap ++ (cutWord cs).2)) ∧
    (∀ c ∈ lead, isBlank c = true) ∧ ∀ c ∈ gap, isBlank c = true := by
  refine ⟨cs.takeWhile isBlank, ((trimStart cs).dropWhile (!isBlank ·)).takeWhile isBlank, ?_,
    fun c hc => List.mem_takeWhile_imp hc, fun c hc => List.mem_takeWhile_imp hc⟩
  simp only [cutWord, trimStart, List.takeWhile_append_dropWhile]

/-- The faults of a line that is refused for something else than the items of a list. -/
inductive PlainFault : Fault → Prop
  | illegalName (name : String) : PlainFault (.illegalName name)
  | unknownDirective (name : String) : PlainFault (.unknownDirective name)
  | invalidDirective (name : String) : PlainFault (.invalidDirective name)

namespace Statement

theorem plainFault_of_checkName {name : String} {fault : Fault} (h : checkName name = .error fault) :
    PlainFault fault := by
  unfold checkName at h
  split at h
  · cases h
  · cases h
    exact .illegalName name

theorem fault_of_parseData {width : DataWidth} {directive : String} {line arguments : List Char} {fault : Fault}
    (h : parseData width directive line arguments = .error fault) : PlainFault fault ∨
      checkName (String.ofList (cutWord arguments).1) = .ok () ∧
        dataBytes width (utf8Length line - utf8Length (cutWord arguments).2) (cutWord arguments).2 = .error fault := by
  unfold parseData at h
  rcases Except.bind_eq_error.1 h with h | ⟨u, hname, h⟩
  · exact .inl (plainFault_of_checkName h)
  · dsimp only at h
    split at h
    · cases h
      exact .inl (.invalidDirective directive)
    · rcases Except.bind_eq_error.1 h with h | ⟨bytes, -, h⟩
      · exact .inr ⟨hname, h⟩
      · cases h

/-- The list of a data directive, with the offset that its line gives it. -/
theorem exists_dataLine {width : DataWidth} {body : List Char} {fault : Fault}
    (hcommand : (cutWord body).1 = width.command)
    (hname : checkName (String.ofList (cutWord (cutWord body).2).1) = .ok ())
    (h : dataBytes width (utf8Length ('#' :: body) - utf8Length (cutWord (cutWord body).2).2)
      (cutWord (cutWord body).2).2 = .error fault) :
    ∃ l : DataLine, '#' :: body = l.line ∧ dataBytes l.width (utf8Length l.front) l.list = .error fault := by
  obtain ⟨lead, gap, hbody, hlead, hgap⟩ := exists_cutWord body
  obtain ⟨more, inset, harguments, hmore, hinset⟩ := exists_cutWord (cutWord body).2
  let l : DataLine := {
    width := width, lead := lead, gap := gap ++ more, name := String.ofList (cutWord (cutWord body).2).1
    inset := inset, list := (cutWord (cutWord body).2).2, legal := hname
    blank := by
      simp only [List.mem_append]
      rintro c ((hc | hc | hc) | hc)
      exacts [hlead c hc, hgap c hc, hmore c hc, hinset c hc] }
  have hline : '#' :: body = l.line := by
    rw [DataLine.line, DataLine.front, ← hcommand]
    simp only [l, String.toList_ofList, List.cons_append, List.append_assoc]
    rw [← harguments, ← hbody]
  refine ⟨l, hline, ?_⟩
  have hoffset : utf8Length ('#' :: body) - utf8Length l.list = utf8Length l.front := by
    rw [hline, DataLine.line, utf8Length_eq, utf8Length_eq, utf8Length_eq, extraBytes_append, List.length_append]
    omega
  rw [← hoffset]
  exact h

theorem fault_of_parseDirective {body : List Char} {fault : Fault}
    (h : parseDirective ('#' :: body) body = .error fault) : PlainFault fault ∨
      ∃ l : DataLine, '#' :: body = l.line ∧ dataBytes l.width (utf8Length l.front) l.list = .error fault := by
  have hword {width : DataWidth} {directive : String} (hcommand : String.ofList (cutWord body).1 = directive)
      (hwidth : directive.toList = width.command)
      (h : parseData width directive ('#' :: body) (cutWord body).2 = .error fault) :
      PlainFault fault ∨
        ∃ l : DataLine, '#' :: body = l.line ∧ dataBytes l.width (utf8Length l.front) l.list = .error fault := by
    refine (fault_of_parseData h).imp_right fun ⟨hname, hbytes⟩ => exists_dataLine ?_ hname hbytes
    rw [← hwidth, ← hcommand, String.toList_ofList]
  unfold parseDirective at h
  dsimp only at h
  split at h
  · rename_i hcommand
    exact hword hcommand rfl h
  · rename_i hcommand
    exact hword hcommand rfl h
  · -- of a reservation, the name and the number can be wrong
    refine .inl ?_
    rcases Except.bind_eq_error.1 h with h | ⟨u, -, h⟩
    · exact plainFault_of_checkName h
    · split at h
      · split at h
        · cases h
        · cases h; exact .invalidDirective _
      · cases h; exact .invalidDirective _
  · refine .inl ?_
    unfold parseOrigin at h
    split at h
    · split at h
      · cases h
      · cases h; exact .invalidDirective _
    · cases h; exact .invalidDirective _
  · -- of a definition, the name can be wrong and the text missing
    refine .inl ?_
    rcases Except.bind_eq_error.1 h with h | ⟨u, -, h⟩
    · exact plainFault_of_checkName h
    · dsimp only at h
      split at h
      · cases h; exact .invalidDirective _
      · cases h
  · refine .inl ?_
    unfold parseSplice at h
    dsimp only at h
    split at h
    · cases h; exact .invalidDirective _
    · cases h
  · cases h
    exact .inl (.unknownDirective _)

/-- **Why a line is refused**: for its name, for the form of its directive, or for the items of its list. -/
theorem fault_of_parse {line : String} {fault : Fault} (h : parse line = .error fault) : PlainFault fault ∨
    ∃ l : DataLine, line.toList = l.line ∧ dataBytes l.width (utf8Length l.front) l.list = .error fault := by
  unfold parse at h
  split at h
  · rcases Except.bind_eq_error.1 h with h | ⟨u, -, h⟩
    · exact .inl (plainFault_of_checkName h)
    · cases h
  · split at h
    · rename_i body hlist
      rw [hlist] at h ⊢
      exact fault_of_parseDirective h
    · cases h

end Statement

end Octet
