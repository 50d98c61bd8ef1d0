import Octet.Assembler.Error
import Octet.Assembler.SourcePath
/-!
The files that a source can include, as texts that are found by path.

A file may be read many times, but the input only once: `SourceFiles.load` reads one file and gives the files as they
are left, and `load_load` says that the input is empty then, whatever path names it.
-/

namespace Octet

/-- The files that can be included. -/
structure SourceFiles where
  /-- The text of a file, by path. -/
  text : String → Except FileFault String
  /-- Whether a path is that of the input, which is used up when it is read. -/
  isInput : String → Bool := fun _ => false
  inputUsed : Bool := false

namespace SourceFiles

/-- Texts held by path. Of two texts for one path the later one counts. -/
def ofList (texts : List (String × String)) : SourceFiles :=
  let held := texts.reverse.map fun (path, text) => (SourcePath.segments path, text)
  { text := fun path =>
      match held.lookup (SourcePath.segments path) with
      | some text => .ok text
      | none => .error .missing }

/-- Reads a file. An input that has been used up is empty. -/
def load (files : SourceFiles) (path : String) : Except FileFault (String × SourceFiles) :=
  if files.isInput path then
    if files.inputUsed then .ok ("", files)
    else (files.text path).map (·, { files with inputUsed := true })
  else (files.text path).map (·, files)

/-- A file other than the input is left as it is. -/
theorem load_of_not_isInput {files : SourceFiles} {path : String} (h : files.isInput path = false) :
    files.load path = (files.text path).map (·, files) := by
  simp [load, h]

/-- An input that has been used up is empty. -/
theorem load_of_inputUsed {files : SourceFiles} {path : String} (h : files.isInput path = true)
    (hu : files.inputUsed = true) : files.load path = .ok ("", files) := by
  simp [load, h, hu]

/-- The input is empty after one read of it, whatever path names it. -/
theorem load_load {files left : SourceFiles} {path other text : String} (h : files.isInput path = true)
    (ho : files.isInput other = true) (hl : files.load path = .ok (text, left)) :
    left.load other = .ok ("", left) := by
  cases hu : files.inputUsed with
  | true =>
    rw [load_of_inputUsed h hu] at hl
    obtain ⟨-, rfl⟩ := Prod.mk.inj (Except.ok.inj hl)
    exact load_of_inputUsed ho hu
  | false =>
    cases ht : files.text path with
    | error cause => simp [load, h, hu, ht, Except.map] at hl
    | ok t =>
      simp only [load, h, hu, ht, Except.map, if_true, Except.ok.injEq, Prod.mk.injEq, Bool.false_eq_true,
        if_false] at hl
      obtain ⟨-, rfl⟩ := hl
      exact load_of_inputUsed ho rfl

end SourceFiles

end Octet
