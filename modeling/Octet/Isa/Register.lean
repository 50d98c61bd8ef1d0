import Octet.Text.Hex
/-!
The eight registers that an instruction can name, their three-bit codes and their names.

* `Register.ofCode?` and `Register.code` are inverse on the codes below eight (`ofCode?_code`, `code_ofCode?`);
* `Register.ofName?` reads a name in either case.
-/

namespace Octet

/-- A register that an instruction can name. -/
inductive Register where
  | b
  | c
  /-- High byte of the memory pointer. -/
  | h
  /-- Low byte of the memory pointer. -/
  | l
  | d
  | e
  | a
  /-- Status flags; also an ordinary operand. -/
  | f
deriving DecidableEq, Repr, Inhabited

namespace Register

/-- All registers in the order of their codes. -/
def all : List Register := [b, c, h, l, d, e, a, f]

/-- The code that stands for the register in machine code. -/
def code : Register → UInt8
  | b => 0
  | c => 1
  | h => 2
  | l => 3
  | d => 4
  | e => 5
  | a => 6
  | f => 7

/-- The register with the given code; codes from eight on name none. -/
def ofCode? (code : UInt8) : Option Register := all[code.toNat]?

/-- The letter that names the register. -/
def letter : Register → Char
  | b => 'B'
  | c => 'C'
  | h => 'H'
  | l => 'L'
  | d => 'D'
  | e => 'E'
  | a => 'A'
  | f => 'F'

/-- The name of the register. -/
def name (r : Register) : String := r.letter.toString

/-- The register that a letter names, in either case. -/
def ofLetter? (char : Char) : Option Register := all.find? fun r => r.letter = char.toUpper

/-- The register that a text names: one letter, in either case. -/
def ofName? (text : String) : Option Register :=
  match text.toList with
  | [letter] => ofLetter? letter
  | _ => none

@[simp] theorem ofCode?_code (r : Register) : ofCode? r.code = some r := by cases r <;> rfl

theorem ofCode?_eq_none_iff {code : UInt8} : ofCode? code = none ↔ 8 ≤ code.toNat := by
  simp [ofCode?, all]

theorem code_ofCode? {code : UInt8} {r : Register} (h : ofCode? code = some r) : r.code = code := by
  obtain ⟨hlt, hr⟩ := List.getElem?_eq_some_iff.1 h
  apply UInt8.toNat_inj.1
  have key : ∀ (n : Nat) (hn : n < all.length), (all[n]).code.toNat = n := by decide
  rw [← hr]; exact key _ hlt

@[simp] theorem ofLetter?_letter (r : Register) : ofLetter? r.letter = some r := by cases r <;> rfl

end Register

end Octet
