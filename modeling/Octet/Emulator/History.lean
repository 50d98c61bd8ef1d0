import Octet.Isa.Instruction
import Octet.Text.Hex
/-!
The instructions that ran last.

`History.recent` lists them, newest first and at most `historyLimit` of them; `recent_push` says what one more
instruction does to that list. Older ones are let go of now and then, and not at each step.
-/

namespace Octet

open Text (wordHex bracketedBytes)

/-- An instruction that ran to its end. -/
structure Executed where
  /-- Where `PC` pointed when the instruction started. -/
  address : UInt16
  /-- The opcode byte and the two operand bytes. -/
  fetched : List UInt8
  /-- The instruction in those bytes, if there is one. -/
  instruction : Option Instruction
deriving DecidableEq, Repr

/-- The entry in listings of the history. -/
def Executed.text (x : Executed) : String :=
  "[pc=" ++ wordHex x.address ++ "] " ++
    match x.instruction with
    | some i => i.text
    | none => "?? " ++ bracketedBytes x.fetched

/-- How many instructions the history remembers. -/
def historyLimit : Nat := 256

/-- A history. -/
structure History where
  /-- The instructions that are held, newest first. -/
  held : List Executed := []
  /-- How many have been added since the last time that older ones were let go of. -/
  added : Nat := 0
deriving DecidableEq, Repr

namespace History

/-- The instructions that ran last, newest first. -/
def recent (history : History) : List Executed := history.held.take historyLimit

/-- Adds an instruction. -/
def push (history : History) (x : Executed) : History :=
  if history.added < historyLimit then ⟨x :: history.held, history.added + 1⟩
  else ⟨x :: history.recent, 0⟩

@[simp] theorem recent_empty : ({} : History).recent = [] := rfl

/-- An instruction is added in front of the others. -/
@[simp] theorem recent_push (history : History) (x : Executed) :
    (history.push x).recent = (x :: history.recent).take historyLimit := by
  unfold push
  split
  · simp [recent, historyLimit, List.take_take]
  · rfl

theorem length_recent_le (history : History) : history.recent.length ≤ historyLimit := by
  simp only [recent, List.length_take]; omega

end History

end Octet
