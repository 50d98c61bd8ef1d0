import Octet.Emulator.Basic
import Octet.Text.Blank
import Octet.Text.Keystrokes
import Octet.Text.Number
import Octet.Text.ShellWords
/-!
The debugger console: lines in, lines out, around an emulator that waits.

A line holds the name of a command, or the beginning of exactly one name, and its arguments. It counts as it is
typed: a backspace takes away what stands before it. `Console.answer` is the answer to one line, `Console.debug` one
session, and `Console.attend` a run of the emulator that opens a session at each pause.
-/

namespace Octet.Console

open Text (wordHex byteHex trim readHexWord readNumber typed)

variable {σ : Type}

/-! ## Commands -/

/-- A command of the console. -/
inductive Command where
  /-- prints the last executed instructions -/
  | backtrace
  /-- lets the emulator run -/
  | resume
  | halt
  | peek
  | poke
  /-- prints the registers -/
  | registers
  /-- ends the session -/
  | quit
  | reset
  /-- runs one instruction -/
  | step
deriving DecidableEq, Repr

/-- The names that a word is completed among, in alphabetical order, with what they run. Two of them can be
completed to but never run: listing the commands, which answers nothing here, and stepping one phase, whose name
is the beginning of another name. -/
def names : List (String × Option Command) :=
  [("bt", some .backtrace), ("c", some .resume), ("halt", some .halt), ("help", none), ("peek", some .peek),
    ("poke", some .poke), ("pr", some .registers), ("quit", some .quit), ("reset", some .reset), ("s", none),
    ("si", some .step)]

/-- The names that begin with a word; an empty word is the beginning of none. -/
def candidates (word : String) : List (String × Option Command) :=
  if word = "" then [] else names.filter fun p => word.toList.isPrefixOf p.1.toList

/-- The arguments that a command takes, as its usage shows them. -/
def Command.parameters : Command → List String
  | .backtrace => ["x:usize"]
  | .peek => ["addr:String"]
  | .poke => ["addr:String", "value:String"]
  | .resume | .halt | .registers | .quit | .reset | .step => []

/-- The answer to a word that stands for no command. -/
def notFound (word : String) : List String :=
  let found := (candidates word).map (·.1)
  ["Command not found: " ++ word] ++
    (if 1 < found.length then "Candidates:" :: found.map ("  " ++ ·) else []) ++
    ["Use 'help' to see available commands."]

/-- The answer to arguments that a command cannot use. -/
def misuse (name : String) (command : Command) (reason : String) : List String :=
  ["Error: " ++ reason, "Usage:", "  " ++ name ++ " " ++ String.intercalate " " command.parameters]

/-! ## One line -/

/-- What a line does: the emulator after it, what is printed, and whether the session ends. -/
structure Answer (σ : Type) where
  emulator : Emulator σ
  output : List String := []
  leaves : Bool := false

/-- Prints the last `n` entries of the history, oldest first. -/
def backtrace (emu : Emulator σ) (n : Nat) : List String :=
  (emu.history.recent.take n).reverse.map (·.text)

/-- Writes a byte, both address and byte given in hexadecimal. -/
def poke (emu : Emulator σ) (address value : String) : Answer σ :=
  match readHexWord address with
  | .error fault => { emulator := emu, output := ["Error: " ++ fault.summary] }
  | .ok a =>
    match readHexWord value with
    | .error fault => { emulator := emu, output := ["Error: " ++ fault.summary] }
    | .ok v =>
      if 0xFF < v.toNat then { emulator := emu, output := ["Error: Not a byte: " ++ value] }
      else { emulator := { emu with cpu := emu.cpu.write a (lowByte v) } }

/-- Shows a byte, the address given in hexadecimal. -/
def peek (emu : Emulator σ) (address : String) : List String :=
  match readHexWord address with
  | .error fault => ["Error: " ++ fault.summary]
  | .ok a => [wordHex a ++ "=" ++ byteHex (emu.cpu.read a)]

/-- Runs a command with the right number of arguments. -/
def perform (emu : Emulator σ) (name : String) (command : Command) (arguments : List String) : Answer σ :=
  match command, arguments with
  | .resume, _ => { emulator := { emu with state := .running }, leaves := true }
  | .halt, _ => { emulator := { emu with state := .halted }, leaves := true }
  | .quit, _ => { emulator := emu, leaves := true }
  | .step, _ => { emulator := emu.stepInstruction }
  | .registers, _ =>
    { emulator := emu
      output := emu.cpu.registers.lines ++ [s!"phase={emu.cpu.phase} cycles={emu.cycles}"] }
  | .reset, _ =>
    match emu.reset true with
    | .ok emu => { emulator := emu }
    | .error fault => { emulator := emu, output := ["Error: " ++ fault.message] }
  | .backtrace, [n] =>
    match readNumber 10 (Nat.pow 2 64 - 1) n.toList with
    | .ok n => { emulator := emu, output := backtrace emu n }
    | .error fault =>
      let reason := "failed to parse argument value '" ++ n ++ "': " ++ fault.message
      { emulator := emu, output := misuse name command reason }
  | .peek, [address] => { emulator := emu, output := peek emu address }
  | .poke, [address, value] => poke emu address value
  | _, _ => { emulator := emu }

/-- The answer to a line of words. -/
def obey (emu : Emulator σ) (word : String) (arguments : List String) : Answer σ :=
  match candidates word with
  | [(name, some command)] =>
    let expected := command.parameters.length
    if command ≠ .quit ∧ arguments.length ≠ expected then
      let reason := s!"wrong number of arguments: got {arguments.length}, expected {expected}"
      { emulator := emu, output := misuse name command reason }
    else perform emu name command arguments
  | _ => { emulator := emu, output := notFound word }

/-- A line as it is meant: without the carriage return at its end, if there is one, and with its backspaces
carried out. -/
def received (line : String) : String :=
  let cs := line.toList
  String.ofList (typed (if cs.getLast? = some '\r' then cs.dropLast else cs))

/-- A line without these characters is meant as it stands. -/
theorem received_eq_self {line : String} (hr : line.toList.getLast? ≠ some '\r')
    (hb : Text.backspace ∉ line.toList) : received line = line := by
  simp [received, hr, Text.typed_eq_self hb]

/-- The answer to a line. A session that has left the emulator halted is over. -/
def answer (emu : Emulator σ) (line : String) : Answer σ :=
  let line := received line
  let reply : Answer σ :=
    if trim line.toList = [] then { emulator := emu }
    else match Text.ShellWords.split line with
      | none => { emulator := emu, output := ["Error: missing closing quote"] }
      | some [] => { emulator := emu }
      | some (word :: arguments) => obey emu word arguments
  { reply with leaves := reply.leaves || reply.emulator.state = .halted }

/-! ## Sessions -/

/-- What opens a session. -/
def banner : String := "JCPU Debug REPL"

/-- What is printed before a line is read. -/
def prompt (emu : Emulator σ) : List String :=
  "" :: match emu.history.recent with
    | [] => []
    | newest :: _ =>
      ["Last instruction:", newest.text, "[pc=" ++ wordHex emu.cpu.registers.pc ++ "] --> next"]

/-- The lines of one session, up to the one that ends it or the last one. -/
def debugLines (emu : Emulator σ) : List String → Emulator σ × List String
  | [] => (emu, prompt emu)
  | line :: rest =>
    let reply := answer emu line
    if reply.leaves then (reply.emulator, prompt emu ++ reply.output)
    else
      let (last, output) := debugLines reply.emulator rest
      (last, prompt emu ++ reply.output ++ output)

/-- One session, with the lines as input. -/
def debug (emu : Emulator σ) (lines : List String) : Emulator σ × List String :=
  let (last, output) := debugLines emu lines
  (last, banner :: output)

/-- A session that was left in a pause halts the emulator. -/
def settle (emu : Emulator σ) : Emulator σ :=
  if emu.state = .paused then { emu with state := .halted } else emu

/-- A moment of a run with sessions: the emulator, what has been printed since the line before, and whether a
session waits for the next line. -/
structure Turn (σ : Type) where
  emulator : Emulator σ
  output : List String
  waits : Bool

/-- Runs the emulator, at most `fuel` phases, and opens a session if that ends in a pause. -/
def proceed (fuel : Nat) (emu : Emulator σ) : Turn σ :=
  let emu := emu.run fuel
  if emu.state = .paused then ⟨emu, banner :: prompt emu, true⟩ else ⟨emu, [], false⟩

/-- Answers a line. After a session that is over the emulator goes on. -/
def takeLine (fuel : Nat) (emu : Emulator σ) (line : String) : Turn σ :=
  let reply := answer emu line
  if reply.leaves then
    let next := proceed fuel (settle reply.emulator)
    { next with output := reply.output ++ next.output }
  else ⟨reply.emulator, reply.output ++ prompt reply.emulator, true⟩

/-- Goes on from a turn with the lines that are left, until no session waits. When the lines end, so does the
session. -/
def attendFrom (fuel : Nat) (turn : Turn σ) : List String → Emulator σ × List String
  | [] => (if turn.waits then settle turn.emulator else turn.emulator, turn.output)
  | line :: rest =>
    if turn.waits then
      let (last, output) := attendFrom fuel (takeLine fuel turn.emulator line) rest
      (last, turn.output ++ output)
    else (turn.emulator, turn.output)

/-- A run that opens a session at each pause, with the lines as input. Between two lines it takes at most `fuel`
phases. -/
def attend (fuel : Nat) (emu : Emulator σ) (lines : List String) : Emulator σ × List String :=
  attendFrom fuel (proceed fuel emu) lines

end Octet.Console
