import Octet.Assembler.Event
import Octet.Machine.Memory
import Octet.Text.Decimal
import Octet.Text.Number
/-!
The words of a command line.

A command line names a verb, and gives it one path and its switches in any order. A switch is written with its long
name behind two dashes or its short name behind one; short names can share a dash. The value of a switch stands in
the next word, or behind an equals sign, or right behind a short name. Behind a word of two dashes only paths follow.

* `scan` cuts words into items;
* `Invocation.ofWords?` is the meaning of a command line, if it has one.
-/

namespace Octet.CommandLine

/-! ## Verbs and switches -/

/-- What the program can be told to do. -/
inductive Verb where
  | assemble
  | emulate
  | disassemble
deriving DecidableEq, Repr

/-- The word for a verb. -/
def Verb.name : Verb → String
  | assemble => "asm"
  | emulate => "emu"
  | disassemble => "disasm"

/-- The verb with a name. -/
def Verb.ofName? (name : String) : Option Verb :=
  [Verb.assemble, .emulate, .disassemble].find? fun v => v.name = name

/-- What a switch is about. -/
inductive Switch where
  /-- Logs more. -/
  | verbose
  /-- The path of the image. -/
  | output
  /-- The path of the listing of a stage. -/
  | listing (stage : Stage)
  /-- Logs how long the assembly took. -/
  | time
  /-- The address of the first byte of an image. -/
  | origin
  /-- The address at which execution starts. -/
  | entry
  /-- The clock rate. -/
  | clock
  /-- The cycle budget. -/
  | cycles
  /-- An address to pause at; may be given many times. -/
  | breakpoint
  /-- Starts in the console. -/
  | debug
deriving DecidableEq, Repr

namespace Switch

/-- Whether a value belongs to the switch. -/
def takesValue : Switch → Bool
  | verbose | time | debug => false
  | output | listing _ | origin | entry | clock | cycles | breakpoint => true

/-- The names behind two dashes. -/
def longNames : Switch → List String
  | verbose => ["verbose"]
  | output => ["output"]
  | listing .preprocess => ["dump-preprocess", "ds0"]
  | listing .layout => ["dump-layout", "ds1"]
  | listing .symbols => ["dump-symbols", "ds2"]
  | listing .expand => ["dump-expand", "ds3"]
  | time => ["time"]
  | origin => ["origin"]
  | entry => ["entry"]
  | clock => ["clock"]
  | cycles => ["cycles"]
  | breakpoint => ["break"]
  | debug => ["debug"]

/-- The name behind one dash. -/
def shortName? : Switch → Option Char
  | verbose => some 'v'
  | output => some 'o'
  | time => some 't'
  | breakpoint => some 'b'
  | debug => some 'd'
  | listing _ | origin | entry | clock | cycles => none

end Switch

namespace Verb

/-- The switches that a verb knows. -/
def switches : Verb → List Switch
  | assemble => [.verbose, .output, .time] ++ Stage.all.map .listing
  | emulate => [.verbose, .origin, .entry, .clock, .cycles, .breakpoint, .debug]
  | disassemble => [.verbose, .origin]

/-- The switch with a long name. -/
def long? (verb : Verb) (name : String) : Option Switch := verb.switches.find? fun s => name ∈ s.longNames

/-- The switch with a short name. -/
def short? (verb : Verb) (name : Char) : Option Switch :=
  verb.switches.find? fun s => s.shortName? = some name

end Verb

/-! ## Cutting words into items -/

/-- What is left of a word when the dashes are read. -/
inductive Item where
  /-- A switch with its value, which is empty for a switch that takes none. -/
  | set (switch : Switch) (value : String)
  | path (text : String)
deriving DecidableEq, Repr

/-- The items in a word, and the switch whose value the next word has to be. -/
abbrev WordItems := List Item × Option Switch

/-- Reads what stands behind two dashes. -/
def readLong (verb : Verb) (body : List Char) : Option WordItems :=
  match verb.long? (String.ofList (body.takeWhile (· ≠ '='))), body.dropWhile (· ≠ '=') with
  | none, _ => none
  | some s, [] => some (if s.takesValue then ([], some s) else ([.set s ""], none))
  | some s, _ :: value => if s.takesValue then some ([.set s (String.ofList value)], none) else none

/-- Reads what stands behind one dash. What follows a switch that takes a value is that value. -/
def readShort (verb : Verb) : List Char → Option WordItems
  | [] => some ([], none)
  | c :: cs =>
    match verb.short? c with
    | none => none
    | some s =>
      if s.takesValue then
        match cs with
        | [] => some ([], some s)
        | '=' :: value => some ([.set s (String.ofList value)], none)
        | value => some ([.set s (String.ofList value)], none)
      else (readShort verb cs).map fun (items, pending) => (.set s "" :: items, pending)

/-- Whether a word starts with a dash and is not that dash alone. Such a word is no value and no path. -/
def isDashed (word : String) : Bool :=
  match word.toList with
  | '-' :: _ :: _ => true
  | _ => false

/-- The items in one word. -/
def readWord (verb : Verb) (word : String) : Option WordItems :=
  match word.toList with
  | '-' :: '-' :: body => readLong verb body
  | '-' :: c :: cs => readShort verb (c :: cs)
  | _ => some ([.path word], none)

/-- The items in words, of which the first is the value of the pending switch, if there is one. -/
def scan (verb : Verb) : Option Switch → List String → Option (List Item)
  | none, [] => some []
  | some _, [] => none
  | some s, word :: words =>
    if isDashed word then none else (scan verb none words).map (.set s word :: ·)
  | none, word :: words =>
    if word = "--" then some (words.map .path)
    else do
      let (items, pending) ← readWord verb word
      let more ← scan verb pending words
      return items ++ more

/-! ## Reading the items -/

/-- The values given for a switch. -/
def valuesOf (s : Switch) (items : List Item) : List String :=
  items.filterMap fun
    | .set s' value => if s' = s then some value else none
    | .path _ => none

/-- The value of a switch that may be given once. There is no answer if it is given twice, or if the value cannot
be read. -/
def optional {α : Type} (s : Switch) (read : String → Option α) (items : List Item) : Option (Option α) :=
  match valuesOf s items with
  | [] => some none
  | [value] => (read value).map some
  | _ => none

/-- Whether a switch without value is given. There is no answer if it is given twice. -/
def isGiven (s : Switch) (items : List Item) : Option Bool :=
  (optional s (fun _ => some ()) items).map Option.isSome

/-- A path has at least one character. -/
def readPath (text : String) : Option String := if text = "" then none else some text

/-- An address, in hexadecimal. -/
def readAddress (text : String) : Option UInt16 := (Text.readHexWord text).toOption

/-- A count of cycles. -/
def readCount (text : String) : Option Nat := (Text.readNumber 10 (Nat.pow 2 64 - 1) text.toList).toOption

/-- The one path that a verb works on. -/
def subject (items : List Item) : Option String :=
  let paths := items.filterMap fun
    | .path text => some text
    | .set _ _ => none
  match paths with
  | [path] => readPath path
  | _ => none

/-! ## Invocations -/

/-- What to assemble, and what to write. -/
structure AssembleOptions where
  input : String
  output : Option String := none
  /-- The paths of the listings to write. -/
  listings : List (Stage × String) := []
  /-- Whether to log how long the assembly took. -/
  time : Bool := false
deriving DecidableEq, Repr

/-- What to run, and how. -/
structure EmulateOptions where
  image : String
  origin : UInt16 := defaultOrigin
  /-- Where to start, if not at the origin. -/
  entry : Option UInt16 := none
  clock : Option Float := none
  cycles : Option Nat := none
  breakpoints : List UInt16 := []
  /-- Whether to start in the console and to come back to it at each pause. -/
  debug : Bool := false

/-- What to list. -/
structure DisassembleOptions where
  image : String
  origin : UInt16 := defaultOrigin
deriving DecidableEq, Repr

/-- The work of one run of the program. -/
inductive Request where
  | assemble (options : AssembleOptions)
  | emulate (options : EmulateOptions)
  | disassemble (options : DisassembleOptions)

/-- A command line that has a meaning. -/
structure Invocation where
  verbose : Bool
  request : Request

/-- Reads the items for the assembler. -/
def AssembleOptions.ofItems? (items : List Item) : Option AssembleOptions := do
  let listings ← Stage.all.mapM fun stage => do
    let path ← optional (.listing stage) readPath items
    return path.map (stage, ·)
  return {
    input := ← subject items
    output := ← optional .output readPath items
    listings := listings.filterMap id
    time := ← isGiven .time items }

/-- Reads the items for the emulator. -/
def EmulateOptions.ofItems? (items : List Item) : Option EmulateOptions := do
  return {
    image := ← subject items
    origin := (← optional .origin readAddress items).getD defaultOrigin
    entry := ← optional .entry readAddress items
    clock := ← optional .clock Text.readFloat items
    cycles := ← optional .cycles readCount items
    breakpoints := ← (valuesOf .breakpoint items).mapM readAddress
    debug := ← isGiven .debug items }

/-- Reads the items for the disassembler. -/
def DisassembleOptions.ofItems? (items : List Item) : Option DisassembleOptions := do
  return {
    image := ← subject items
    origin := (← optional .origin readAddress items).getD defaultOrigin }

/-- Reads the items behind a verb. -/
def Request.ofItems? (items : List Item) : Verb → Option Request
  | .assemble => (AssembleOptions.ofItems? items).map .assemble
  | .emulate => (EmulateOptions.ofItems? items).map .emulate
  | .disassemble => (DisassembleOptions.ofItems? items).map .disassemble

/-- The verb of a command line with the words behind it. Only the verbose switch can stand before the verb, once. -/
def cutVerb (verbose : Bool) : List String → Option (Bool × Verb × List String)
  | [] => none
  | word :: words =>
    if word = "-v" ∨ word = "--verbose" then (if verbose then none else cutVerb true words)
    else (Verb.ofName? word).map (verbose, ·, words)

/-- The meaning of a command line. -/
def Invocation.ofWords? (words : List String) : Option Invocation := do
  let (verbose, verb, rest) ← cutVerb false words
  let items ← scan verb none rest
  let request ← Request.ofItems? items verb
  return ⟨verbose || (← isGiven .verbose items), request⟩

end Octet.CommandLine
