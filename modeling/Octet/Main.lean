import Octet.CommandLine.Script
/-!
The program: reads files, runs scripts, and talks to the terminal.
-/

namespace Octet.CommandLine

/-- How many phases run between two looks at the log. -/
def phasesAtOnce : Nat := 100000

/-- The fault behind an error of the file system. Some calls give the code of an error with a minus sign. -/
def faultOf (error : IO.Error) : FileFault :=
  let unsigned (code : UInt32) : UInt32 := min code (0 - code)
  match error with
  | .inappropriateType _ code _ => if unsigned code = 20 then .notDirectory else .directory
  | .invalidArgument _ code _ => if unsigned code = 36 then .nameTooLong else .missing
  | .resourceExhausted .. => .noSpace
  | .noSuchThing .. => .noDevice
  | .permissionDenied .. => .notAllowed
  | _ => .missing

/-- The bytes of a file. -/
def readFile (path : String) : IO (Except FileFault (List UInt8)) := do
  if let some fault := Disk.pathFault? path then return .error fault
  try return .ok (← IO.FS.readBinFile path).data.toList
  catch e => return .error (faultOf e)

/-- Opens a file and replaces its contents. -/
def writeFile (path : String) (bytes : List UInt8) : IO (Except WriteFault Unit) := do
  if let some fault := Disk.pathFault? path then return .error (.opening fault)
  let handle? : Except FileFault IO.FS.Handle ←
    try pure (.ok (← IO.FS.Handle.mk path .write)) catch e => pure (.error (faultOf e))
  match handle? with
  | .error fault => return .error (.opening fault)
  | .ok handle =>
    try
      handle.write ⟨bytes.toArray⟩
      handle.flush
      return .ok ()
    catch e => return .error (.filling (faultOf e))

/-- Prints a log entry. -/
def printLog (entry : LogEntry) : IO Unit :=
  if entry.level = .error then IO.eprintln (logLine entry) else IO.println (logLine entry)

/-- Tells of a failure. -/
def tell (failure : Failure) : IO UInt32 := do
  failure.lines.forM IO.eprintln
  return 1

/-- Performs effects in order, and ends as given. -/
def perform (milliseconds : Nat) (ending : Except Failure Unit) : List Effect → IO UInt32
  | [] =>
    match ending with
    | .ok () => return 0
    | .error failure => tell failure
  | effect :: rest => do
    match effect with
    | .log entry => printLog entry
    | .logTime => printLog (timeEntry milliseconds)
    | .print line => IO.println line
    | .printConsole line => IO.eprintln line
    | .write kind path bytes =>
      (← IO.getStdout).flush
      if let .error fault ← writeFile path bytes then
        return ← tell (.unwritable kind path bytes.length fault)
    perform milliseconds ending rest

/-- What has been read so far. -/
abbrev Held := List (String × Except FileFault (List UInt8))

/-- What is held about a file; nothing is known of the others. -/
def Held.read (held : Held) (path : String) : Except FileFault (List UInt8) :=
  (held.lookup path).getD (.error .missing)

/-- The first include of a file that is not found. -/
def missingInclude? (files : SourceFiles) (path : String) : Option String :=
  match files.load path with
  | .error _ => none
  | .ok (text, files) =>
    match (Program.ofSource files defaultOrigin path text).result with
    | .error (.inLine (.unreadableInclude inner .missing) _) => some inner
    | _ => none

/-- Reads the files that a source includes, one after another. -/
partial def gather (isInput : String → Bool) (path : String) (held : Held) : IO Held := do
  match missingInclude? (.ofBytes held.read isInput) path with
  | none => return held
  | some inner =>
    if (held.lookup inner).isSome then return held
    else gather isInput path ((inner, ← readFile inner) :: held)

/-- Assembles a file. -/
def assembleCommand (o : AssembleOptions) (threshold : Level) : IO UInt32 := do
  let here := Place.ofPath [] (← IO.currentDir).toString
  let isInput := Disk.namesInput { here := here }
  let held : Held := [(o.input, ← readFile o.input)]
  let started ← IO.monoMsNow
  let held ← gather isInput o.input held
  let script := o.script threshold (.ofBytes held.read isInput)
  let finished ← IO.monoMsNow
  perform (finished - started) script.result script.reports

/-- Runs an emulator to its end, with sessions at its pauses. -/
partial def attend (debug : Bool) (turn : Console.Turn Unit) : IO (Emulator Unit) := do
  turn.emulator.log.forM printLog
  turn.output.forM IO.eprintln
  let emu := { turn.emulator with log := #[] }
  if turn.waits then
    let line ← (← IO.getStdin).getLine
    if line.isEmpty then return Console.settle emu
    let line := if line.toList.getLast? = some '\n' then String.ofList line.toList.dropLast else line
    attend debug (Console.takeLine phasesAtOnce emu line)
  else if emu.state = .running then
    attend debug
      (if debug then Console.proceed phasesAtOnce emu else ⟨emu.run phasesAtOnce, [], false⟩)
  else return emu

/-- Runs an image. -/
def emulateCommand (o : EmulateOptions) (threshold : Level) : IO UInt32 := do
  match ← readFile o.image with
  | .error cause => tell (.unreadable o.image cause)
  | .ok image =>
    match o.start threshold image with
    | .error failure => tell failure
    | .ok emu =>
      let first : Console.Turn Unit := if o.debug then Console.proceed phasesAtOnce emu else ⟨emu, [], false⟩
      perform 0 (.ok ()) (finalEffects (← attend o.debug first))

/-- Lists an image. -/
def disassembleCommand (o : DisassembleOptions) : IO UInt32 := do
  match ← readFile o.image with
  | .error cause => tell (.unreadable o.image cause)
  | .ok image => perform 0 (.ok ()) (o.script image).reports

/-- What is told about a command line without meaning. -/
def usage : List String :=
  ["Usage: [-v] asm INPUT [-o FILE] [-t] [--dump-preprocess FILE] [--dump-layout FILE] [--dump-symbols FILE]",
    "                 [--dump-expand FILE]",
    "       [-v] emu IMAGE [--origin HEX] [--entry HEX] [--clock HZ] [--cycles N] [-b HEX]... [-d]",
    "       [-v] disasm IMAGE [--origin HEX]"]

end Octet.CommandLine

open Octet.CommandLine in
/-- The program. -/
def main (words : List String) : IO UInt32 := do
  match Invocation.ofWords? words with
  | none =>
    usage.forM IO.eprintln
    return 2
  | some invocation =>
    match invocation.request with
    | .assemble o => assembleCommand { o with time := o.time || invocation.verbose } invocation.threshold
    | .emulate o => emulateCommand o invocation.threshold
    | .disassemble o => disassembleCommand o
