import Octet.Assembler.Assembly
import Octet.CommandLine.Arguments
import Octet.CommandLine.Disk
import Octet.Emulator.Console
import Octet.Isa.Disassembly
/-!
What a run of the program does: a script of effects that may end in a failure.

* `AssembleOptions.script` and `DisassembleOptions.script` are whole runs;
* `EmulateOptions.start` and `finalEffects` are the two ends of a run of the emulator, with the console between them.
-/

namespace Octet.CommandLine

/-! ## Effects and failures -/

/-- What a written file is. -/
inductive Written where
  | listing
  | image
deriving DecidableEq, Repr

/-- One effect on the world. -/
inductive Effect where
  | log (entry : LogEntry)
  /-- Logs how long the assembly took. -/
  | logTime
  | print (line : String)
  /-- Prints a line of the console. -/
  | printConsole (line : String)
  | write (kind : Written) (path : String) (bytes : List UInt8)
deriving DecidableEq, Repr

/-- Why a run fails. -/
inductive Failure where
  | assembly (fault : AssemblyFault)
  /-- The image cannot be read. -/
  | unreadable (path : String) (cause : FileFault)
  /-- A file of so many bytes cannot be written. -/
  | unwritable (kind : Written) (path : String) (size : Nat) (fault : WriteFault)
  | clock (fault : ClockFault)
  /-- The image does not fit. -/
  | load (fault : LoadFault)

namespace Failure

/-- How many bytes of a listing are gathered before they are written. -/
def bufferSize : Nat := 8192

/-- The wording of a failure, without its cause. A listing that fails before the last of it is gathered is told of by
the cause alone. -/
def message : Failure → String
  | assembly fault => fault.message
  | unreadable path _ => "Error reading " ++ path
  | unwritable .listing path _ (.opening _) => "Error creating dump file " ++ path
  | unwritable .listing path size (.filling cause) =>
    if bufferSize < size then cause.message else "Error writing dump file " ++ path
  | unwritable .image path _ _ => "Error writing " ++ path
  | clock fault => fault.message
  | load fault => fault.message

/-- The cause of a failure, if it is a file, unless the wording is that of the cause. -/
def cause? : Failure → Option FileFault
  | assembly fault => fault.cause?
  | unreadable _ cause | unwritable _ _ _ (.opening cause) => some cause
  | unwritable .listing _ size (.filling cause) => if bufferSize < size then none else some cause
  | unwritable .image _ _ (.filling cause) => some cause
  | clock _ | load _ => none

/-- The lines that tell of a failure. -/
def lines (failure : Failure) : List String :=
  ("Error: " ++ failure.message) ::
    match failure.cause? with
    | none => []
    | some cause => ["", "Caused by:", "    " ++ cause.message]

end Failure

/-- The effects of a run, and the failure that ended it, if one did. -/
abbrev Script := Traced Effect Failure Unit

/-- A log entry as a line. -/
def logLine (entry : LogEntry) : String := "[" ++ entry.level.name ++ "] " ++ entry.text

/-- The log entry about the time that an assembly took. -/
def timeEntry (milliseconds : Nat) : LogEntry :=
  let fraction := toString (1000 + milliseconds % 1000)
  ⟨.info, s!"Assembly took {milliseconds} milliseconds ({milliseconds / 1000}." ++
    String.ofList (fraction.toList.drop 1) ++ " seconds)"⟩

/-- The least severe level that is logged. -/
def Invocation.threshold (invocation : Invocation) : Level := if invocation.verbose then .debug else .info

/-! ## Assembling -/

namespace AssembleOptions

/-- The path of the image: unless given, that of the source with another extension. -/
def imagePath (o : AssembleOptions) : String := o.output.getD (SourcePath.withExtension o.input "bin")

/-- What a report of the assembly leads to: the listing of a stage is written and then logged, and the time stands
in front of the last entry. -/
def effectsOf (o : AssembleOptions) (threshold : Level) (event : AsmEvent) : List Effect :=
  let listingPath (stage : Stage) := o.listings.lookup stage
  let before : List Effect := match event with
    | .stageDone stage listing =>
      match listingPath stage with
      | none => []
      | some path => [.write .listing path (Disk.bytesOf (String.join (listing.map (· ++ "\n"))))]
    | .assembled .. => if o.time then [.logTime] else []
    | _ => []
  let entries := (event.entry? listingPath).toList.filter fun entry => threshold.isShown entry.level
  before ++ entries.map .log

/-- Assembles a file, and writes the listings and the image. -/
def script (o : AssembleOptions) (threshold : Level) (files : SourceFiles) : Script := do
  let assembly := assembleFile files defaultOrigin o.input
  Traced.emitAll (assembly.reports.flatMap (o.effectsOf threshold))
  let image ← Traced.lift (assembly.result.mapError .assembly)
  Traced.emit (.write .image o.imagePath image.bytes)
  Traced.emit (.log ⟨.info, s!"Wrote {image.size} bytes to " ++ o.imagePath⟩)

end AssembleOptions

/-! ## Disassembling -/

/-- Prints the listing of an image. -/
def DisassembleOptions.script (o : DisassembleOptions) (image : List UInt8) : Script :=
  Traced.emitAll ((disassemblyLines o.origin image).map .print)

/-! ## Emulating -/

/-- The emulator at its entry, with the image in its memory and a device that traces port 0. -/
def EmulateOptions.start (o : EmulateOptions) (threshold : Level) (image : List UInt8) :
    Except Failure (Emulator Unit) := do
  if let some rate := o.clock then (checkClock rate).mapError .clock
  let fresh : Emulator Unit := { world := (), device := Device.tracer, threshold := threshold }
  let loaded ← (fresh.load o.origin image).mapError .load
  let emu := o.breakpoints.foldl (fun emu address => (emu.addBreakpoint address).1)
    (loaded.setEntry (o.entry.getD o.origin))
  return { emu with maxCycles := o.cycles, state := if o.debug then .paused else .running }

/-- What ends a run of the emulator: the count of cycles and the registers. -/
def finalEffects {σ : Type} (emu : Emulator σ) : List Effect :=
  .log ⟨.info, s!"Stopped after {emu.cycles} cycles (" ++ emu.state.name ++ ")"⟩ ::
    emu.cpu.registers.lines.map .print

/-- Runs an image, with the lines as input of the console. Between two lines it takes at most `fuel` phases. -/
def EmulateOptions.script (o : EmulateOptions) (threshold : Level) (image : List UInt8) (fuel : Nat)
    (lines : List String) : Script := do
  let emu ← Traced.lift (o.start threshold image)
  let (emu, console) := if o.debug then Console.attend fuel emu lines else (emu.run fuel, [])
  Traced.emitAll (console.map .printConsole)
  Traced.emitAll (emu.log.toList.map .log)
  Traced.emitAll (finalEffects emu)

/-! ## Any run -/

/-- The run that a command line asks for. The console takes what an image leaves of the standard input. -/
def Invocation.script (invocation : Invocation) (disk : Disk) (fuel : Nat) : Script :=
  let threshold := invocation.threshold
  let image (path : String) : Traced Effect Failure (List UInt8) :=
    Traced.lift ((disk.read path).mapError (.unreadable path))
  match invocation.request with
  | .assemble o => { o with time := o.time || invocation.verbose }.script threshold disk.sources
  | .emulate o => do o.script threshold (← image o.image) fuel (disk.linesLeftBy o.image)
  | .disassemble o => do o.script (← image o.image)

end Octet.CommandLine
