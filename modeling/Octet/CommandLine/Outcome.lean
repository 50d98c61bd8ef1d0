import Octet.CommandLine.Script
/-!
The outcome of a run on files that are all known: the exit code, what was printed, and the files afterwards.

`Outcome.ofScript` performs effects in order. A file that cannot be written ends the run, and so does the failure
of the script itself.
-/

namespace Octet.CommandLine

/-- What is left of a run. -/
structure Outcome where
  exitCode : Nat := 0
  /-- What was printed on standard output. -/
  output : List UInt8 := []
  /-- What was printed on standard error. -/
  errors : List UInt8 := []
  disk : Disk

namespace Outcome

/-- The end of a run: a failure is told, and gives the exit code 1. -/
def finish (disk : Disk) : Except Failure Unit → Outcome
  | .ok () => { disk := disk }
  | .error failure => { exitCode := 1, errors := failure.lines.flatMap Disk.lineBytes, disk := disk }

/-- The outcome with bytes printed before the others. -/
def printing (outlet : Outlet) (bytes : List UInt8) (o : Outcome) : Outcome :=
  match outlet with
  | .output => { o with output := bytes ++ o.output }
  | .errors => { o with errors := bytes ++ o.errors }

/-- The outcome with a log entry before the others. Errors go to standard error. -/
def logging (entry : LogEntry) (o : Outcome) : Outcome :=
  o.printing (if entry.level = .error then .errors else .output) (Disk.lineBytes (logLine entry))

/-- Performs effects, and ends as given. On known files an assembly takes no time. -/
def ofEffects (ending : Except Failure Unit) (disk : Disk) : List Effect → Outcome
  | [] => finish disk ending
  | .log entry :: rest => (ofEffects ending disk rest).logging entry
  | .logTime :: rest => (ofEffects ending disk rest).logging (timeEntry 0)
  | .print line :: rest => (ofEffects ending disk rest).printing .output (Disk.lineBytes line)
  | .printConsole line :: rest => (ofEffects ending disk rest).printing .errors (Disk.lineBytes line)
  | .write kind path bytes :: rest =>
    match disk.write path bytes with
    | .ok (.kept disk) => ofEffects ending disk rest
    | .ok (.printed outlet) => (ofEffects ending disk rest).printing outlet bytes
    | .error fault => finish disk (.error (.unwritable kind path bytes.length fault))

/-- Performs a script. -/
def ofScript (disk : Disk) (script : Script) : Outcome := ofEffects script.result disk script.reports

/-- The outcome of a command line. One that has no meaning changes nothing, and gives the exit code 2. -/
def ofWords (fuel : Nat) (disk : Disk) (words : List String) : Outcome :=
  match Invocation.ofWords? words with
  | none => { exitCode := 2, disk := disk }
  | some invocation => ofScript disk (invocation.script disk fuel)

end Outcome

end Octet.CommandLine
