import Octet.Log
import Octet.Machine.Cpu
import Octet.Text.CharLiteral
/-!
One phase of the machine, and the devices that watch port 0.

An instruction takes one phase for each of its bytes and one for each of its micro-operations. Before the opcode
byte is fetched, port 0 is looked at: if it holds something else than the last time, the device runs, and may
change anything in the processor. What the device itself leaves in the port counts as seen.

* `Cpu.step` runs one phase and says what happened;
* `Device.sequence` runs several devices in order.
-/

namespace Octet

open Text (byteHex wordHex charLiteral)

variable {σ : Type}

/-! ## Devices -/

/-- What a tracing device saw. -/
structure PortReport where
  /-- The byte in port 0. -/
  value : UInt8
  pc : UInt16
deriving DecidableEq, Repr

/-- The wording of a report. -/
def PortReport.message (r : PortReport) : String :=
  "I/O port 0 = 0x" ++ byteHex r.value ++ " (" ++ charLiteral (Char.ofNat r.value.toNat) ++ ") at pc=" ++
    wordHex r.pc

/-- A device with a state of type `σ`: what it does to itself and to the processor when port 0 has changed, and
what it reports. -/
abbrev Device (σ : Type) := σ → Cpu → σ × Cpu × List PortReport

namespace Device

/-- The device that does nothing. -/
def none : Device σ := fun world cpu => (world, cpu, [])

/-- The device that reports what it sees. -/
def tracer : Device σ := fun world cpu => (world, cpu, [⟨cpu.read watchedPort, cpu.registers.pc⟩])

/-- Several devices in order, each on what the ones before it left. -/
def sequence : List (Device σ) → Device σ
  | [] => none
  | first :: rest => fun world cpu =>
    let (world, cpu, reports) := first world cpu
    let (world, cpu, more) := sequence rest world cpu
    (world, cpu, reports ++ more)

end Device

/-! ## Phases -/

/-- What happened in one phase. -/
structure Step where
  /-- The phase that ran. -/
  phase : Nat
  /-- What port 0 held, if it had changed and the device ran. -/
  portChange : Option UInt8 := none
  /-- What the device reported. -/
  reports : List PortReport := []
  /-- The micro-operation that ran. -/
  microOp : Option MicroOp := none
  /-- Whether the instruction is done. -/
  completed : Bool := false
  anomalies : List Anomaly := []
deriving DecidableEq, Repr

namespace Step

/-- What the step adds to the log. -/
def log (s : Step) : List LogEntry :=
  (match s.portChange with
    | some v => [⟨.trace, "I/O port 0 changed to 0x" ++ byteHex v⟩]
    | none => []) ++
  s.reports.map (fun r => ⟨.info, r.message⟩) ++
  (match s.microOp with
    | some op => [⟨.trace, "> " ++ op.name⟩]
    | none => []) ++
  s.anomalies.map fun x => ⟨.warn, x.message⟩

end Step

namespace Cpu

/-- The byte at `PC`. -/
def fetched (cpu : Cpu) : UInt8 := cpu.read cpu.registers.pc

/-- The phase that starts an instruction: the device runs if port 0 has changed, then the opcode byte is fetched
from where `PC` points. -/
def startInstruction (device : Device σ) (world : σ) (cpu : Cpu) : σ × Cpu × Step :=
  let port := cpu.read watchedPort
  let changed := port ≠ cpu.watched
  let (world, cpu, reports) := if changed then device world cpu else (world, cpu, [])
  let ir := cpu.fetched
  (world,
    { cpu with
      registers := { cpu.registers with ir := ir, pc := cpu.registers.pc + 1 }
      phase := 1
      hasSecondByte := (Opcode.ofByte ir).shape.hasSecondByte
      watched := cpu.read watchedPort },
    { phase := 0, portChange := if changed then some port else none, reports := reports })

/-- The phase that fetches the first operand byte. -/
def fetchFirst (cpu : Cpu) : Cpu :=
  { cpu with
    registers := { cpu.registers with arg1 := cpu.fetched, pc := cpu.registers.pc + 1 }
    phase := 2 }

/-- The phase that fetches the second operand byte. -/
def fetchSecond (cpu : Cpu) : Cpu :=
  { cpu with
    registers := { cpu.registers with arg2 := cpu.fetched, pc := cpu.registers.pc + 1 }
    phase := 3 }

/-- The number of fetch phases of the current instruction. -/
def fetches (cpu : Cpu) : Nat := if cpu.hasSecondByte then 3 else 2

/-- An execute phase: runs the micro-operation that is due, and starts over after the last one. -/
def executePhase (cpu : Cpu) : Cpu × Step :=
  let microcode := (Opcode.ofByte cpu.registers.ir).microcode
  let index := cpu.phase - cpu.fetches
  let completed : Bool := microcode.length ≤ index + 1
  let next := if completed then 0 else cpu.phase + 1
  let step : Step := { phase := cpu.phase, completed := completed }
  match microcode[index]? with
  | none => ({ cpu with phase := next }, step)
  | some op =>
    let anomalies := op.anomalies cpu.registers
    ({ cpu.execute op with phase := next }, { step with microOp := some op, anomalies := anomalies })

/-- Runs one phase. -/
def step (device : Device σ) (world : σ) (cpu : Cpu) : σ × Cpu × Step :=
  match cpu.phase with
  | 0 => startInstruction device world cpu
  | 1 => (world, cpu.fetchFirst, { phase := 1 })
  | n + 2 =>
    if n = 0 ∧ cpu.hasSecondByte then (world, cpu.fetchSecond, { phase := 2 })
    else
      let (cpu, step) := cpu.executePhase
      (world, cpu, step)

end Cpu

end Octet
