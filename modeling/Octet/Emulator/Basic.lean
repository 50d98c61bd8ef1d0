import Octet.Emulator.History
import Octet.Machine.Step
import Octet.Text.Decimal
/-!
The emulator: a machine with images to reload, an entry point, breakpoints, a cycle budget and a memory of the
instructions that ran last.

* `Emulator.microstep` runs one phase, `stepInstruction` the rest of an instruction, `run` phases while the state
  is `running`, up to a given number of them;
* `Emulator.load` and `Emulator.reset` put images into memory.
-/

namespace Octet

open Text (wordHex floatText)

variable {σ : Type}

/-! ## States and faults -/

/-- Whether the emulator goes on by itself. -/
inductive RunState where
  /-- It goes on. -/
  | running
  /-- It waits, and can be stepped. -/
  | paused
  /-- It is stopped: no phase runs before the next reset. -/
  | halted
deriving DecidableEq, Repr

/-- The name that shows a state. -/
def RunState.name : RunState → String
  | running => "Continue"
  | paused => "Pause"
  | halted => "Halt"

/-- A clock rate that is not a positive finite number. -/
structure ClockFault where
  rate : Float

/-- The wording of the fault. -/
def ClockFault.message (f : ClockFault) : String := "Invalid clock rate: " ++ floatText f.rate ++ " Hz"

/-- Accepts a clock rate that is positive and finite. -/
def checkClock (rate : Float) : Except ClockFault Unit :=
  if 0 < rate && rate.isFinite then .ok () else .error ⟨rate⟩

/-! ## The emulator -/

/-- The state of the emulator. -/
structure Emulator (σ : Type) where
  cpu : Cpu := {}
  state : RunState := .running
  /-- The instructions that ran last. -/
  history : History := {}
  /-- Addresses at which the emulator pauses when an instruction has led there. -/
  breakpoints : List UInt16 := []
  /-- The phases run since the last reset. The count is meant to stay below `2 ^ 64`, where a counter of 64 bits would
  end. -/
  cycles : Nat := 0
  /-- The number of cycles at which the emulator halts. -/
  maxCycles : Option Nat := none
  /-- Where `PC` points after a reset. -/
  entry : UInt16 := 0
  /-- What watches port 0. -/
  device : Device σ := Device.none
  /-- The state of the device. -/
  world : σ
  /-- The images loaded so far with their origins, first one first. -/
  images : List (UInt16 × List UInt8) := []
  /-- Where `PC` pointed when the current instruction started. -/
  started : UInt16 := 0
  /-- The least severe level that the log keeps. -/
  threshold : Level := .info
  /-- The log, first entry first. -/
  log : Array LogEntry := #[]

namespace Emulator

/-- Adds the entries to the log that its threshold lets through. -/
def note (emu : Emulator σ) (entries : List LogEntry) : Emulator σ :=
  { emu with log := emu.log ++ entries.filter fun x => emu.threshold.isShown x.level }

/-- Adds an entry to the log if the threshold lets it through; otherwise its text is not made up. -/
def noteText (emu : Emulator σ) (level : Level) (text : Unit → String) : Emulator σ :=
  if emu.threshold.isShown level then { emu with log := emu.log.push ⟨level, text ()⟩ } else emu

theorem noteText_eq (emu : Emulator σ) (level : Level) (text : Unit → String) :
    emu.noteText level text = emu.note [⟨level, text ()⟩] := by
  cases h : emu.threshold.isShown level <;> simp [noteText, note, h]

/-! ## Loading and resetting -/

/-- Writes an image to memory and remembers it for the next reset. -/
def load (emu : Emulator σ) (origin : UInt16) (image : List UInt8) : Except LoadFault (Emulator σ) := do
  let cpu ← emu.cpu.load origin image
  let emu := { emu with cpu := cpu, images := emu.images ++ [(origin, image)] }
  return emu.note [⟨.info, s!"Loaded {image.length} bytes at 0x" ++ wordHex origin⟩]

/-- Sets the address at which execution starts, now and after each reset. -/
def setEntry (emu : Emulator σ) (entry : UInt16) : Emulator σ :=
  { emu with entry := entry, cpu := emu.cpu.setPc entry }

/-- Writes images to a processor in order; stops at the first one that does not fit. -/
def loadAll : Cpu → List (UInt16 × List UInt8) → Except LoadFault Cpu
  | cpu, [] => .ok cpu
  | cpu, (origin, image) :: rest => do
    let cpu ← cpu.load origin image
    loadAll cpu rest

/-- Clears registers and memory, the history and the cycle count. With `reload` the images are written again and
`PC` returns to the entry; without it they are forgotten. A halted emulator becomes a paused one. -/
def reset (emu : Emulator σ) (reload : Bool) : Except LoadFault (Emulator σ) := do
  let cpu ← if reload then (·.setPc emu.entry) <$> loadAll {} emu.images else Pure.pure {}
  let state : RunState := if emu.state = .halted then .paused else emu.state
  let images := if reload then emu.images else []
  let emu := { emu with cpu := cpu, cycles := 0, history := {}, images := images, state := state }
  return emu.note [⟨.info, if reload then "Reset and reloaded" else "Reset"⟩]

/-- Adds a breakpoint; the answer is whether it is new. -/
def addBreakpoint (emu : Emulator σ) (address : UInt16) : Emulator σ × Bool :=
  if address ∈ emu.breakpoints then (emu, false)
  else ({ emu with breakpoints := address :: emu.breakpoints }, true)

/-- Removes a breakpoint; the answer is whether there was one. -/
def removeBreakpoint (emu : Emulator σ) (address : UInt16) : Emulator σ × Bool :=
  ({ emu with breakpoints := emu.breakpoints.filter (· ≠ address) }, decide (address ∈ emu.breakpoints))

/-! ## Running -/

/-- Runs one phase of the processor and counts it. -/
def advance (emu : Emulator σ) : Emulator σ × Step :=
  let started := if emu.cpu.phase = 0 then emu.cpu.registers.pc else emu.started
  let (world, cpu, step) := emu.cpu.step emu.device emu.world
  let emu := { emu with world := world, cpu := cpu, started := started, cycles := emu.cycles + 1 }
  (emu.note step.log, step)

/-- Remembers the instruction that has just ended, and pauses if it led to a breakpoint. -/
def complete (emu : Emulator σ) : Emulator σ :=
  let regs := emu.cpu.registers
  let executed : Executed :=
    ⟨emu.started, regs.fetched, emu.cpu.currentInstruction.toOption⟩
  let emu := { emu with history := emu.history.push executed }
  let emu := emu.noteText .debug fun _ => ">>> " ++ executed.text
  if regs.pc ∈ emu.breakpoints then
    { emu with state := .paused }.note [⟨.info, "Breakpoint at 0x" ++ wordHex regs.pc⟩]
  else emu

/-- Halts if the cycle budget is used up. -/
def checkBudget (emu : Emulator σ) : Emulator σ :=
  match emu.maxCycles with
  | none => emu
  | some limit =>
    if limit ≤ emu.cycles then
      { emu with state := .halted }.note [⟨.info, s!"Cycle budget of {limit} exhausted"⟩]
    else emu

/-- Runs one phase, and says what happened; nothing happens when the emulator is halted. -/
def microstep (emu : Emulator σ) : Emulator σ × Option Step :=
  if emu.state = .halted then (emu, none)
  else
    let (emu, step) := emu.advance
    let emu := if step.completed then emu.complete else emu
    (emu.checkBudget, some step)

/-- Runs phases until one ends an instruction, the emulator is halted, or `n` of them have run. -/
def stepUpTo : Nat → Emulator σ → Emulator σ
  | 0, emu => emu
  | n + 1, emu =>
    match emu.microstep with
    | (emu, some step) => if step.completed then emu else stepUpTo n emu
    | (emu, none) => emu

/-- Runs the current instruction to its end. No instruction has more than five phases. -/
def stepInstruction (emu : Emulator σ) : Emulator σ := stepUpTo 5 emu

/-- Runs phases while the state is `running`, at most `fuel` of them. The state of the result is `running` only if
all of them ran. -/
def run : Nat → Emulator σ → Emulator σ
  | 0, emu => emu
  | fuel + 1, emu => if emu.state = .running then run fuel emu.microstep.1 else emu

/-- Lets the emulator go on from a pause or a halt. -/
def resume (emu : Emulator σ) (fuel : Nat) : Emulator σ := run fuel { emu with state := .running }

end Emulator

end Octet
