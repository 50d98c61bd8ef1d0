import Octet.Proofs.Emulator.Reports
import Octet.Proofs.Emulator.Session
import Octet.Proofs.Machine.Stores
/-!
A reset replays a session from its start.

* `accepted`: the images that a reset loads again;
* `reset_of_fits`: what a reset leaves;
* `Alike`: emulators that cannot be told apart from what they do from now on;
* `reset_replays`: after a reset an emulator is like a fresh one with the accepted images and the entry.
-/

namespace Octet

theorem Cpu.load_of_fits {origin : UInt16} {image : List UInt8} (h : origin.toNat + image.length ≤ 0x10000)
    (cpu : Cpu) : cpu.load origin image = .ok (cpu.writeMany origin image) := if_neg (Nat.not_lt.2 h)

namespace Emulator

variable {σ : Type} {emu other : Emulator σ}

/-! ## Images -/

/-- An image lies in memory. -/
def Fits (p : UInt16 × List UInt8) : Prop := p.1.toNat + p.2.length ≤ 0x10000

instance : DecidablePred Fits := fun _ => inferInstanceAs (Decidable (_ ≤ _))

/-- The images that are remembered after a call. -/
def remember (images : List (UInt16 × List UInt8)) : Command → List (UInt16 × List UInt8)
  | .load origin image => if Fits (origin, image) then images ++ [(origin, image)] else images
  | .reset false => []
  | _ => images

/-- The images that were accepted since the start, or since the last reset that forgets them. -/
def accepted (commands : List Command) : List (UInt16 × List UInt8) := commands.foldl remember []

theorem fits_accepted (commands : List Command) : ∀ p ∈ accepted commands, Fits p := by
  induction commands using List.reverseRecOn with
  | nil => exact List.forall_mem_nil _
  | append_singleton commands command ih =>
    rw [accepted, List.foldl_append]
    show ∀ p ∈ remember (accepted commands) command, Fits p
    unfold remember
    split
    · split
      · rename_i hfits
        exact List.forall_mem_append.2 ⟨ih, List.forall_mem_singleton.2 hfits⟩
      · exact ih
    · exact List.forall_mem_nil _
    · exact ih

/-- An image is accepted iff it fits, and then it is written and remembered. -/
theorem load_of_fits {origin : UInt16} {image : List UInt8} (h : Fits (origin, image)) (emu : Emulator σ) :
    ∃ log, emu.load origin image = .ok { emu with
      cpu := emu.cpu.writeMany origin image, images := emu.images ++ [(origin, image)], log := log } := by
  rw [load, Cpu.load_of_fits h]
  exact ⟨_, rfl⟩

theorem load_of_not_fits {origin : UInt16} {image : List UInt8} (h : ¬ Fits (origin, image)) (emu : Emulator σ) :
    emu.load origin image = .error ⟨origin, image.length⟩ := by
  have hcpu : emu.cpu.load origin image = .error ⟨origin, image.length⟩ := if_pos (Nat.lt_of_not_le h)
  rw [load, hcpu]
  rfl

/-- **What a call leaves of the images and the device.** -/
theorem images_perform (emu : Emulator σ) (command : Command) :
    (emu.perform command).images = remember emu.images command ∧ (emu.perform command).device = emu.device := by
  have hstep : ∀ (first next : Emulator σ) (step : Step), first.microstep = (next, some step) →
      first.images = emu.images ∧ first.device = emu.device → next.images = emu.images ∧ next.device = emu.device := by
    rintro first next step hm ⟨himages, hdevice⟩
    have hs := steps_of_microstep hm
    exact ⟨hs.images.trans himages, hs.device.trans hdevice⟩
  cases command with
  | load origin image =>
    show ((emu.load origin image).toOption.getD emu).images = _ ∧ ((emu.load origin image).toOption.getD emu).device = _
    rw [remember]
    split
    · rename_i hfits
      obtain ⟨log, hload⟩ := load_of_fits hfits emu
      rw [hload]
      exact ⟨rfl, rfl⟩
    · rename_i hfits
      rw [load_of_not_fits hfits]
      exact ⟨rfl, rfl⟩
  | setEntry | poke | setState | setBreakpoints | setMaxCycles => exact ⟨rfl, rfl⟩
  | microstep => exact microstep_induction hstep ⟨rfl, rfl⟩
  | stepInstruction => exact stepUpTo_induction hstep 5 ⟨rfl, rfl⟩
  | run fuel => exact run_induction hstep fuel ⟨rfl, rfl⟩
  | resume fuel => exact run_induction hstep fuel ⟨rfl, rfl⟩
  | reset reload =>
    show ((emu.reset reload).toOption.getD emu).images = _ ∧ ((emu.reset reload).toOption.getD emu).device = _
    cases reload with
    | false => exact ⟨rfl, rfl⟩
    | true =>
      rw [reset]
      cases loadAll {} emu.images with
      | error fault => exact ⟨rfl, rfl⟩
      | ok cpu => exact ⟨rfl, rfl⟩

theorem images_performAll (first : Emulator σ) (commands : List Command) :
    (first.performAll commands).images = commands.foldl remember first.images ∧
      (first.performAll commands).device = first.device := by
  induction commands generalizing first with
  | nil => exact ⟨rfl, rfl⟩
  | cons command commands ih =>
    obtain ⟨himages, hdevice⟩ := first.images_perform command
    obtain ⟨ih₁, ih₂⟩ := ih (first.perform command)
    rw [himages] at ih₁
    exact ⟨ih₁, ih₂.trans hdevice⟩

/-! ## Resets -/

/-- The processor with images in its memory, one after the other. -/
def loaded (cpu : Cpu) (images : List (UInt16 × List UInt8)) : Cpu :=
  images.foldl (fun cpu p => cpu.writeMany p.1 p.2) cpu

theorem phase_loaded (cpu : Cpu) (images : List (UInt16 × List UInt8)) : (loaded cpu images).phase = cpu.phase := by
  induction images generalizing cpu with
  | nil => rfl
  | cons p images ih => exact (ih _).trans (Cpu.phase_writeMany cpu p.1 p.2)

theorem loadAll_of_fits {images : List (UInt16 × List UInt8)} (h : ∀ p ∈ images, Fits p) (cpu : Cpu) :
    loadAll cpu images = .ok (loaded cpu images) := by
  induction images generalizing cpu with
  | nil => rfl
  | cons p images ih =>
    obtain ⟨hp, himages⟩ := List.forall_mem_cons.1 h
    rw [loadAll, Cpu.load_of_fits hp, Except.ok_bind]
    exact ih himages _

/-- **A reset cannot fail** where the images fit. -/
theorem reset_of_fits (h : ∀ p ∈ emu.images, Fits p) : ∃ log, emu.reset true = .ok { emu with
    cpu := (loaded {} emu.images).setPc emu.entry
    cycles := 0
    history := {}
    state := if emu.state = .halted then .paused else emu.state
    log := log } := by
  rw [reset, if_pos rfl, loadAll_of_fits h]
  exact ⟨_, rfl⟩

/-- The calls that load images and set an entry. -/
def replayCommands (images : List (UInt16 × List UInt8)) (entry : UInt16) : List Command :=
  images.map (fun p => .load p.1 p.2) ++ [.setEntry entry]

theorem performAll_load {images : List (UInt16 × List UInt8)} (h : ∀ p ∈ images, Fits p) (emu : Emulator σ) :
    ∃ log, emu.performAll (images.map fun p => .load p.1 p.2) = { emu with
      cpu := loaded emu.cpu images, images := emu.images ++ images, log := log } := by
  induction images generalizing emu with
  | nil => exact ⟨emu.log, by rw [List.append_nil]; rfl⟩
  | cons p images ih =>
    obtain ⟨hp, himages⟩ := List.forall_mem_cons.1 h
    obtain ⟨log, hload⟩ := load_of_fits hp emu
    obtain ⟨log', hrest⟩ := ih himages { emu with
      cpu := emu.cpu.writeMany p.1 p.2, images := emu.images ++ [p], log := log }
    refine ⟨log', ?_⟩
    have hfirst : emu.perform (.load p.1 p.2) = { emu with
        cpu := emu.cpu.writeMany p.1 p.2, images := emu.images ++ [p], log := log } := by
      show (emu.load p.1 p.2).toOption.getD emu = _
      rw [hload]
      rfl
    rw [performAll, List.map_cons, List.foldl_cons, hfirst]
    refine hrest.trans ?_
    rw [List.append_assoc]
    rfl

theorem performAll_replay {images : List (UInt16 × List UInt8)} (h : ∀ p ∈ images, Fits p) (entry : UInt16)
    (emu : Emulator σ) : ∃ log, emu.performAll (replayCommands images entry) = { emu with
      cpu := (loaded emu.cpu images).setPc entry, images := emu.images ++ images, entry := entry, log := log } := by
  obtain ⟨log, hload⟩ := performAll_load h emu
  refine ⟨log, ?_⟩
  rw [replayCommands, performAll, List.foldl_append]
  show (emu.performAll _).perform (.setEntry entry) = _
  rw [hload]
  rfl

/-! ## Emulators that are alike -/

/-- What a device does to the processor and reports does not depend on its own state. -/
def Stateless (device : Device σ) : Prop := ∀ world world' cpu, (device world cpu).2 = (device world' cpu).2

theorem stateless_none : Stateless (Device.none : Device σ) := fun _ _ _ => rfl

theorem Stateless.step {device : Device σ} (h : Stateless device) (world world' : σ) (cpu : Cpu) :
    (cpu.step device world).2 = (cpu.step device world').2 := by
  unfold Cpu.step
  split
  · unfold Cpu.startInstruction
    by_cases hchanged : cpu.read watchedPort ≠ cpu.watched
    · simp only [if_pos hchanged, h world world' cpu]
    · simp only [if_neg hchanged]
  · rfl
  · split <;> rfl

/-- All that counts for what an emulator does from now on is the same. The state of the device does not count if it is
stateless, and neither does the log. -/
structure Alike (emu other : Emulator σ) : Prop where
  cpu : other.cpu = emu.cpu
  state : other.state = emu.state
  history : other.history = emu.history
  breakpoints : other.breakpoints = emu.breakpoints
  cycles : other.cycles = emu.cycles
  maxCycles : other.maxCycles = emu.maxCycles
  entry : other.entry = emu.entry
  device : other.device = emu.device
  images : other.images = emu.images
  /-- At the start of an instruction its address does not count yet. -/
  started : emu.cpu.phase ≠ 0 → other.started = emu.started

namespace Alike

/-- **One phase** keeps emulators alike, and what is reported of it is the same. -/
theorem microstep (h : emu.Alike other) (hd : Stateless emu.device) :
    other.microstep.2 = emu.microstep.2 ∧ emu.microstep.1.Alike other.microstep.1 := by
  rcases emu.microstep_cases with ⟨hhalted, hnone⟩ | ⟨next, step, hsome, hs⟩
  · have hother : other.microstep = (other, none) := if_pos (h.state.trans hhalted)
    rw [hnone, hother]
    exact ⟨rfl, h⟩
  rcases other.microstep_cases with ⟨hhalted, -⟩ | ⟨next', step', hsome', hs'⟩
  · exact absurd (h.state.symm.trans hhalted) hs.ran
  have hboth : (next'.cpu, step') = (next.cpu, step) := by
    have hsame := hd.step emu.world other.world emu.cpu
    rw [hs.cpu, ← h.cpu, ← h.device, hs'.cpu] at hsame
    exact hsame.symm
  obtain ⟨hcpu, rfl⟩ := Prod.mk.inj hboth
  have hstarted : next'.started = next.started := by
    rw [hs.started, hs'.started, h.cpu]
    split
    · rfl
    · rename_i hphase
      exact h.started hphase
  have hexecuted : next'.executed = next.executed := by rw [executed, executed, hstarted, hcpu]
  have hcycles : next'.cycles = next.cycles := by rw [hs.cycles, hs'.cycles, h.cycles]
  have hmax : next'.maxCycles = next.maxCycles := by rw [hs.maxCycles, hs'.maxCycles, h.maxCycles]
  have hexhausted : next'.exhausted = next.exhausted := by rw [exhausted, exhausted, hcycles, hmax]
  rw [hsome, hsome']
  exact ⟨rfl, {
    cpu := hcpu
    state := by rw [hs.state, hs'.state, hexhausted, hcpu, h.breakpoints, h.state]
    history := by rw [hs.history, hs'.history, hexecuted, h.history]
    breakpoints := by rw [hs.breakpoints, hs'.breakpoints, h.breakpoints]
    cycles := hcycles
    maxCycles := hmax
    entry := by rw [hs.entry, hs'.entry, h.entry]
    device := by rw [hs.device, hs'.device, h.device]
    images := by rw [hs.images, hs'.images, h.images]
    started := fun _ => hstarted }⟩

theorem device_microstep (emu : Emulator σ) : emu.microstep.1.device = emu.device := (emu.images_perform .microstep).2

/-- **Any number of phases.** -/
theorem microsteps (h : emu.Alike other) (hd : Stateless emu.device) (n : Nat) :
    (other.microsteps n).2 = (emu.microsteps n).2 ∧ (emu.microsteps n).1.Alike (other.microsteps n).1 := by
  induction n generalizing emu other with
  | zero => exact ⟨rfl, h⟩
  | succ n ih =>
    obtain ⟨hreport, hnext⟩ := h.microstep hd
    obtain ⟨hreports, hlast⟩ := ih hnext (by rwa [device_microstep])
    exact ⟨congrArg₂ List.cons hreport hreports, hlast⟩

/-- **A run**, however long. -/
theorem run (h : emu.Alike other) (hd : Stateless emu.device) (fuel : Nat) :
    (Emulator.run fuel emu).Alike (Emulator.run fuel other) := by
  induction fuel generalizing emu other with
  | zero => exact h
  | succ fuel ih =>
    obtain ⟨-, hnext⟩ := h.microstep hd
    rw [Emulator.run, Emulator.run, h.state]
    split
    · exact ih hnext (by rwa [device_microstep])
    · exact h

end Alike

/-- A fresh emulator with some device is what calls made of it. -/
def Reached (emu : Emulator σ) (device : Device σ) (commands : List Command) : Prop :=
  ∃ world threshold, emu = (fresh device world threshold).performAll commands

section
variable {device : Device σ} {commands : List Command}

theorem Reached.images (h : emu.Reached device commands) : emu.images = accepted commands ∧ emu.device = device := by
  obtain ⟨world, threshold, rfl⟩ := h
  exact images_performAll _ _

/-- **A reset replays a session.** It succeeds, and leaves the processor of a fresh emulator on which the accepted images
are loaded in their order and the entry is set. An image that does not fit is rejected, and changes nothing. If the
device is stateless, then from then on the emulator does the same as the fresh one, phase by phase. -/
theorem reset_replays (h : emu.Reached device commands) :
    (∀ origin image, ¬ Fits (origin, image) →
      emu.load origin image = .error ⟨origin, image.length⟩ ∧ emu.perform (.load origin image) = emu) ∧
    ∃ after, emu.reset true = .ok after ∧ after.cycles = 0 ∧ after.history = {} ∧ after.state ≠ .halted ∧
      ∀ replayed : Emulator σ, replayed.Reached device (replayCommands (accepted commands) emu.entry) →
        after.cpu = replayed.cpu ∧
        ∀ again first : Emulator σ, again = { after with state := .running } →
          first = { replayed with breakpoints := emu.breakpoints, maxCycles := emu.maxCycles } → Stateless device →
          (∀ n, (again.microsteps n).2 = (first.microsteps n).2 ∧
            (again.microsteps n).1.Alike (first.microsteps n).1) ∧
          ∀ fuel, (run fuel again).Alike (run fuel first) := by
  obtain ⟨himages, hdevice⟩ := h.images
  obtain ⟨log, hreset⟩ := reset_of_fits (himages ▸ fits_accepted commands)
  refine ⟨fun origin image hfits => ⟨load_of_not_fits hfits emu, ?_⟩, _, hreset, rfl, rfl, ?_, ?_⟩
  · show (emu.load origin image).toOption.getD emu = emu
    rw [load_of_not_fits hfits]
    rfl
  · show (if emu.state = .halted then RunState.paused else emu.state) ≠ .halted
    split
    · exact RunState.noConfusion
    · assumption
  rintro replayed ⟨world, threshold, rfl⟩
  obtain ⟨log', hreplay⟩ := performAll_replay (fits_accepted commands) emu.entry (fresh device world threshold)
  rw [hreplay]
  refine ⟨by rw [himages]; rfl, ?_⟩
  rintro again first rfl rfl hstateless
  have halike : Alike { emu with
      cpu := (loaded {} emu.images).setPc emu.entry, cycles := 0, history := {}, state := .running, log := log }
      { fresh device world threshold with
        cpu := (loaded {} (accepted commands)).setPc emu.entry, images := [] ++ accepted commands, entry := emu.entry
        breakpoints := emu.breakpoints, maxCycles := emu.maxCycles, log := log' } := {
    cpu := by rw [himages]
    state := rfl, history := rfl, breakpoints := rfl, cycles := rfl, maxCycles := rfl, entry := rfl
    device := hdevice.symm
    images := himages.symm
    started := fun hphase => absurd (phase_loaded {} emu.images) hphase }
  have hd : Stateless emu.device := hdevice ▸ hstateless
  exact ⟨fun n => ⟨(halike.microsteps hd n).1.symm, (halike.microsteps hd n).2⟩, halike.run hd⟩

end

/-- Loads `LC B 0x05`, asks for an image that does not fit, and sets the entry. -/
def loading : List Command := [.load 0x8000 [0x03, 0x00, 0x05], .load 0xFFFF [0x01, 0x02], .setEntry 0x8000]

/-- Runs one phase then, and writes over the instruction. -/
def spoiling : List Command := loading ++ [.microstep, .poke 0x8000 0xEE]

theorem reset_replays_spoiling :
    ∃ after : Emulator Unit,
      ((fresh Device.none () .info).performAll spoiling).reset true = .ok after ∧
      after.cpu = ((fresh Device.none () .info).performAll (replayCommands [(0x8000, [0x03, 0x00, 0x05])] 0x8000)).cpu ∧
      ∀ n, (microsteps n { after with state := .running }).2 = (microsteps n
        ((fresh Device.none () .info).performAll (replayCommands [(0x8000, [0x03, 0x00, 0x05])] 0x8000))).2 := by
  obtain ⟨emu, hemu⟩ : ∃ emu, emu = (fresh Device.none () .info).performAll spoiling := ⟨_, rfl⟩
  have haccepted : accepted spoiling = [(0x8000, [0x03, 0x00, 0x05])] := by decide
  -- a phase and a write leave what was set before them
  obtain ⟨hentry, hbreakpoints, hmax⟩ : emu.entry = 0x8000 ∧ emu.breakpoints = [] ∧ emu.maxCycles = none := by
    obtain ⟨loaded, hloaded⟩ : ∃ loaded, loaded = (fresh Device.none () .info).performAll loading := ⟨_, rfl⟩
    have hspoiled : emu = { loaded.microstep.1 with cpu := loaded.microstep.1.cpu.write 0x8000 0xEE } := by
      rw [performAll] at hloaded
      rw [hemu, spoiling, performAll, List.foldl_append, ← hloaded]
      rfl
    have hset : loaded.entry = 0x8000 ∧ loaded.breakpoints = [] ∧ loaded.maxCycles = none := by
      rw [hloaded]
      exact ⟨rfl, rfl, rfl⟩
    rw [hspoiled]
    refine microstep_induction (P := fun emu : Emulator Unit => emu.entry = 0x8000 ∧ emu.breakpoints = [] ∧
      emu.maxCycles = none) (fun emu next step hm h => ?_) hset
    have hs := steps_of_microstep hm
    exact ⟨hs.entry.trans h.1, hs.breakpoints.trans h.2.1, hs.maxCycles.trans h.2.2⟩
  rw [← hemu]
  obtain ⟨-, after, hreset, -, -, -, hreplay⟩ := reset_replays ⟨(), .info, hemu⟩
  rw [haccepted, hentry, hbreakpoints, hmax] at hreplay
  obtain ⟨hcpu, hrun⟩ := hreplay _ ⟨(), .info, rfl⟩
  obtain ⟨hreports, -⟩ := hrun _ _ rfl rfl stateless_none
  exact ⟨after, hreset, hcpu, fun n => (hreports n).1⟩

end Emulator

end Octet
