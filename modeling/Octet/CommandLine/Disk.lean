import Octet.Assembler.SourceFiles
import Octet.CommandLine.Place
/-!
Files, by the places where they stand.

A path is followed from its start segment by segment, and each place on the way has to be a directory. Directories are
those that files stand in, the working directory and all above it, and those that every system has; none is made or
removed.

* `Disk.read` and `Disk.write` are the contents of a file before and after;
* `read_write`: what has been written is read, unless it was written to a special file.
-/

namespace Octet

/-- The files, as a program finds them. -/
structure Disk where
  /-- The working directory. -/
  here : Place
  files : List (Place × List UInt8) := []
  /-- What comes in on standard input. -/
  input : List UInt8 := []
deriving DecidableEq, Repr

/-- Why a file could not be written. -/
inductive WriteFault where
  /-- It could not be opened or made. -/
  | opening (cause : FileFault)
  /-- It was opened, but did not take the bytes. -/
  | filling (cause : FileFault)
deriving DecidableEq, Repr

namespace Disk

/-! ## What stands where -/

/-- What stands at a place. -/
inductive Node where
  | file (bytes : List UInt8)
  | directory
  | special (file : SpecialFile)
deriving DecidableEq, Repr

/-- Whether a directory stands at a place whatever the files are. -/
def isGiven (disk : Disk) (place : Place) : Bool :=
  place = [] || place.holds disk.here || Place.systemDirectories.contains place

/-- What stands at a place, if anything does. -/
def node? (disk : Disk) (place : Place) : Option Node :=
  match SpecialFile.at? place with
  | some special => some (.special special)
  | none =>
    match disk.files.lookup place with
    | some bytes => some (.file bytes)
    | none => if disk.isGiven place ∨ disk.files.any (fun f => place.holds f.1) then some .directory else none

/-! ## Paths -/

/-- The greatest length of a name, in bytes. -/
def nameLimit : Nat := 255

/-- The greatest length of a path, in bytes. -/
def pathLimit : Nat := 4095

/-- What is wrong with a path wherever it leads. -/
def pathFault? (path : String) : Option FileFault :=
  if path.toList.contains '\x00' then some .nulInPath
  else if path = "" then some .missing
  else if pathLimit < path.utf8ByteSize then some .nameTooLong
  else none

/-- Follows segments from a place, and links where they stand. Every place that is left has to be a directory. -/
def follow (disk : Disk) : Place → List String → Except FileFault Place
  | place, [] => .ok place
  | place, segment :: rest =>
    match disk.node? place with
    | none => .error .missing
    | some (.file _) | some (.special _) => .error .notDirectory
    | some .directory =>
      if nameLimit < segment.utf8ByteSize then .error .nameTooLong
      else follow disk ((place.next segment).linked disk.here) rest

/-- The place that a path leads to. -/
def locate (disk : Disk) (path : String) : Except FileFault Place :=
  match pathFault? path with
  | some fault => .error fault
  | none => disk.follow (Place.start disk.here path) (Place.segments path)

/-- What stands before the last segment of a path that ends in a name with a slash behind it, followed by an empty
segment. Such a path can only be that of a directory. -/
def parentOfDirectory? (path : String) : Option (List String) :=
  match (Place.segments path).reverse with
  | "" :: rest =>
    match rest.dropWhile (· = "") with
    | [] => none
    | last :: earlier => if last = "." ∨ last = ".." then none else some (earlier.reverse ++ [""])
  | _ => none

/-- The place of a file that is to be written. -/
def locateTarget (disk : Disk) (path : String) : Except FileFault Place :=
  match pathFault? path, parentOfDirectory? path with
  | none, some parent => disk.follow (Place.start disk.here path) parent >>= fun _ => .error .directory
  | _, _ => disk.locate path

/-! ## Contents -/

/-- The bytes of a file. Of a special file only the standard input has any. -/
def read (disk : Disk) (path : String) : Except FileFault (List UInt8) := do
  let place ← disk.locate path
  match disk.node? place with
  | none => .error .missing
  | some .directory => .error .directory
  | some (.special .input) => .ok disk.input
  | some (.special .terminal) => .error .noDevice
  | some (.special _) => .ok []
  | some (.file bytes) => .ok bytes

/-- Whether a path is that of the standard input. -/
def namesInput (disk : Disk) (path : String) : Bool :=
  match disk.locate path with
  | .ok place => SpecialFile.at? place = some .input
  | .error _ => false

/-- Where bytes went. -/
inductive Delivery where
  /-- The disk is another one now, if the bytes were not thrown away. -/
  | kept (disk : Disk)
  | printed (outlet : Outlet)
deriving DecidableEq, Repr

/-- Gives bytes to a special file. -/
def writeSpecial (disk : Disk) (bytes : List UInt8) : SpecialFile → Except WriteFault Delivery
  | .sink | .input => .ok (.kept disk)
  | .full => if bytes = [] then .ok (.kept disk) else .error (.filling .noSpace)
  | .terminal => .error (.opening .noDevice)
  | .outlet outlet => .ok (.printed outlet)

/-- Replaces the contents of a file, which is made if there is none. -/
def write (disk : Disk) (path : String) (bytes : List UInt8) : Except WriteFault Delivery :=
  match disk.locateTarget path with
  | .error cause => .error (.opening cause)
  | .ok place =>
    match disk.node? place with
    | some .directory => .error (.opening .directory)
    | some (.special special) => disk.writeSpecial bytes special
    | none | some (.file _) =>
      match Place.closed? place with
      | some cause => .error (.opening cause)
      | none => .ok (.kept { disk with files := (place, bytes) :: disk.files })

/-- The bytes as a text. -/
def textOf (bytes : List UInt8) : Except FileFault String :=
  match String.fromUTF8? ⟨bytes.toArray⟩ with
  | some text => .ok text
  | none => .error .notText

/-- The bytes of a text. -/
def bytesOf (text : String) : List UInt8 := text.toUTF8.data.toList

/-- The bytes of a printed line. -/
def lineBytes (line : String) : List UInt8 := bytesOf (line ++ "\n")

/-- The lines that come in on standard input, up to the first one that is no text. -/
def inputLines (disk : Disk) : List String :=
  match textOf disk.input with
  | .error _ => []
  | .ok text =>
    let pieces := text.splitOn "\n"
    if pieces.getLast? = some "" then pieces.dropLast else pieces

/-- The lines of the standard input that are left when a file has been read. -/
def linesLeftBy (disk : Disk) (path : String) : List String :=
  if disk.namesInput path then [] else disk.inputLines

/-- The disk that holds the given files, by path; of two files with one path the later one counts. -/
def ofList (here : Place) (files : List (String × List UInt8)) (input : List UInt8) : Disk :=
  { here := here
    files := files.reverse.map fun (path, bytes) => (Place.ofPath here path, bytes)
    input := input }

/-! ## Reading what was written -/

theorem node?_write {disk : Disk} {place q : Place} {bytes : List UInt8}
    (hq : disk.node? q = some .directory) (hp : disk.node? place ≠ some .directory) :
    { disk with files := (place, bytes) :: disk.files }.node? q = some .directory := by
  have hne : q ≠ place := fun h => hp (h ▸ hq)
  unfold node? at hq ⊢
  split at hq
  · simp at hq
  simp only
  rw [List.lookup_cons, beq_false_of_ne hne]
  cases hl : disk.files.lookup q with
  | some b => simp [hl] at hq
  | none =>
    simp only [hl, ite_eq_left_iff, reduceCtorEq, imp_false, Decidable.not_not] at hq
    simp only [List.any_cons, Bool.or_eq_true]
    exact if_pos (hq.imp_right Or.inr)

theorem follow_write {disk : Disk} {place : Place} {bytes : List UInt8}
    (hp : disk.node? place ≠ some .directory) {segments : List String} {start last : Place}
    (h : disk.follow start segments = .ok last) :
    { disk with files := (place, bytes) :: disk.files }.follow start segments = .ok last := by
  induction segments generalizing start with
  | nil => exact h
  | cons segment rest ih =>
    rw [follow] at h
    split at h
    · simp at h
    · simp at h
    · simp at h
    · rename_i hn
      rw [follow, node?_write hn hp]
      split at h
      · simp at h
      · rename_i hl; simp [hl, ih h]

theorem locate_of_locateTarget {disk : Disk} {path : String} {place : Place}
    (h : disk.locateTarget path = .ok place) : disk.locate path = .ok place := by
  unfold locateTarget at h
  split at h
  · rename_i parent _ _
    cases hf : disk.follow (Place.start disk.here path) parent <;> simp [hf, bind, Except.bind] at h
  · exact h

/-- What has been written is read, unless it was written to a special file. -/
theorem read_write {disk disk' : Disk} {path : String} {bytes : List UInt8}
    (h : disk.write path bytes = .ok (.kept disk'))
    (hn : ∀ place, disk.locate path = .ok place → SpecialFile.at? place = none) :
    disk'.read path = .ok bytes := by
  unfold write at h
  cases ht : disk.locateTarget path with
  | error e => simp [ht] at h
  | ok place =>
    have hl := locate_of_locateTarget ht
    have hs := hn place hl
    have hp : disk.node? place ≠ some .directory := by
      intro hd; simp [ht, hd] at h
    have hk (special : SpecialFile) : disk.node? place ≠ some (.special special) := by
      unfold node?; rw [hs]; simp only; split <;> simp
    have hd : disk' = { disk with files := (place, bytes) :: disk.files } := by
      simp only [ht] at h
      split at h
      · simp at h
      · exact absurd ‹_› (hk _)
      all_goals
        split at h
        · simp at h
        · exact (Delivery.kept.inj (Except.ok.inj h)).symm
    subst hd
    have hl' : { disk with files := (place, bytes) :: disk.files }.locate path = .ok place := by
      unfold locate at hl ⊢
      split at hl
      · simp at hl
      · exact follow_write hp hl
    simp [read, hl', node?, hs, bind, Except.bind]

end Disk

/-- The texts in files that are found by `read`. -/
def SourceFiles.ofBytes (read : String → Except FileFault (List UInt8)) (isInput : String → Bool) : SourceFiles :=
  { text := fun path => read path >>= Disk.textOf, isInput := isInput }

/-- The texts in the files of a disk. -/
def Disk.sources (disk : Disk) : SourceFiles := .ofBytes disk.read disk.namesInput

end Octet
