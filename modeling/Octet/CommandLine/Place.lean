import Octet.Assembler.Error
/-!
Places in the tree of directories, and the segments of paths that lead from one to another.

Every system has directories, links and special files at certain places: `Place.systemDirectories`, `Place.link?` and
`SpecialFile.at?`. Where no file can be made, `Place.closed?` says why.
-/

namespace Octet

/-- A place: the names that lead down to it from the root. -/
abbrev Place := List String

namespace Place

/-- The directory that holds a place. The root holds itself. -/
def up (place : Place) : Place := place.dropLast

/-- The place that a segment of a path leads to: an empty one or a dot stays, two dots go up, and a name goes down. -/
def next (place : Place) (segment : String) : Place :=
  if segment = "" ∨ segment = "." then place
  else if segment = ".." then place.up
  else place ++ [segment]

/-- The segments of a path. -/
def segments (path : String) : List String := path.splitOn "/"

/-- Where a path starts, as seen from a working directory. -/
def start (here : Place) (path : String) : Place := if path.toList.head? = some '/' then [] else here

/-- The place that a path names, as seen from a working directory. -/
def ofPath (here : Place) (path : String) : Place := (segments path).foldl next (start here path)

/-- Whether a place is another one or holds it. -/
def holds (place other : Place) : Bool := place.isPrefixOf other

/-! ## What every system has -/

/-- The directories of every system. -/
def systemDirectories : List Place :=
  [["bin"], ["boot"], ["dev"], ["dev", "pts"], ["dev", "shm"], ["etc"], ["home"], ["lib"], ["media"], ["mnt"], ["opt"],
    ["proc"], ["proc", "self"], ["proc", "self", "fd"], ["root"], ["run"], ["sbin"], ["srv"], ["sys"], ["tmp"], ["usr"],
    ["usr", "bin"], ["usr", "include"], ["usr", "lib"], ["usr", "local"], ["usr", "sbin"], ["usr", "share"], ["var"],
    ["var", "cache"], ["var", "lib"], ["var", "log"], ["var", "spool"], ["var", "tmp"]]

/-- Why no file can be made at a place. The system itself says what stands below `proc`, `sys` and `pts`. -/
def closed? : Place → Option FileFault
  | "proc" :: _ => some .missing
  | "sys" :: _ | "dev" :: "pts" :: _ => some .notAllowed
  | _ => none

/-- Where the link at a place leads, as seen from a working directory. -/
def link? (here : Place) : Place → Option Place
  | ["dev", "stdin"] => some ["proc", "self", "fd", "0"]
  | ["dev", "stdout"] => some ["proc", "self", "fd", "1"]
  | ["dev", "stderr"] => some ["proc", "self", "fd", "2"]
  | ["dev", "fd"] => some ["proc", "self", "fd"]
  | ["proc", "self", "cwd"] => some here
  | ["proc", "self", "root"] => some []
  | _ => none

/-- The place itself, or the one that the link there leads to. -/
def linked (place here : Place) : Place := (link? here place).getD place

end Place

/-! ## Special files -/

/-- Where a program prints. -/
inductive Outlet where
  | output
  | errors
deriving DecidableEq, Repr

/-- A file that keeps nothing. -/
inductive SpecialFile where
  /-- takes everything -/
  | sink
  /-- has no room for anything -/
  | full
  /-- the terminal, which is not there -/
  | terminal
  /-- the standard input -/
  | input
  | outlet (outlet : Outlet)
deriving DecidableEq, Repr

/-- The special file at a place. -/
def SpecialFile.at? : Place → Option SpecialFile
  | ["dev", "null"] | ["dev", "zero"] | ["dev", "random"] | ["dev", "urandom"] => some sink
  | ["dev", "full"] => some full
  | ["dev", "tty"] => some terminal
  | ["proc", "self", "fd", "0"] => some input
  | ["proc", "self", "fd", "1"] => some (outlet .output)
  | ["proc", "self", "fd", "2"] => some (outlet .errors)
  | _ => none

end Octet
