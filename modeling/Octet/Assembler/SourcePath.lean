import Octet.Text.Blank
/-!
Paths of source files, as texts with slashes.

A path is a sequence of segments. Empty segments and segments that are a single dot do not count, except for a
dot at the front of a relative path.

* `SourcePath.directory` and `SourcePath.join` find the file that an include names;
* `SourcePath.segments` is what two paths to one file have in common;
* `SourcePath.withExtension` names a file beside another one.
-/

namespace Octet.SourcePath

/-- Cuts a text behind its last slash. -/
def cutLast (cs : List Char) : List Char × List Char :=
  let last := (cs.reverse.takeWhile (· ≠ '/')).reverse
  (cs.take (cs.length - last.length), last)

/-- The number of characters in front of the segments that can be taken away: the slash of an absolute path, the
dot of a relative one. -/
def rootLength (cs : List Char) : Nat :=
  match cs with
  | '/' :: _ => 1
  | ['.'] => 1
  | '.' :: '/' :: _ => 1
  | _ => 0

/-- Whether a segment does not count. -/
def isIdle (segment : List Char) : Bool := segment = [] || segment = ['.']

/-- What stands before the last segment, without the slash between them. -/
def withoutLast (body : List Char) : List Char := (cutLast body).1.dropLast

theorem withoutLast_length {body : List Char} (h : body ≠ []) : (withoutLast body).length < body.length := by
  have := List.length_pos_iff.2 h
  simp only [withoutLast, cutLast, List.length_dropLast, List.length_take]; omega

/-- Drops the segments at the end that do not count, with the slashes before them. -/
def dropIdle (body : List Char) : List Char :=
  if _h : body = [] then [] else if isIdle (cutLast body).2 then dropIdle (withoutLast body) else body
termination_by body.length
decreasing_by exact withoutLast_length _h

/-- What stands before the last segment, without the slashes that lead up to it; empty if the path has no
directory part. -/
def directory (path : String) : String :=
  let cs := path.toList
  let root := rootLength cs
  let body := dropIdle (cs.drop root)
  if body = [] then "" else String.ofList (cs.take root ++ dropIdle (withoutLast body))

/-- A path as seen from a directory. An absolute path stays as it is. -/
def join (directory path : String) : String :=
  if directory = "" ∨ path.toList.head? = some '/' then path
  else if directory.toList.getLast? = some '/' then directory ++ path
  else directory ++ "/" ++ path

/-- The path that an include of `target` in the file `path` means. -/
def resolve (path target : String) : String := join (directory path) target

/-- The segments that count, but for the dot at the front of a relative path. -/
def names (cs : List Char) : List (List Char) := (Text.splitRuns (· = '/') cs).filter fun s => !isIdle s

/-- The segments of a path that count; an absolute path starts with an empty one. -/
def segments (path : String) : List String :=
  let cs := path.toList
  let names := (names cs).map String.ofList
  if cs.head? = some '/' then "" :: names
  else if rootLength cs = 1 then "." :: names
  else names

/-- The last segment of a path, unless there is none or it leads upwards. -/
def fileName? (path : String) : Option (List Char) :=
  let cs := path.toList
  let name := (cutLast (dropIdle (cs.drop (rootLength cs)))).2
  if name = [] ∨ name = ['.', '.'] then none else some name

/-- What stands behind the last dot of a name, unless nothing stands before that dot. -/
def extension? (name : List Char) : Option (List Char) :=
  let behind := (name.reverse.takeWhile (· ≠ '.')).reverse
  if name.length ≤ behind.length + 1 then none else some behind

/-- The path with another extension of its last segment, or with a first one. A path without a file name stays as it
is. -/
def setExtension (path extension : String) : String :=
  match fileName? path with
  | none => path
  | some name =>
    let cs := path.toList
    let root := rootLength cs
    let body := dropIdle (cs.drop root)
    let before := body.take (body.length - name.length)
    let stem := match extension? name with
      | none => name
      | some old => name.take (name.length - old.length - 1)
    String.ofList (cs.take root ++ before ++ stem) ++ "." ++ extension

/-- The path of the file beside `path` whose name has another extension. The old extension is cut off before the new
one is set, and that may leave two dots, which are no file name. -/
def withExtension (path extension : String) : String :=
  match (fileName? path).bind extension? with
  | none => setExtension path extension
  | some old => setExtension (String.ofList (path.toList.take (path.length - old.length))) extension

end Octet.SourcePath
