import Octet.Text.BreakClass
/-!
Extended grapheme clusters: the parts of a text that a reader takes for one character.

A text is cut wherever a character does not join the cluster before it.

* `joins` is the rule;
* `clusters` cuts a text, and `flatten_clusters` says that nothing is lost.
-/

namespace Octet.Text

/-! ## Boundaries -/

/-- A character with its class. -/
abbrev Classed := Char × BreakClass

/-- Whether the classes of two Hangul characters make one syllable of them. -/
def joinsSyllable : BreakClass → BreakClass → Bool
  | .leading, .leading | .leading, .vowel | .leading, .openSyllable | .leading, .closedSyllable => true
  | .openSyllable, .vowel | .openSyllable, .trailing | .vowel, .vowel | .vowel, .trailing => true
  | .closedSyllable, .trailing | .trailing, .trailing => true
  | _, _ => false

/-- Whether a cluster, last class first, ends in a consonant that a linker makes wait for another one. -/
def endsLinked (cluster : List BreakClass) : Bool :=
  let isMark (c : BreakClass) : Bool := c = .extend || c = .linker || c = .joiner
  (cluster.takeWhile isMark).contains .linker && (cluster.dropWhile isMark).head? = some .consonant

/-- Whether a cluster, last class first, ends in a pictograph and a joiner, with nothing but extending marks between
them. -/
def endsJoined : List BreakClass → Bool
  | .joiner :: earlier => (earlier.dropWhile BreakClass.isExtend).head? = some .pictograph
  | _ => false

/-- Whether a cluster, last class first, ends in half a flag. -/
def endsHalved (cluster : List BreakClass) : Bool := (cluster.takeWhile (· = .regional)).length % 2 = 1

/-- Whether a character of the class `next` goes on with a cluster, last class first. -/
def joins (cluster : List BreakClass) (next : BreakClass) : Bool :=
  match cluster with
  | [] => true
  | last :: _ =>
    if last = .carriageReturn ∧ next = .lineFeed then true
    else if last.isAlone ∨ next.isAlone then false
    else
      joinsSyllable last next || next.isExtend || next = .joiner || next = .spacing || last = .prepend ||
        (next = .consonant && endsLinked cluster) || (next = .pictograph && endsJoined cluster) ||
        (next = .regional && endsHalved cluster)

/-! ## Clusters -/

/-- The clusters of a text, the first of which has begun with the given characters, last one first. -/
def clustersFrom (begun : List Classed) : List Char → List (List Char)
  | [] => [(begun.map (·.1)).reverse]
  | c :: cs =>
    let next : Classed := (c, .of c)
    if joins (begun.map (·.2)) next.2 then clustersFrom (next :: begun) cs
    else (begun.map (·.1)).reverse :: clustersFrom [next] cs

/-- The clusters of a text. -/
def clusters : List Char → List (List Char)
  | [] => []
  | c :: cs => clustersFrom [(c, .of c)] cs

theorem flatten_clustersFrom (begun : List Classed) (cs : List Char) :
    (clustersFrom begun cs).flatten = (begun.map (·.1)).reverse ++ cs := by
  induction cs generalizing begun with
  | nil => simp [clustersFrom]
  | cons c cs ih => rw [clustersFrom]; split <;> simp [ih]

/-- Nothing is lost. -/
@[simp] theorem flatten_clusters (cs : List Char) : (clusters cs).flatten = cs := by
  cases cs with
  | nil => rfl
  | cons c cs => simp [clusters, flatten_clustersFrom]

end Octet.Text
