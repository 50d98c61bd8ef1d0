import Octet.Text.Cluster
/-!
Text as it is typed: a backspace takes away the cluster before it.

`typed` is what keystrokes leave, and `typed_eq_self` says that this is all of them if no backspace is among them.
-/

namespace Octet.Text

/-- The backspace. -/
def backspace : Char := '\x08'

/-- What has been typed so far. -/
structure Draft where
  /-- The characters, last one first. -/
  reversed : List Char := []
  /-- The sizes of the clusters in bytes, last one first. A size is held in a byte. -/
  sizes : List UInt8 := []
deriving DecidableEq, Repr

namespace Draft

/-- Drops the characters in front that fit into a number of bytes. -/
def dropBytes (n : Nat) : List Char → List Char
  | [] => []
  | c :: cs => if c.utf8Size ≤ n then dropBytes (n - c.utf8Size) cs else c :: cs

/-- Types a cluster. -/
def append (draft : Draft) (cluster : List Char) : Draft :=
  ⟨cluster.reverse ++ draft.reversed, UInt8.ofNat ((cluster.map Char.utf8Size).foldr (· + ·) 0) :: draft.sizes⟩

/-- Takes away the last cluster, if there is one. -/
def erase (draft : Draft) : Draft :=
  match draft.sizes with
  | [] => draft
  | size :: sizes => ⟨dropBytes size.toNat draft.reversed, sizes⟩

/-- Types a cluster, or erases the one before it. -/
def press (draft : Draft) (cluster : List Char) : Draft :=
  if cluster = [backspace] then draft.erase else draft.append cluster

end Draft

/-- What keystrokes leave. -/
def typed (cs : List Char) : List Char := ((clusters cs).foldl Draft.press {}).reversed.reverse

theorem reversed_foldl_press {clusters : List (List Char)} (h : [backspace] ∉ clusters) (draft : Draft) :
    (clusters.foldl Draft.press draft).reversed = clusters.flatten.reverse ++ draft.reversed := by
  induction clusters generalizing draft with
  | nil => rfl
  | cons cluster clusters ih =>
    obtain ⟨hc, hs⟩ := not_or.1 (fun hm => h (List.mem_cons.2 hm))
    rw [List.foldl_cons, ih hs, Draft.press, if_neg (Ne.symm hc)]
    simp [Draft.append]

/-- Without a backspace all keystrokes are left. -/
theorem typed_eq_self {cs : List Char} (h : backspace ∉ cs) : typed cs = cs := by
  have hb : [backspace] ∉ clusters cs := fun hm => h (by
    rw [← flatten_clusters cs]; exact List.mem_flatten.2 ⟨_, hm, List.mem_cons_self⟩)
  simp [typed, reversed_foldl_press hb]

end Octet.Text
