import Octet.Assembler.SourceFiles
import Octet.Proofs.Assembler.Words
/-!
Paths of one file.

Two paths are of one file iff they have the same segments.

* `SourcePath.segments_directory`: the directory of a path has the segments of the path but the last one;
* `SourcePath.segments_resolve`: the segments of the path that an include means depend on those of the file that it
  stands in;
* `SourceFiles.Held`: so does the text that is found, if texts are held by path.
-/

namespace Octet.SourcePath

open Text

/-! ## Names -/

theorem names_append_slash (xs ys : List Char) : names (xs ++ '/' :: ys) = names xs ++ names ys := by
  rw [names, names, names, splitRuns_append_separator (by decide), List.filter_append]

theorem names_nil : names [] = [] := by rw [names, splitRuns]; rfl

theorem names_cons_slash (cs : List Char) : names ('/' :: cs) = names cs := by
  rw [← List.nil_append ('/' :: cs), names_append_slash, names_nil, List.nil_append]

/-- A text without a slash is one segment. -/
theorem names_of_no_slash {cs : List Char} (h : '/' ∉ cs) : names cs = if isIdle cs then [] else [cs] := by
  by_cases hnil : cs = []
  · subst hnil
    exact names_nil
  · have hrun : splitRuns (fun c => decide (c = '/')) cs = [cs] := by
      have happend := @splitRuns_append (fun c => decide (c = '/')) cs [] hnil (fun c hc => by
        simpa using fun he : c = '/' => h (he ▸ hc)) (fun _ hc => by cases hc)
      rw [List.append_nil] at happend
      rw [happend, splitRuns]
      rfl
    rw [names, hrun]
    cases hidle : isIdle cs <;> simp [hidle]

/-- What stands behind the last slash has none. -/
theorem slash_notMem_cutLast (cs : List Char) : '/' ∉ (cutLast cs).2 := by
  intro hmem
  have hne := List.mem_takeWhile_imp (List.mem_reverse.1 hmem)
  simp at hne

/-- A text without a slash is its own last segment; any other text ends in a slash and the last segment. -/
theorem eq_cutLast_or_append (cs : List Char) :
    ((cutLast cs).1 = [] ∧ (cutLast cs).2 = cs) ∨ withoutLast cs ++ '/' :: (cutLast cs).2 = cs := by
  have hsplit : (cs.reverse.dropWhile (· ≠ '/')).reverse ++ (cutLast cs).2 = cs := by
    rw [cutLast, ← List.reverse_append, List.takeWhile_append_dropWhile, List.reverse_reverse]
  have hfirst : (cutLast cs).1 = (cs.reverse.dropWhile (· ≠ '/')).reverse := by
    have hlength := congrArg List.length hsplit
    rw [List.length_append] at hlength
    have htake := @List.take_left' _ _ (cutLast cs).2 (cs.length - (cutLast cs).2.length)
      (show ((cs.reverse.dropWhile (· ≠ '/')).reverse).length = _ by omega)
    rwa [hsplit] at htake
  cases hdrop : cs.reverse.dropWhile (· ≠ '/') with
  | nil =>
    rw [hdrop] at hfirst hsplit
    exact .inl ⟨hfirst, hsplit⟩
  | cons c rest =>
    have hnot := List.head?_dropWhile_not (fun c => decide (c ≠ '/')) cs.reverse
    rw [hdrop, List.head?_cons] at hnot
    obtain rfl : c = '/' := by simpa using hnot
    rw [hdrop, List.reverse_cons] at hfirst hsplit
    refine .inr ?_
    rw [withoutLast, hfirst, List.dropLast_concat]
    simpa using hsplit

theorem names_dot : names ['.'] = [] := names_of_no_slash (by decide)

theorem names_dot_slash (cs : List Char) : names ('.' :: '/' :: cs) = names cs := by
  have happend := names_append_slash ['.'] cs
  rwa [names_dot, List.nil_append] at happend

/-- The names of a text are those before its last segment, and that segment, if it counts. -/
theorem names_eq (cs : List Char) :
    names cs = names (withoutLast cs) ++ if isIdle (cutLast cs).2 then [] else [(cutLast cs).2] := by
  rw [← names_of_no_slash (slash_notMem_cutLast cs)]
  obtain ⟨hfirst, hlast⟩ | happend := eq_cutLast_or_append cs
  · rw [withoutLast, hfirst, hlast, List.dropLast_nil, names_nil, List.nil_append]
  · conv_lhs => rw [← happend]
    exact names_append_slash _ _

/-! ## Segments that do not count -/

theorem names_dropIdle (body : List Char) : names (dropIdle body) = names body := by
  induction body using dropIdle.induct with
  | case1 => rw [dropIdle, dif_pos rfl]
  | case2 body hne hidle ih =>
    rw [dropIdle, dif_neg hne, if_pos hidle, ih, names_eq body, if_pos hidle, List.append_nil]
  | case3 body hne hidle => rw [dropIdle, dif_neg hne, if_neg hidle]

/-- What is left ends in a segment that counts. -/
theorem isIdle_dropIdle {body : List Char} (h : dropIdle body ≠ []) : isIdle (cutLast (dropIdle body)).2 = false := by
  induction body using dropIdle.induct with
  | case1 => exact absurd (by rw [dropIdle, dif_pos rfl]) h
  | case2 body hne hidle ih =>
    rw [dropIdle, dif_neg hne, if_pos hidle] at h ⊢
    exact ih h
  | case3 body hne hidle =>
    rw [dropIdle, dif_neg hne, if_neg hidle]
    simpa using hidle

theorem dropIdle_eq_nil_iff {body : List Char} : dropIdle body = [] ↔ names body = [] := by
  constructor
  · intro h
    rw [← names_dropIdle, h, names_nil]
  · intro h
    by_contra hne
    rw [← names_dropIdle, names_eq, isIdle_dropIdle hne] at h
    simp at h

theorem prefix_withoutLast (body : List Char) : withoutLast body <+: body :=
  (List.dropLast_prefix _).trans (List.take_prefix _ _)

theorem prefix_dropIdle (body : List Char) : dropIdle body <+: body := by
  induction body using dropIdle.induct with
  | case1 => rw [dropIdle, dif_pos rfl]
  | case2 body hne hidle ih =>
    rw [dropIdle, dif_neg hne, if_pos hidle]
    exact ih.trans (prefix_withoutLast body)
  | case3 body hne hidle => rw [dropIdle, dif_neg hne, if_neg hidle]

/-! ## Roots -/

/-- The segment at the front of a path that is absolute or starts with a dot. -/
def rootSegment (cs : List Char) : List String :=
  if cs.head? = some '/' then [""] else if rootLength cs = 1 then ["."] else []

theorem segments_eq (path : String) :
    segments path = rootSegment path.toList ++ (names path.toList).map String.ofList := by
  unfold segments rootSegment
  dsimp only
  split
  · rfl
  · split <;> rfl

/-- The ways in which a path can start. -/
theorem root_cases (cs : List Char) :
    (∃ rest, cs = '/' :: rest) ∨ cs = ['.'] ∨ (∃ rest, cs = '.' :: '/' :: rest) ∨
      (rootLength cs = 0 ∧ rootSegment cs = []) := by
  unfold rootSegment rootLength
  split
  · exact .inl ⟨_, rfl⟩
  · exact .inr (.inl rfl)
  · exact .inr (.inr (.inl ⟨_, rfl⟩))
  · rename_i hslash _ _
    refine .inr (.inr (.inr ⟨rfl, ?_⟩))
    cases cs with
    | nil => rfl
    | cons c rest =>
      have hc : c ≠ '/' := fun he => hslash rest (by rw [he])
      simp [hc]

/-- A slash behind a path does not change its root, whatever follows. -/
theorem rootSegment_append_slash {cs : List Char} (h : cs ≠ []) (rest : List Char) :
    rootSegment (cs ++ '/' :: rest) = rootSegment cs := by
  have hhead : (cs ++ '/' :: rest).head? = cs.head? := List.head?_append_of_ne_nil _ h
  have hlength : rootLength (cs ++ '/' :: rest) = rootLength cs := by
    match cs, h with
    | [c], _ =>
      unfold rootLength
      split <;> simp_all
    | c :: d :: cs, _ =>
      unfold rootLength
      simp only [List.cons_append]
      split <;> split <;> simp_all
  rw [rootSegment, rootSegment, hhead, hlength]

theorem dropLast_rootSegment (cs : List Char) : (rootSegment cs).dropLast = [] := by
  unfold rootSegment
  split
  · rfl
  · split <;> rfl

/-! ## Directories -/

/-- The root holds no segment of its own. -/
theorem names_drop_rootLength (cs : List Char) : names (cs.drop (rootLength cs)) = names cs := by
  obtain ⟨rest, rfl⟩ | rfl | ⟨rest, rfl⟩ | ⟨hlength, -⟩ := root_cases cs
  · exact (names_cons_slash rest).symm
  · exact names_nil.trans names_dot.symm
  · exact (names_cons_slash rest).trans (names_dot_slash rest).symm
  · rw [hlength, List.drop_zero]

/-- A part of a path from the root on, which ends in no segment that does not count. -/
theorem rootSegment_take_append {cs part : List Char} (hp : part <+: cs.drop (rootLength cs))
    (hn : names part = [] → part = []) :
    rootSegment (cs.take (rootLength cs) ++ part) = rootSegment cs ∧
      names (cs.take (rootLength cs) ++ part) = names part ∧
      (cs.take (rootLength cs) ++ part = [] ↔ rootSegment cs = [] ∧ names part = []) := by
  obtain ⟨rest, rfl⟩ | rfl | ⟨rest, rfl⟩ | ⟨hlength, hroot⟩ := root_cases cs
  · exact ⟨rfl, names_cons_slash part, by simp [rootSegment, rootLength]⟩
  · obtain rfl : part = [] := List.prefix_nil.1 hp
    exact ⟨rfl, names_dot.trans names_nil.symm, by simp [rootSegment, rootLength]⟩
  · have hpart : part = [] ∨ ∃ more, part = '/' :: more := by
      cases part with
      | nil => exact .inl rfl
      | cons c more => exact .inr ⟨more, by rw [(List.cons_prefix_cons.1 hp).1]⟩
    obtain rfl | ⟨more, rfl⟩ := hpart
    · exact ⟨rfl, names_dot.trans names_nil.symm, by simp [rootSegment, rootLength]⟩
    · exact ⟨rfl, (names_dot_slash more).trans (names_cons_slash more).symm, by simp [rootSegment, rootLength]⟩
  · rw [hlength, List.drop_zero] at hp
    rw [hlength, List.take_zero, List.nil_append, hroot]
    refine ⟨?_, rfl, fun h => ⟨rfl, h ▸ names_nil⟩, fun h => hn h.2⟩
    obtain ⟨rest, rfl⟩ | rfl | ⟨rest, rfl⟩ | ⟨-, hroot'⟩ := root_cases part
    · obtain ⟨more, rfl⟩ := hp
      cases hroot
    · cases hn names_dot
    · obtain ⟨more, rfl⟩ := hp
      cases hroot
    · exact hroot'

/-- **The directory of a path** has the segments of the path, but not the last one. -/
theorem segments_directory (path : String) : segments (directory path) = (segments path).dropLast ∧
    (directory path = "" ↔ (segments path).dropLast = []) := by
  have hbody := @dropIdle_eq_nil_iff (path.toList.drop (rootLength path.toList))
  rw [names_drop_rootLength] at hbody
  by_cases hnames : names path.toList = []
  · have hdirectory : directory path = "" := if_pos (hbody.2 hnames)
    have hsegments : (segments path).dropLast = [] := by
      rw [segments_eq, hnames, List.map_nil, List.append_nil, dropLast_rootSegment]
    rw [hdirectory, hsegments]
    exact ⟨by rw [segments_eq, show "".toList = [] from rfl, names_nil]; rfl, iff_of_true rfl rfl⟩
  · have hne : dropIdle (path.toList.drop (rootLength path.toList)) ≠ [] := fun h => hnames (hbody.1 h)
    have hdirectory : directory path = String.ofList (path.toList.take (rootLength path.toList) ++
        dropIdle (withoutLast (dropIdle (path.toList.drop (rootLength path.toList))))) := if_neg hne
    have hlast := names_eq (dropIdle (path.toList.drop (rootLength path.toList)))
    rw [isIdle_dropIdle hne, names_dropIdle, names_drop_rootLength] at hlast
    have hprefix := ((prefix_dropIdle _).trans (prefix_withoutLast _)).trans
      (prefix_dropIdle (path.toList.drop (rootLength path.toList)))
    obtain ⟨hroot, hparts, hnil⟩ :=
      rootSegment_take_append hprefix fun h => dropIdle_eq_nil_iff.2 (names_dropIdle _ ▸ h)
    rw [names_dropIdle] at hparts hnil
    have hsegments : (segments path).dropLast = rootSegment path.toList ++
        (names (withoutLast (dropIdle (path.toList.drop (rootLength path.toList))))).map String.ofList := by
      rw [segments_eq, hlast]
      simp
    rw [hdirectory, hsegments]
    refine ⟨by rw [segments_eq, String.toList_ofList, hroot, hparts], ?_⟩
    rw [List.append_eq_nil_iff, List.map_eq_nil_iff, ← hnil]
    exact String.ofList_eq_empty_iff

/-! ## Joining -/

theorem segments_join {directory path : String} (hd : directory ≠ "") (hp : path.toList.head? ≠ some '/') :
    segments (join directory path) = segments directory ++ (names path.toList).map String.ofList := by
  have hne : directory.toList ≠ [] := fun he => hd (String.toList_eq_nil_iff.1 he)
  unfold join
  rw [if_neg (not_or.2 ⟨hd, hp⟩)]
  split
  · rename_i hslash
    -- the directory ends in a slash already
    obtain ⟨init, hinit⟩ := List.getLast?_eq_some_iff.1 hslash
    rw [segments_eq, segments_eq, String.toList_append, hinit, List.append_assoc, List.singleton_append,
      names_append_slash, names_append_slash, names_nil, List.append_nil, List.map_append, ← List.append_assoc]
    congr 2
    cases init with
    | nil => rfl
    | cons c init =>
      exact (rootSegment_append_slash (List.cons_ne_nil c init) _).trans
        (rootSegment_append_slash (List.cons_ne_nil c init) []).symm
  · rw [segments_eq, segments_eq, String.toList_append, String.toList_append, List.append_assoc]
    show rootSegment (directory.toList ++ '/' :: path.toList) ++
      (names (directory.toList ++ '/' :: path.toList)).map String.ofList = _
    rw [rootSegment_append_slash hne, names_append_slash, List.map_append, List.append_assoc]

/-- **What an include means** depends on the segments of the file that it stands in. -/
theorem segments_resolve (path target : String) :
    segments (resolve path target) =
      if (segments path).dropLast = [] ∨ target.toList.head? = some '/' then segments target
      else (segments path).dropLast ++ (names target.toList).map String.ofList := by
  obtain ⟨hsegments, hempty⟩ := segments_directory path
  split
  · rename_i h
    rw [← hempty] at h
    rw [resolve, join, if_pos h]
  · rename_i h
    rw [← hempty] at h
    obtain ⟨hd, hp⟩ := not_or.1 h
    rw [resolve, segments_join hd hp, hsegments]

theorem segments_resolve_congr {path path' : String} (h : segments path = segments path') (target : String) :
    segments (resolve path target) = segments (resolve path' target) := by
  rw [segments_resolve, segments_resolve, h]

end Octet.SourcePath

namespace Octet.SourceFiles

/-- Texts that are held by path: each can be read many times, and two paths of one file find one text. -/
structure Held (files : SourceFiles) : Prop where
  not_isInput : ∀ path, files.isInput path = false
  text_congr : ∀ {path path' : String}, SourcePath.segments path = SourcePath.segments path' →
    files.text path = files.text path'

theorem held_ofList (texts : List (String × String)) : (ofList texts).Held :=
  ⟨fun _ => rfl, fun h => by simp only [ofList, h]⟩

/-- To read a text that is held leaves the files as they are. -/
theorem Held.load_eq_ok_iff {files left : SourceFiles} (h : files.Held) {path text : String} :
    files.load path = .ok (text, left) ↔ files.text path = .ok text ∧ left = files := by
  rw [load_of_not_isInput (h.not_isInput path)]
  cases files.text path with
  | error cause => exact ⟨fun h => (by cases h), fun h => (by cases h.1)⟩
  | ok t =>
    constructor
    · intro h
      cases h
      exact ⟨rfl, rfl⟩
    · rintro ⟨ht, rfl⟩
      rw [Except.ok.inj ht]
      rfl

end Octet.SourceFiles
