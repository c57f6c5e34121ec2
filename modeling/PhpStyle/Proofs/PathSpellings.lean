import Mathlib.Data.List.Forall2
import PhpStyle.Disk
import PhpStyle.Proofs.PathTexts

/-!
# Spellings of a path

Absolute paths with the same components, however they are spelled, are directories for the same paths:
what is joined to them leads to one place (`Disk.resolve_join`), from whatever working directory. The
joined path has to be the same text, since what stands at the end of a path, as a slash, does matter.
The directories above such paths have the same components again (`Path.forall₂_ancestors`).
-/

namespace PhpStyle

open Text

namespace Path

variable {p q : Path} {segs : List String}

/-- Two absolute paths that differ at most in their spelling. -/
structure Respells (p q : Path) : Prop where
  left : p.isAbsolute = true
  right : q.isAbsolute = true
  components : p.components = q.components

theorem join_of_isAbsolute (p : Path) (hq : q.isAbsolute = true) : p.join q = q := by
  rw [join, hq, Bool.true_or, if_pos rfl]

theorem isAbsolute_join (hp : p.isAbsolute = true) (q : Path) : (p.join q).isAbsolute = true := by
  by_cases hq : q.isAbsolute = true
  · rwa [join_of_isAbsolute p hq]
  · have hhead : ∀ r : String, (⟨p.text ++ r⟩ : Path).isAbsolute = true := by
      intro r
      obtain ⟨cs, hcs⟩ := List.head?_eq_some_iff.1 (by simpa [isAbsolute] using hp)
      simp [isAbsolute, String.toList_append, hcs]
    rw [join, if_neg (by simpa [hq] using text_ne_empty hp)]
    split_ifs
    · exact hhead q.text
    · rw [String.append_assoc]
      exact hhead _

theorem segments_eq_splitAt {cs : List Char} (hcs : p.text.toList = '/' :: cs) :
    p.segments = (splitAt '/' cs).map String.ofList := by
  have hp : p.isAbsolute = true := by simp [isAbsolute, hcs]
  rw [segments, if_pos hp, hcs, List.tail_cons]

theorem segments_join (hp : p.isAbsolute = true) (hq : q.isAbsolute = false) :
    ∃ init, (p.join q).segments = init ++ q.segments ∧
      init.filterMap ofSegment? = p.segments.filterMap ofSegment? := by
  obtain ⟨ds, hds⟩ := List.head?_eq_some_iff.1 (by simpa [isAbsolute] using hp)
  have hsegments : q.segments = (splitAt '/' q.text.toList).map String.ofList := by
    rw [segments, hq, if_neg Bool.false_ne_true]
  have hsplit : ∀ cs es : List Char, splitAt '/' (cs ++ '/' :: es) = splitAt '/' cs ++ splitAt '/' es :=
    fun cs es => List.splitOnP_append_cons cs es rfl
  obtain ⟨cs, hjoin, hcs⟩ := toList_join (text_ne_empty hp) hq
  cases cs with
  | nil =>
    -- `p` is the root, which has no segment of its own
    obtain rfl : ds = [] := by simpa [hds] using hcs
    refine ⟨[], ?_, by rw [segments_eq_splitAt hds]; rfl⟩
    rw [segments_eq_splitAt hjoin, hsegments, List.nil_append]
  | cons c cs =>
    refine ⟨(splitAt '/' cs).map String.ofList, ?_, ?_⟩
    · obtain rfl : c = '/' := by rcases hcs with hcs | hcs <;> simp_all
      rw [segments_eq_splitAt hjoin, List.append_eq, hsplit, List.map_append, hsegments]
    · rw [segments_eq_splitAt hds]
      rcases hcs with hcs | hcs
      · rw [(List.cons.inj (hds.symm.trans hcs)).2]
      · rw [(List.cons.inj (hds.symm.trans hcs)).2, List.append_eq, hsplit, List.map_append,
          List.filterMap_append]
        exact (List.append_nil _).symm

/-- How a component is written. -/
def Component.segment : Component → String
  | root => ""
  | current => "."
  | parent => ".."
  | normal name => name

theorem filter_eq_map_segment (segs : List String) :
    segs.filter (!isSkipped ·) = (segs.filterMap ofSegment?).map Component.segment := by
  induction segs with
  | nil => rfl
  | cons s segs ih =>
    cases hs : isSkipped s with
    | true =>
      rw [List.filter_cons_of_neg (by simp [hs]), List.filterMap_cons_none (by simp [ofSegment?, hs]), ih]
    | false =>
      by_cases hparent : s = ".."
      · subst hparent
        rw [List.filter_cons_of_pos (by simp [hs]), ih]
        rfl
      · rw [List.filter_cons_of_pos (by simp [hs]),
          List.filterMap_cons_some (b := .normal s) (by simp [ofSegment?, hs, hparent]), ih]
        rfl

theorem isAbsolute_ofSegments (segs : List String) : (ofSegments true segs).isAbsolute = true := by
  simp [ofSegments, isAbsolute, String.toList_append]

theorem components_ofSegments_true (h : ∀ s ∈ segs, '/' ∉ s.toList) :
    (ofSegments true segs).components = .root :: segs.filterMap ofSegment? := by
  have htext : (ofSegments true segs).text.toList = '/' :: (ofSegments false segs).text.toList := by
    simp [ofSegments, String.toList_append]
  rw [components_eq, htext, steps_slash, steps_ofSegments_of_no_slash h]
  rfl

theorem trimSegments_cases (segs : List String) : trimSegments segs = [] ∨
    ∃ init s c, trimSegments segs = init ++ [s] ∧ ofSegment? s = some c := by
  rw [trimSegments]
  have hhead := List.head?_dropWhile_not isSkipped segs.reverse
  cases hrest : segs.reverse.dropWhile isSkipped with
  | nil => exact .inl rfl
  | cons s rest =>
    rw [hrest] at hhead
    obtain ⟨c, hc⟩ : ∃ c, ofSegment? s = some c := by
      rw [ofSegment?, if_neg (by simpa using hhead)]
      split_ifs <;> exact ⟨_, rfl⟩
    exact .inr ⟨rest.reverse, s, c, List.reverse_cons, hc⟩

theorem trimmedSegments_of_isAbsolute (hp : p.isAbsolute = true) :
    p.trimmedSegments = trimSegments p.segments := by
  rw [trimmedSegments, startsAtCurrent, hp]
  rfl

theorem parent?_eq (h : p.trimmedSegments ≠ []) : p.parent? =
    some (ofSegments p.isAbsolute (ofSegments p.isAbsolute p.trimmedSegments.dropLast).trimmedSegments) := by
  rw [parent?]
  cases hsegs : p.trimmedSegments with
  | nil => exact absurd hsegs h
  | cons s segs => rfl

theorem parent?_of_isAbsolute (hp : p.isAbsolute = true) :
    p.parent? = none ∧ p.components = [.root] ∨
      ∃ above c, p.parent? = some above ∧ above.isAbsolute = true ∧
        p.components = above.components ++ [c] := by
  have htrimmed := trimmedSegments_of_isAbsolute hp
  have hcomponents := components_of_isAbsolute hp
  rw [← filterMap_trimSegments] at hcomponents
  rcases trimSegments_cases p.segments with hnil | ⟨init, s, c, hsegs, hc⟩
  · rw [hnil] at htrimmed hcomponents
    exact .inl ⟨by rw [parent?, htrimmed], hcomponents⟩
  · rw [hsegs] at htrimmed hcomponents
    rw [parent?_eq (by rw [htrimmed]; simp), htrimmed, List.dropLast_concat, hp]
    have hslash : ∀ t ∈ init, '/' ∉ t.toList := by
      intro t ht
      refine no_slash_of_mem_segments ((trimSegments_sublist p.segments).subset ?_)
      rw [hsegs]
      exact List.mem_append_left _ ht
    -- written out, the segments are read back with the same components
    have habove := components_ofSegments_true hslash
    rw [components_of_isAbsolute (isAbsolute_ofSegments init), ← filterMap_trimSegments,
      ← trimmedSegments_of_isAbsolute (isAbsolute_ofSegments init)] at habove
    have hslash' : ∀ t ∈ (ofSegments true init).trimmedSegments, '/' ∉ t.toList := by
      intro t ht
      rw [trimmedSegments_of_isAbsolute (isAbsolute_ofSegments init)] at ht
      exact no_slash_of_mem_segments ((trimSegments_sublist _).subset ht)
    refine .inr ⟨_, c, rfl, isAbsolute_ofSegments _, ?_⟩
    rw [components_ofSegments_true hslash', habove, hcomponents, List.filterMap_append,
      List.filterMap_cons_some hc, List.filterMap_nil, List.cons_append]

theorem components_ne_nil (hp : p.isAbsolute = true) : p.components ≠ [] := by
  rw [components_of_isAbsolute hp]
  exact List.cons_ne_nil _ _

theorem ancestorsUpTo_eq {n : Nat} (hp : p.isAbsolute = true) (hn : p.components.length ≤ n + 1) :
    ancestorsUpTo n p = p :: p.parent?.elim [] (ancestorsUpTo (n - 1)) := by
  rcases parent?_of_isAbsolute hp with ⟨hparent, -⟩ | ⟨above, c, hparent, habove, hcomponents⟩
  · cases n <;> rw [ancestorsUpTo, hparent] <;> rfl
  · have hpos := List.length_pos_iff.2 (components_ne_nil habove)
    rw [hcomponents, List.length_append, List.length_singleton] at hn
    obtain ⟨n, rfl⟩ : ∃ k, n = k + 1 := ⟨n - 1, by omega⟩
    rw [ancestorsUpTo, hparent]
    rfl

theorem forall₂_ancestorsUpTo {p q : Path} {n m : Nat} (h : Respells p q) (hn : p.components.length ≤ n + 1)
    (hm : p.components.length ≤ m + 1) :
    List.Forall₂ Respells (ancestorsUpTo n p) (ancestorsUpTo m q) := by
  have hcomponents := h.components
  rw [ancestorsUpTo_eq h.left hn, ancestorsUpTo_eq h.right (hcomponents ▸ hm)]
  refine .cons h ?_
  rcases parent?_of_isAbsolute h.left with ⟨hp, hroot⟩ | ⟨above, c, hp, habove, hc⟩ <;>
    rcases parent?_of_isAbsolute h.right with ⟨hq, hroot'⟩ | ⟨above', c', hq, habove', hc'⟩
  · rw [hp, hq]
    exact .nil
  · rw [hroot, hc'] at hcomponents
    exact absurd (List.append_eq_singleton_iff.1 hcomponents.symm) (by simp [components_ne_nil habove'])
  · rw [hroot', hc] at hcomponents
    exact absurd (List.append_eq_singleton_iff.1 hcomponents) (by simp [components_ne_nil habove])
  · rw [hc, hc'] at hcomponents
    rw [hc, List.length_append, List.length_singleton] at hn hm
    have hpos := List.length_pos_iff.2 (components_ne_nil habove)
    rw [hp, hq]
    have hlt : above.components.length < p.components.length := by
      rw [hc, List.length_append, List.length_singleton]
      omega
    exact forall₂_ancestorsUpTo ⟨habove, habove', (List.append_inj' hcomponents rfl).1⟩ (by omega)
      (by omega)
termination_by p.components.length

theorem length_splitAt_le (c : Char) (cs : List Char) : (splitAt c cs).length ≤ cs.length + 1 := by
  induction cs with
  | nil => exact Nat.le_refl 1
  | cons d cs ih =>
    rw [splitAt, List.splitOnP_cons_eq_if_modifyHead]
    rw [splitAt] at ih
    split_ifs
    · rw [List.length_cons, List.length_cons]
      omega
    · rw [List.length_modifyHead, List.length_cons]
      omega

theorem length_components_le (hp : p.isAbsolute = true) : p.components.length ≤ p.text.length + 1 := by
  obtain ⟨cs, hcs⟩ := List.head?_eq_some_iff.1 (by simpa [isAbsolute] using hp)
  have hlength : p.text.length = cs.length + 1 := by
    rw [← String.length_toList, hcs, List.length_cons]
  rw [components_of_isAbsolute hp, segments_eq_splitAt hcs, List.length_cons, hlength]
  refine Nat.succ_le_succ ((List.length_filterMap_le _ _).trans ?_)
  rw [List.length_map]
  exact length_splitAt_le '/' cs

/-- The directories above have the same components in turn. -/
theorem forall₂_ancestors (h : Respells p q) : List.Forall₂ Respells p.ancestors q.ancestors := by
  refine forall₂_ancestorsUpTo h (length_components_le h.left) ?_
  rw [h.components]
  exact length_components_le h.right

end Path

namespace Disk

open PhpStyle.Path

variable {disk : Disk} {p q cwd : Path}

/-- The same files, seen from another working directory. -/
def seenFrom (disk : Disk) (cwd : Path) : Disk :=
  { disk with cwd := cwd }

@[simp]
theorem cwd_seenFrom (disk : Disk) (cwd : Path) : (disk.seenFrom cwd).cwd = cwd :=
  rfl

theorem follow_seenFrom (disk : Disk) (cwd : Path) (start : Place) (segs : List String) :
    (disk.seenFrom cwd).follow start segs = disk.follow start segs := by
  induction segs generalizing start with
  | nil => rfl
  | cons s segs ih =>
    simp only [follow, ih]
    rfl

theorem follow_of_not_directory {start : Place} {segs : List String} (hne : segs ≠ [])
    (h : disk.isDirectoryAt start = false) : disk.follow start segs = .error .notADirectory := by
  obtain ⟨s, segs, rfl⟩ := List.exists_cons_of_ne_nil hne
  rw [follow, h]
  rfl

theorem follow_without_skipped (init : List String) {rest : List String} (hrest : rest ≠ [])
    (start : Place) : disk.follow start (init ++ rest) =
      disk.follow start (init.filter (!isSkipped ·) ++ rest) := by
  induction init generalizing start with
  | nil => rfl
  | cons s init ih =>
    rw [List.cons_append]
    cases hs : isSkipped s with
    | true =>
      rw [List.filter_cons_of_neg (by simp [hs]), ← ih, follow, hs]
      cases hstart : disk.isDirectoryAt start with
      | true => rfl
      | false =>
        rw [follow_of_not_directory (List.append_ne_nil_of_right_ne_nil _ hrest) hstart]
        rfl
    | false =>
      rw [List.filter_cons_of_pos (by simp [hs]), List.cons_append]
      simp only [follow, ih]

theorem resolve_of_isAbsolute (disk : Disk) (hp : p.isAbsolute = true) :
    disk.resolve p = disk.follow [] p.segments := by
  rw [resolve, if_neg (by simpa using text_ne_empty hp), absolute, join_of_isAbsolute _ hp]

theorem resolve_seenFrom (disk : Disk) (cwd : Path) (hp : p.isAbsolute = true) :
    (disk.seenFrom cwd).resolve p = disk.resolve p := by
  rw [resolve_of_isAbsolute _ hp, resolve_of_isAbsolute _ hp, follow_seenFrom]

/-- What is joined to two spellings of a directory is at one place. -/
theorem resolve_join (disk : Disk) (h : Respells p q) (r : Path) :
    disk.resolve (p.join r) = disk.resolve (q.join r) := by
  by_cases hr : r.isAbsolute = true
  · rw [join_of_isAbsolute p hr, join_of_isAbsolute q hr]
  · rw [Bool.not_eq_true] at hr
    obtain ⟨init, hinit, hp⟩ := segments_join h.left hr
    obtain ⟨init', hinit', hq⟩ := segments_join h.right hr
    have hne : r.segments ≠ [] := by
      rw [segments, ne_eq, List.map_eq_nil_iff]
      exact List.splitOnP_ne_nil _ _
    have hsame := h.components
    rw [components_of_isAbsolute h.left, components_of_isAbsolute h.right] at hsame
    rw [resolve_of_isAbsolute _ (isAbsolute_join h.left r), resolve_of_isAbsolute _ (isAbsolute_join h.right r),
      hinit, hinit', follow_without_skipped init hne, follow_without_skipped init' hne,
      filter_eq_map_segment, filter_eq_map_segment, hp, hq, (List.cons.inj hsame).2]

theorem isFile_of_resolve (h : (disk.seenFrom cwd).resolve q = disk.resolve p) :
    (disk.seenFrom cwd).isFile q = disk.isFile p := by
  rw [isFile, isFile, h]
  rfl

theorem readText_of_resolve (h : (disk.seenFrom cwd).resolve q = disk.resolve p) :
    (disk.seenFrom cwd).readText q = disk.readText p := by
  rw [readText, readText, h]
  rfl

end Disk

end PhpStyle
