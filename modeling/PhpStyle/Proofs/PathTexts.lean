import Mathlib.Data.List.TakeWhile
import Mathlib.Tactic.SplitIfs
import PhpStyle.Path

/-!
# Paths and their texts

The components of a path are read off the segments between its slashes (`steps`). So those of two
texts with a slash in between are those of the first and then those of the second
(`components_append`, `components_join`), a path written as names has these for its components
(`components_ofSegments`), what follows one path in another has the names behind the components of
the first (`components_of_relativeTo?`), and a file name is its stem with its extension behind it
(`splitName_append`).
-/

namespace PhpStyle

open Text

theorem Text.not_mem_of_mem_splitAt {c : Char} {cs piece : List Char} (h : piece ∈ splitAt c cs) :
    c ∉ piece := by
  induction cs generalizing piece with
  | nil =>
    obtain rfl := List.mem_singleton.1 h
    exact List.not_mem_nil
  | cons d cs ih =>
    rw [splitAt, List.splitOnP_cons_eq_if_modifyHead] at h
    split at h
    · rcases List.mem_cons.1 h with rfl | h
      · exact List.not_mem_nil
      · exact ih h
    · rename_i hd
      obtain ⟨first, rest, hpieces⟩ := List.exists_cons_of_ne_nil (List.splitOnP_ne_nil (· == c) cs)
      have ih' : ∀ piece ∈ first :: rest, c ∉ piece := by
        rw [← hpieces]
        exact fun piece hmem => ih hmem
      rw [hpieces, List.modifyHead_cons] at h
      rcases List.mem_cons.1 h with rfl | h
      · have hne : c ≠ d := fun heq => hd (by simp [heq])
        simpa [hne] using ih' first List.mem_cons_self
      · exact ih' piece (List.mem_cons_of_mem _ h)

namespace Path

variable {p q : Path} {n : String} {ns : List String}

/-- What stands between slashes as a component with a name. -/
structure IsName (n : String) : Prop where
  ne_empty : n ≠ ""
  ne_current : n ≠ "."
  ne_parent : n ≠ ".."
  no_slash : '/' ∉ n.toList

theorem ofSegment?_of_isName (h : IsName n) : ofSegment? n = some (.normal n) := by
  simp [ofSegment?, isSkipped, h.ne_empty, h.ne_current, h.ne_parent]

theorem eq_of_ofSegment? {s : String} (h : ofSegment? s = some (.normal n)) :
    s = n ∧ n ≠ "" ∧ n ≠ "." ∧ n ≠ ".." := by
  unfold ofSegment? at h
  split_ifs at h with hskipped hparent
  · cases h
  · cases h
    simp only [isSkipped, Bool.or_eq_true, beq_iff_eq, not_or] at hskipped hparent
    exact ⟨rfl, hskipped.1, hskipped.2, hparent⟩

/-- The name of a component that has one. -/
def Component.name? : Component → Option String
  | .normal n => some n
  | _ => none

theorem names_eq (p : Path) : p.names = p.components.filterMap Component.name? :=
  rfl

/-- The components between the slashes of a text. -/
def steps (cs : List Char) : List Component :=
  ((splitAt '/' cs).map String.ofList).filterMap ofSegment?

theorem steps_append (cs ds : List Char) : steps (cs ++ '/' :: ds) = steps cs ++ steps ds := by
  have hsplit : splitAt '/' (cs ++ '/' :: ds) = splitAt '/' cs ++ splitAt '/' ds :=
    List.splitOnP_append_cons cs ds rfl
  rw [steps, hsplit, List.map_append, List.filterMap_append]
  rfl

theorem steps_slash (ds : List Char) : steps ('/' :: ds) = steps ds :=
  steps_append [] ds

theorem isName_of_mem_steps {cs : List Char} (h : .normal n ∈ steps cs) : IsName n := by
  obtain ⟨s, hs, hsegment⟩ := List.mem_filterMap.1 h
  obtain ⟨piece, hpiece, rfl⟩ := List.mem_map.1 hs
  obtain ⟨rfl, hempty, hcurrent, hparent⟩ := eq_of_ofSegment? hsegment
  exact ⟨hempty, hcurrent, hparent, by simpa using not_mem_of_mem_splitAt hpiece⟩

/-- What comes before the components between the slashes: the root, or a `.` at the start. -/
def lead (cs : List Char) : List Component :=
  if cs.head? = some '/' then [.root]
  else if (splitAt '/' cs).head? = some ['.'] then [.current] else []

theorem text_ne_empty (hp : p.isAbsolute = true) : p.text ≠ "" := by
  intro hempty
  simp [isAbsolute, hempty] at hp

theorem components_of_isAbsolute (hp : p.isAbsolute = true) :
    p.components = .root :: p.segments.filterMap ofSegment? := by
  rw [components, if_pos hp]
  rfl

theorem components_eq (p : Path) : p.components = lead p.text.toList ++ steps p.text.toList := by
  by_cases habsolute : p.isAbsolute = true
  · obtain ⟨cs, hcs⟩ := List.head?_eq_some_iff.1 (by simpa [isAbsolute] using habsolute)
    have hsegments : p.segments.filterMap ofSegment? = steps p.text.toList := by
      rw [hcs, steps_slash, segments, if_pos habsolute, hcs]
      rfl
    rw [components_of_isAbsolute habsolute, hsegments, lead, hcs]
    rfl
  · have hsegments : p.segments = (splitAt '/' p.text.toList).map String.ofList := by
      rw [segments, if_neg habsolute]
    have hhead : ¬ p.text.toList.head? = some '/' := by simpa [isAbsolute] using habsolute
    have hcurrent : p.startsAtCurrent = true ↔ (splitAt '/' p.text.toList).head? = some ['.'] := by
      rw [startsAtCurrent, hsegments, List.head?_map]
      cases (splitAt '/' p.text.toList).head? with
      | none => simp
      | some cs => simp [habsolute, ← String.toList_inj]
    rw [components, if_neg habsolute, hsegments, lead, if_neg hhead]
    simp only [hcurrent]
    rfl

theorem filterMap_name?_lead (cs : List Char) : (lead cs).filterMap Component.name? = [] := by
  unfold lead
  split_ifs <;> rfl

theorem names_eq_steps (p : Path) : p.names = (steps p.text.toList).filterMap Component.name? := by
  rw [names_eq, components_eq, List.filterMap_append, filterMap_name?_lead, List.nil_append]

theorem isName_of_mem_names (h : n ∈ p.names) : IsName n := by
  rw [names_eq_steps, List.mem_filterMap] at h
  obtain ⟨c, hc, hn⟩ := h
  cases c <;> cases hn
  exact isName_of_mem_steps hc

theorem lead_append {cs : List Char} (hcs : cs ≠ []) (ds : List Char) :
    lead (cs ++ '/' :: ds) = lead cs := by
  have hsplit : splitAt '/' (cs ++ '/' :: ds) = splitAt '/' cs ++ splitAt '/' ds :=
    List.splitOnP_append_cons cs ds rfl
  obtain ⟨first, rest, hpieces⟩ := List.exists_cons_of_ne_nil (List.splitOnP_ne_nil (· == '/') cs)
  obtain ⟨c, cs, rfl⟩ := List.exists_cons_of_ne_nil hcs
  rw [lead, lead, hsplit, splitAt, hpieces]
  rfl

/-- The components of a text, a slash, and another text. -/
theorem components_append (hp : p.text ≠ "") (t : String) :
    (⟨p.text ++ "/" ++ t⟩ : Path).components = p.components ++ steps t.toList := by
  have htext : (p.text ++ "/" ++ t).toList = p.text.toList ++ '/' :: t.toList := by
    simp [String.toList_append]
  have hne : p.text.toList ≠ [] := fun h => hp (String.toList_inj.1 h)
  rw [components_eq, components_eq p, htext, lead_append hne, steps_append, List.append_assoc]

theorem toList_join (hp : p.text ≠ "") (hq : q.isAbsolute = false) :
    ∃ cs, (p.join q).text.toList = cs ++ '/' :: q.text.toList ∧
      (p.text.toList = cs ∨ p.text.toList = cs ++ ['/']) := by
  rw [join, hq, if_neg (by simpa using hp)]
  split_ifs with hlast
  · obtain ⟨cs, hcs⟩ := List.getLast?_eq_some_iff.1 (by simpa using hlast)
    refine ⟨cs, ?_, .inr hcs⟩
    rw [String.toList_append, hcs, List.append_assoc]
    rfl
  · exact ⟨p.text.toList, by simp [String.toList_append], .inl rfl⟩

/-- The components of a relative path as seen from another path. -/
theorem components_join (hp : p.text ≠ "") (hq : q.isAbsolute = false) :
    (p.join q).components = p.components ++ steps q.text.toList := by
  obtain ⟨cs, hjoin, hcs | hcs⟩ := toList_join hp hq
  · have hne : cs ≠ [] := fun h => hp (String.toList_inj.1 (hcs.trans h))
    rw [components_eq, components_eq p, hjoin, hcs, lead_append hne, steps_append, List.append_assoc]
  · -- the slash at the end of `p` is the one in between
    have hlead : lead (cs ++ '/' :: q.text.toList) = lead (cs ++ ['/']) := by
      cases cs with
      | nil => rfl
      | cons c cs => rw [lead_append (List.cons_ne_nil c cs), lead_append (List.cons_ne_nil c cs)]
    have hend : steps (cs ++ ['/']) = steps cs := by
      rw [steps_append]
      exact List.append_nil _
    rw [components_eq, components_eq p, hjoin, hcs, hlead, steps_append, hend, List.append_assoc]

/-! ### Paths of names -/

theorem toList_ofSegments (ns : List String) :
    (ofSegments false ns).text.toList = ['/'].intercalate (ns.map String.toList) := by
  rw [ofSegments, if_neg Bool.false_ne_true, String.toList_append, String.toList_intercalate]
  rfl

/-- Segments with slashes in between are read as these segments. -/
theorem steps_ofSegments_of_no_slash {segs : List String} (h : ∀ s ∈ segs, '/' ∉ s.toList) :
    steps (ofSegments false segs).text.toList = segs.filterMap ofSegment? := by
  cases segs with
  | nil => rfl
  | cons s segs =>
    have hsplit : splitAt '/' (['/'].intercalate ((s :: segs).map String.toList)) =
        (s :: segs).map String.toList :=
      List.splitOn_intercalate '/' (List.forall_mem_map.2 h) (List.cons_ne_nil _ _)
    have hsegments : ((s :: segs).map String.toList).map String.ofList = s :: segs := by
      rw [List.map_map]
      exact (List.map_congr_left fun s _ => String.ofList_toList).trans (List.map_id _)
    rw [toList_ofSegments, steps, hsplit, hsegments]

theorem filterMap_ofSegment?_names (h : ∀ n ∈ ns, IsName n) :
    ns.filterMap ofSegment? = ns.map .normal := by
  induction ns with
  | nil => rfl
  | cons n ns ih =>
    obtain ⟨hn, hns⟩ := List.forall_mem_cons.1 h
    rw [List.filterMap_cons_some (ofSegment?_of_isName hn), ih hns, List.map_cons]

theorem steps_ofSegments (h : ∀ n ∈ ns, IsName n) :
    steps (ofSegments false ns).text.toList = ns.map .normal := by
  rw [steps_ofSegments_of_no_slash fun n hn => (h n hn).no_slash, filterMap_ofSegment?_names h]

theorem lead_ofSegments (h : ∀ n ∈ ns, IsName n) : lead (ofSegments false ns).text.toList = [] := by
  cases ns with
  | nil => rfl
  | cons n ns =>
    obtain ⟨hn, hns⟩ := List.forall_mem_cons.1 h
    have hne : n.toList ≠ [] := fun h => hn.ne_empty (String.toList_inj.1 h)
    have hfirst : lead n.toList = [] := by
      have hslash : ¬ n.toList.head? = some '/' := fun h => hn.no_slash (List.mem_of_head? h)
      have hcurrent : n.toList ≠ ['.'] := fun h => hn.ne_current (String.toList_inj.1 h)
      have hsplit : splitAt '/' n.toList = [n.toList] := List.splitOn_eq_singleton hn.no_slash
      rw [lead, if_neg hslash, hsplit, if_neg (by simpa using hcurrent)]
    rw [toList_ofSegments, List.map_cons]
    cases ns with
    | nil => rwa [List.map_nil, List.intercalate_singleton]
    | cons n' ns =>
      rw [List.map_cons, List.intercalate_cons_cons, List.append_assoc, List.singleton_append,
        lead_append hne, hfirst]

/-- A path written as names has these as its components. -/
theorem components_ofSegments (h : ∀ n ∈ ns, IsName n) :
    (ofSegments false ns).components = ns.map .normal := by
  rw [components_eq, lead_ofSegments h, steps_ofSegments h, List.nil_append]

/-- A path of names as seen from another one. -/
theorem components_join_ofSegments {dir : List String} (hdir : ∀ n ∈ dir, IsName n)
    (hns : ∀ n ∈ ns, IsName n) :
    ((ofSegments false dir).join (ofSegments false ns)).components = (dir ++ ns).map .normal := by
  have hrelative : (ofSegments false ns).isAbsolute = false := by
    by_contra habsolute
    have hlead := lead_ofSegments hns
    rw [lead, if_pos (by simpa [isAbsolute] using habsolute)] at hlead
    cases hlead
  have hcomponents := components_ofSegments hdir
  by_cases hempty : (ofSegments false dir).text = ""
  · have hnil : dir = [] := by
      rw [components_eq, hempty] at hcomponents
      exact List.map_eq_nil_iff.1 hcomponents.symm
    rw [join, hempty, if_pos (by simp), components_ofSegments hns, hnil, List.nil_append]
  · rw [components_join hempty hrelative, hcomponents, steps_ofSegments hns, List.map_append]

theorem filterMap_dropWhile_isSkipped (segs : List String) :
    (segs.dropWhile isSkipped).filterMap ofSegment? = segs.filterMap ofSegment? := by
  induction segs with
  | nil => rfl
  | cons s segs ih =>
    rw [List.dropWhile_cons]
    split_ifs with hs
    · have hnone : ofSegment? s = none := by rw [ofSegment?, if_pos hs]
      rw [ih, List.filterMap_cons_none hnone]
    · rfl

theorem filterMap_trimSegments (segs : List String) :
    (trimSegments segs).filterMap ofSegment? = segs.filterMap ofSegment? := by
  rw [trimSegments, List.filterMap_reverse, filterMap_dropWhile_isSkipped, List.filterMap_reverse,
    List.reverse_reverse]

theorem filterMap_dropComponents (k : Nat) (segs : List String) :
    (dropComponents k segs).filterMap ofSegment? = (segs.filterMap ofSegment?).drop k := by
  induction k generalizing segs with
  | zero => exact filterMap_dropWhile_isSkipped segs
  | succ k ih =>
    rw [dropComponents, ih, ← filterMap_dropWhile_isSkipped segs]
    have hhead := List.head?_dropWhile_not isSkipped segs
    cases hrest : segs.dropWhile isSkipped with
    | nil => simp
    | cons s rest =>
      rw [hrest] at hhead
      obtain ⟨c, hc⟩ : ∃ c, ofSegment? s = some c := by
        rw [ofSegment?, if_neg (by simpa using hhead)]
        split_ifs <;> exact ⟨_, rfl⟩
      rw [List.tail_cons, List.filterMap_cons_some hc, List.drop_succ_cons]

theorem dropComponents_sublist (k : Nat) (segs : List String) : (dropComponents k segs).Sublist segs := by
  induction k generalizing segs with
  | zero => exact List.dropWhile_sublist _
  | succ k ih => exact (ih _).trans ((List.tail_sublist _).trans (List.dropWhile_sublist _))

theorem trimSegments_sublist (segs : List String) : (trimSegments segs).Sublist segs := by
  rw [trimSegments, ← List.reverse_sublist, List.reverse_reverse]
  exact List.dropWhile_sublist _

theorem no_slash_of_mem_segments {s : String} (h : s ∈ p.segments) : '/' ∉ s.toList := by
  obtain ⟨piece, hpiece, rfl⟩ := List.mem_map.1 h
  simpa using not_mem_of_mem_splitAt hpiece

/-- What follows one absolute path in another. -/
theorem components_of_relativeTo? {base : Path} (hbase : base.isAbsolute = true)
    (hp : p.isAbsolute = true) (h : p.relativeTo? base = some q) :
    ∃ below, p.components = base.components ++ below ∧ q.names = below.filterMap Component.name? := by
  unfold relativeTo? at h
  split_ifs at h with hstarts
  obtain ⟨below, hbelow⟩ := List.isPrefixOf_iff_prefix.1 hstarts
  refine ⟨below, hbelow.symm, ?_⟩
  rw [components_of_isAbsolute hbase] at h hbelow
  obtain hsegments : base.segments.filterMap ofSegment? ++ below = p.segments.filterMap ofSegment? :=
    (List.cons.inj (hbelow.trans (components_of_isAbsolute hp))).2
  generalize base.segments.filterMap ofSegment? = bs at *
  cases h
  have hslash : ∀ s ∈ trimSegments (dropComponents bs.length p.segments), '/' ∉ s.toList := fun s hs =>
    no_slash_of_mem_segments ((dropComponents_sublist _ _).subset ((trimSegments_sublist _).subset hs))
  rw [names_eq_steps, steps_ofSegments_of_no_slash hslash, filterMap_trimSegments,
    filterMap_dropComponents, ← hsegments, List.drop_left]

/-- A file name is its stem and, behind a point, its extension. -/
theorem splitName_append (name : String) :
    (splitName name).1 ++ ((splitName name).2.elim "" ("." ++ ·)) = name := by
  unfold splitName
  simp only
  split_ifs with hwhole
  · simp
  · simp only [Bool.or_eq_true, decide_eq_true_eq, not_or] at hwhole
    -- read from the end, the point stands behind the extension
    generalize hext : name.toList.reverse.takeWhile (· ≠ '.') = ext at hwhole ⊢
    obtain ⟨c, stem, hstem⟩ : ∃ c stem, name.toList.reverse.dropWhile (· ≠ '.') = c :: stem := by
      refine List.exists_cons_of_ne_nil fun hnil => hwhole.1 ?_
      have hparts := name.toList.reverse.takeWhile_append_dropWhile (p := (· ≠ '.'))
      rw [hnil, hext, List.append_nil] at hparts
      rw [hparts, List.reverse_reverse]
    have hpoint : c = '.' := by
      have hhead := List.head?_dropWhile_not (· ≠ '.') name.toList.reverse
      rw [hstem] at hhead
      simpa using hhead
    have hparts : name.toList = stem.reverse ++ '.' :: ext.reverse := by
      have hparts := name.toList.reverse.takeWhile_append_dropWhile (p := (· ≠ '.'))
      rw [hext, hstem, hpoint] at hparts
      have hreverse := congrArg List.reverse hparts
      rw [List.reverse_reverse, List.reverse_append, List.reverse_cons, List.append_assoc] at hreverse
      exact hreverse.symm
    have htake : name.toList.take (name.toList.length - ext.reverse.length - 1) = stem.reverse := by
      rw [hparts]
      refine List.take_left' ?_
      simp only [List.length_append, List.length_cons, List.length_reverse]
      omega
    rw [htake]
    refine String.toList_inj.1 ?_
    simp only [Option.elim_some, String.toList_append, String.toList_ofList, hparts]
    rfl

end Path

end PhpStyle
