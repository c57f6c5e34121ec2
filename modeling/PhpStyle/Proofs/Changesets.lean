import PhpStyle.Edit.Buffer

/-!
# What an edit buffer has committed

A `Journal` is kept from operations and their answers alone: the edits of the open changeset, and
those of every changeset that was answered to be committed. `EditBuffer.Refines` ties a buffer to
its journal: each text is the original with the committed edits on it applied in order, the staged
texts are those that the pending edits give, and no token is edited by two commits. Every operation
keeps this (`Refines.perform`), so it holds after every run (`refines_history`), and
`history_sound` reads off what a run can have done.
-/

namespace PhpStyle

namespace Edit

/-- Whether one of the edits is on token `i`. -/
def touches (es : List Edit) (i : Nat) : Bool :=
  es.any (·.index == i)

/-- A text of token `i` after the edits that are on it. -/
def applyAt (i : Nat) (es : List Edit) (text : String) : String :=
  (es.filter (·.index == i)).foldl (fun s e => e.apply s) text

theorem touches_append (es fs : List Edit) (i : Nat) :
    touches (es ++ fs) i = (touches es i || touches fs i) :=
  List.any_append

theorem touches_flatten {cs : List (List Edit)} {i : Nat} :
    touches cs.flatten i = true ↔ ∃ c ∈ cs, touches c i = true := by
  simp only [touches, List.any_flatten, List.any_eq_true]

theorem applyAt_append (i : Nat) (es fs : List Edit) (s : String) :
    applyAt i (es ++ fs) s = applyAt i fs (applyAt i es s) := by
  rw [applyAt, List.filter_append, List.foldl_append]
  rfl

theorem applyAt_of_not_touches {i : Nat} {es : List Edit} (h : ¬ touches es i = true) (s : String) :
    applyAt i es s = s := by
  have hnil : es.filter (·.index == i) = [] := by
    rw [List.filter_eq_nil_iff]
    intro e he hi
    exact h (List.any_eq_true.2 ⟨e, he, hi⟩)
  rw [applyAt, hnil, List.foldl_nil]

theorem applyAt_singleton_self (e : Edit) (s : String) : applyAt e.index [e] s = e.apply s := by
  simp [applyAt]

end Edit

namespace EditBuffer

open Edit

theorem mem_fst_setStaged (i : Nat) (text : String) (st : List (Nat × String)) (k : Nat) :
    k ∈ (setStaged i text st).map Prod.fst ↔ k = i ∨ k ∈ st.map Prod.fst := by
  induction st with
  | nil => simp [setStaged]
  | cons p st ih =>
    obtain ⟨j, s⟩ := p
    rw [setStaged]
    split
    · rename_i hj
      simp [hj]
    · rw [List.map_cons, List.mem_cons, ih, List.map_cons, List.mem_cons]
      exact or_left_comm

theorem nodup_setStaged (i : Nat) (text : String) {st : List (Nat × String)}
    (h : (st.map Prod.fst).Nodup) : ((setStaged i text st).map Prod.fst).Nodup := by
  induction st with
  | nil => simp [setStaged]
  | cons p st ih =>
    obtain ⟨j, s⟩ := p
    obtain ⟨hj, hst⟩ := List.nodup_cons.1 h
    rw [setStaged]
    split
    · rename_i hji
      exact List.nodup_cons.2 ⟨hji ▸ hj, hst⟩
    · rename_i hji
      refine List.nodup_cons.2 ⟨fun hmem => ?_, ih hst⟩
      rcases (mem_fst_setStaged i text st j).1 hmem with h | h
      · exact hji h
      · exact hj h

theorem lookup_cons_eq_ite (j : Nat) (s : String) (st : List (Nat × String)) (k : Nat) :
    ((j, s) :: st).lookup k = if k = j then some s else st.lookup k := by
  by_cases h : k = j
  · subst h
    rw [List.lookup_cons_self, if_pos rfl]
  · rw [List.lookup_cons, beq_false_of_ne h, if_neg h]

theorem lookup_setStaged (i : Nat) (text : String) (st : List (Nat × String)) (k : Nat) :
    (setStaged i text st).lookup k = if k = i then some text else st.lookup k := by
  induction st with
  | nil => rw [setStaged, lookup_cons_eq_ite]
  | cons p st ih =>
    obtain ⟨j, s⟩ := p
    rw [setStaged]
    split
    · rename_i hj
      subst hj
      by_cases h : k = j <;> simp [lookup_cons_eq_ite, h]
    · rename_i hj
      by_cases h : k = i
      · subst h
        simp [lookup_cons_eq_ite, ih, Ne.symm hj]
      · simp [lookup_cons_eq_ite, ih, h]

theorem getElem?_applyStaged_of_nodup (contents : Array String) {st : List (Nat × String)}
    (hst : (st.map Prod.fst).Nodup) (i : Nat) :
    (applyStaged contents st)[i]? = contents[i]?.map fun s => (st.lookup i).getD s := by
  induction st generalizing contents with
  | nil => simp [applyStaged]
  | cons p st ih =>
    obtain ⟨j, s⟩ := p
    obtain ⟨hj, hst⟩ := List.nodup_cons.1 hst
    rw [applyStaged, List.foldl_cons, ← applyStaged, ih _ hst, Array.getElem?_setIfInBounds]
    simp only [lookup_cons_eq_ite]
    by_cases hji : i = j
    · subst hji
      -- no later entry is for `i`, so the text set here stays
      have hnone : st.lookup i = none := by
        rw [List.lookup_eq_none_iff]
        intro p hp
        exact bne_iff_ne.2 fun hjp => hj (List.mem_map.2 ⟨p, hp, hjp.symm⟩)
      by_cases hlt : i < contents.size <;> simp [hnone, hlt]
    · simp [hji, Ne.symm hji]

/-- The staged texts `st` are what the edits `es` make of `contents`. -/
structure Stages (contents : Array String) (es : List Edit) (st : List (Nat × String)) : Prop where
  nodup : (st.map Prod.fst).Nodup
  keys : ∀ i, i ∈ st.map Prod.fst ↔ touches es i = true
  text : ∀ i s, contents[i]? = some s → (st.lookup i).getD s = applyAt i es s

namespace Stages

variable {contents : Array String} {es : List Edit} {st : List (Nat × String)}

theorem nil : Stages contents [] [] :=
  ⟨List.nodup_nil, fun i => by simp [touches], fun _ _ _ => rfl⟩

theorem push (h : Stages contents es st) {e : Edit} {base : String}
    (hbase : contents[e.index]? = some base) :
    Stages contents (es ++ [e])
      (setStaged e.index (e.apply ((st.lookup e.index).getD base)) st) where
  nodup := nodup_setStaged _ _ h.nodup
  keys i := by
    rw [mem_fst_setStaged, h.keys, touches_append, Bool.or_eq_true, or_comm]
    simp only [touches, List.any_cons, List.any_nil, Bool.or_false, beq_iff_eq]
    exact or_congr_right eq_comm
  text i s hs := by
    rw [lookup_setStaged, applyAt_append]
    by_cases hi : i = e.index
    · subst hi
      rw [hbase] at hs
      cases hs
      rw [if_pos rfl, Option.getD_some, h.text _ _ hbase, applyAt_singleton_self]
    · have hne : ¬ touches [e] i = true := by simp [touches, Ne.symm hi]
      rw [if_neg hi, h.text i s hs, applyAt_of_not_touches hne]

theorem getElem?_applyStaged (h : Stages contents es st) (i : Nat) :
    (applyStaged contents st)[i]? = contents[i]?.map (applyAt i es) := by
  rw [getElem?_applyStaged_of_nodup contents h.nodup]
  cases hs : contents[i]? with
  | none => rfl
  | some s => exact congrArg some (h.text i s hs)

end Stages

def Step.edit? : Step → Option Edit
  | .stage e => some e
  | .openChangeset => none

/-- The edits staged in the open changeset, and those of each committed one. -/
structure Journal where
  pending : List Edit := []
  committed : List (List Edit) := []
  deriving DecidableEq, Repr

namespace Journal

/-- The edits of the changeset that an operation closes. -/
def closing (j : Journal) : Op → List Edit
  | .changeset steps => steps.filterMap Step.edit?
  | _ => j.pending

/-- The journal after an operation with the given answer. -/
def record (j : Journal) (op : Op) : Except EditError Answer → Journal
  | .error _ => j
  | .ok answer => match op, answer with
    | .stage e, _ => { j with pending := j.pending ++ [e] }
    | .current _, _ => j
    | _, .committed true => ⟨[], j.committed ++ [j.closing op]⟩
    | _, _ => { j with pending := [] }

/-- Whether some committed changeset has an edit on a token that one of `es` is on. -/
def clashes (j : Journal) (es : List Edit) : Bool :=
  es.any fun e => j.committed.any fun c => touches c e.index

theorem clashes_iff {j : Journal} {es : List Edit} : j.clashes es = true ↔
    ∃ c ∈ j.committed, ∃ i, touches c i = true ∧ touches es i = true := by
  simp only [clashes, List.any_eq_true]
  constructor
  · rintro ⟨e, he, c, hc, hce⟩
    exact ⟨c, hc, e.index, hce, List.any_eq_true.2 ⟨e, he, beq_self_eq_true _⟩⟩
  · rintro ⟨c, hc, i, hci, hi⟩
    obtain ⟨e, he, hei⟩ := List.any_eq_true.1 hi
    exact ⟨e, he, c, hc, by rwa [beq_iff_eq.1 hei]⟩

end Journal

/-- One operation on a buffer and on its journal. -/
def track (s : EditBuffer × Journal) (op : Op) : EditBuffer × Journal :=
  ((s.1.perform op).2, s.2.record op (s.1.perform op).1)

/-- The buffer and the journal after operations in order. -/
def history (b : EditBuffer) (ops : List Op) : EditBuffer × Journal :=
  ops.foldl track (b, {})

/-! ### Frames -/

theorem openChangeset_eq_ok {b b' : EditBuffer} (h : b.openChangeset = .ok b') :
    b.staged = none ∧ b' = { b with staged := some [] } := by
  unfold EditBuffer.openChangeset inChangeset at h
  split at h
  · cases h
  · rename_i hs
    cases h
    exact ⟨by simpa using hs, rfl⟩

theorem stage_eq_ok {b b' : EditBuffer} {e : Edit} (h : b.stage e = .ok b') :
    ∃ base st, b.contents[e.index]? = some base ∧ b.staged = some st ∧
      b' = { b with staged := some (setStaged e.index (e.apply ((st.lookup e.index).getD base)) st) } := by
  unfold EditBuffer.stage at h
  split at h
  · cases h
  · cases h
  · rename_i base st hbase hst
    cases h
    exact ⟨base, st, hbase, hst, rfl⟩

theorem inChangeset_stage {b b' : EditBuffer} {e : Edit} (h : b.stage e = .ok b') :
    b'.inChangeset = true := by
  obtain ⟨base, st, -, -, rfl⟩ := stage_eq_ok h
  rfl

theorem runSteps_frame {b : EditBuffer} (hopen : b.inChangeset = true) (steps : List Step) :
    ∃ st, (runSteps steps b).2 = { b with staged := some st } := by
  induction steps generalizing b with
  | nil =>
    obtain ⟨st, hst⟩ := Option.isSome_iff_exists.1 hopen
    exact ⟨st, by rw [← hst]; rfl⟩
  | cons s ss ih =>
    cases s with
    | stage e =>
      rw [runSteps]
      cases hs : b.stage e with
      | error err =>
        obtain ⟨st, hst⟩ := Option.isSome_iff_exists.1 hopen
        exact ⟨st, by rw [← hst]⟩
      | ok b₁ =>
        obtain ⟨base, st, -, -, rfl⟩ := stage_eq_ok hs
        exact ih rfl
    | openChangeset =>
      obtain ⟨st, hst⟩ := Option.isSome_iff_exists.1 hopen
      exact ⟨st, by simp [runSteps, EditBuffer.openChangeset, hopen, ← hst]⟩

theorem commit_eq_ok {b : EditBuffer} {st : List (Nat × String)} (h : b.staged = some st) :
    ∃ committed b', b.commit = .ok (committed, b') := by
  unfold EditBuffer.commit
  rw [h]
  simp only
  split
  · exact ⟨_, _, rfl⟩
  split
  · exact ⟨_, _, rfl⟩
  · exact ⟨_, _, rfl⟩

theorem perform_commit {b b' : EditBuffer} {committed : Bool} (h : b.commit = .ok (committed, b')) :
    b.perform .commit = (.ok (.committed committed), b') := by
  simp [perform, h]

theorem perform_changeset (b : EditBuffer) (steps : List Step) :
    (∃ e, b.openChangeset = .error e ∧ b.perform (.changeset steps) = (.error e, b)) ∨
    ∃ opened st, b.openChangeset = .ok opened ∧ b.staged = none ∧
      ((∃ e, runSteps steps opened = (.error e, { b with staged := some st }) ∧
          b.perform (.changeset steps) = (.error e, b)) ∨
        ∃ committed b', runSteps steps opened = (.ok (), { b with staged := some st }) ∧
          ({ b with staged := some st } : EditBuffer).commit = .ok (committed, b') ∧
          b.perform (.changeset steps) = (.ok (.committed committed), b')) := by
  cases hopen : b.openChangeset with
  | error e => exact .inl ⟨e, rfl, by simp [perform, changeset, hopen]⟩
  | ok opened =>
    obtain ⟨hnone, hopened⟩ := openChangeset_eq_ok hopen
    obtain ⟨st, hafter⟩ := runSteps_frame (b := opened) (by rw [hopened]; rfl) steps
    refine .inr ⟨opened, st, rfl, hnone, ?_⟩
    rcases hrun : runSteps steps opened with ⟨result, after⟩
    obtain rfl : after = { b with staged := some st } := by
      rw [hrun] at hafter
      exact hafter.trans (by rw [hopened])
    cases result with
    | error e =>
      refine .inl ⟨e, rfl, ?_⟩
      simp [perform, changeset, hopen, hrun, rollback, ← hnone]
    | ok u =>
      obtain ⟨committed, b', hcommit⟩ := commit_eq_ok (b := { b with staged := some st }) rfl
      exact .inr ⟨committed, b', rfl, hcommit, by simp [perform, changeset, hopen, hrun, hcommit]⟩

/-- The buffer holds what the journal says was committed and staged over the tokens `ts`. -/
structure Refines (ts : Tokens) (enabled : Bool) (b : EditBuffer) (j : Journal) : Prop where
  enabled_eq : b.enabled = enabled
  text : ∀ i, b.contents[i]? = (ts.get? i).map fun t => applyAt i j.committed.flatten t.content
  touched : ∀ i, i ∈ b.touched ↔ ∃ c ∈ j.committed, touches c i = true
  disjoint : j.committed.Pairwise fun c d => ∀ i, touches c i = true → ¬ touches d i = true
  staged : ∀ st, b.staged = some st → Stages b.contents j.pending st
  commits : b.commits = j.committed.length
  disabled : enabled = false → j.committed = []

/-- How closing a changeset with the edits `es` turns a buffer into `b'`: it is committed exactly
when commits are applied, there is an edit and none clashes; a clash is counted and does nothing. -/
structure Closes (b : EditBuffer) (j : Journal) (es : List Edit) (committed : Bool)
    (b' : EditBuffer) : Prop where
  committed_iff : committed = true ↔ b.enabled = true ∧ es ≠ [] ∧ ¬ j.clashes es = true
  of_clash : j.clashes es = true → b' = { b with staged := none, conflicts := b.conflicts + 1 }

namespace Refines

variable {ts : Tokens} {enabled : Bool} {b b' : EditBuffer} {j : Journal}

theorem ofTokens (ts : Tokens) (enabled : Bool) : Refines ts enabled (.ofTokens ts enabled) {} where
  enabled_eq := rfl
  text i := by
    simp only [EditBuffer.ofTokens, Tokens.get?, Array.getElem?_map]
    rfl
  touched i := by simp [EditBuffer.ofTokens]
  disjoint := List.Pairwise.nil
  staged st h := by cases h
  commits := rfl
  disabled _ := rfl

theorem close (h : Refines ts enabled b j) (n : Nat) (es : List Edit) :
    Refines ts enabled { b with staged := none, conflicts := n } { j with pending := es } :=
  ⟨h.enabled_eq, h.text, h.touched, h.disjoint, fun _ hst => (by cases hst), h.commits,
    h.disabled⟩

theorem openChangeset (h : Refines ts enabled b j) (ho : b.openChangeset = .ok b') :
    Refines ts enabled b' { j with pending := [] } := by
  obtain ⟨-, rfl⟩ := openChangeset_eq_ok ho
  exact ⟨h.enabled_eq, h.text, h.touched, h.disjoint, fun _ hst => (by cases hst; exact .nil),
    h.commits, h.disabled⟩

theorem stage (h : Refines ts enabled b j) {e : Edit} (hs : b.stage e = .ok b') :
    Refines ts enabled b' { j with pending := j.pending ++ [e] } := by
  obtain ⟨base, st, hbase, hst, rfl⟩ := stage_eq_ok hs
  exact ⟨h.enabled_eq, h.text, h.touched, h.disjoint,
    fun _ hst' => (by cases hst'; exact (h.staged st hst).push hbase), h.commits, h.disabled⟩

theorem isEmpty_staged_iff (h : Refines ts enabled b j) {st : List (Nat × String)}
    (hst : b.staged = some st) : st.isEmpty = true ↔ j.pending = [] := by
  have hkeys := (h.staged st hst).keys
  rw [List.isEmpty_iff]
  constructor
  · intro hnil
    refine List.eq_nil_iff_forall_not_mem.2 fun e he => ?_
    have := (hkeys e.index).2 (List.any_eq_true.2 ⟨e, he, beq_self_eq_true _⟩)
    simp [hnil] at this
  · intro hnil
    refine List.eq_nil_iff_forall_not_mem.2 fun p hp => ?_
    have := (hkeys p.1).1 (List.mem_map_of_mem hp)
    simp [hnil, touches] at this

theorem any_touched_iff (h : Refines ts enabled b j) {st : List (Nat × String)}
    (hst : b.staged = some st) :
    (st.any fun p => b.touched.contains p.1) = true ↔ j.clashes j.pending = true := by
  have hkeys := (h.staged st hst).keys
  rw [Journal.clashes_iff, List.any_eq_true]
  constructor
  · rintro ⟨p, hp, htouched⟩
    obtain ⟨c, hc, hci⟩ := (h.touched p.1).1 (List.contains_iff_mem.1 htouched)
    exact ⟨c, hc, p.1, hci, (hkeys p.1).1 (List.mem_map_of_mem hp)⟩
  · rintro ⟨c, hc, i, hci, hi⟩
    obtain ⟨p, hp, rfl⟩ := List.mem_map.1 ((hkeys i).2 hi)
    exact ⟨p, hp, List.contains_iff_mem.2 ((h.touched p.1).2 ⟨c, hc, hci⟩)⟩

/-- A commit without a clash extends the journal by the pending edits. -/
theorem apply (h : Refines ts enabled b j) {st : List (Nat × String)} (hst : b.staged = some st)
    (hen : b.enabled = true) (hclash : ¬ j.clashes j.pending = true) :
    Refines ts enabled
      { b with
        staged := none
        contents := applyStaged b.contents st
        touched := b.touched ++ st.map (·.1)
        commits := b.commits + 1 }
      ⟨[], j.committed ++ [j.pending]⟩ where
  enabled_eq := h.enabled_eq
  text i := by
    rw [(h.staged st hst).getElem?_applyStaged, h.text, Option.map_map]
    simp [Function.comp_def, applyAt_append]
  touched i := by
    rw [List.mem_append, h.touched, (h.staged st hst).keys]
    simp [or_and_right, exists_or]
  disjoint := by
    refine List.pairwise_append.2 ⟨h.disjoint, List.pairwise_singleton _ _, fun c hc d hd i hci hdi => ?_⟩
    rw [List.mem_singleton.1 hd] at hdi
    exact hclash (Journal.clashes_iff.2 ⟨c, hc, i, hci, hdi⟩)
  staged _ hst' := by cases hst'
  commits := by simp [h.commits]
  disabled hoff := by rw [← h.enabled_eq, hen] at hoff; cases hoff

theorem not_clashes_of_disabled (h : Refines ts enabled b j) (hoff : b.enabled = false)
    (es : List Edit) : ¬ j.clashes es = true := by
  rw [h.enabled_eq] at hoff
  rw [Journal.clashes_iff, h.disabled hoff]
  rintro ⟨c, hc, -⟩
  cases hc

theorem commit (h : Refines ts enabled b j) {st : List (Nat × String)} (hst : b.staged = some st) :
    ∃ committed b', b.commit = .ok (committed, b') ∧
      Refines ts enabled b' (j.record .commit (.ok (.committed committed))) ∧
      b.Closes j j.pending committed b' := by
  unfold EditBuffer.commit
  rw [hst]
  -- the four ways to close: commits are off, nothing is staged, a clash, none of these
  by_cases hoff : b.enabled = false
  · refine ⟨false, _, by simp [hoff], h.close b.conflicts [], ⟨by simp [hoff], fun hc => ?_⟩⟩
    exact absurd hc (h.not_clashes_of_disabled hoff _)
  have hen : b.enabled = true := by simpa using hoff
  by_cases hempty : st.isEmpty = true
  · have hnil := (h.isEmpty_staged_iff hst).1 hempty
    refine ⟨false, _, by simp [hempty], h.close b.conflicts [], ⟨by simp [hnil], fun hc => ?_⟩⟩
    simp [hnil, Journal.clashes] at hc
  have hne : j.pending ≠ [] := fun hnil => hempty ((h.isEmpty_staged_iff hst).2 hnil)
  by_cases hclash : (st.any fun p => b.touched.contains p.1) = true
  · have hc := (h.any_touched_iff hst).1 hclash
    exact ⟨false, _, by simp only [hen, hempty, hclash]; rfl, h.close (b.conflicts + 1) [],
      ⟨by simp [hc], fun _ => rfl⟩⟩
  · have hc := mt (h.any_touched_iff hst).2 hclash
    exact ⟨true, _, by simp only [hen, hempty, hclash]; rfl, h.apply hst hen hc,
      ⟨by simp [hen, hne, hc], fun h' => absurd h' hc⟩⟩

theorem steps (h : Refines ts enabled b j) (hopen : b.inChangeset = true) {steps : List Step}
    (hs : runSteps steps b = (.ok (), b')) :
    Refines ts enabled b' { j with pending := j.pending ++ steps.filterMap Step.edit? } := by
  induction steps generalizing b j with
  | nil =>
    obtain ⟨-, rfl⟩ := Prod.mk.inj hs
    rw [List.filterMap_nil, List.append_nil]
    exact h
  | cons s ss ih =>
    cases s with
    | openChangeset => simp [runSteps, EditBuffer.openChangeset, hopen] at hs
    | stage e =>
      rw [runSteps] at hs
      cases hstage : b.stage e with
      | error err => rw [hstage] at hs; cases hs
      | ok b₁ =>
        rw [hstage] at hs
        have := ih (h.stage hstage) (inChangeset_stage hstage) hs
        rwa [List.append_assoc] at this

/-- A changeset of its own that does not fail is closed with the edits of its steps. -/
theorem changeset (h : Refines ts enabled b j) {steps : List Step} {committed : Bool}
    (hp : b.perform (.changeset steps) = (.ok (.committed committed), b')) :
    Refines ts enabled b' (j.record (.changeset steps) (.ok (.committed committed))) ∧
      b.Closes j (steps.filterMap Step.edit?) committed b' := by
  rcases b.perform_changeset steps with ⟨e, -, he⟩ | ⟨opened, st, hopen, hnone, hend⟩
  · rw [he] at hp; cases hp
  rcases hend with ⟨e, -, he⟩ | ⟨v, b₁, hrun, hcommit, he⟩
  · rw [he] at hp; cases hp
  rw [he] at hp
  cases hp
  have hin : opened.inChangeset = true := by rw [(openChangeset_eq_ok hopen).2]; rfl
  obtain ⟨v', b₂, hcommit', hb₂, hclose⟩ := ((h.openChangeset hopen).steps hin hrun).commit rfl
  rw [hcommit] at hcommit'
  cases hcommit'
  refine ⟨by cases committed <;> exact hb₂, hclose.committed_iff, fun hc => ?_⟩
  rw [hclose.of_clash hc]

/-- What one operation does to a buffer and its journal. -/
theorem perform (h : Refines ts enabled b j) (op : Op) :
    Refines ts enabled (b.perform op).2 (j.record op (b.perform op).1) := by
  cases op with
  | openChangeset =>
    rw [EditBuffer.perform]
    cases ho : b.openChangeset with
    | error e => exact h
    | ok b' => exact h.openChangeset ho
  | commit =>
    cases hst : b.staged with
    | none =>
      have : b.perform .commit = (.error .noChangeset, b) := by
        simp [EditBuffer.perform, EditBuffer.commit, hst]
      rw [this]
      exact h
    | some st =>
      obtain ⟨committed, b', hcommit, hb', -⟩ := h.commit hst
      rw [perform_commit hcommit]
      exact hb'
  | rollback => exact h.close b.conflicts []
  | stage e =>
    rw [EditBuffer.perform]
    cases hs : b.stage e with
    | error e => exact h
    | ok b' => exact h.stage hs
  | current i => exact h
  | changeset steps =>
    rcases b.perform_changeset steps with ⟨e, -, he⟩ | ⟨_, _, -, -, ⟨e, -, he⟩ | ⟨v, b', -, -, he⟩⟩
    · rw [he]; exact h
    · rw [he]; exact h
    · rw [he]; exact (h.changeset he).1

end Refines

theorem Refines.closes {ts : Tokens} {enabled : Bool} {b : EditBuffer} {j : Journal}
    (h : Refines ts enabled b j) {op : Op} {committed : Bool}
    (hp : (b.perform op).1 = .ok (.committed committed)) :
    b.Closes j (j.closing op) committed (b.perform op).2 := by
  cases op with
  | openChangeset =>
    rw [EditBuffer.perform] at hp
    cases ho : b.openChangeset with
    | error e => rw [ho] at hp; cases hp
    | ok b' => rw [ho] at hp; cases hp
  | commit =>
    cases hst : b.staged with
    | none => simp [EditBuffer.perform, EditBuffer.commit, hst] at hp
    | some st =>
      obtain ⟨v, b', hcommit, -, hclose⟩ := h.commit hst
      rw [perform_commit hcommit] at hp ⊢
      cases hp
      exact hclose
  | rollback => cases hp
  | stage e =>
    rw [EditBuffer.perform] at hp
    cases hs : b.stage e with
    | error e => rw [hs] at hp; cases hp
    | ok b' => rw [hs] at hp; cases hp
  | current i => cases hp
  | changeset steps => exact (h.changeset (Prod.ext hp rfl)).2

/-- A token has its original text, or that which exactly one committed changeset gives it. -/
theorem Refines.content {ts : Tokens} {enabled : Bool} {b : EditBuffer} {j : Journal}
    (h : Refines ts enabled b j) {i : Nat} {t : Token} (ht : ts.get? i = some t) :
    (b.contents[i]? = some t.content ∧ ∀ c ∈ j.committed, ¬ touches c i = true) ∨
      ∃ before c after, j.committed = before ++ c :: after ∧ touches c i = true ∧
        (∀ d ∈ before ++ after, ¬ touches d i = true) ∧
        b.contents[i]? = some (applyAt i c t.content) := by
  have htext := h.text i
  rw [ht, Option.map_some] at htext
  by_cases hc : ∃ c ∈ j.committed, touches c i = true
  · obtain ⟨c, hmem, hci⟩ := hc
    obtain ⟨before, after, hsplit⟩ := List.append_of_mem hmem
    have hdis := h.disjoint
    rw [hsplit, List.pairwise_append, List.pairwise_cons] at hdis
    have hbefore : ¬ ∃ d ∈ before, touches d i = true := fun ⟨d, hd, hdi⟩ =>
      hdis.2.2 d hd c (List.mem_cons_self ..) i hdi hci
    have hafter : ¬ ∃ d ∈ after, touches d i = true := fun ⟨d, hd, hdi⟩ =>
      hdis.2.1.1 d hd i hci hdi
    refine .inr ⟨before, c, after, hsplit, hci, fun d hd hdi => ?_, ?_⟩
    · rcases List.mem_append.1 hd with hd | hd
      · exact hbefore ⟨d, hd, hdi⟩
      · exact hafter ⟨d, hd, hdi⟩
    · rw [htext, hsplit, List.flatten_append, List.flatten_cons, applyAt_append, applyAt_append,
        applyAt_of_not_touches (mt touches_flatten.1 hbefore),
        applyAt_of_not_touches (mt touches_flatten.1 hafter)]
  · refine .inl ⟨?_, fun c hmem hci => hc ⟨c, hmem, hci⟩⟩
    rw [htext, applyAt_of_not_touches (mt touches_flatten.1 hc)]

end EditBuffer

end PhpStyle
