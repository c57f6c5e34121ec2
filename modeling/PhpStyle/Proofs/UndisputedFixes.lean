import PhpStyle.Proofs.CommittedFixes
import PhpStyle.Proofs.FixAccounts

/-!
# Fixes that do not meet

`Settled ts b cs` says that the changesets `cs` are committed in `b` and that none was dropped for a
conflict. A changeset on existing tokens that no commit has touched is committed
(`Settled.changeset`), so a pass in which one rule works alone and no two of its fixes are on the
same token commits all of them (`Analyzer.settled_closing`).
-/

namespace PhpStyle

open EditBuffer Edit

structure EditBuffer.Settled (ts : Tokens) (b : EditBuffer) (cs : List (List Edit)) : Prop where
  refines : Refines ts true b ⟨[], cs⟩
  idle : b.staged = none
  conflicts : b.conflicts = 0

/-- The fix has edits, and all of them are on tokens of `ts`. -/
def Edit.Placed (ts : Tokens) (es : List Edit) : Prop :=
  es ≠ [] ∧ ∀ e ∈ es, e.index < ts.size

/-- No token is touched by both fixes. -/
def Edit.Apart (es es' : List Edit) : Prop :=
  ∀ i, touches es i = true → ¬ touches es' i = true

theorem FixScript.run_ofEdits {ts : Tokens} {b : EditBuffer} {st : List (Nat × String)}
    {staged : List Edit} {cs : List (List Edit)} (h : Refines ts true b ⟨staged, cs⟩)
    (hst : b.staged = some st) {es : List Edit} (hes : ∀ e ∈ es, e.index < ts.size) :
    ∃ st', (ofEdits es).run b = (.ok (), { b with staged := some st' }) ∧
      Refines ts true { b with staged := some st' } ⟨staged ++ es, cs⟩ := by
  induction es generalizing b st staged with
  | nil =>
    refine ⟨st, ?_, ?_⟩
    · rw [← hst]
      rfl
    · rw [← hst, List.append_nil]
      exact h
  | cons e es ih =>
    obtain ⟨he, hes⟩ := List.forall_mem_cons.1 hes
    obtain ⟨base, hbase⟩ : ∃ base, b.contents[e.index]? = some base := by
      have htext := h.text e.index
      rw [Tokens.get?, Array.getElem?_eq_getElem he] at htext
      exact ⟨_, htext⟩
    obtain ⟨b', hstage⟩ : ∃ b', b.stage e = .ok b' := by
      rw [EditBuffer.stage, hbase, hst]
      exact ⟨_, rfl⟩
    obtain ⟨_, _, _, _, rfl⟩ := stage_eq_ok hstage
    obtain ⟨st', hrun, hrefines⟩ := ih (h.stage hstage) rfl hes
    refine ⟨st', ?_, ?_⟩
    · rw [ofEdits, run, hstage]
      exact hrun
    · rwa [List.append_assoc, List.singleton_append] at hrefines

theorem EditBuffer.conflicts_of_commit {b b' : EditBuffer} (h : b.commit = .ok (true, b')) :
    b'.conflicts = b.conflicts := by
  unfold commit at h
  split at h
  · cases h
  · simp only at h
    split at h
    · cases h
    split at h
    · cases h
    · cases h
      rfl

namespace EditBuffer.Settled

variable {ts : Tokens} {b : EditBuffer} {cs : List (List Edit)}

theorem changeset (h : Settled ts b cs) {es : List Edit} (hes : Placed ts es)
    (hapart : ∀ c ∈ cs, Apart c es) :
    ∃ b', b.changeset RuleError.edit (FixScript.ofEdits es).run = (.ok true, b') ∧
      Settled ts b' (cs ++ [es]) := by
  have hopen : b.openChangeset = .ok { b with staged := some [] } := by
    simp [EditBuffer.openChangeset, inChangeset, h.idle]
  obtain ⟨st, hrun, hrefines⟩ := FixScript.run_ofEdits (h.refines.openChangeset hopen) rfl hes.2
  obtain ⟨committed, b', hcommit, hafter, hcloses⟩ := hrefines.commit rfl
  obtain rfl : committed = true := by
    refine hcloses.committed_iff.2 ⟨h.refines.enabled_eq, hes.1, fun hclash => ?_⟩
    obtain ⟨c, hc, i, hci, hi⟩ := Journal.clashes_iff.1 hclash
    exact hapart c hc i hci hi
  refine ⟨b', ?_, hafter, (commits_of_commit hcommit).1, ?_⟩
  · simp only [EditBuffer.changeset, hopen, hrun, hcommit]
  · rw [conflicts_of_commit hcommit]
    exact h.conflicts

theorem run_ofFindings {r : ActiveRule} {site : Site}
    (hloud : Text.occurs Allowance.marker site.file.content.toList = false) {fs : List Finding}
    {d : Desk} (h : Settled ts d.buffer cs) (hplaced : ∀ es ∈ fs.filterMap (·.fix), Placed ts es)
    (hapart : (cs ++ fs.filterMap (·.fix)).Pairwise Apart) :
    (r.run site (.ofFindings fs) d).1 = .ok () ∧
      Settled ts (r.run site (.ofFindings fs) d).2.buffer (cs ++ fs.filterMap (·.fix)) := by
  induction fs generalizing d cs with
  | nil =>
    rw [List.filterMap_nil, List.append_nil]
    exact ⟨rfl, h⟩
  | cons f fs ih =>
    have hviolation : ∀ index message help fixable,
        ∃ v, r.violation? site index message help fixable = some v := by
      intro index message help fixable
      simp [ActiveRule.violation?, Allowance.find?, hloud]
    rw [RuleScript.ofFindings]
    cases hfix : f.fix with
    | none =>
      rw [List.filterMap_cons_none hfix] at hplaced hapart ⊢
      obtain ⟨v, hv⟩ := hviolation f.index f.message f.help false
      simp only [ActiveRule.run, hv]
      exact ih h hplaced hapart
    | some es =>
      rw [List.filterMap_cons_some hfix] at hplaced hapart ⊢
      obtain ⟨hes, hplaced⟩ := List.forall_mem_cons.1 hplaced
      have hmeets : ∀ c ∈ cs, Apart c es := fun c hc =>
        (List.pairwise_append.1 hapart).2.2 c hc es List.mem_cons_self
      obtain ⟨b', hchangeset, hsettled⟩ := h.changeset hes hmeets
      obtain ⟨v, hv⟩ := hviolation f.index f.message none true
      rw [← List.singleton_append, ← List.append_assoc] at hapart ⊢
      simp only [ActiveRule.run, hv, h.refines.enabled_eq, if_true, hchangeset, RuleScript.orFail]
      exact ih (d := ⟨b', _⟩) hsettled hplaced hapart

end EditBuffer.Settled

section Turns

variable {info : RuleInfo} {findings : Site → Nat → List Finding} {ts : Tokens}
  {cs : List (List Edit)}

theorem Turn.settled_next {t : Turn} (hrule : t.worker.rule = .ofFindings info findings)
    (htaken : t.taken = true)
    (hloud : Text.occurs Allowance.marker t.site.file.content.toList = false)
    (h : Settled ts t.state.desk.buffer cs)
    (hplaced : ∀ es ∈ (findings t.site t.index).filterMap (·.fix), Placed ts es)
    (hapart : (cs ++ (findings t.site t.index).filterMap (·.fix)).Pairwise Apart) :
    Settled ts t.next.desk.buffer (cs ++ (findings t.site t.index).filterMap (·.fix)) ∧
      t.next.run.disabled = t.state.run.disabled := by
  have hscript : t.processed.1 = .ofFindings (findings t.site t.index) := by
    rw [processed, hrule]
    rfl
  have hrun := h.run_ofFindings (r := t.worker.active) hloud hplaced hapart
  rw [← hscript, ← outcome] at hrun
  obtain ⟨hok, hsettled⟩ := hrun
  refine ⟨?_, ?_⟩
  · rwa [t.desk_next, if_pos htaken, ActiveRule.buffer_close, rollback_eq hsettled.idle]
  · rw [t.disabled_next, failsConfig, error?, if_pos htaken, hok]
    rfl

/-- The fixes that a rule has for tokens, in order. -/
def Site.fixes (site : Site) (findings : Site → Nat → List Finding) (ps : List (Token × Nat)) :
    List (List Edit) :=
  ps.flatMap fun p => (findings site p.2).filterMap (·.fix)

/-- The tokens that a rule is called for, each with its index. -/
def Site.places (site : Site) (info : RuleInfo) : List (Token × Nat) :=
  site.tokens.items.toList.zipIdx.filter fun p => info.kinds.contains p.1.kind

theorem Site.dues_singleton (site : Site) {w : Worker} (hrule : w.rule = .ofFindings info findings) :
    site.dues [w] = (site.places info).map fun p => (p.2, w) := by
  have hkinds : w.rule.kinds = info.kinds := by
    rw [hrule]
    rfl
  rw [dues, places]
  induction site.tokens.items.toList.zipIdx with
  | nil => rfl
  | cons p ps ih =>
    rw [List.flatMap_cons, ih, List.filter_cons, List.filter_cons, hkinds]
    split
    · rfl
    · rfl

theorem Site.settled_foldl (site : Site) {w : Worker} (hrule : w.rule = .ofFindings info findings)
    (hloud : Text.occurs Allowance.marker site.file.content.toList = false)
    (ps : List (Token × Nat)) {s : PassState} (hon : w.active.name ∉ s.run.disabled)
    (h : Settled ts s.desk.buffer cs) (hplaced : ∀ es ∈ site.fixes findings ps, Placed ts es)
    (hapart : (cs ++ site.fixes findings ps).Pairwise Apart) :
    Settled ts ((ps.map fun p => (p.2, w)).foldl
      (fun s due => (⟨site, due.1, due.2, s⟩ : Turn).next) s).desk.buffer
      (cs ++ site.fixes findings ps) := by
  induction ps generalizing s cs with
  | nil =>
    rw [fixes, List.flatMap_nil, List.append_nil]
    exact h
  | cons p ps ih =>
    rw [fixes, List.flatMap_cons, ← List.append_assoc] at hapart ⊢
    rw [fixes, List.flatMap_cons] at hplaced
    have htaken : (⟨site, p.2, w, s⟩ : Turn).taken = true := by
      simpa [Turn.taken, Turn.name] using hon
    obtain ⟨hsettled, hdisabled⟩ := Turn.settled_next (t := ⟨site, p.2, w, s⟩) hrule htaken hloud h
      (fun es hes => hplaced es (List.mem_append_left _ hes)) (List.pairwise_append.1 hapart).1
    refine ih ?_ hsettled (fun es hes => hplaced es (List.mem_append_right _ hes)) hapart
    rwa [hdisabled]

end Turns

namespace Analyzer

variable {a : Analyzer} (disk : Disk) {info : RuleInfo} {findings : Site → Nat → List Finding}
  {severity : Option Severity}

theorem workers_singleton
    (hrules : a.rules = [(Rule.ofFindings info findings).withSeverity severity])
    (henabled : a.config.isEnabled info.name = true) :
    ∃ w : Worker, a.workers = [w] ∧
      w.rule = (Rule.ofFindings info findings).withSeverity severity ∧
      w.active.name = info.name := by
  have hname : a.config.isEnabled ((Rule.ofFindings info findings).withSeverity severity).name =
    true := henabled
  refine ⟨⟨0, (Rule.ofFindings info findings).withSeverity severity, ⟨info.name, info.code,
    (a.config.severity? info.name).getD (severity.getD info.severity)⟩⟩, ?_, rfl, rfl⟩
  simp only [workers, Worker.ofRules, hrules, List.zipIdx_cons, List.zipIdx_nil, List.filter_cons,
    hname, if_true, List.filter_nil, List.map_cons, List.map_nil]
  rfl

/-- A rule that works alone, with fixes that do not meet, commits all of them. -/
theorem settled_closing
    (hrules : a.rules = [(Rule.ofFindings info findings).withSeverity severity])
    (henabled : a.config.isEnabled info.name = true) {r : Round} (hfixing : r.fixing = true)
    (hon : info.name ∉ r.run.disabled)
    (hloud : Text.occurs Allowance.marker r.text.toList = false)
    (hplaced : ∀ es ∈ (a.siteOf disk r).fixes findings ((a.siteOf disk r).places info),
      Placed (.ofSource r.text) es)
    (hapart : ((a.siteOf disk r).fixes findings ((a.siteOf disk r).places info)).Pairwise Apart) :
    Settled (.ofSource r.text) (a.closing disk r).desk.buffer
      ((a.siteOf disk r).fixes findings ((a.siteOf disk r).places info)) := by
  obtain ⟨w, hworkers, hrule, hname⟩ := workers_singleton hrules henabled
  have hstart : Settled (.ofSource r.text) (opening r).desk.buffer [] := by
    have hrefines := Refines.ofTokens (Tokens.ofSource r.text) r.fixing
    refine ⟨?_, rfl, rfl⟩
    rw [opening]
    rwa [hfixing] at hrefines ⊢
  have hlast : a.closing disk r = ((a.siteOf disk r).dues a.workers).foldl
      (fun s due => (⟨a.siteOf disk r, due.1, due.2, s⟩ : Turn).next) (opening r) :=
    visitTokens_eq ..
  have hsite : Text.occurs Allowance.marker (a.siteOf disk r).file.content.toList = false := hloud
  have hstate : w.active.name ∉ (opening r).run.disabled := by rwa [hname]
  rw [Rule.withSeverity_ofFindings] at hrule
  rw [hlast, hworkers, Site.dues_singleton _ hrule]
  generalize a.siteOf disk r = site at hplaced hapart hsite ⊢
  generalize opening r = s at hstart hstate ⊢
  exact site.settled_foldl hrule hsite _ hstate hstart hplaced hapart

/-- A turn is at a token of the kinds that the rule is called for. -/
theorem kindIs_of_mem_turnsOf {r : Round} {t : Turn} (ht : t ∈ a.turnsOf disk r) :
    (Tokens.ofSource r.text).kindIs t.worker.rule.kinds.contains t.index = true := by
  have hplace : (t.index, t.worker) ∈ (a.siteOf disk r).dues a.workers := by
    rw [← (a.siteOf disk r).turns_places ((a.siteOf disk r).dues a.workers) (opening r)]
    exact List.mem_map.2 ⟨t, ht, rfl⟩
  obtain ⟨p, hp, hdue⟩ := List.mem_flatMap.1 hplace
  obtain ⟨w, hw, heq⟩ := List.mem_map.1 hdue
  obtain ⟨hindex, rfl⟩ := Prod.mk.inj heq
  have hget := List.mem_zipIdx_iff_getElem?.1 hp
  rw [tokens_siteOf, Array.getElem?_toList, hindex] at hget
  rw [Tokens.kindIs, Tokens.kind?, Tokens.get?, hget]
  exact (List.mem_filter.1 hw).2

/-- Turns in which the rule does nothing report nothing. -/
theorem violations_of_done {r : Round} (hdone : ∀ t ∈ a.turnsOf disk r, t.processed.1 = .done) :
    (a.closing disk r).desk.violations = [] := by
  have hstep : ∀ t ∈ a.turnsOf disk r,
      (t.state.desk.violations = [] ∧ t.state.desk.buffer.staged = none) →
        t.next.desk.violations = [] ∧ t.next.desk.buffer.staged = none := by
    intro t ht h
    rw [t.desk_next]
    split
    · have hidle : ¬ t.outcome.2.buffer.inChangeset = true := by
        simp [Turn.outcome, hdone t ht, ActiveRule.run, inChangeset, h.2]
      rw [ActiveRule.close, if_neg hidle, Turn.outcome, hdone t ht]
      exact h
    · exact h
  exact ((a.turns_reach disk r).inv
    (P := fun s => s.desk.violations = [] ∧ s.desk.buffer.staged = none) hstep ⟨rfl, rfl⟩).2.1

/-- A rule without findings reports nothing. -/
theorem violations_closing
    (hrules : a.rules = [(Rule.ofFindings info findings).withSeverity severity]) {r : Round}
    (hnone : ∀ i, (Tokens.ofSource r.text).kindIs info.kinds.contains i = true →
      findings (a.siteOf disk r) i = []) : (a.closing disk r).desk.violations = [] := by
  refine violations_of_done disk fun t ht => ?_
  have hrule : t.worker.rule = (Rule.ofFindings info findings).withSeverity severity := by
    have := (Worker.of_mem_ofRules (a.worker_of_mem_turnsOf disk ht)).1
    rw [hrules] at this
    exact List.mem_singleton.1 this
  have hkind := kindIs_of_mem_turnsOf disk ht
  rw [hrule] at hkind
  rw [Turn.processed, hrule, Site.site_of_mem_turns ht]
  show RuleScript.ofFindings (findings (a.siteOf disk r) t.index) = .done
  rw [hnone t.index hkind]
  rfl

end Analyzer

end PhpStyle
