import PhpStyle.Proofs.CommittedEdits
import PhpStyle.Proofs.FixLoop

/-!
# Committed changesets are fixes of findings

A rule that reports findings opens one changeset for each fix and stages its edits there, so that
what a turn commits are fixes of its findings, whole and in order (`ActiveRule.track_ofFindings`).
Along the turns of a pass nothing else is committed (`Analyzer.fix_of_mem_committed`).
-/

namespace PhpStyle

open EditBuffer

theorem EditBuffer.fst_foldl_track (ops : List Op) (b : EditBuffer) (j : Journal) :
    (ops.foldl track (b, j)).1 = b.performAll ops := by
  induction ops generalizing b j with
  | nil => rfl
  | cons op ops ih => exact ih _ _

theorem FixScript.track_ofEdits (es : List Edit) (b : EditBuffer) (j : Journal) :
    ∃ staged, (((ofEdits es).ops b).foldl track (b, j)).2 = ⟨j.pending ++ staged, j.committed⟩ ∧
      (((ofEdits es).run b).1.isOk = true → staged = es) := by
  induction es generalizing b j with
  | nil => exact ⟨[], by simp [ofEdits, ops], fun _ => rfl⟩
  | cons e es ih =>
    rw [ofEdits, ops, run, List.foldl_cons, track, perform]
    cases hstage : b.stage e with
    | error cause =>
      refine ⟨[], by simp [orFail, ops, Journal.record], fun hok => ?_⟩
      cases hok
    | ok b' =>
      obtain ⟨staged, htrack, hall⟩ := ih b' ⟨j.pending ++ [e], j.committed⟩
      refine ⟨e :: staged, ?_, fun hok => by rw [hall hok]⟩
      simp only [Journal.record, orFail]
      rw [htrack, List.append_assoc, List.singleton_append]

theorem FixScript.track_changesetOps (es : List Edit) (b : EditBuffer) (j : Journal) :
    ∃ cs, ((((ofEdits es).changesetOps b).foldl track (b, j)).2).committed = j.committed ++ cs ∧
      ∀ c ∈ cs, c = es := by
  have hnone : ∃ cs : List (List Edit), j.committed = j.committed ++ cs ∧ ∀ c ∈ cs, c = es :=
    ⟨[], by simp, nofun⟩
  rw [changesetOps, List.foldl_cons, track, perform]
  cases b.openChangeset with
  | error e => exact hnone
  | ok opened =>
    simp only [Journal.record, List.foldl_append, List.foldl_cons, List.foldl_nil]
    obtain ⟨staged, htrack, hall⟩ := track_ofEdits es opened { j with pending := [] }
    rw [track, htrack]
    cases hok : ((ofEdits es).run opened).1.isOk with
    | false => exact hnone
    | true =>
      obtain rfl := hall hok
      simp only [if_true, perform]
      cases EditBuffer.commit _ with
      | error e => exact hnone
      | ok p =>
        obtain ⟨committed, b'⟩ := p
        cases committed with
        | false => exact hnone
        | true => exact ⟨[staged], rfl, fun c hc => List.mem_singleton.1 hc⟩

/-- What a rule commits with its findings are fixes of them. -/
theorem ActiveRule.track_ofFindings (r : ActiveRule) (site : Site) (fs : List Finding)
    (b : EditBuffer) (j : Journal) :
    ∃ cs, ((r.ops site (.ofFindings fs) b).foldl track (b, j)).2.committed = j.committed ++ cs ∧
      ∀ c ∈ cs, ∃ f ∈ fs, f.fix = some c := by
  induction fs generalizing b j with
  | nil => exact ⟨[], by simp [RuleScript.ofFindings, ops], nofun⟩
  | cons f fs ih =>
    have later : ∀ b j, ∃ cs, ((r.ops site (.ofFindings fs) b).foldl track (b, j)).2.committed =
        j.committed ++ cs ∧ ∀ c ∈ cs, ∃ g ∈ f :: fs, g.fix = some c := by
      intro b j
      obtain ⟨cs, hcs, hfix⟩ := ih b j
      refine ⟨cs, hcs, fun c hc => ?_⟩
      obtain ⟨g, hg, hgc⟩ := hfix c hc
      exact ⟨g, List.mem_cons_of_mem f hg, hgc⟩
    rw [RuleScript.ofFindings]
    split
    · exact later b j
    · rename_i edits hfix
      rw [ops]
      split
      · obtain ⟨own, hown, hmem⟩ := FixScript.track_changesetOps edits b j
        have hafter := fst_foldl_track ((FixScript.ofEdits edits).changesetOps b) b j
        rw [FixScript.performAll_changesetOps] at hafter
        rw [List.foldl_append]
        generalize ((FixScript.ofEdits edits).changesetOps b).foldl track (b, j) = s at hown hafter ⊢
        obtain ⟨b', j'⟩ := s
        obtain rfl : b' = _ := hafter
        have hhead : ∀ c ∈ own, ∃ g ∈ f :: fs, g.fix = some c := fun c hc =>
          ⟨f, List.mem_cons_self, by rw [hmem c hc, hfix]⟩
        cases (b.changeset RuleError.edit (FixScript.ofEdits edits).run).1 with
        | error e => exact ⟨own, hown, hhead⟩
        | ok committed =>
          obtain ⟨cs, hcs, hfixes⟩ := later (b.changeset RuleError.edit (FixScript.ofEdits edits).run).2 j'
          refine ⟨own ++ cs, ?_, fun c hc => ?_⟩
          · rw [← List.append_assoc, ← hown]
            exact hcs
          · rcases List.mem_append.1 hc with hc | hc
            · exact hhead c hc
            · exact hfixes c hc
      · exact later b j

theorem Turn.fix_of_script {t : Turn} {fs : List Finding} (hscript : t.processed.1 = .ofFindings fs)
    {es : List Edit} (h : es ∈ t.committed) : ∃ f ∈ fs, f.fix = some es := by
  unfold committed at h
  split at h
  · obtain ⟨cs, hcs, hfix⟩ := t.worker.active.track_ofFindings t.site fs t.state.desk.buffer {}
    rw [journal, history, ops, hscript, hcs] at h
    exact hfix es (by simpa using h)
  · cases h

theorem Turn.fix_of_mem_committed {t : Turn} {info : RuleInfo} {findings : Site → Nat → List Finding}
    (hrule : t.worker.rule = .ofFindings info findings) {es : List Edit} (h : es ∈ t.committed) :
    ∃ f ∈ findings t.site t.index, f.fix = some es := by
  refine fix_of_script ?_ h
  rw [processed, hrule]
  rfl

theorem Site.site_of_mem_turns {site : Site} {dues : List (Nat × Worker)} {s : PassState} {t : Turn}
    (h : t ∈ site.turns dues s) : t.site = site := by
  induction dues generalizing s with
  | nil => cases h
  | cons due dues ih =>
    rcases List.mem_cons.1 h with rfl | h
    · rfl
    · exact ih h

namespace Analyzer

variable {a : Analyzer} {disk : Disk}

theorem tokens_siteOf (r : Round) : (a.siteOf disk r).tokens = .ofSource r.text := by
  simp only [siteOf]

/-- Every changeset that a pass commits is the fix of a finding of one of the rules. -/
theorem fix_of_mem_committed {r : Round} {es : List Edit} (h : es ∈ a.committed disk r) :
    ∃ rule ∈ a.rules, ∃ i, ∀ info findings, rule = .ofFindings info findings →
      ∃ f ∈ findings (a.siteOf disk r) i, f.fix = some es := by
  obtain ⟨t, ht, hes⟩ := List.mem_flatMap.1 h
  have hrule := (Worker.of_mem_ofRules (a.worker_of_mem_turnsOf disk ht)).1
  refine ⟨t.worker.rule, hrule, t.index, fun info findings heq => ?_⟩
  have hfix := t.fix_of_mem_committed heq hes
  rwa [Site.site_of_mem_turns ht] at hfix

end Analyzer

end PhpStyle
