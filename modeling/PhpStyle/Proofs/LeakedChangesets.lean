import Mathlib.Data.List.Chain
import Mathlib.Data.List.Perm.Subperm
import PhpStyle.Proofs.FixAccounts

/-!
# Changesets left open

A rule that returns with a changeset open finds it rolled back: no later turn sees it
(`Analyzer.idle_turnsOf`), and since every pass goes over what the one before it committed
(`Analyzer.rounds_consecutive`), its edits reach no later text. Each such turn adds a violation to its
pass (`Analyzer.leaks_recorded`), and the pass that does not fix reports all that it found
(`Analyzer.leaks_dropped`). Of a fix pass only the fixed violations are kept, and those for open
changesets are not among them (`Analyzer.leak_beside_fix_unreported`).
-/

namespace PhpStyle

/-- A rule that stages an edit at a variable and leaves the changeset open. -/
def Rule.leaking (name target : String) : Rule where
  name := name
  code := "X2"
  description := ""
  severity := .warning
  fixable := false
  kinds := [.variableName]
  process site i memory :=
    let leak : FixScript := .openChangeset (.orFail fun _ => .ofEdits [.remove i])
    (if site.tokens.content i = target then .edit leak (.orFail fun _ => .done) else .done, memory)

theorem ActiveRule.violations_run (r : ActiveRule) (site : Site) (script : RuleScript) (d : Desk) :
    d.violations <+: (r.run site script d).2.violations := by
  induction script generalizing d with
  | done => exact List.prefix_rfl
  | fail e => exact List.prefix_rfl
  | look next ih => exact ih d.buffer d
  | report index message help next ih =>
    rw [run]
    split
    · exact ih false d
    · exact List.IsPrefix.trans (by simp) (ih true _)
  | fixable index message fix next ih =>
    rw [run]
    split
    · exact ih (.ok false) d
    · split
      · split
        · exact List.IsPrefix.trans (by simp) (ih (.ok _) _)
        · exact List.IsPrefix.trans (by simp) (ih (.error _) _)
      · exact List.IsPrefix.trans (by simp) (ih (.ok false) _)
  | edit fix next ih =>
    exact ih (fix.run d.buffer).1 ⟨(fix.run d.buffer).2, d.violations⟩

namespace Turn

variable (t : Turn)

/-- The violation for a changeset that the rule left open. -/
def leak : Violation :=
  t.worker.active.leak t.site t.index

theorem violations_next :
    ∃ added, t.next.desk.violations = t.state.desk.violations ++ added ∧
      (t.leaks = true → t.leak ∈ added) := by
  rw [t.desk_next]
  cases htaken : t.taken with
  | false => exact ⟨[], (List.append_nil _).symm, fun h => by simp [leaks, htaken] at h⟩
  | true =>
    obtain ⟨added, hadded⟩ :=
      t.worker.active.violations_run t.site t.processed.1 t.state.desk
    rw [if_pos rfl, ActiveRule.close]
    split
    · refine ⟨added ++ [t.leak], ?_, fun _ => by simp⟩
      rw [← List.append_assoc, hadded]
      rfl
    · rename_i hclosed
      exact ⟨added, hadded.symm, fun h => absurd (Bool.and_eq_true_iff.1 h).2 hclosed⟩

end Turn

theorem PassState.Reaches.leaks {s s' : PassState} {ts : List Turn} (h : s.Reaches ts s') :
    ∃ added, s'.desk.violations = s.desk.violations ++ added ∧
      ((ts.filter Turn.leaks).map Turn.leak).Sublist added := by
  induction h with
  | nil s => exact ⟨[], (List.append_nil _).symm, List.nil_sublist _⟩
  | @cons t ts s' _ ih =>
    obtain ⟨added, hadded, hsub⟩ := ih
    obtain ⟨first, hfirst, hleak⟩ := t.violations_next
    refine ⟨first ++ added, by rw [hadded, hfirst, List.append_assoc], ?_⟩
    by_cases hleaks : t.leaks = true
    · rw [List.filter_cons_of_pos hleaks, List.map_cons, ← List.singleton_append]
      exact (List.singleton_sublist.2 (hleak hleaks)).append hsub
    · rw [List.filter_cons_of_neg hleaks]
      exact hsub.trans (List.sublist_append_right ..)

namespace Analyzer

variable (a : Analyzer) (disk : Disk)

/-- A pass has a violation for each turn of it that left a changeset open. -/
theorem leaks_recorded (r : Round) :
    (((a.turnsOf disk r).filter Turn.leaks).map Turn.leak).Sublist
      (a.closing disk r).desk.violations := by
  obtain ⟨added, hadded, hsub⟩ := (a.turns_reach disk r).leaks
  rw [hadded]
  exact hsub.trans (List.sublist_append_right ..)

theorem outcomeOf_of_commits {r : Round} (h : (a.closing disk r).desk.buffer.commits = 0) :
    a.outcomeOf disk r = r.text := by
  rw [commits_closing, List.length_eq_zero_iff] at h
  rw [outcomeOf, h, List.flatten_nil, Tokens.edited_nil, Tokens.source_ofSource]

/-- Passes in a row over a text, each over what the one before it committed. -/
structure Consecutive (text : String) (rs : List Round) : Prop where
  head : ∀ r ∈ rs.head?, r.text = text
  chain : rs.IsChain fun r r' => r'.text = a.outcomeOf disk r

theorem fixRounds_consecutive (path : Path) (n : Nat) (s : FixState) :
    a.Consecutive disk s.text
      (a.fixRounds disk path n s ++ [(a.fixLoop disk path n s).round path false]) := by
  refine a.fixLoop_cases disk path (motive := fun _ s s' rs =>
    a.Consecutive disk s.text (rs ++ [s'.round path false])) ?_ ?_ ?_ n s
  · intro s
    exact ⟨fun r hr => by cases hr; rfl, .singleton _⟩
  · intro n s hzero
    have hsame := a.outcomeOf_of_commits disk hzero
    generalize a.closing disk (s.round path true) = p
    exact ⟨fun r hr => by cases hr; rfl, List.isChain_pair.2 hsame.symm⟩
  · intro n s s' rs _ ih
    have htext := a.text_closing disk (s.round path true)
    generalize a.closing disk (s.round path true) = p at htext ih
    refine ⟨fun r hr => by cases hr; rfl, List.isChain_cons.2 ⟨fun r hr => ?_, ih.chain⟩⟩
    rw [ih.head r hr, ← htext]
    rfl

theorem rounds_consecutive (path : Path) (source : String) (run : RunState) :
    a.Consecutive disk source (a.rounds disk path source run) := by
  rw [rounds, lastRound, fixedState_eq]
  exact a.fixRounds_consecutive disk path a.fixPasses (a.fixStart source run)

theorem fixing_of_mem_fixRounds {path : Path} {n : Nat} {s : FixState} :
    ∀ r ∈ a.fixRounds disk path n s, r.fixing = true := by
  refine a.fixLoop_cases disk path (motive := fun _ _ _ rs => ∀ r ∈ rs, r.fixing = true) ?_ ?_ ?_ n s
  · exact fun s r hr => absurd hr List.not_mem_nil
  · exact fun n s _ => List.forall_mem_singleton.2 rfl
  · exact fun n s s' rs _ ih => List.forall_mem_cons.2 ⟨rfl, ih⟩

theorem eq_lastRound {path : Path} {source : String} {run : RunState} {r : Round}
    (hr : r ∈ a.rounds disk path source run) (hfixing : r.fixing = false) :
    r = a.lastRound disk path source run := by
  rcases List.mem_append.1 hr with hr | hr
  · rw [a.fixing_of_mem_fixRounds disk r hr] at hfixing
    cases hfixing
  · exact List.mem_singleton.1 hr

/-- Whatever rules do, no changeset is open when one of them is invoked; the first pass goes over
the source and each later one over what the pass before it committed; and each turn of a pass without
fixing that leaves a changeset open is reported. -/
theorem leaks_dropped (a : Analyzer) (disk : Disk) (path : Path) (source : String)
    (memories : List Memory) :
    let rounds := a.rounds disk path source ⟨memories, []⟩
    let report := (a.analyzeSource disk path source memories).1
    (∀ r ∈ rounds, ∀ t ∈ a.turnsOf disk r, t.state.desk.buffer.inChangeset = false) ∧
      a.Consecutive disk source rounds ∧
      (∀ r ∈ rounds, (((a.turnsOf disk r).filter Turn.leaks).map Turn.leak).Sublist
        (a.closing disk r).desk.violations) ∧
      ∀ r ∈ rounds, r.fixing = false →
        (((a.turnsOf disk r).filter Turn.leaks).map Turn.leak).Subperm report.violations := by
  dsimp only
  refine ⟨fun r _ t ht => ?_, a.rounds_consecutive disk path source ⟨memories, []⟩,
    fun r _ => a.leaks_recorded disk r, fun r hr hfixing => ?_⟩
  · rw [EditBuffer.inChangeset, a.idle_turnsOf disk r t ht]
    rfl
  · have hlast := a.leaks_recorded disk r
    rw [a.eq_lastRound disk hr hfixing] at hlast ⊢
    have hreport : (a.analyzeText disk path source ⟨memories, []⟩).1.violations.Perm
        (a.analyzeSource disk path source memories).1.violations :=
      (List.mergeSort_perm _ _).symm
    rw [analyzeText_violations] at hreport
    exact (hlast.trans (List.sublist_append_right ..)).subperm.trans hreport.subperm

/-- A rule leaves a changeset open in a fix pass, at a variable that another rule renames in the same
pass, and no violation for that is reported. -/
theorem leak_beside_fix_unreported :
    let a : Analyzer :=
      ⟨⟨"/"⟩, [.leaking "leaky" "$a", .renaming "rename" "$a" "$b"], [], {}, true, 50⟩
    (∃ r ∈ a.rounds {} ⟨"a.php"⟩ "<?php $a;" ⟨[{}, {}], []⟩, ∃ t ∈ a.turnsOf {} r,
      t.name = "leaky" ∧ t.leaks = true) ∧
    ∀ v ∈ (a.analyzeSource {} ⟨"a.php"⟩ "<?php $a;" [{}, {}]).1.violations,
      v.code ≠ ActiveRule.leakCode := by
  intro a
  constructor
  · have h : ((a.rounds {} ⟨"a.php"⟩ "<?php $a;" ⟨[{}, {}], []⟩).any fun r =>
        (a.turnsOf {} r).any fun t => t.name == "leaky" && t.leaks) = true := by decide +kernel
    simpa only [List.any_eq_true, Bool.and_eq_true, beq_iff_eq] using h
  · intro v hv
    have h : ((a.analyzeText {} ⟨"a.php"⟩ "<?php $a;" ⟨[{}, {}], []⟩).1.violations.all fun v =>
        v.code != ActiveRule.leakCode) = true := by decide +kernel
    exact bne_iff_ne.1 (List.all_eq_true.1 h v (List.mem_mergeSort.1 hv))

end Analyzer

end PhpStyle
