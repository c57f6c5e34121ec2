import PhpStyle.Proofs.CommittedEdits
import PhpStyle.Proofs.FixLoop

/-!
# Fixes and their reports

A `Rule.EditsByFixing` rule changes a file only with fixes that go with a report, and its fixes
stage edits or fail. Under such rules a desk has as many commits as violations that are said to be
fixed (`Desk.Accounted`), turn after turn. Over the passes of `Analyzer.fixLoop` the counts add up
and the commits are applied one pass after the other (`FixState.Follows`), so the outcome of a file
can be read off its passes (`Analyzer.fixes_accounted`).
-/

namespace PhpStyle

/-- The script stages edits and may fail, but opens and closes no changeset. -/
def FixScript.StagesOnly : FixScript → Prop
  | done => True
  | fail _ => True
  | look next => ∀ b, (next b).StagesOnly
  | stage _ next => ∀ answer, (next answer).StagesOnly
  | openChangeset _ => False
  | commit _ => False
  | rollback _ => False

/-- The script edits only with fixes that go with a report and stage edits or fail. -/
def RuleScript.EditsByFixing : RuleScript → Prop
  | done => True
  | fail _ => True
  | look next => ∀ b, (next b).EditsByFixing
  | report _ _ _ next => ∀ answer, (next answer).EditsByFixing
  | fixable _ _ fix next => fix.StagesOnly ∧ ∀ answer, (next answer).EditsByFixing
  | edit _ _ => False

def Rule.EditsByFixing (rule : Rule) : Prop :=
  ∀ site i m, (rule.process site i m).1.EditsByFixing

theorem FixScript.stagesOnly_ofEdits (es : List Edit) : (ofEdits es).StagesOnly := by
  induction es with
  | nil => trivial
  | cons e es ih =>
    rintro (e | u)
    · trivial
    · exact ih

theorem RuleScript.editsByFixing_ofFindings (fs : List Finding) : (ofFindings fs).EditsByFixing := by
  induction fs with
  | nil => trivial
  | cons f fs ih =>
    rw [ofFindings]
    split
    · exact fun _ => ih
    · refine ⟨FixScript.stagesOnly_ofEdits _, ?_⟩
      rintro (e | committed)
      · trivial
      · exact ih

theorem Rule.editsByFixing_ofFindings (info : RuleInfo) (findings : Site → Nat → List Finding) :
    (Rule.ofFindings info findings).EditsByFixing :=
  fun site i _ => RuleScript.editsByFixing_ofFindings (findings site i)

/-- A rule that renames a variable. -/
def Rule.renaming (name old new : String) : Rule :=
  .ofFindings
    { name := name, code := "X1", description := "", severity := .warning, fixable := true
      kinds := [.variableName] }
    fun site i =>
      if site.tokens.content i = old then
        [{ index := i, message := "Use " ++ new, fix := some [.replace i new] }]
      else []

namespace EditBuffer

theorem commits_of_commit {b b' : EditBuffer} {committed : Bool}
    (h : b.commit = .ok (committed, b')) :
    b'.staged = none ∧ b'.commits = b.commits + committed.toNat := by
  unfold commit at h
  split at h
  · cases h
  · simp only at h
    split at h
    · cases h; exact ⟨rfl, rfl⟩
    split at h
    · cases h; exact ⟨rfl, rfl⟩
    · cases h; exact ⟨rfl, rfl⟩

end EditBuffer

/-- In an open changeset such a script changes what is staged and nothing else. -/
theorem FixScript.StagesOnly.run_frame {fix : FixScript} (h : fix.StagesOnly) {b : EditBuffer}
    {st : List (Nat × String)} (hst : b.staged = some st) :
    ∃ st', (fix.run b).2 = { b with staged := some st' } := by
  induction fix generalizing b st with
  | done => exact ⟨st, by rw [← hst]; rfl⟩
  | fail e => exact ⟨st, by rw [← hst]; rfl⟩
  | look next ih => exact ih b (h b) hst
  | openChangeset next => cases h
  | stage edit next ih =>
    rw [run]
    cases hstage : b.stage edit with
    | ok b' =>
      obtain ⟨base, st', -, -, rfl⟩ := EditBuffer.stage_eq_ok hstage
      exact ih (.ok ()) (h (.ok ())) rfl
    | error e => exact ih (.error e) (h (.error e)) hst
  | commit next => cases h
  | rollback next => cases h

theorem FixScript.StagesOnly.changeset_cases {fix : FixScript} (h : fix.StagesOnly) {b : EditBuffer}
    (hidle : b.staged = none) :
    (∃ e, b.changeset RuleError.edit fix.run = (.error e, b)) ∨
    ∃ committed b', b.changeset RuleError.edit fix.run = (.ok committed, b') ∧ b'.staged = none ∧
      b'.commits = b.commits + committed.toNat := by
  have hopen : b.openChangeset = .ok { b with staged := some [] } := by
    simp [EditBuffer.openChangeset, EditBuffer.inChangeset, hidle]
  obtain ⟨st, hframe⟩ := h.run_frame (b := { b with staged := some [] }) rfl
  rw [EditBuffer.changeset, hopen]
  simp only
  generalize fix.run { b with staged := some [] } = result at hframe ⊢
  obtain ⟨answer, after⟩ := result
  obtain rfl : after = { b with staged := some st } := hframe
  cases answer with
  | error e => exact .inl ⟨e, by simp only [EditBuffer.rollback, ← hidle]⟩
  | ok u =>
    obtain ⟨committed, b', hcommit⟩ :=
      EditBuffer.commit_eq_ok (b := { b with staged := some st }) rfl
    obtain ⟨hstaged, hcommits⟩ := EditBuffer.commits_of_commit hcommit
    exact .inr ⟨committed, b', by simp only [hcommit], hstaged, hcommits⟩

/-- No changeset is open, and each commit is that of one violation that is said to be fixed. -/
structure Desk.Accounted (d : Desk) : Prop where
  idle : d.buffer.staged = none
  commits : d.buffer.commits = d.violations.countP (·.fixed)

namespace Desk.Accounted

variable {r : ActiveRule} {site : Site} {d : Desk}

theorem push (h : d.Accounted) {b : EditBuffer} (hidle : b.staged = none) {v : Violation}
    (hcommits : b.commits = d.buffer.commits + v.fixed.toNat) :
    Accounted ⟨b, d.violations ++ [v]⟩ where
  idle := hidle
  commits := by
    rw [List.countP_append, ← h.commits, hcommits]
    cases hv : v.fixed <;> simp [hv]

theorem report (h : d.Accounted) {index : Nat} {message : String} {help : Option String}
    {fixable : Bool} {v : Violation}
    (hv : r.violation? site index message help fixable = some v) :
    Accounted ⟨d.buffer, d.violations ++ [v]⟩ :=
  h.push h.idle (by rw [ReportOnly.fixed_violation? hv]; rfl)

theorem run {script : RuleScript} (hscript : script.EditsByFixing) (h : d.Accounted) :
    (r.run site script d).2.Accounted := by
  induction script generalizing d with
  | done => exact h
  | fail e => exact h
  | look next ih => exact ih d.buffer (hscript d.buffer) h
  | report index message help next ih =>
    rw [ActiveRule.run]
    split
    · exact ih false (hscript false) h
    · rename_i v hv
      exact ih true (hscript true) (h.report hv)
  | fixable index message fix next ih =>
    obtain ⟨hfix, hnext⟩ := hscript
    rw [ActiveRule.run]
    split
    · exact ih (.ok false) (hnext _) h
    · rename_i v hv
      split
      · rcases hfix.changeset_cases h.idle with ⟨e, he⟩ | ⟨committed, b, hb, hidle, hcommits⟩
        · rw [he]
          exact ih (.error e) (hnext _) (h.report hv)
        · rw [hb]
          exact ih (.ok committed) (hnext _) (h.push hidle hcommits)
      · exact ih (.ok false) (hnext _) (h.report hv)
  | edit fix next => cases hscript

theorem close (h : d.Accounted) (index : Nat) : (r.close site index d).Accounted := by
  have hclosed : ¬ d.buffer.inChangeset = true := by simp [EditBuffer.inChangeset, h.idle]
  rwa [ActiveRule.close, if_neg hclosed]

end Desk.Accounted

theorem Turn.accounted_next (t : Turn) (hrule : t.worker.rule.EditsByFixing)
    (h : t.state.desk.Accounted) : t.next.desk.Accounted := by
  rw [t.desk_next]
  split
  · exact (h.run (hrule _ _ _)).close t.index
  · exact h

namespace Analyzer

variable {a : Analyzer} (disk : Disk)

theorem accounted_closing (hrules : ∀ rule ∈ a.rules, rule.EditsByFixing) (r : Round) :
    (a.closing disk r).desk.Accounted := by
  refine ((a.turns_reach disk r).inv (P := fun s => s.desk.Accounted) (fun t ht h => ?_) ⟨rfl, rfl⟩).2
  have hrule := (Worker.of_mem_ofRules (a.worker_of_mem_turnsOf disk ht)).1
  exact t.accounted_next (hrules _ hrule) h

theorem length_fixed_closing (hrules : ∀ rule ∈ a.rules, rule.EditsByFixing) (r : Round) :
    ((a.closing disk r).desk.violations.filter (·.fixed)).length = (a.committed disk r).length := by
  rw [← List.countP_eq_length_filter, ← (accounted_closing disk hrules r).commits, commits_closing]

/-! ### The loop -/

/-- The text after the commits of passes, one after the other. -/
def applyCommits (a : Analyzer) (rs : List Round) (text : String) : String :=
  rs.foldl (fun text r => (Tokens.ofSource text).edited (a.committed disk r).flatten) text

theorem applyCommits_cons (a : Analyzer) (r : Round) (rs : List Round) (text : String) :
    a.applyCommits disk (r :: rs) text =
      a.applyCommits disk rs ((Tokens.ofSource text).edited (a.committed disk r).flatten) :=
  List.foldl_cons ..

/-- The number of changesets that passes commit. -/
def commitCount (a : Analyzer) (rs : List Round) : Nat :=
  (rs.flatMap (a.committed disk)).length

/-- The number of passes that commit a changeset. -/
def changingRounds (a : Analyzer) (rs : List Round) : Nat :=
  rs.countP fun r => !(a.committed disk r).isEmpty

/-- How fixing gets from `s` to `s'` with `n` passes left, by the passes `rs`. -/
structure FixState.Follows (a : Analyzer) (disk : Disk) (n : Nat) (s s' : FixState)
    (rs : List Round) : Prop where
  text : s'.text = a.applyCommits disk rs s.text
  passes : s'.passes = s.passes + a.changingRounds disk rs
  passes_le : s'.passes ≤ s.passes + n
  converged : s.converged = false → (s'.converged = false ↔ s'.passes = s.passes + n)
  fixed : (∀ v ∈ s.fixed, v.fixed = true) → ∀ v ∈ s'.fixed, v.fixed = true

theorem fixLoop_follows (a : Analyzer) (path : Path) (n : Nat) (s : FixState) :
    s.Follows a disk n (a.fixLoop disk path n s) (a.fixRounds disk path n s) := by
  refine a.fixLoop_cases disk path
    (motive := fun n s s' rs => s.Follows a disk n s' rs) ?_ ?_ ?_ n s
  · intro s
    exact ⟨rfl, rfl, Nat.le_refl _, fun hc => by simp [hc], id⟩
  · intro n s hzero
    rw [commits_closing, List.length_eq_zero_iff] at hzero
    have htext : a.applyCommits disk [s.round path true] s.text = s.text := by
      rw [applyCommits, List.foldl_cons, List.foldl_nil, hzero, List.flatten_nil, Tokens.edited_nil,
        Tokens.source_ofSource]
    have hcount : a.changingRounds disk [s.round path true] = 0 := by simp [changingRounds, hzero]
    refine ⟨htext.symm, by rw [hcount]; rfl, Nat.le_add_right .., fun _ => ?_, id⟩
    exact iff_of_false (fun h => absurd h Bool.noConfusion) (by simp [FixState.settle])
  · intro n s s' rs hcommits ih
    have htext := a.text_closing disk (s.round path true)
    rw [commits_closing, Ne, List.length_eq_zero_iff] at hcommits
    generalize a.closing disk (s.round path true) = p at htext ih
    have hcount : a.changingRounds disk (s.round path true :: rs) =
        a.changingRounds disk rs + 1 :=
      List.countP_cons_of_pos (by simpa using hcommits)
    have hnext : (s.advance p).text =
        (Tokens.ofSource s.text).edited (a.committed disk (s.round path true)).flatten := htext
    have hstep : ∀ k, (s.advance p).passes + k = s.passes + (k + 1) :=
      Nat.succ_add_eq_add_succ s.passes
    obtain ⟨ihtext, ihpasses, ihle, ihconverged, ihfixed⟩ := ih
    rw [hstep] at ihpasses ihle ihconverged
    refine ⟨?_, by rw [ihpasses, hcount], ihle, fun _ => ihconverged rfl,
      fun hfixed => ihfixed fun v hv => ?_⟩
    · rw [ihtext, hnext, applyCommits_cons]
    · rcases List.mem_append.1 hv with hv | hv
      · exact hfixed v hv
      · exact (List.mem_filter.1 hv).2

theorem length_fixed_fixLoop (hrules : ∀ rule ∈ a.rules, rule.EditsByFixing) (path : Path) (n : Nat)
    (s : FixState) : (a.fixLoop disk path n s).fixed.length =
      s.fixed.length + a.commitCount disk (a.fixRounds disk path n s) := by
  refine a.fixLoop_cases disk path (motive := fun n s s' rs =>
    s'.fixed.length = s.fixed.length + a.commitCount disk rs) ?_ ?_ ?_ n s
  · exact fun s => rfl
  · intro n s hzero
    rw [commits_closing] at hzero
    rw [commitCount, List.flatMap_singleton, hzero]
    rfl
  · intro n s s' rs _ ih
    have hround := length_fixed_closing disk hrules (s.round path true)
    rw [commitCount, List.flatMap_cons, List.length_append, ← hround, ← commitCount]
    generalize a.closing disk (s.round path true) = p at ih
    rw [ih, FixState.advance, List.length_append, Nat.add_assoc]

theorem reportOnly_closing (a : Analyzer) {r : Round} (h : r.fixing = false) :
    (a.closing disk r).desk.ReportOnly := by
  unfold closing pass runPass
  exact reportOnly_visitTokens ⟨h, fun _ hv => absurd hv List.not_mem_nil⟩

theorem analyzeSource_violations (a : Analyzer) (path : Path) (source : String)
    (memories : List Memory)
    (hfixed : ∀ v ∈ (a.fixedState disk path source ⟨memories, []⟩).fixed, v.fixed = true) :
    (a.analyzeSource disk path source memories).1.fixedCount =
        (a.fixedState disk path source ⟨memories, []⟩).fixed.length ∧
      (a.analyzeSource disk path source memories).1.unfixed =
        (a.closing disk (a.lastRound disk path source ⟨memories, []⟩)).desk.violations.mergeSort
          Report.violationLe := by
  have hrest := (reportOnly_closing disk a
    (r := a.lastRound disk path source ⟨memories, []⟩) rfl).unfixed
  have hviolations : (a.analyzeSource disk path source memories).1.violations =
      ((a.fixedState disk path source ⟨memories, []⟩).fixed ++
        (a.closing disk (a.lastRound disk path source ⟨memories, []⟩)).desk.violations).mergeSort
          Report.violationLe := by
    rw [← analyzeText_violations]
    rfl
  generalize (a.closing disk (a.lastRound disk path source ⟨memories, []⟩)).desk.violations = vs
    at hrest hviolations ⊢
  generalize (a.fixedState disk path source ⟨memories, []⟩).fixed = fs at hfixed hviolations ⊢
  have hnone : vs.filter (·.fixed) = [] :=
    List.filter_eq_nil_iff.2 fun v hv => by simp [hrest v hv]
  have hall : fs.filter (·.fixed) = fs := List.filter_eq_self.2 hfixed
  have hdone : fs.filter (fun v => !v.fixed) = [] :=
    List.filter_eq_nil_iff.2 fun v hv => by simp [hfixed v hv]
  refine ⟨?_, ?_⟩
  · rw [Report.fixedCount, hviolations, (List.mergeSort_perm _ _).countP_eq,
      List.countP_eq_length_filter, List.filter_append, hnone, hall, List.append_nil]
  · rw [Report.unfixed, hviolations, Report.filter_mergeSort, List.filter_append, hdone,
      List.nil_append, List.filter_eq_self.2 fun v hv => by simp [hrest v hv]]

theorem analyzeSource_files (a : Analyzer) (path : Path) (source : String) (memories : List Memory) :
    (a.analyzeSource disk path source memories).1.files =
      [⟨path, (a.fixedState disk path source ⟨memories, []⟩).passes,
        (a.fixedState disk path source ⟨memories, []⟩).converged,
        if (a.fixedState disk path source ⟨memories, []⟩).text = source then none
        else some (a.fixedState disk path source ⟨memories, []⟩).text⟩] := by
  simp only [analyzeSource, analyzeText, Report.sorted, List.mergeSort_singleton]

theorem eq_some_of_differs {text source s : String} :
    (if text = source then none else some text) = some s ↔ s = text ∧ s ≠ source := by
  by_cases h : text = source
  · simp only [h, if_true, reduceCtorEq, false_iff]
    exact fun ⟨hs, hne⟩ => hne hs
  · simp only [h, if_false, Option.some.injEq]
    exact ⟨fun hs => ⟨hs.symm, fun hss => h (hs.trans hss)⟩, fun hs => hs.1.symm⟩

/-- When fixing with rules that edit only with reported fixes, the outcome counts the fix passes that
committed something, of which there are as many as allowed exactly if fixing has not converged;
there are as many fixed violations as commits, the others are those of the last pass, and the text
is the source after all commits. -/
theorem fixes_accounted (a : Analyzer) (hfixing : a.fixing = true)
    (hrules : ∀ rule ∈ a.rules, rule.EditsByFixing) (disk : Disk) (path : Path) (source : String)
    (memories : List Memory) :
    let report := (a.analyzeSource disk path source memories).1
    let fixRounds := a.fixRoundsOf disk path source ⟨memories, []⟩
    let last := a.lastRound disk path source ⟨memories, []⟩
    let text := a.applyCommits disk fixRounds source
    ∃ outcome, report.files = [outcome] ∧
      outcome.passes = a.changingRounds disk fixRounds ∧ outcome.passes ≤ a.maxPasses ∧
      (outcome.converged = false ↔ outcome.passes = a.maxPasses) ∧
      report.fixedCount = a.commitCount disk fixRounds ∧
      report.unfixed = (a.closing disk last).desk.violations.mergeSort Report.violationLe ∧
      last.text = text ∧
      ∀ s, outcome.fixedSource = some s ↔ s = text ∧ s ≠ source := by
  dsimp only
  have hfollows := fixLoop_follows disk a path a.fixPasses (a.fixStart source ⟨memories, []⟩)
  have hlength := length_fixed_fixLoop disk hrules path a.fixPasses (a.fixStart source ⟨memories, []⟩)
  rw [← fixedState_eq, ← fixRoundsOf] at hfollows hlength
  obtain ⟨htext, hpasses, hle, hconverged, hfixed⟩ := hfollows
  rw [fixPasses, if_pos hfixing] at hle hconverged
  have hstart : (a.fixStart source ⟨memories, []⟩).converged = false := by
    rw [fixStart, hfixing]
    rfl
  have hzero : (a.fixStart source ⟨memories, []⟩).passes = 0 := rfl
  have hnil : (a.fixStart source ⟨memories, []⟩).fixed.length = 0 := rfl
  have hfixed := hfixed fun v hv => absurd hv List.not_mem_nil
  have hconverged := hconverged hstart
  obtain ⟨hcount, hunfixed⟩ := analyzeSource_violations disk a path source memories hfixed
  rw [hzero, Nat.zero_add] at hpasses hle hconverged
  rw [hnil, Nat.zero_add] at hlength
  have hfiles := analyzeSource_files disk a path source memories
  rw [htext] at hfiles
  exact ⟨_, hfiles, hpasses, hle, hconverged, hcount.trans hlength, hunfixed, htext,
    fun s => eq_some_of_differs⟩

/-- Two rules that undo each other use up all passes, each with one commit and one fixed violation. -/
theorem oscillation_accounted :
    let a : Analyzer :=
      ⟨⟨"/"⟩, [.renaming "forth" "$a" "$b", .renaming "back" "$b" "$a"], [], {}, true, 3⟩
    let report := (a.analyzeSource {} ⟨"a.php"⟩ "<?php $a;" [{}, {}]).1
    report.fixedCount = 3 ∧ ∃ outcome, report.files = [outcome] ∧ outcome.passes = 3 ∧
      outcome.converged = false ∧ outcome.fixedSource = some "<?php $b;" := by
  intro a report
  have hrules : ∀ rule ∈ a.rules, rule.EditsByFixing := by
    intro rule hrule
    rcases List.mem_pair.1 hrule with rfl | rfl
    · exact Rule.editsByFixing_ofFindings _ _
    · exact Rule.editsByFixing_ofFindings _ _
  obtain ⟨outcome, hfiles, hpasses, -, hconverged, hcount, -, -, hsource⟩ :=
    fixes_accounted a rfl hrules {} ⟨"a.php"⟩ "<?php $a;" [{}, {}]
  have hthree : a.changingRounds {}
      (a.fixRoundsOf {} ⟨"a.php"⟩ "<?php $a;" ⟨[{}, {}], []⟩) = 3 := by decide +kernel
  have hcommits : a.commitCount {}
      (a.fixRoundsOf {} ⟨"a.php"⟩ "<?php $a;" ⟨[{}, {}], []⟩) = 3 := by decide +kernel
  have htext : a.applyCommits {} (a.fixRoundsOf {} ⟨"a.php"⟩ "<?php $a;" ⟨[{}, {}], []⟩)
      "<?php $a;" = "<?php $b;" := by decide +kernel
  have hpasses := hpasses.trans hthree
  exact ⟨hcount.trans hcommits, outcome, hfiles, hpasses, hconverged.2 hpasses,
    (hsource _).2 ⟨htext.symm, by decide⟩⟩

end Analyzer

end PhpStyle
