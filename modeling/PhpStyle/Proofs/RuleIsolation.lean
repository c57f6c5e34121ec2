import PhpStyle.Proofs.FixLoop

/-!
# Rules do not see each other

All rules of a pass work at one desk. Where fixes are not applied, an invocation hands the buffer
back as it found it (`ActiveRule.perform_desk`): commits are dropped, and a changeset left open is
rolled back. What it adds to the violations and failures bears its own rule's name, and only that
name can be switched off. So the part of a pass that bears one name goes through the same steps as
the pass of that rule alone (`PassState.Shows`), and a stable sort keeps that part in order
(`Analyzer.reports_as_alone`).
-/

namespace PhpStyle

theorem EditBuffer.rollback_commit {b b' : EditBuffer} {committed : Bool} (hoff : b.enabled = false)
    (h : b.commit = .ok (committed, b')) : b'.rollback = b.rollback := by
  unfold commit at h
  split at h
  · cases h
  · simp only at h
    rw [if_pos (by simp [hoff])] at h
    cases h
    rfl

theorem FixScript.rollback_run (script : FixScript) {b : EditBuffer} (hoff : b.enabled = false) :
    (script.run b).2.rollback = b.rollback := by
  induction script generalizing b with
  | done => rfl
  | fail e => rfl
  | look next ih => exact ih b hoff
  | openChangeset next ih =>
    rw [run]
    cases h : b.openChangeset with
    | ok b' =>
      obtain ⟨-, rfl⟩ := EditBuffer.openChangeset_eq_ok h
      exact ih (.ok ()) hoff
    | error e => exact ih (.error e) hoff
  | stage edit next ih =>
    rw [run]
    cases h : b.stage edit with
    | ok b' =>
      obtain ⟨base, st, -, -, rfl⟩ := EditBuffer.stage_eq_ok h
      exact ih (.ok ()) hoff
    | error e => exact ih (.error e) hoff
  | commit next ih =>
    rw [run]
    cases h : b.commit with
    | ok p =>
      have hoff' : p.2.enabled = false := (EditBuffer.enabled_of_commit h).trans hoff
      exact (ih (.ok p.1) hoff').trans (EditBuffer.rollback_commit hoff h)
    | error e => exact ih (.error e) hoff
  | rollback next ih => exact ih hoff

namespace ActiveRule

variable (r : ActiveRule) (site : Site) {b : EditBuffer}

theorem rule_violation? {index : Nat} {message : String} {help : Option String} {fixable : Bool}
    {v : Violation} (h : r.violation? site index message help fixable = some v) :
    v.rule = r.name := by
  unfold violation? at h
  simp only at h
  split at h
  · cases h
  · cases h
    rfl

/-- What a script answers and adds does not depend on the violations before, and bears the name of
its rule; the buffer is as before up to a changeset that is left open. -/
theorem run_frame (script : RuleScript) (hoff : b.enabled = false) : ∃ outcome added after,
    after.rollback = b.rollback ∧ (∀ v ∈ added, v.rule = r.name) ∧
      ∀ vs, r.run site script ⟨b, vs⟩ = (outcome, ⟨after, vs ++ added⟩) := by
  induction script generalizing b with
  | done => exact ⟨.ok (), [], b, rfl, by simp, by simp [run]⟩
  | fail e => exact ⟨.error e, [], b, rfl, by simp, by simp [run]⟩
  | look next ih => exact ih b hoff
  | report index message help next ih =>
    cases hv : r.violation? site index message help false with
    | none =>
      obtain ⟨outcome, added, after, hback, hadded, hrun⟩ := ih false hoff
      exact ⟨outcome, added, after, hback, hadded, fun vs => by rw [run, hv]; exact hrun vs⟩
    | some v =>
      obtain ⟨outcome, added, after, hback, hadded, hrun⟩ := ih true hoff
      refine ⟨outcome, v :: added, after, hback, ?_, fun vs => ?_⟩
      · exact List.forall_mem_cons.2 ⟨r.rule_violation? site hv, hadded⟩
      · rw [run, hv]
        exact (hrun _).trans (by rw [List.append_assoc, List.singleton_append])
  | fixable index message fix next ih =>
    obtain ⟨outcome, added, after, hback, hadded, hrun⟩ := ih (.ok false) hoff
    cases hv : r.violation? site index message none true with
    | none =>
      exact ⟨outcome, added, after, hback, hadded, fun vs => by rw [run, hv]; exact hrun vs⟩
    | some v =>
      refine ⟨outcome, v :: added, after, hback, ?_, fun vs => ?_⟩
      · exact List.forall_mem_cons.2 ⟨r.rule_violation? site hv, hadded⟩
      · rw [run, hv]
        simp only [hoff, Bool.false_eq_true, if_false]
        exact (hrun _).trans (by rw [List.append_assoc, List.singleton_append])
  | edit fix next ih =>
    obtain ⟨outcome, added, after, hback, hadded, hrun⟩ :=
      ih (fix.run b).1 ((fix.enabled_run b).trans hoff)
    exact ⟨outcome, added, after, hback.trans (fix.rollback_run hoff), hadded, hrun⟩

/-- An invocation leaves the buffer as it found it, and adds violations that bear its rule's name. -/
theorem perform_desk (script : RuleScript) (i : Nat) (hoff : b.enabled = false)
    (hidle : b.staged = none) : ∃ outcome added, (∀ v ∈ added, v.rule = r.name) ∧
      ∀ vs, (r.run site script ⟨b, vs⟩).1 = outcome ∧
        r.close site i (r.run site script ⟨b, vs⟩).2 = ⟨b, vs ++ added⟩ := by
  obtain ⟨outcome, added, after, hback, hadded, hrun⟩ := r.run_frame site script hoff
  have hb : b.rollback = b := by
    rw [EditBuffer.rollback, ← hidle]
  rw [hb] at hback
  by_cases hopen : after.inChangeset = true
  · refine ⟨outcome, added ++ [r.leak site i], ?_, fun vs => ?_⟩
    · intro v hv
      rcases List.mem_append.1 hv with hv | hv
      · exact hadded v hv
      · rw [List.mem_singleton.1 hv]
        rfl
    · rw [hrun vs]
      refine ⟨rfl, ?_⟩
      simp only [close, hopen, if_true, hback, List.append_assoc]
  · refine ⟨outcome, added, hadded, fun vs => ?_⟩
    rw [hrun vs]
    refine ⟨rfl, ?_⟩
    have hafter : after = b := by
      rw [← hback, EditBuffer.rollback]
      simp only [EditBuffer.inChangeset, Option.isSome_iff_ne_none, ne_eq, not_not] at hopen
      rw [← hopen]
    rw [close, if_neg hopen, hafter]

end ActiveRule

theorem Report.filter_addFailure (fs : List RuleFailure) (f : RuleFailure) (name : String) :
    ((({ failures := fs : Report }).addFailure f).failures).filter (·.rule == name) =
      if f.rule = name then
        (({ failures := fs.filter (·.rule == name) : Report }).addFailure f).failures
      else fs.filter (·.rule == name) := by
  unfold addFailure hasFailure
  by_cases hname : f.rule = name
  · subst hname
    have hany : (fs.filter (·.rule == f.rule)).any (fun g => g.rule == f.rule && g.message == f.message) =
        fs.any fun g => g.rule == f.rule && g.message == f.message := by
      rw [List.any_filter]
      congr 1
      funext g
      cases g.rule == f.rule <;> rfl
    simp only [hany, if_true]
    split
    · rfl
    · simp
  · rw [if_neg hname]
    split
    · rfl
    · simp [hname]

namespace PassState

variable {b : EditBuffer} {name : String} {n : Nat} {s s' : PassState} {site : Site} {i : Nat}

/-- The desks hold the same buffer `b`, and the second state is what the first shows of the rule
number `n` called `name`. -/
structure Shows (b : EditBuffer) (name : String) (n : Nat) (s s' : PassState) : Prop where
  buffer : s.desk.buffer = b
  buffer' : s'.desk.buffer = b
  violations : s.desk.violations.filter (·.rule == name) = s'.desk.violations
  failures : s.failures.filter (·.rule == name) = s'.failures
  disabled : s.run.disabled.contains name = s'.run.disabled.contains name
  memory : s.run.memories[n]?.toList = s'.run.memories

/-- The state after an invocation that ended with `outcome` and added `added`. -/
def afterwards (s : PassState) (outcome : Except RuleError Unit) (added : List Violation) (n : Nat)
    (memory : Memory) (r : ActiveRule) (file : Path) : PassState :=
  let s' : PassState :=
    { desk := { s.desk with violations := s.desk.violations ++ added }
      run := { s.run with memories := s.run.memories.set n memory }
      failures := s.failures }
  match outcome with
  | .ok () => s'
  | .error e => s'.fail r file e

theorem invoke_frame (hoff : b.enabled = false) (hidle : b.staged = none) (site : Site) (i : Nat)
    (rule : Rule) (r : ActiveRule) (memory : Memory) :
    ∃ outcome added memory', (∀ v ∈ added, v.rule = r.name) ∧
      ∀ (s : PassState) (n : Nat), s.desk.buffer = b → s.run.memories[n]?.getD {} = memory →
        s.invoke site i n rule r = s.afterwards outcome added n memory' r site.file.path := by
  rcases hprocess : rule.process site i memory with ⟨script, memory'⟩
  obtain ⟨outcome, added, hadded, hrun⟩ := r.perform_desk site script i hoff hidle
  refine ⟨outcome, added, memory', hadded, fun s n hb hmemory => ?_⟩
  obtain ⟨⟨buffer, violations⟩, run, failures⟩ := s
  obtain rfl : buffer = b := hb
  obtain ⟨houtcome, hclose⟩ := hrun violations
  unfold invoke afterwards
  rw [show run.memories[n]?.getD {} = memory from hmemory, hprocess]
  cases outcome with
  | ok => simp only [hclose, houtcome]
  | error e => simp only [hclose, houtcome]

theorem Shows.own (h : Shows b name n s s') {outcome : Except RuleError Unit} {added : List Violation}
    {memory : Memory} {r : ActiveRule} (hr : r.name = name) (hadded : ∀ v ∈ added, v.rule = r.name)
    (file : Path) : Shows b name n (s.afterwards outcome added n memory r file)
      (s'.afterwards outcome added 0 memory r file) := by
  have hfilter : added.filter (·.rule == name) = added :=
    List.filter_eq_self.2 fun v hv => by simp [hadded v hv, hr]
  have hmemory : (s.run.memories.set n memory)[n]?.toList = s'.run.memories.set 0 memory := by
    rw [← h.memory, List.getElem?_set_self']
    cases s.run.memories[n]? <;> rfl
  cases outcome with
  | ok =>
    refine ⟨h.buffer, h.buffer', ?_, h.failures, h.disabled, hmemory⟩
    simp only [afterwards, List.filter_append, hfilter, h.violations]
  | error e =>
    refine ⟨h.buffer, h.buffer', ?_, ?_, ?_, ?_⟩
    · simp only [afterwards, fail, List.filter_append, hfilter, h.violations]
    · simp only [afterwards, fail, Report.filter_addFailure, hr, if_true, h.failures]
    · have hdisabled := h.disabled
      simp only [afterwards, fail]
      split
      · simp [hr]
      · exact hdisabled
    · simp only [afterwards, fail]
      split <;> exact hmemory

/-- A rule of another name and number changes nothing that is shown. -/
theorem Shows.other (h : Shows b name n s s') {outcome : Except RuleError Unit}
    {added : List Violation} {memory : Memory} {r : ActiveRule} (hr : r.name ≠ name)
    (hadded : ∀ v ∈ added, v.rule = r.name) {m : Nat} (hm : m ≠ n) (file : Path) :
    Shows b name n (s.afterwards outcome added m memory r file) s' := by
  have hfilter : added.filter (·.rule == name) = [] :=
    List.filter_eq_nil_iff.2 fun v hv => by simp [hadded v hv, hr]
  have hviolations : (s.desk.violations ++ added).filter (·.rule == name) = s'.desk.violations := by
    rw [List.filter_append, hfilter, List.append_nil, h.violations]
  have hmemory : (s.run.memories.set m memory)[n]?.toList = s'.run.memories := by
    rw [List.getElem?_set_ne hm, h.memory]
  cases outcome with
  | ok => exact ⟨h.buffer, h.buffer', hviolations, h.failures, h.disabled, hmemory⟩
  | error e =>
    refine ⟨h.buffer, h.buffer', hviolations, ?_, ?_, ?_⟩
    · simp only [afterwards, fail, Report.filter_addFailure, hr, if_false, h.failures]
    · have hdisabled := h.disabled
      simp only [afterwards, fail]
      split
      · simpa [Ne.symm hr] using hdisabled
      · exact hdisabled
    · simp only [afterwards, fail]
      split <;> exact hmemory

end PassState

/-! ### Passes -/

namespace Worker

variable {b : EditBuffer} {name : String} {n : Nat} {s s' : PassState} {site : Site} {i : Nat}
  {kind : Kind} {w : Worker}

/-- The rule as the only one of its pass. -/
def alone (w : Worker) : Worker :=
  { w with number := 0 }

theorem shows_visit_own (hoff : b.enabled = false) (hidle : b.staged = none)
    (h : s.Shows b name w.number s') (hw : w.active.name = name) :
    (w.visit site i kind s).Shows b name w.number (w.alone.visit site i kind s') := by
  have hdisabled := h.disabled
  rw [← hw] at hdisabled
  unfold visit alone
  simp only [hdisabled]
  split
  · obtain ⟨outcome, added, memory, hadded, hinvoke⟩ :=
      PassState.invoke_frame hoff hidle site i w.rule w.active (s.run.memories[w.number]?.getD {})
    have hmemory : s'.run.memories[0]?.getD {} = s.run.memories[w.number]?.getD {} := by
      rw [← h.memory]
      cases s.run.memories[w.number]? <;> rfl
    rw [hinvoke s w.number h.buffer rfl, hinvoke s' 0 h.buffer' hmemory]
    exact h.own hw hadded _
  · exact h

theorem shows_visit_other (hoff : b.enabled = false) (hidle : b.staged = none)
    (h : s.Shows b name n s') (hw : w.active.name ≠ name) (hnumber : w.number ≠ n) :
    (w.visit site i kind s).Shows b name n s' := by
  unfold visit
  split
  · obtain ⟨outcome, added, memory, hadded, hinvoke⟩ :=
      PassState.invoke_frame hoff hidle site i w.rule w.active (s.run.memories[w.number]?.getD {})
    rw [hinvoke s w.number h.buffer rfl]
    exact h.other hw hadded hnumber _
  · exact h

/-- Exactly the worker number `n` is called `name`. -/
def OnlyNamed (name : String) (n : Nat) (w : Worker) : Prop :=
  w.number = n ↔ w.active.name = name

/-- The workers without all but the number `n`, which stands alone. -/
def onlyNumber (n : Nat) (workers : List Worker) : List Worker :=
  (workers.filter (·.number == n)).map alone

theorem shows_visitToken (hoff : b.enabled = false) (hidle : b.staged = none) {workers : List Worker}
    (hworkers : ∀ w ∈ workers, w.OnlyNamed name n) (h : s.Shows b name n s') :
    (visitToken site workers i kind s).Shows b name n
      (visitToken site (onlyNumber n workers) i kind s') := by
  induction workers generalizing s s' with
  | nil => exact h
  | cons w workers ih =>
    obtain ⟨hw, hworkers⟩ := List.forall_mem_cons.1 hworkers
    by_cases hnumber : w.number = n
    · have honly : onlyNumber n (w :: workers) = w.alone :: onlyNumber n workers := by
        simp [onlyNumber, hnumber]
      rw [honly]
      subst hnumber
      exact ih hworkers (shows_visit_own hoff hidle h (hw.1 rfl))
    · have honly : onlyNumber n (w :: workers) = onlyNumber n workers := by
        simp [onlyNumber, hnumber]
      rw [honly]
      exact ih hworkers (shows_visit_other hoff hidle h (mt hw.2 hnumber) hnumber)

theorem shows_visitTokens (hoff : b.enabled = false) (hidle : b.staged = none) {workers : List Worker}
    (hworkers : ∀ w ∈ workers, w.OnlyNamed name n) (h : s.Shows b name n s') :
    (visitTokens site workers s).Shows b name n (visitTokens site (onlyNumber n workers) s') :=
  List.foldl_rel h fun _ _ _ _ h => shows_visitToken hoff hidle hworkers h

theorem filter_zipIdx_eq {α : Type} (l : List α) (k n : Nat) :
    (l.zipIdx k).filter (·.2 == k + n) = (l[n]?.map (·, k + n)).toList := by
  induction l generalizing k n with
  | nil => rfl
  | cons a l ih =>
    rw [List.zipIdx_cons, List.filter_cons]
    cases n with
    | zero =>
      have hrest : (l.zipIdx (k + 1)).filter (·.2 == k) = [] := by
        rw [List.filter_eq_nil_iff]
        intro p hp
        have := List.le_snd_of_mem_zipIdx hp
        simp only [beq_iff_eq]
        omega
      simp [hrest]
    | succ n =>
      have hrest := ih (k + 1) n
      rw [show k + 1 + n = k + (n + 1) by omega] at hrest
      rw [if_neg (by simp), hrest, List.getElem?_cons_succ]

theorem onlyNumber_ofRules {config : Config} {rules : List Rule} {rule : Rule}
    (h : rules[n]? = some rule) : onlyNumber n (ofRules config rules) = ofRules config [rule] := by
  have hzip : rules.zipIdx.filter (fun p => p.2 == n) = [(rule, n)] := by
    have := filter_zipIdx_eq rules 0 n
    rwa [Nat.zero_add, h] at this
  rw [onlyNumber, ofRules, List.filter_map, List.filter_filter, List.map_map]
  simp only [Function.comp_def, Bool.and_comm (_ == n)]
  rw [← List.filter_filter, hzip, ofRules]
  cases henabled : config.isEnabled rule.name <;> simp [henabled, alone]

theorem onlyNamed_of_mem {config : Config} {rules : List Rule} {rule : Rule}
    (hnames : (rules.map (·.name)).Nodup) (h : rules[n]? = some rule) (hw : w ∈ ofRules config rules) :
    w.OnlyNamed rule.name n := by
  obtain ⟨⟨r, m⟩, hp, rfl⟩ := List.mem_map.1 hw
  have hm : rules[m]? = some r :=
    List.mem_zipIdx_iff_getElem?.1 (List.mem_of_mem_filter hp)
  refine ⟨?_, fun hname => ?_⟩
  · rintro rfl
    obtain rfl := Option.some.inj (hm.symm.trans h)
    rfl
  · obtain ⟨hlt, -⟩ := List.getElem?_eq_some_iff.1 hm
    refine (List.getElem?_inj (by simpa using hlt) hnames).1 ?_
    simpa [hm, h] using hname

end Worker

namespace Analyzer

/-- The same analyzer with a single rule. -/
def withOnly (a : Analyzer) (rule : Rule) : Analyzer :=
  { a with rules := [rule] }

theorem pass_shows (a : Analyzer) (hnames : (a.rules.map (·.name)).Nodup) {n : Nat} {rule : Rule}
    (hrule : a.rules[n]? = some rule) (disk : Disk) (path : Path) (text : String)
    (memories : List Memory) :
    (a.pass disk path text false ⟨memories, []⟩ []).Shows
      (.ofTokens (Tokens.ofSource text) false) rule.name n
      ((a.withOnly rule).pass disk path text false ⟨memories[n]?.toList, []⟩ []) := by
  unfold pass runPass
  rw [workers, workers, withOnly, ← Worker.onlyNumber_ofRules hrule]
  refine Worker.shows_visitTokens rfl rfl (fun w hw => Worker.onlyNamed_of_mem hnames hrule hw) ?_
  exact ⟨rfl, rfl, rfl, rfl, rfl, rfl⟩

theorem pass_withFixing (a : Analyzer) (b : Bool) (disk : Disk) (path : Path) (text : String)
    (fixing : Bool) (run : RunState) (failures : List RuleFailure) :
    (a.withFixing b).pass disk path text fixing run failures =
      a.pass disk path text fixing run failures := rfl

theorem checking_eq (a : Analyzer) (disk : Disk) (path : Path) (source : String)
    (memories : List Memory) :
    let report := ((a.withFixing false).analyzeSource disk path source memories).1
    let p := a.pass disk path source false ⟨memories, []⟩ []
    report.violations = p.desk.violations.mergeSort Report.violationLe ∧ report.failures = p.failures := by
  have hs : (a.withFixing false).fixedState disk path source ⟨memories, []⟩ =
      { text := source, converged := true, run := ⟨memories, []⟩ } := rfl
  simp only [analyzeSource, analyzeText, hs, Report.sorted, List.nil_append, pass_withFixing, and_self]

/-- Checking with many rules of distinct names reports under each name what checking with that rule
alone reports, violations and failures alike, in the same order. -/
theorem reports_as_alone (a : Analyzer) (hnames : (a.rules.map (·.name)).Nodup) {n : Nat}
    {rule : Rule} (hrule : a.rules[n]? = some rule) (disk : Disk) (path : Path) (source : String)
    (memories : List Memory) :
    let all := ((a.withFixing false).analyzeSource disk path source memories).1
    let alone := (((a.withOnly rule).withFixing false).analyzeSource disk path source
      memories[n]?.toList).1
    all.violations.filter (·.rule == rule.name) = alone.violations ∧
      all.failures.filter (·.rule == rule.name) = alone.failures := by
  have h := pass_shows a hnames hrule disk path source memories
  obtain ⟨hall, hallFailures⟩ := checking_eq a disk path source memories
  obtain ⟨halone, haloneFailures⟩ := checking_eq (a.withOnly rule) disk path source memories[n]?.toList
  simp only [hall, hallFailures, halone, haloneFailures]
  exact ⟨by rw [Report.filter_mergeSort, h.violations], h.failures⟩

/-- A rule that opens a changeset, leaves it open and fails does not disturb the one for casts. -/
theorem casts_beside_broken_rule :
    let broken : Rule :=
      { name := "broken", code := "X1", description := "", severity := .error, fixable := false
        kinds := [.cast, .semicolon]
        process := fun _ _ m =>
          (.edit (.openChangeset fun _ => .done) fun _ => .fail (.config "no schema"), m) }
    let a : Analyzer := ⟨⟨"/"⟩, [broken, Rules.CastSpacing.rule 1], [], {}, false, 50⟩
    let all := ((a.withFixing false).analyzeSource {} ⟨"a.php"⟩ "<?php (int)$a; (int)$b;" [{}, {}]).1
    let alone := (((a.withOnly (Rules.CastSpacing.rule 1)).withFixing false).analyzeSource {}
      ⟨"a.php"⟩ "<?php (int)$a; (int)$b;" [{}]).1
    all.violations.length = 3 ∧ alone.violations.length = 2 ∧ all.failures.length = 1 ∧
      all.violations.filter (·.rule == "cast-spacing") = alone.violations ∧
      all.failures.filter (·.rule == "cast-spacing") = alone.failures := by
  intro broken a all alone
  have hnames : (a.rules.map (·.name)).Nodup := by decide +kernel
  have hrule : a.rules[1]? = some (Rules.CastSpacing.rule 1) := rfl
  have hmemory : ([{}, {}] : List Memory)[1]?.toList = [({} : Memory)] := rfl
  have hname : (Rules.CastSpacing.rule 1).name = "cast-spacing" := rfl
  have h := reports_as_alone a hnames hrule {} ⟨"a.php"⟩ "<?php (int)$a; (int)$b;" [{}, {}]
  rw [hmemory, hname] at h
  obtain ⟨hall, hfailures⟩ := checking_eq a {} ⟨"a.php"⟩ "<?php (int)$a; (int)$b;" [{}, {}]
  obtain ⟨halone, -⟩ := checking_eq (a.withOnly (Rules.CastSpacing.rule 1)) {} ⟨"a.php"⟩
    "<?php (int)$a; (int)$b;" [{}]
  refine ⟨?_, ?_, ?_, h⟩
  · rw [hall, List.length_mergeSort]
    decide +kernel
  · rw [halone, List.length_mergeSort]
    decide +kernel
  · rw [hfailures]
    decide +kernel

end Analyzer

end PhpStyle
