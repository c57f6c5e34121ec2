import PhpStyle.Analyzer.Basic
import PhpStyle.Proofs.Changesets
import PhpStyle.Proofs.ReportOrder
import PhpStyle.Rules.CastSpacing

/-!
# Fixing and then checking

A `Rule.Steady` rule acts by the site and the answers to its script alone, and never switches itself
off. Under such rules the desk that a pass leaves depends on the text and on whether fixes are
applied, not on what was remembered or failed before (`Analyzer.pass_desk`). A pass without fixes
reports nothing as fixed (`Analyzer.deskOf_reportOnly`), so the unfixed violations after fixing are
those of the last pass, and a text on which fixing has converged is left alone by fixing it again
(`Analyzer.fixing_agrees_with_checking`).
-/

namespace PhpStyle

/-- The script of an invocation does not depend on what the rule remembers, and none ends with an
error of configuration. -/
structure Rule.Steady (rule : Rule) : Prop where
  script_eq : ∀ site i m m', (rule.process site i m).1 = (rule.process site i m').1
  no_config : ∀ severity site i m d message,
    (ActiveRule.run ⟨rule.name, rule.code, severity⟩ site (rule.process site i m).1 d).1 ≠
      .error (.config message)

theorem FixScript.run_ofEdits_ne_config (es : List Edit) (b : EditBuffer) (message : String) :
    ((ofEdits es).run b).1 ≠ .error (.config message) := by
  induction es generalizing b with
  | nil => exact nofun
  | cons e es ih =>
    rw [ofEdits, run]
    cases b.stage e with
    | ok b' => exact ih b'
    | error cause => exact nofun

theorem EditBuffer.changeset_ne_config {body : EditBuffer → Except RuleError Unit × EditBuffer}
    {message : String} (hbody : ∀ b, (body b).1 ≠ .error (.config message)) (b : EditBuffer) :
    (b.changeset RuleError.edit body).1 ≠ .error (.config message) := by
  unfold changeset
  split
  · exact nofun
  · rename_i opened hopened
    split
    · rename_i e after hafter
      intro h
      cases h
      exact hbody opened (by rw [hafter])
    · split
      · exact nofun
      · exact nofun

theorem ActiveRule.run_ofFindings_ne_config (r : ActiveRule) (site : Site) (fs : List Finding)
    (d : Desk) (message : String) :
    (r.run site (.ofFindings fs) d).1 ≠ .error (.config message) := by
  induction fs generalizing d with
  | nil => exact nofun
  | cons f fs ih =>
    rw [RuleScript.ofFindings]
    split
    · rw [run]
      split
      · exact ih d
      · exact ih _
    · rename_i edits _
      rw [run]
      split
      · exact ih d
      · split
        · have hchange := EditBuffer.changeset_ne_config
            (fun b => FixScript.run_ofEdits_ne_config edits b message) d.buffer
          generalize d.buffer.changeset RuleError.edit (FixScript.ofEdits edits).run = result
            at hchange ⊢
          obtain ⟨e | committed, b⟩ := result
          · intro h
            obtain rfl : e = .config message := Except.error.inj h
            exact hchange rfl
          · exact ih _
        · exact ih _

theorem Rule.steady_ofFindings (info : RuleInfo) (findings : Site → Nat → List Finding) :
    (Rule.ofFindings info findings).Steady where
  script_eq _ _ _ _ := rfl
  no_config _ site i _ d message := ActiveRule.run_ofFindings_ne_config _ site (findings site i) d message

theorem EditBuffer.enabled_of_commit {b b' : EditBuffer} {committed : Bool}
    (h : b.commit = .ok (committed, b')) : b'.enabled = b.enabled := by
  unfold commit at h
  split at h
  · cases h
  · simp only at h
    split at h
    · cases h; rfl
    split at h
    · cases h; rfl
    · cases h; rfl

theorem FixScript.enabled_run (script : FixScript) (b : EditBuffer) :
    (script.run b).2.enabled = b.enabled := by
  induction script generalizing b with
  | done => rfl
  | fail e => rfl
  | look next ih => exact ih b b
  | openChangeset next ih =>
    rw [run]
    cases h : b.openChangeset with
    | ok b' =>
      obtain ⟨-, rfl⟩ := EditBuffer.openChangeset_eq_ok h
      exact ih (.ok ()) _
    | error e => exact ih (.error e) b
  | stage edit next ih =>
    rw [run]
    cases h : b.stage edit with
    | ok b' =>
      obtain ⟨base, st, -, -, rfl⟩ := EditBuffer.stage_eq_ok h
      exact ih (.ok ()) _
    | error e => exact ih (.error e) b
  | commit next ih =>
    rw [run]
    cases h : b.commit with
    | ok p => exact (ih (.ok p.1) p.2).trans (EditBuffer.enabled_of_commit h)
    | error e => exact ih (.error e) b
  | rollback next ih => exact ih b.rollback

/-- Commits are not applied, and no violation is said to be fixed. -/
structure Desk.ReportOnly (d : Desk) : Prop where
  disabled : d.buffer.enabled = false
  unfixed : ∀ v ∈ d.violations, v.fixed = false

namespace Desk.ReportOnly

variable {r : ActiveRule} {site : Site} {d : Desk}

theorem push (h : d.ReportOnly) {b : EditBuffer} (hb : b.enabled = d.buffer.enabled) {v : Violation}
    (hv : v.fixed = false) : ReportOnly ⟨b, d.violations ++ [v]⟩ where
  disabled := hb.trans h.disabled
  unfixed w hw := by
    rcases List.mem_append.1 hw with hw | hw
    · exact h.unfixed w hw
    · rwa [List.mem_singleton.1 hw]

theorem fixed_violation? {index : Nat} {message : String} {help : Option String} {fixable : Bool}
    {v : Violation} (h : r.violation? site index message help fixable = some v) :
    v.fixed = false := by
  unfold ActiveRule.violation? at h
  simp only at h
  split at h
  · cases h
  · cases h; rfl

/-- A script cannot report a fix where none is applied. -/
theorem run (h : d.ReportOnly) (script : RuleScript) : (r.run site script d).2.ReportOnly := by
  induction script generalizing d with
  | done => exact h
  | fail e => exact h
  | look next ih => exact ih d.buffer h
  | report index message help next ih =>
    rw [ActiveRule.run]
    split
    · exact ih false h
    · rename_i v hv
      exact ih true (h.push rfl (fixed_violation? hv))
  | fixable index message fix next ih =>
    rw [ActiveRule.run]
    split
    · exact ih (.ok false) h
    · rename_i v hv
      rw [if_neg (by simp [h.disabled])]
      exact ih (.ok false) (h.push rfl (fixed_violation? hv))
  | edit fix next ih =>
    rw [ActiveRule.run]
    exact ih _ ⟨(fix.enabled_run d.buffer).trans h.disabled, h.unfixed⟩

theorem close (h : d.ReportOnly) (index : Nat) : (r.close site index d).ReportOnly := by
  unfold ActiveRule.close
  split
  · exact h.push (b := d.buffer.rollback) (v := r.leak site index) rfl rfl
  · exact h

end Desk.ReportOnly

/-! ### Passes -/

namespace PassState

variable {site : Site} {i : Nat}

theorem disabled_fail {e : RuleError} (he : ∀ message, e ≠ .config message) (s : PassState)
    (r : ActiveRule) (file : Path) : (s.fail r file e).run.disabled = s.run.disabled := by
  cases e with
  | config message => exact absurd rfl (he message)
  | invariant message => rfl
  | edit cause => rfl

theorem desk_invoke (s : PassState) (n : Nat) (rule : Rule) (r : ActiveRule) :
    (s.invoke site i n rule r).desk =
      r.close site i (r.run site (rule.process site i (s.run.memories[n]?.getD {})).1 s.desk).2 := by
  unfold invoke
  simp only
  split
  · rfl
  · rfl

/-- Both passes have come equally far, with no rule off. -/
structure Alike (s s' : PassState) : Prop where
  desk_eq : s.desk = s'.desk
  on : s.run.disabled = []
  on' : s'.run.disabled = []

end PassState

/-- The identity at work is that of the rule. -/
def Worker.Named (w : Worker) : Prop :=
  ∃ severity, w.active = ⟨w.rule.name, w.rule.code, severity⟩

namespace Worker

variable {site : Site} {i : Nat} {kind : Kind} {w : Worker}

theorem of_mem_ofRules {config : Config} {rules : List Rule} (h : w ∈ ofRules config rules) :
    w.rule ∈ rules ∧ w.Named := by
  obtain ⟨p, hp, rfl⟩ := List.mem_map.1 h
  exact ⟨List.fst_mem_of_mem_zipIdx (List.mem_of_mem_filter hp), _, rfl⟩

theorem desk_visit {s : PassState} (hon : s.run.disabled = []) (hw : w.rule.Steady) :
    (w.visit site i kind s).desk =
      if w.rule.kinds.contains kind then
        w.active.close site i (w.active.run site (w.rule.process site i {}).1 s.desk).2
      else s.desk := by
  rw [visit, hon]
  by_cases hk : w.rule.kinds.contains kind = true
  · rw [if_pos (by simpa using hk), if_pos hk, PassState.desk_invoke, hw.script_eq _ _ _ {}]
  · rw [if_neg (by simpa using hk), if_neg hk]

theorem disabled_visit {s : PassState} (hon : s.run.disabled = []) (hw : w.rule.Steady)
    (hname : w.Named) : (w.visit site i kind s).run.disabled = [] := by
  obtain ⟨severity, hactive⟩ := hname
  unfold visit
  split
  · unfold PassState.invoke
    simp only
    split
    · exact hon
    · rename_i e he
      rw [PassState.disabled_fail ?_ _ _ _]
      · exact hon
      · rintro message rfl
        rw [hactive] at he
        exact hw.no_config severity site i _ _ message he
  · exact hon

theorem alike_visit {s s' : PassState} (h : s.Alike s') (hw : w.rule.Steady) (hname : w.Named) :
    (w.visit site i kind s).Alike (w.visit site i kind s') where
  desk_eq := by rw [desk_visit h.on hw, desk_visit h.on' hw, h.desk_eq]
  on := disabled_visit h.on hw hname
  on' := disabled_visit h.on' hw hname

theorem reportOnly_visit {s : PassState} (h : s.desk.ReportOnly) :
    (w.visit site i kind s).desk.ReportOnly := by
  unfold visit
  split
  · rw [PassState.desk_invoke]
    exact (h.run _).close i
  · exact h

end Worker

theorem alike_visitTokens {site : Site} {workers : List Worker}
    (hworkers : ∀ w ∈ workers, w.rule.Steady ∧ w.Named) {s s' : PassState} (h : s.Alike s') :
    (visitTokens site workers s).Alike (visitTokens site workers s') := by
  refine List.foldl_rel h fun p _ s s' h => ?_
  exact List.foldl_rel h fun w hw s s' h => Worker.alike_visit h (hworkers w hw).1 (hworkers w hw).2

theorem reportOnly_visitTokens {site : Site} {workers : List Worker} {s : PassState}
    (h : s.desk.ReportOnly) : (visitTokens site workers s).desk.ReportOnly := by
  refine List.foldlRecOn (motive := fun s : PassState => s.desk.ReportOnly) _ _ h fun s h p _ => ?_
  exact List.foldlRecOn (motive := fun s : PassState => s.desk.ReportOnly) _ _ h
    fun s h w _ => Worker.reportOnly_visit h

namespace Analyzer

variable {a : Analyzer} (disk : Disk) (path : Path)

/-- The desk after a pass before which nothing was remembered. -/
def deskOf (a : Analyzer) (text : String) (fixing : Bool) : Desk :=
  (a.pass disk path text fixing ⟨[], []⟩ []).desk

theorem pass_alike (hrules : ∀ rule ∈ a.rules, rule.Steady) (text : String) (fixing : Bool)
    {run run' : RunState} (hon : run.disabled = []) (hon' : run'.disabled = [])
    (failures failures' : List RuleFailure) :
    (a.pass disk path text fixing run failures).Alike
      (a.pass disk path text fixing run' failures') := by
  unfold pass runPass
  refine alike_visitTokens (fun w hw => ?_) ⟨rfl, hon, hon'⟩
  obtain ⟨hrule, hname⟩ := Worker.of_mem_ofRules hw
  exact ⟨hrules _ hrule, hname⟩

theorem pass_desk (hrules : ∀ rule ∈ a.rules, rule.Steady) (text : String) (fixing : Bool)
    {run : RunState} (hon : run.disabled = []) (failures : List RuleFailure) :
    (a.pass disk path text fixing run failures).desk = a.deskOf disk path text fixing :=
  (pass_alike disk path hrules text fixing hon rfl failures []).desk_eq

theorem pass_disabled (hrules : ∀ rule ∈ a.rules, rule.Steady) (text : String) (fixing : Bool)
    {run : RunState} (hon : run.disabled = []) (failures : List RuleFailure) :
    (a.pass disk path text fixing run failures).run.disabled = [] :=
  (pass_alike disk path hrules text fixing hon hon failures failures).on

theorem deskOf_reportOnly (a : Analyzer) (text : String) :
    (a.deskOf disk path text false).ReportOnly := by
  unfold deskOf pass runPass
  exact reportOnly_visitTokens ⟨rfl, fun _ hv => absurd hv List.not_mem_nil⟩

/-- A fix pass over the text commits nothing. -/
def Stable (a : Analyzer) (text : String) : Prop :=
  (a.deskOf disk path text true).buffer.commits = 0

/-- No rule is off, only fixed violations are kept, and the text is stable once the loop has
converged. -/
structure FixState.Inv (a : Analyzer) (disk : Disk) (path : Path) (s : FixState) : Prop where
  on : s.run.disabled = []
  fixed : ∀ v ∈ s.fixed, v.fixed = true
  stable : s.converged = true → a.Stable disk path s.text

theorem inv_fixLoop (hrules : ∀ rule ∈ a.rules, rule.Steady) (n : Nat) {s : FixState}
    (h : s.Inv a disk path) : (a.fixLoop disk path n s).Inv a disk path := by
  induction n generalizing s with
  | zero => exact h
  | succ n ih =>
    have hdesk := pass_desk disk path hrules s.text true h.on s.failures
    have hon := pass_disabled disk path hrules s.text true h.on s.failures
    rw [fixLoop]
    generalize a.pass disk path s.text true s.run s.failures = p at hdesk hon ⊢
    by_cases hzero : p.desk.buffer.commits = 0
    · rw [if_pos hzero]
      have hstable : a.Stable disk path s.text := by rwa [Stable, ← hdesk]
      exact ⟨hon, h.fixed, fun _ => hstable⟩
    · rw [if_neg hzero]
      refine ih ⟨hon, fun v hv => ?_, fun hc => absurd hc Bool.false_ne_true⟩
      rcases List.mem_append.1 hv with hv | hv
      · exact h.fixed v hv
      · exact (List.mem_filter.1 hv).2

theorem fixLoop_of_stable (hrules : ∀ rule ∈ a.rules, rule.Steady) (n : Nat) {s : FixState}
    (hon : s.run.disabled = []) (hstable : a.Stable disk path s.text) :
    ∃ run failures, run.disabled = [] ∧ a.fixLoop disk path (n + 1) s =
      { s with converged := true, run := run, failures := failures } := by
  have hdesk := pass_desk disk path hrules s.text true hon s.failures
  have hon := pass_disabled disk path hrules s.text true hon s.failures
  rw [fixLoop]
  generalize a.pass disk path s.text true s.run s.failures = p at hdesk hon ⊢
  rw [Stable, ← hdesk] at hstable
  exact ⟨p.run, p.failures, hon, if_pos hstable⟩

theorem inv_fixedState (hrules : ∀ rule ∈ a.rules, rule.Steady) (hfixing : a.fixing = true)
    (source : String) (run : RunState) (hon : run.disabled = []) :
    (a.fixedState disk path source run).Inv a disk path := by
  rw [fixedState, if_pos hfixing]
  refine inv_fixLoop disk path hrules a.maxPasses ⟨hon, fun v hv => absurd hv List.not_mem_nil, ?_⟩
  intro hc
  rw [hfixing] at hc
  cases hc

theorem analyzeSource_eq (hrules : ∀ rule ∈ a.rules, rule.Steady) {source : String}
    {memories : List Memory} {s : FixState} (hon : s.run.disabled = [])
    (hs : a.fixedState disk path source ⟨memories, []⟩ = s) :
    (a.analyzeSource disk path source memories).1.violations =
        (s.fixed ++ (a.deskOf disk path s.text false).violations).mergeSort Report.violationLe ∧
      (a.analyzeSource disk path source memories).1.files =
        [⟨path, s.passes, s.converged, if s.text = source then none else some s.text⟩] := by
  simp only [analyzeSource, analyzeText, hs, Report.sorted, List.mergeSort_singleton, and_true,
    pass_desk disk path hrules s.text false hon s.failures]

theorem checking_violations (hrules : ∀ rule ∈ a.rules, rule.Steady) (hfixing : a.fixing = false)
    (source : String) (memories : List Memory) :
    (a.analyzeSource disk path source memories).1.violations =
      (a.deskOf disk path source false).violations.mergeSort Report.violationLe := by
  have hs : a.fixedState disk path source ⟨memories, []⟩ =
      { text := source, converged := true, run := ⟨memories, []⟩ } := by
    simp [fixedState, hfixing]
  have h := (analyzeSource_eq disk path hrules (by exact rfl) hs).1
  simpa only [List.nil_append] using h

theorem fixing_stable (hrules : ∀ rule ∈ a.rules, rule.Steady) (hfixing : a.fixing = true)
    (hpasses : a.maxPasses ≠ 0) {source : String} (hstable : a.Stable disk path source)
    (memories : List Memory) :
    (a.analyzeSource disk path source memories).1.violations =
        (a.deskOf disk path source false).violations.mergeSort Report.violationLe ∧
      (a.analyzeSource disk path source memories).1.files = [⟨path, 0, true, none⟩] := by
  obtain ⟨n, hn⟩ := Nat.exists_eq_succ_of_ne_zero hpasses
  obtain ⟨run, failures, hon, hloop⟩ := fixLoop_of_stable disk path hrules n
    (s := { text := source, converged := !a.fixing, run := ⟨memories, []⟩ }) rfl hstable
  have hs : a.fixedState disk path source ⟨memories, []⟩ =
      { text := source, converged := true, run := run, failures := failures } := by
    rw [fixedState, if_pos hfixing, hn, Nat.succ_eq_add_one, hloop]
  have h := analyzeSource_eq disk path hrules (by exact hon) hs
  simpa only [List.nil_append, if_pos] using h

theorem maxPasses_ne_zero_of_converged (hfixing : a.fixing = true) (source : String)
    (run : RunState) (h : (a.fixedState disk path source run).converged = true) :
    a.maxPasses ≠ 0 := by
  intro hzero
  simp [fixedState, hfixing, hzero, fixLoop] at h

theorem fixing_spec (hrules : ∀ rule ∈ a.rules, rule.Steady) (hfixing : a.fixing = true)
    (source : String) (memories : List Memory) :
    ∃ outcome, (a.analyzeSource disk path source memories).1.files = [outcome] ∧
      (a.analyzeSource disk path source memories).1.unfixed =
        (a.deskOf disk path (outcome.fixedSource.getD source) false).violations.mergeSort
          Report.violationLe ∧
      (outcome.converged = true →
        a.maxPasses ≠ 0 ∧ a.Stable disk path (outcome.fixedSource.getD source)) := by
  have hinv := inv_fixedState disk path hrules hfixing source ⟨memories, []⟩ rfl
  have hpasses := maxPasses_ne_zero_of_converged disk path hfixing source ⟨memories, []⟩
  generalize hs : a.fixedState disk path source ⟨memories, []⟩ = s at hinv hpasses
  obtain ⟨hviolations, hfiles⟩ := analyzeSource_eq disk path hrules hinv.on hs
  have htext : (if s.text = source then none else some s.text : Option String).getD source =
      s.text := by
    split
    · rename_i h
      exact h.symm
    · rfl
  refine ⟨_, hfiles, ?_⟩
  simp only [htext]
  refine ⟨?_, fun hc => ⟨hpasses hc, hinv.stable hc⟩⟩
  have hfixed : s.fixed.filter (fun v => !v.fixed) = [] :=
    List.filter_eq_nil_iff.2 fun v hv => by simp [hinv.fixed v hv]
  have hrest := (deskOf_reportOnly disk path a s.text).unfixed
  rw [Report.unfixed, hviolations, Report.filter_mergeSort, List.filter_append, hfixed,
    List.nil_append, List.filter_eq_self.2 fun v hv => by simp [hrest v hv]]

/-- The same analyzer with fixing on or off. -/
def withFixing (a : Analyzer) (fixing : Bool) : Analyzer :=
  { a with fixing := fixing }

theorem deskOf_withFixing (a : Analyzer) (b c : Bool) (text : String) :
    (a.withFixing b).deskOf disk path text c = a.deskOf disk path text c := rfl

/-- What fixing leaves unfixed is what checking the fixed text reports; if fixing has converged,
fixing that text again does nothing and reports the same. -/
theorem fixing_agrees_with_checking (a : Analyzer) (hrules : ∀ rule ∈ a.rules, rule.Steady)
    (disk : Disk) (path : Path) (source : String) (memories memories' : List Memory) :
    let fixed := ((a.withFixing true).analyzeSource disk path source memories).1
    ∃ outcome, fixed.files = [outcome] ∧
      let text := outcome.fixedSource.getD source
      let checked := ((a.withFixing false).analyzeSource disk path text memories').1
      let again := ((a.withFixing true).analyzeSource disk path text memories').1
      fixed.unfixed = checked.violations ∧
      (outcome.converged = true →
        again.files = [⟨path, 0, true, none⟩] ∧ again.violations = checked.violations) := by
  obtain ⟨outcome, hfiles, hunfixed, hconverged⟩ :=
    fixing_spec disk path (a := a.withFixing true) hrules rfl source memories
  have hchecked := checking_violations disk path (a := a.withFixing false) hrules rfl
    (outcome.fixedSource.getD source) memories'
  rw [deskOf_withFixing] at hunfixed hchecked
  refine ⟨outcome, hfiles, hunfixed.trans hchecked.symm, fun hc => ?_⟩
  obtain ⟨hpasses, hstable⟩ := hconverged hc
  have hagain := fixing_stable disk path (a := a.withFixing true) hrules rfl hpasses hstable memories'
  rw [deskOf_withFixing] at hagain
  exact ⟨hagain.2, hagain.1.trans hchecked.symm⟩

/-- One pass puts the space behind a cast, and fixing the result again changes nothing. -/
theorem fixing_casts_again :
    let a : Analyzer := ⟨⟨"/"⟩, [Rules.CastSpacing.rule 1], [], {}, false, 50⟩
    let fixed := ((a.withFixing true).analyzeSource {} ⟨"a.php"⟩ "<?php $a = (int)$b;" [{}]).1
    let again := ((a.withFixing true).analyzeSource {} ⟨"a.php"⟩ "<?php $a = (int) $b;" [{}]).1
    fixed.files = [⟨⟨"a.php"⟩, 1, true, some "<?php $a = (int) $b;"⟩] ∧
      again.files = [⟨⟨"a.php"⟩, 0, true, none⟩] ∧ again.violations = fixed.unfixed := by
  intro a fixed again
  have hfiles : fixed.files = [⟨⟨"a.php"⟩, 1, true, some "<?php $a = (int) $b;"⟩] := by
    decide +kernel
  have hrules : ∀ rule ∈ a.rules, rule.Steady := fun _ h =>
    List.mem_singleton.1 h ▸ Rule.steady_ofFindings _ _
  obtain ⟨outcome, h, hunfixed, hconverged⟩ := fixing_agrees_with_checking a hrules {} ⟨"a.php"⟩
    "<?php $a = (int)$b;" [{}] [{}]
  obtain rfl : outcome = _ := List.singleton_inj.1 (h.symm.trans hfiles)
  simp only [Option.getD_some, forall_const] at hunfixed hconverged
  obtain ⟨hagain, hviolations⟩ := hconverged
  exact ⟨hfiles, hagain, hviolations.trans hunfixed.symm⟩

end Analyzer

end PhpStyle
