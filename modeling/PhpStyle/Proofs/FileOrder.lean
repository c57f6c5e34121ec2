import Mathlib.Algebra.GroupWithZero.Nat
import PhpStyle.Proofs.FailureLog
import PhpStyle.Proofs.FixLoop
import PhpStyle.Rules.Psr4

/-!
# Files are analysed each for itself

A rule may remember what it has read, and as long as what it remembers never changes what it does it
is `Rule.Deterministic`. If all rules are, and none fails for its configuration, the state of a run
makes no difference to a file: from any two states that a run can be in, its analysis takes the same
turns (`Analyzer.Twin`), so that its report is the same (`Analyzer.analyzeText_eq`). Files can
therefore be analysed in any order, and each as if it were the only one
(`Analyzer.files_isolated`).
-/

namespace PhpStyle

/-- What the rule can have come to remember by being invoked with this disk. -/
inductive Rule.Remembers (rule : Rule) (disk : Disk) : Memory → Prop
  | nothing : Remembers rule disk {}
  | invoked {m : Memory} (h : Remembers rule disk m) {site : Site} (hdisk : site.disk = disk)
      (i : Nat) : Remembers rule disk (rule.process site i m).2

/-- What the rule does is the same whatever it remembers. -/
def Rule.Deterministic (rule : Rule) (disk : Disk) : Prop :=
  ∀ {m : Memory}, rule.Remembers disk m → ∀ {site : Site}, site.disk = disk → ∀ i,
    (rule.process site i m).1 = (rule.process site i {}).1

theorem Rule.deterministic_ofFindings (info : RuleInfo) (findings : Site → Nat → List Finding)
    (disk : Disk) : (ofFindings info findings).Deterministic disk :=
  fun _ _ _ _ => rfl

namespace Rules.Psr4

/-- A manifest that is remembered is the one that would be read. -/
def Holds (disk : Disk) (manifest : Path) (m : Memory) : Prop :=
  ∀ p map, m.manifest = some (p, map) → load disk manifest = .ok map

theorem Holds.lookUp {disk : Disk} {manifest : Path} {m : Memory} (h : Holds disk manifest m) :
    (lookUp disk manifest m).1 = load disk manifest ∧
      Holds disk manifest (lookUp disk manifest m).2 := by
  unfold Psr4.lookUp
  split
  · next p map hfilter =>
    exact ⟨(h p map (Option.filter_eq_some_iff.1 hfilter).1).symm, h⟩
  · cases hload : load disk manifest with
    | ok map =>
      refine ⟨rfl, ?_⟩
      rintro p map' hp
      cases hp
      exact hload
    | error e => exact ⟨rfl, h⟩

theorem Holds.nothing (disk : Disk) (manifest : Path) : Holds disk manifest {} :=
  fun _ _ hp => nomatch hp

theorem Holds.process {o : Options} {site : Site} {m : Memory}
    (h : Holds site.disk ((o.directory site.disk).joinName o.manifest) m) (i : Nat) :
    (process o site i m).1 = (process o site i {}).1 ∧
      Holds site.disk ((o.directory site.disk).joinName o.manifest) (process o site i m).2 := by
  unfold Psr4.process
  cases nameIndex? site.tokens i with
  | none => exact ⟨rfl, h⟩
  | some name =>
    obtain ⟨hmap, hkept⟩ := h.lookUp
    have hread := (Holds.nothing site.disk ((o.directory site.disk).joinName o.manifest)).lookUp.1
    dsimp only
    generalize Psr4.lookUp site.disk _ m = found at hmap hkept ⊢
    generalize Psr4.lookUp site.disk _ {} = found' at hread ⊢
    obtain ⟨result, m'⟩ := found
    obtain ⟨result', m''⟩ := found'
    obtain rfl : result = result' := hmap.trans hread.symm
    cases result with
    | error e => exact ⟨rfl, hkept⟩
    | ok map => exact ⟨rfl, hkept⟩

theorem deterministic (o : Options) (disk : Disk) : (rule o).Deterministic disk := by
  have hholds : ∀ {m : Memory}, (rule o).Remembers disk m →
      Holds disk ((o.directory disk).joinName o.manifest) m := by
    intro m hm
    induction hm with
    | nothing => exact .nothing disk _
    | invoked _ hdisk i ih =>
      subst hdisk
      exact (ih.process i).2
  intro m hm site hdisk i
  subst hdisk
  exact ((hholds hm).process i).1

end Rules.Psr4

namespace Report

theorem foldl_merge (rs : List Report) (r : Report) :
    rs.foldl merge r =
      { violations := r.violations ++ rs.flatMap (·.violations)
        filesChecked := rs.foldl (fun n r => n + r.filesChecked) r.filesChecked
        files := r.files ++ rs.flatMap (·.files)
        failures := (rs.flatMap (·.failures)).foldl record r.failures } := by
  induction rs generalizing r with
  | nil => simp
  | cons other rs ih =>
    rw [List.foldl_cons, ih, merge_eq]
    simp

theorem log_eq_eraseDupsBy (gs : List RuleFailure) :
    log gs = gs.eraseDupsBy fun f g => f.rule == g.rule && f.message == g.message := by
  have hloop : ∀ fs : List RuleFailure, gs.foldl record fs = List.eraseDupsBy.loop
      (fun f g => f.rule == g.rule && f.message == g.message) gs fs.reverse := by
    induction gs with
    | nil => simp [List.eraseDupsBy.loop]
    | cons g gs ih =>
      intro fs
      have hknown : (fs.reverse.any fun f => g.rule == f.rule && g.message == f.message) =
          decide (g.key ∈ fs.map RuleFailure.key) := by
        rw [Bool.eq_iff_iff, List.any_reverse, List.any_eq_true, decide_eq_true_eq, List.mem_map]
        exact exists_congr fun f => and_congr_right fun _ => by
          simp [RuleFailure.key, Prod.ext_iff, @eq_comm _ f.rule, @eq_comm _ f.message]
      rw [List.foldl_cons, ih, List.eraseDupsBy.loop, hknown, record_eq]
      by_cases hkey : g.key ∈ fs.map RuleFailure.key
      · rw [if_pos hkey, decide_eq_true hkey]
      · rw [if_neg hkey, decide_eq_false hkey, List.reverse_append]
        rfl
  exact hloop []

theorem sorted_merge_sorted (rs : List Report) :
    ((rs.map sorted).foldl merge {}).sorted = (rs.foldl merge {}).sorted := by
  have hviolations := List.mergeSort_flatMap_mergeSort violationLe_trans violationLe_total
    (fun r : Report => r.violations) rs
  have hfiles := List.mergeSort_flatMap_mergeSort
    (fun f g h : FileOutcome => Path.le_trans f.file g.file h.file)
    (fun f g => Path.le_total f.file g.file) (fun r : Report => r.files) rs
  rw [foldl_merge, foldl_merge]
  simp only [sorted, List.flatMap_map, List.foldl_map, List.nil_append, hviolations, hfiles]

theorem sorted_foldl_merge (rs : List Report) :
    (rs.foldl merge {}).sorted =
      { violations := (rs.flatMap (·.violations)).mergeSort fun v w =>
          violationKey v ≤ violationKey w
        filesChecked := (rs.map (·.filesChecked)).sum
        files := (rs.flatMap (·.files)).mergeSort fun f g =>
          f.file.components.map Path.Component.key ≤ g.file.components.map Path.Component.key
        failures := (rs.flatMap (·.failures)).eraseDupsBy fun f g =>
          f.rule == g.rule && f.message == g.message } := by
  have hviolations : violationLe = fun v w => decide (violationKey v ≤ violationKey w) := by
    funext v w
    rw [Bool.eq_iff_iff, violationLe_iff, decide_eq_true_eq]
  have hfiles : (fun f g : FileOutcome => f.file.le g.file) = fun f g => decide
      (f.file.components.map Path.Component.key ≤ g.file.components.map Path.Component.key) := by
    funext f g
    rw [Bool.eq_iff_iff, Path.le, Path.componentsLe_iff, decide_eq_true_eq]
  have hcount : ∀ n, rs.foldl (fun n r => n + r.filesChecked) n =
      n + (rs.map (·.filesChecked)).sum := by
    induction rs with
    | nil => simp
    | cons r rs ih => simp [ih, Nat.add_assoc]
  rw [foldl_merge, sorted, hviolations, hfiles]
  simp only [List.nil_append, hcount, Nat.zero_add]
  rw [← log_eq_eraseDupsBy]
  rfl

end Report

/-! ### Two analyses of one file -/

namespace Analyzer

variable (a : Analyzer) (disk : Disk)

def inRun (r : Round) (run : RunState) : Round :=
  { r with run := run }

def FixState.inRun (s : FixState) (run : RunState) : FixState :=
  { s with run := run }

theorem FixState.round_inRun (s : FixState) (run : RunState) (path : Path) (fixing : Bool) :
    (s.inRun run).round path fixing = Analyzer.inRun (s.round path fixing) run := rfl

theorem fixStart_inRun (source : String) (run run' : RunState) :
    (a.fixStart source run).inRun run' = a.fixStart source run' := rfl

/-- All rules remember what they can have come to remember. -/
def Recalls (memories : List Memory) : Prop :=
  ∀ (n : Nat) (rule : Rule), a.rules[n]? = some rule → rule.Remembers disk (memories[n]?.getD {})

theorem recalls_start : a.Recalls disk a.start.memories := by
  intro n rule hrule
  rw [start, List.getElem?_map, hrule]
  exact .nothing

/-- No rule is off, and all remember what they can have come to remember. -/
structure Fresh (run : RunState) : Prop where
  on : run.disabled = []
  recalls : a.Recalls disk run.memories

/-- Two passes have come equally far, and no rule is off in either. -/
structure Twin (s s' : PassState) : Prop where
  desk : s.desk = s'.desk
  failures : s.failures = s'.failures
  fresh : a.Fresh disk s.run
  fresh' : a.Fresh disk s'.run

variable {a disk}

theorem rule_of_mem_workers {w : Worker} (h : w ∈ a.workers) : a.rules[w.number]? = some w.rule := by
  obtain ⟨p, hp, rfl⟩ := List.mem_map.1 h
  exact List.mk_mem_zipIdx_iff_getElem?.1 (List.mem_of_mem_filter hp)

theorem Recalls.set {memories : List Memory} (h : a.Recalls disk memories) {n : Nat} {rule : Rule}
    (hrule : a.rules[n]? = some rule) {m : Memory} (hm : rule.Remembers disk m) :
    a.Recalls disk (memories.set n m) := by
  intro k rule' hrule'
  rw [List.getElem?_set]
  split
  · next hnk =>
    subst hnk
    obtain rfl : rule = rule' := Option.some_inj.1 (hrule.symm.trans hrule')
    split
    · exact hm
    · exact .nothing
  · exact h k rule' hrule'

theorem Fresh.taken {t : Turn} (h : a.Fresh disk t.state.run) : t.taken = true := by
  rw [Turn.taken, h.on]
  rfl

theorem Fresh.next {t : Turn} (hw : t.worker ∈ a.workers) (hdisk : t.site.disk = disk)
    (h : a.Fresh disk t.state.run) (hconfig : t.failsConfig = false) : a.Fresh disk t.next.run where
  on := by rw [t.disabled_next, hconfig, h.on]; rfl
  recalls := by
    rw [t.memories_next, h.taken, if_pos rfl]
    have hrule := rule_of_mem_workers hw
    exact h.recalls.set hrule (.invoked (h.recalls _ _ hrule) hdisk t.index)

section Deterministic

variable (hrules : ∀ rule ∈ a.rules, rule.Deterministic disk)
include hrules

theorem Fresh.processed {t : Turn} (h : a.Fresh disk t.state.run) (hw : t.worker ∈ a.workers)
    (hdisk : t.site.disk = disk) :
    t.processed.1 = (t.worker.rule.process t.site t.index {}).1 :=
  have hrule := rule_of_mem_workers hw
  hrules _ (List.mem_of_getElem? hrule) (h.recalls _ _ hrule) hdisk t.index

theorem Twin.next {t : Turn} {s' : PassState} (h : a.Twin disk t.state s')
    (hw : t.worker ∈ a.workers) (hdisk : t.site.disk = disk) (hconfig : t.failsConfig = false) :
    a.Twin disk t.next { t with state := s' }.next := by
  have hfresh' : a.Fresh disk { t with state := s' }.state.run := h.fresh'
  have hprocessed : t.processed.1 = { t with state := s' }.processed.1 :=
    (h.fresh.processed hrules hw hdisk).trans (hfresh'.processed hrules hw hdisk).symm
  have houtcome : t.outcome = { t with state := s' }.outcome := by
    rw [Turn.outcome, Turn.outcome, hprocessed, h.desk]
  have herror : t.error? = { t with state := s' }.error? := by
    rw [Turn.error?, Turn.error?, h.fresh.taken, hfresh'.taken, houtcome]
  have hfailure : t.failure? = { t with state := s' }.failure? := by
    rw [Turn.failure?, Turn.failure?, herror]
  have hconfig' : { t with state := s' }.failsConfig = false := by
    rw [Turn.failsConfig, ← herror]
    exact hconfig
  refine ⟨?_, ?_, h.fresh.next hw hdisk hconfig, hfresh'.next hw hdisk hconfig'⟩
  · rw [Turn.desk_next, Turn.desk_next, h.fresh.taken, hfresh'.taken, houtcome]
    rfl
  · rw [Turn.failures_next, Turn.failures_next, hfailure, h.failures]

theorem Twin.foldl (site : Site) (hdisk : site.disk = disk) {dues : List (Nat × Worker)}
    (hdues : ∀ due ∈ dues, due.2 ∈ a.workers) {s s' : PassState} (h : a.Twin disk s s')
    (hconfig : ∀ t ∈ site.turns dues s, t.failsConfig = false) :
    a.Twin disk (dues.foldl (fun s due => (⟨site, due.1, due.2, s⟩ : Turn).next) s)
      (dues.foldl (fun s due => (⟨site, due.1, due.2, s⟩ : Turn).next) s') := by
  induction dues generalizing s s' with
  | nil => exact h
  | cons due dues ih =>
    obtain ⟨hdue, hdues⟩ := List.forall_mem_cons.1 hdues
    obtain ⟨hfirst, hrest⟩ := List.forall_mem_cons.1 hconfig
    have hnext := Twin.next (t := ⟨site, due.1, due.2, s⟩) hrules h hdue hdisk hfirst
    exact ih hdues hnext hrest

theorem closing_twin {r : Round} (hfresh : a.Fresh disk r.run) {run : RunState}
    (hfresh' : a.Fresh disk run) (hconfig : ∀ t ∈ a.turnsOf disk r, t.failsConfig = false) :
    a.Twin disk (a.closing disk r) (a.closing disk (inRun r run)) := by
  have hstart : a.Twin disk (opening r) (opening (inRun r run)) := ⟨rfl, rfl, hfresh, hfresh'⟩
  have hend := hstart.foldl hrules (a.siteOf disk r) rfl
    (fun due => (a.siteOf disk r).worker_of_mem_dues) hconfig
  rw [← visitTokens_eq, ← visitTokens_eq] at hend
  exact hend

/-- Fixing goes the same way from either state. -/
theorem fixLoop_inRun (path : Path) (n : Nat) (s : FixState) :
    a.Fresh disk s.run → ∀ {run : RunState}, a.Fresh disk run →
    (∀ r ∈ a.fixRounds disk path n s, ∀ t ∈ a.turnsOf disk r, t.failsConfig = false) →
    a.Fresh disk (a.fixLoop disk path n s).run ∧ ∃ run', a.Fresh disk run' ∧
      a.fixLoop disk path n (s.inRun run) = (a.fixLoop disk path n s).inRun run' := by
  refine a.fixLoop_cases disk path (motive := fun n s s' rs =>
    a.Fresh disk s.run → ∀ {run : RunState}, a.Fresh disk run →
    (∀ r ∈ rs, ∀ t ∈ a.turnsOf disk r, t.failsConfig = false) →
    a.Fresh disk s'.run ∧ ∃ run', a.Fresh disk run' ∧
      a.fixLoop disk path n (s.inRun run) = s'.inRun run') ?_ ?_ ?_ n s
  · exact fun s hfresh run hfresh' _ => ⟨hfresh, run, hfresh', rfl⟩
  · intro n s hcommits hfresh run hfresh' hconfig
    have htwin := closing_twin hrules (r := s.round path true) hfresh hfresh'
      (hconfig _ List.mem_cons_self)
    rw [fixLoop_succ, FixState.round_inRun]
    -- the two passes commit equally much, so both loops stop here
    generalize a.closing disk (s.round path true) = p at hcommits htwin ⊢
    generalize a.closing disk (inRun (s.round path true) run) = p' at htwin ⊢
    rw [htwin.desk] at hcommits
    rw [if_pos hcommits]
    refine ⟨htwin.fresh, p'.run, htwin.fresh', ?_⟩
    simp only [FixState.settle, FixState.inRun, htwin.failures]
  · intro n s s' rs hcommits ih hfresh run hfresh' hconfig
    obtain ⟨hfirst, hrest⟩ := List.forall_mem_cons.1 hconfig
    have htwin := closing_twin hrules (r := s.round path true) hfresh hfresh' hfirst
    rw [fixLoop_succ, FixState.round_inRun]
    generalize a.closing disk (s.round path true) = p at hcommits htwin ih
    generalize a.closing disk (inRun (s.round path true) run) = p' at htwin ⊢
    rw [htwin.desk] at hcommits
    rw [if_neg hcommits]
    have hadvance : (s.inRun run).advance p' = (s.advance p).inRun p'.run := by
      simp only [FixState.advance, FixState.inRun, htwin.failures, htwin.desk]
    rw [hadvance]
    exact ih htwin.fresh htwin.fresh' hrest

/-- The report on a file is the same from either state. -/
theorem analyzeText_eq {path : Path} {source : String} {run run' : RunState}
    (hfresh : a.Fresh disk run) (hfresh' : a.Fresh disk run')
    (hconfig : ∀ r ∈ a.rounds disk path source run, ∀ t ∈ a.turnsOf disk r, t.failsConfig = false) :
    (a.analyzeText disk path source run').1 = (a.analyzeText disk path source run).1 ∧
      a.Fresh disk (a.analyzeText disk path source run').2 := by
  obtain ⟨hfix, hlast⟩ := List.forall_mem_append.1 hconfig
  have hlast := List.forall_mem_singleton.1 hlast
  obtain ⟨hfresh, run'', hfresh', hfixed⟩ :=
    fixLoop_inRun hrules path a.fixPasses (a.fixStart source run) hfresh hfresh' hfix
  rw [fixStart_inRun, ← fixedState_eq, ← fixedState_eq] at hfixed
  rw [← fixedState_eq] at hfresh
  have htwin := closing_twin hrules (r := a.lastRound disk path source run) hfresh hfresh' hlast
  simp only [closing, inRun, lastRound, FixState.round] at htwin
  simp only [analyzeText, hfixed, FixState.inRun]
  generalize a.pass disk path _ false run'' _ = p' at htwin ⊢
  generalize a.pass disk path _ false (a.fixedState disk path source run).run _ = p at htwin ⊢
  exact ⟨by rw [htwin.desk, htwin.failures], htwin.fresh'⟩

theorem analyzeFiles_eq {text : Path → String} {alone run : RunState}
    (halone : a.Fresh disk alone) (hrun : a.Fresh disk run)
    (paths : List Path) (hread : ∀ path ∈ paths, disk.readText path = .ok (text path))
    (hconfig : ∀ path ∈ paths, ∀ r ∈ a.rounds disk path (text path) alone,
      ∀ t ∈ a.turnsOf disk r, t.failsConfig = false) :
    (a.analyzeFiles disk paths run).1 =
      .ok (paths.map fun path => (a.analyzeText disk path (text path) alone).1) := by
  induction paths generalizing run with
  | nil => rfl
  | cons path paths ih =>
    obtain ⟨hfirst, hread⟩ := List.forall_mem_cons.1 hread
    obtain ⟨hquiet, hconfig⟩ := List.forall_mem_cons.1 hconfig
    obtain ⟨hreport, hnext⟩ := analyzeText_eq hrules halone hrun hquiet
    rw [a.analyzeFiles_cons disk hfirst, ih hnext hread hconfig, hreport]
    rfl

end Deterministic

/-- The reports for `paths`, from those for the same files in another order. -/
def inOrderOf (paths order : List Path) (reports : List Report) : List Report :=
  paths.filterMap fun path => (order.zip reports).lookup path

theorem lookup_zip_map {order : List Path} {path : Path} (h : path ∈ order) (f : Path → Report) :
    (order.zip (order.map f)).lookup path = some (f path) := by
  induction order with
  | nil => cases h
  | cons q order ih =>
    rw [List.map_cons, List.zip_cons_cons, List.lookup_cons]
    by_cases hq : path = q
    · rw [hq, beq_self_eq_true]
    · rw [beq_false_of_ne hq]
      exact ih ((List.mem_cons.1 h).resolve_left hq)

theorem inOrderOf_map {paths order : List Path} (h : ∀ path ∈ paths, path ∈ order)
    (f : Path → Report) : inOrderOf paths order (order.map f) = paths.map f := by
  rw [inOrderOf, List.filterMap_congr fun path hpath => lookup_zip_map (h path hpath) f]
  exact congrFun (List.filterMap_eq_map (f := f)) paths

variable (a disk) in
/-- Analyses the files `paths` in the order of `order`, and reports on them in their own order. -/
def analyzeInOrder (paths order : List Path) (memories : List Memory) :
    Except AnalyzerError Report :=
  (a.analyzeFiles disk order ⟨memories, []⟩).1.map fun reports =>
    ((inOrderOf paths order reports).foldl Report.merge {}).sorted

theorem analyze_eq {paths : List Path} (hfound : a.sourceFiles disk = .ok paths)
    (memories : List Memory) :
    (a.analyze disk memories).1 = (a.analyzeFiles disk paths ⟨memories, []⟩).1.map fun reports =>
      (reports.foldl Report.merge {}).sorted := by
  rw [analyze, hfound]
  dsimp only
  generalize a.analyzeFiles disk paths ⟨memories, []⟩ = result
  obtain ⟨e | reports, run⟩ := result <;> rfl

/-- With rules that are deterministic and do not fail for their configuration, the report is the
same in whatever order the files are analysed. It is merged from those on each file alone, in order of
the paths: all violations, sorted by file, line and column, all outcomes, sorted by file, and the first
failure of each rule and message. -/
theorem files_isolated (a : Analyzer) (disk : Disk)
    (hrules : ∀ rule ∈ a.rules, rule.Deterministic disk) {paths : List Path}
    (hfound : a.sourceFiles disk = .ok paths) {text : Path → String}
    (hread : ∀ path ∈ paths, disk.readText path = .ok (text path)) {memories alone : List Memory}
    (hmemories : a.Recalls disk memories) (halone : a.Recalls disk alone)
    (hconfig : ∀ path ∈ paths, ∀ r ∈ a.rounds disk path (text path) ⟨alone, []⟩,
      ∀ t ∈ a.turnsOf disk r, t.failsConfig = false)
    {order : List Path} (horder : order.Perm paths) :
    let parts := paths.map fun path => (a.analyzeSource disk path (text path) alone).1
    let place : Path → List (ℕ ×ₗ String) := fun path => path.components.map Path.Component.key
    let spot : Violation → List (ℕ ×ₗ String) ×ₗ ℕ ×ₗ ℕ := fun v =>
      toLex (place v.location.file, toLex (v.location.line, v.location.column))
    let report : Report :=
      { violations := (parts.flatMap (·.violations)).mergeSort fun v w => spot v ≤ spot w
        filesChecked := (parts.map (·.filesChecked)).sum
        files := (parts.flatMap (·.files)).mergeSort fun f g => place f.file ≤ place g.file
        failures := (parts.flatMap (·.failures)).eraseDupsBy fun f g =>
          f.rule == g.rule && f.message == g.message }
    (a.analyze disk memories).1 = .ok report ∧
      a.analyzeInOrder disk paths order memories = .ok report ∧
      (parts.foldl Report.merge {}).sorted = report := by
  intro parts place spot report
  have hmerged : (parts.foldl Report.merge {}).sorted = report := Report.sorted_foldl_merge parts
  have hreport : ((paths.map fun path =>
      (a.analyzeText disk path (text path) ⟨alone, []⟩).1).foldl Report.merge {}).sorted = report := by
    rw [← hmerged, ← Report.sorted_merge_sorted, List.map_map]
    rfl
  have hfresh : a.Fresh disk ⟨memories, []⟩ := ⟨rfl, hmemories⟩
  have hfresh' : a.Fresh disk ⟨alone, []⟩ := ⟨rfl, halone⟩
  refine ⟨?_, ?_, hmerged⟩
  · have hfiles := analyzeFiles_eq hrules hfresh' hfresh paths hread hconfig
    rw [analyze_eq hfound, hfiles, Except.map, hreport]
  · have hfiles := analyzeFiles_eq hrules hfresh' hfresh order
      (fun path hpath => hread path (horder.subset hpath))
      (fun path hpath => hconfig path (horder.subset hpath))
    have hcollect := inOrderOf_map (fun path hpath => horder.symm.subset hpath) fun path =>
      (a.analyzeText disk path (text path) ⟨alone, []⟩).1
    rw [analyzeInOrder, hfiles, Except.map, hcollect, hreport]

/-- Two files, analysed from the last to the first, by a rule that remembers their manifest and one
that fixes casts. -/
theorem casts_and_classes_in_reverse :
    let disk : Disk :=
      { files := [(["a.php"], "<?php class B \x7b\x7d".toUTF8), (["b.php"], "<?php (int)$c;".toUTF8),
          (["composer.json"], "\x7b\"autoload\": \x7b\"psr-4\": \x7b\"\": \"\"\x7d\x7d\x7d".toUTF8)] }
    let a : Analyzer := ⟨⟨"/"⟩, [Rules.Psr4.rule {}, Rules.CastSpacing.rule 1], [], {}, true, 50⟩
    let text : Path → String := fun path => (disk.readText path).toOption.getD ""
    let paths : List Path := [⟨"/a.php"⟩, ⟨"/b.php"⟩]
    let report := ((paths.map fun path =>
      (a.analyzeSource disk path (text path) a.start.memories).1).foldl Report.merge {}).sorted
    a.sourceFiles disk = .ok paths ∧ (a.analyze disk a.start.memories).1 = .ok report ∧
      a.analyzeInOrder disk paths paths.reverse a.start.memories = .ok report := by
  intro disk a text paths report
  have hfound : a.sourceFiles disk = .ok paths := by
    have hroot : ¬ disk.isFile a.root = true := by decide +kernel
    have hplace : disk.resolve a.root = .ok [] := by decide +kernel
    have hbelow : Ignore.filesFound? disk a.config.respectGitignore [] =
        some [["a.php"], ["b.php"], ["composer.json"]] := by decide +kernel
    have hsources : ([["a.php"], ["b.php"], ["composer.json"]].map fun names =>
        names.foldl Path.joinName a.root).filter
          (fun p => a.hasSourceExtension p && !a.isExcluded p) = paths := by decide +kernel
    have hsorted : paths.Pairwise fun p q => p.le q = true := by decide +kernel
    rw [sourceFiles, if_neg hroot, hplace]
    dsimp only
    rw [hbelow]
    dsimp only
    rw [hsources, List.mergeSort_of_pairwise hsorted]
  have hrules : ∀ rule ∈ a.rules, rule.Deterministic disk := by
    intro rule hrule
    rcases List.mem_pair.1 hrule with rfl | rfl
    · exact Rules.Psr4.deterministic {} disk
    · exact Rule.deterministic_ofFindings _ _ disk
  have hread : ∀ path ∈ paths, disk.readText path = .ok (text path) := by decide +kernel
  have hconfig : ∀ path ∈ paths, ∀ r ∈ a.rounds disk path (text path) a.start,
      ∀ t ∈ a.turnsOf disk r, t.failsConfig = false := by decide +kernel
  have hstart := a.recalls_start disk
  obtain ⟨hforward, hbackward, hmerged⟩ := files_isolated a disk hrules hfound hread hstart hstart
    hconfig (List.reverse_perm paths)
  rw [← hmerged] at hforward hbackward
  exact ⟨hfound, hforward, hbackward⟩

end Analyzer

end PhpStyle
