import Mathlib.Data.List.Induction
import Mathlib.Data.List.Nodup
import PhpStyle.Proofs.Turns

/-!
# The failures of a run

A rule that returns an error of configuration is off from then on, in whatever pass or file, and
nothing else switches a rule off (`RunState.Leads.taken_iff`). The failures of a pass, of a file and
of a run are all a log of the errors that the turns returned (`Report.log`), which keeps the first of
each rule and message (`Report.find?_foldl_record`); that holds however the run is cut into files,
since a log of a log is the log itself (`Report.foldl_record_log`). The two together say what a report
tells about a run (`Analyzer.failures_logged`).
-/

namespace PhpStyle

namespace RuleError

def initial : RuleError → Char
  | config _ => 'c'
  | invariant _ => 'i'
  | edit .nestedChangeset => 'a'
  | edit .noChangeset => 'n'
  | edit (.outOfRange _) => 't'

theorem head?_message (e : RuleError) : e.message.toList.head? = some e.initial := by
  have happend : ∀ (s t : String) (c : Char),
      s.toList.head? = some c → (s ++ t).toList.head? = some c := by
    intro s t c hs
    rw [String.toList_append, List.head?_append, hs]
    rfl
  match e with
  | config m => exact happend "configuration error: " m 'c' (by decide)
  | invariant m => exact happend "invariant violated: " m 'i' (by decide)
  | edit .nestedChangeset => decide
  | edit .noChangeset => decide
  | edit (.outOfRange i) =>
    exact happend _ _ 't' (happend "token index " (toString i) 't' (by decide))

theorem isConfig_iff (e : RuleError) : e.isConfig = true ↔ e.initial = 'c' := by
  match e with
  | config m | invariant m => simp [isConfig, initial]
  | edit .nestedChangeset | edit .noChangeset | edit (.outOfRange i) => simp [isConfig, initial]

theorem isConfig_eq_of_message {e e' : RuleError} (h : e.message = e'.message) :
    e.isConfig = e'.isConfig := by
  have hinitial : e.initial = e'.initial :=
    Option.some_inj.1 (e.head?_message.symm.trans (h ▸ e'.head?_message))
  rw [Bool.eq_iff_iff, isConfig_iff, isConfig_iff, hinitial]

end RuleError

namespace Turn

variable {t : Turn}

theorem taken_of_failsConfig (h : t.failsConfig = true) : t.taken = true := by
  unfold failsConfig error? at h
  by_contra hoff
  simp [hoff] at h

theorem failure?_eq_some {f : RuleFailure} (h : t.failure? = some f) :
    ∃ e, t.error? = some e ∧ f = e.failure t.worker.active t.site.file.path :=
  let ⟨e, he, hf⟩ := Option.map_eq_some_iff.1 h
  ⟨e, he, hf.symm⟩

theorem kind_of_failure? {f : RuleFailure} (h : t.failure? = some f) :
    f.kind = .config ↔ t.failsConfig = true := by
  obtain ⟨e, he, rfl⟩ := failure?_eq_some h
  unfold failsConfig
  rw [he, Option.any_some, RuleError.failure]
  cases e.isConfig <;> simp

end Turn

def Rule.failing (name : String) (error : RuleError) : Rule where
  name := name
  code := "X3"
  description := ""
  severity := .warning
  fixable := false
  kinds := [.variableName]
  process _ _ memory := (.fail error, memory)

namespace RunState.Leads

variable {run run' : RunState} {ts : List Turn}

theorem mem_disabled (h : Leads run ts run') (name : String) :
    name ∈ run'.disabled ↔
      name ∈ run.disabled ∨ ∃ t ∈ ts, t.name = name ∧ t.failsConfig = true := by
  induction h with
  | nil run => simp
  | cons t h ih =>
    rw [ih, t.disabled_next]
    split <;> grind

/-- A rule takes its turn unless one of its name has failed for its configuration before. -/
theorem taken_iff (h : Leads run ts run') (hrun : run.disabled = []) {before after : List Turn}
    {t : Turn} (hts : ts = before ++ t :: after) :
    t.taken = true ↔ ∀ u ∈ before, u.name = t.name → u.failsConfig = false := by
  subst hts
  have hoff := h.before.mem_disabled t.name
  unfold Turn.taken
  rw [Bool.not_eq_true', ← Bool.not_eq_true, List.contains_iff_mem, hoff, hrun]
  simp

theorem eq_of_failsConfig (h : Leads run ts run') (hrun : run.disabled = []) {t u : Turn}
    (ht : t ∈ ts) (hu : u ∈ ts) (htc : t.failsConfig = true) (huc : u.failsConfig = true)
    (hname : t.name = u.name) : t = u := by
  obtain ⟨before, after, rfl⟩ := List.append_of_mem ht
  rcases List.mem_append.1 hu with hu | hu
  · have hfree := (h.taken_iff hrun rfl).1 (Turn.taken_of_failsConfig htc) u hu hname.symm
    exact absurd huc (Bool.eq_false_iff.1 hfree)
  · rcases List.mem_cons.1 hu with rfl | hu
    · rfl
    · obtain ⟨between, last, rfl⟩ := List.append_of_mem hu
      have hsplit : before ++ t :: (between ++ u :: last) =
          (before ++ t :: between) ++ u :: last := by simp
      have hfree := (h.taken_iff hrun hsplit).1 (Turn.taken_of_failsConfig huc) t (by simp) hname
      exact absurd htc (Bool.eq_false_iff.1 hfree)

end RunState.Leads

def RuleFailure.key (f : RuleFailure) : String × String :=
  (f.rule, f.message)

namespace Report

/-- The failures of a report to which all of `gs` were added. -/
def log (gs : List RuleFailure) : List RuleFailure :=
  gs.foldl record []

theorem record_eq (fs : List RuleFailure) (f : RuleFailure) :
    record fs f = if f.key ∈ fs.map RuleFailure.key then fs else fs ++ [f] := by
  have hknown : ({ failures := fs : Report }).hasFailure f =
      decide (f.key ∈ fs.map RuleFailure.key) := by
    rw [Bool.eq_iff_iff, hasFailure, List.any_eq_true]
    simp [RuleFailure.key, Prod.ext_iff]
  unfold record addFailure
  rw [hknown]
  by_cases h : f.key ∈ fs.map RuleFailure.key <;> simp [h]

theorem nodup_foldl_record (gs : List RuleFailure) {fs : List RuleFailure}
    (h : (fs.map RuleFailure.key).Nodup) : ((gs.foldl record fs).map RuleFailure.key).Nodup := by
  induction gs generalizing fs with
  | nil => exact h
  | cons g gs ih =>
    refine ih ?_
    rw [record_eq]
    split
    · exact h
    · next hnew =>
      rw [List.map_append, List.map_singleton]
      exact h.append (List.nodup_singleton _) (by simpa using hnew)

theorem mem_of_mem_foldl_record {gs fs : List RuleFailure} {f : RuleFailure}
    (h : f ∈ gs.foldl record fs) : f ∈ fs ∨ f ∈ gs := by
  induction gs generalizing fs with
  | nil => exact .inl h
  | cons g gs ih =>
    have hrecord := ih h
    rw [record_eq] at hrecord
    split at hrecord <;> grind

theorem key_mem_iff {fs : List RuleFailure} {k : String × String} :
    k ∈ fs.map RuleFailure.key ↔ (fs.find? (·.key = k)).isSome = true := by
  simp [List.find?_isSome]

/-- Of each key, a log holds the entry that it held before, or else the first that is new. -/
theorem find?_foldl_record (gs fs : List RuleFailure) (k : String × String) :
    (gs.foldl record fs).find? (·.key = k) = (fs.find? (·.key = k)).or (gs.find? (·.key = k)) := by
  induction gs generalizing fs with
  | nil => simp
  | cons g gs ih =>
    rw [List.foldl_cons, ih, record_eq]
    by_cases hk : g.key = k
    · rw [List.find?_cons_of_pos (by simpa using hk)]
      split
      · next hknown =>
        obtain ⟨f, hf⟩ := Option.isSome_iff_exists.1 (key_mem_iff.1 (hk ▸ hknown))
        rw [hf, Option.some_or, Option.some_or]
      · rw [List.find?_append, List.find?_cons_of_pos (by simpa using hk), Option.or_assoc,
          Option.some_or]
    · rw [List.find?_cons_of_neg (by simpa using hk)]
      split
      · rfl
      · rw [List.find?_append, List.find?_cons_of_neg (by simpa using hk), List.find?_nil,
          Option.or_none]

/-- A log of a log is the log. -/
theorem foldl_record_log (gs fs : List RuleFailure) :
    (log gs).foldl record fs = gs.foldl record fs := by
  unfold log
  induction gs using List.reverseRecOn with
  | nil => rfl
  | append_singleton gs g ih =>
    -- what the log from `[]` knows, that from `fs` knows as well, and both add what is new to both
    rw [List.foldl_append, List.foldl_append, List.foldl_cons, List.foldl_nil, List.foldl_cons,
      List.foldl_nil, record_eq (gs.foldl record [])]
    split
    · next hknown =>
      have hagain : g.key ∈ (gs.foldl record fs).map RuleFailure.key := by
        rw [key_mem_iff, find?_foldl_record] at hknown ⊢
        rw [List.find?_nil, Option.none_or] at hknown
        rw [Option.isSome_or, hknown, Bool.or_true]
      rw [ih, record_eq, if_pos hagain]
    · rw [List.foldl_append, ih, List.foldl_cons, List.foldl_nil]

/-- Merging appends all but the failures of the other report, which it records. -/
theorem merge_eq (r other : Report) :
    r.merge other =
      { violations := r.violations ++ other.violations
        filesChecked := r.filesChecked + other.filesChecked
        files := r.files ++ other.files
        failures := other.failures.foldl record r.failures } := by
  have hadd : ∀ (fs : List RuleFailure) (r : Report),
      fs.foldl addFailure r = { r with failures := fs.foldl record r.failures } := by
    intro fs
    induction fs with
    | nil => exact fun r => rfl
    | cons f fs ih =>
      intro r
      rw [List.foldl_cons, ih, failures_addFailure, List.foldl_cons]
      unfold addFailure
      split <;> rfl
  exact hadd _ _

end Report

namespace Analyzer

variable (a : Analyzer) (disk : Disk)

/-- The errors that turns returned, as records. -/
def failuresOf (ts : List Turn) : List RuleFailure :=
  ts.filterMap Turn.failure?

theorem failuresOf_append (ts us : List Turn) :
    failuresOf (ts ++ us) = failuresOf ts ++ failuresOf us :=
  List.filterMap_append

theorem closing_failures (r : Round) :
    (a.closing disk r).failures = (failuresOf (a.turnsOf disk r)).foldl Report.record r.failures :=
  (a.turns_reach disk r).failures

theorem fixLoop_failures (path : Path) (n : Nat) (s : FixState) :
    (a.fixLoop disk path n s).failures =
      (failuresOf ((a.fixRounds disk path n s).flatMap (a.turnsOf disk))).foldl Report.record
        s.failures := by
  refine a.fixLoop_cases disk path (motive := fun _ s s' rs =>
    s'.failures =
      (failuresOf (rs.flatMap (a.turnsOf disk))).foldl Report.record s.failures) ?_ ?_ ?_ n s
  · exact fun s => rfl
  · intro n s _
    have hfirst := a.closing_failures disk (s.round path true)
    rw [List.flatMap_singleton]
    generalize a.closing disk (s.round path true) = p at hfirst ⊢
    exact hfirst
  · intro n s s' rs _ ih
    have hfirst := a.closing_failures disk (s.round path true)
    rw [List.flatMap_cons, failuresOf_append, List.foldl_append]
    generalize a.closing disk (s.round path true) = p at hfirst ih
    simp only [FixState.advance, hfirst, FixState.round] at ih
    exact ih

theorem analyzeText_log (path : Path) (source : String) (run : RunState) :
    (a.analyzeText disk path source run).1.failures =
      Report.log (failuresOf ((a.rounds disk path source run).flatMap (a.turnsOf disk))) := by
  have hfix := a.fixLoop_failures disk path a.fixPasses (a.fixStart source run)
  rw [← fixedState_eq, ← fixRoundsOf, fixStart] at hfix
  rw [analyzeText_failures, closing_failures, rounds, List.flatMap_append, List.flatMap_singleton,
    failuresOf_append, Report.log, List.foldl_append, ← hfix, lastRound, FixState.round]

theorem analyzeFiles_cons {path : Path} {text : String} (h : disk.readText path = .ok text)
    (paths : List Path) (run : RunState) :
    a.analyzeFiles disk (path :: paths) run =
      ((a.analyzeFiles disk paths (a.analyzeText disk path text run).2).1.map
          ((a.analyzeText disk path text run).1 :: ·),
        (a.analyzeFiles disk paths (a.analyzeText disk path text run).2).2) := by
  rw [analyzeFiles, h]
  dsimp only
  generalize a.analyzeFiles disk paths (a.analyzeText disk path text run).2 = result
  obtain ⟨e | reports, run'⟩ := result <;> rfl

theorem runTurns_cons {path : Path} {text : String} (h : disk.readText path = .ok text)
    (paths : List Path) (run : RunState) :
    a.runTurns disk (path :: paths) run =
      (a.rounds disk path text run).flatMap (a.turnsOf disk) ++
        a.runTurns disk paths (a.analyzeText disk path text run).2 := by
  rw [runTurns, runRounds, h]
  dsimp only
  rw [List.flatMap_append, runTurns]

theorem analyzeFiles_log {paths : List Path}
    (hread : ∀ path ∈ paths, ∃ text, disk.readText path = .ok text) (run : RunState) (r : Report) :
    ∃ reports, (a.analyzeFiles disk paths run).1 = .ok reports ∧
      (reports.foldl Report.merge r).failures =
        (failuresOf (a.runTurns disk paths run)).foldl Report.record r.failures := by
  induction paths generalizing run r with
  | nil => exact ⟨[], rfl, rfl⟩
  | cons path paths ih =>
    obtain ⟨⟨text, htext⟩, hrest⟩ := List.forall_mem_cons.1 hread
    obtain ⟨reports, hok, hlog⟩ :=
      ih hrest (a.analyzeText disk path text run).2 (r.merge (a.analyzeText disk path text run).1)
    refine ⟨(a.analyzeText disk path text run).1 :: reports, ?_, ?_⟩
    · rw [a.analyzeFiles_cons disk htext, hok]
      rfl
    · rw [a.runTurns_cons disk htext, failuresOf_append, List.foldl_append, List.foldl_cons, hlog,
        Report.merge_eq, analyzeText_log, Report.foldl_record_log]

end Analyzer

/-! ### What a report tells about a run -/

/-- Whether the turn returned an error with this message, of a rule with this name. -/
def Turn.fails (t : Turn) (rule message : String) : Bool :=
  t.failure?.any fun f => f.rule = rule ∧ f.message = message

/-- The failures `log` are those of the turns `ts`. -/
structure RuleFailure.Logged (ts : List Turn) (log : List RuleFailure) : Prop where
  /-- No two entries have the same rule and message. -/
  distinct : (log.map fun f => (f.rule, f.message)).Nodup
  /-- A name that failed for its configuration has one entry that says so. -/
  config : ∀ t ∈ ts, t.failsConfig = true → ∃! f, f ∈ log ∧ f.rule = t.name ∧ f.kind = .config
  /-- Every error has an entry, with the file in which it came first. -/
  entry : ∀ t ∈ ts, ∀ e, t.error? = some e →
    ∃ f ∈ log, f.rule = t.name ∧ f.message = e.message ∧
      (ts.find? (·.fails t.name e.message)).map (·.site.file.path) = some f.file
  /-- Every entry is the record of an error. -/
  record : ∀ f ∈ log, ∃ t ∈ ts, t.failure? = some f

namespace Analyzer

variable {ts : List Turn}

theorem find?_log (ts : List Turn) (rule message : String) :
    (Report.log (failuresOf ts)).find? (·.key = (rule, message)) =
      (ts.find? (·.fails rule message)).bind Turn.failure? := by
  rw [Report.log, Report.find?_foldl_record, List.find?_nil, Option.none_or, failuresOf,
    List.find?_filterMap]
  simp [Turn.fails, RuleFailure.key]

theorem turn_of_mem_log {f : RuleFailure} (h : f ∈ Report.log (failuresOf ts)) :
    ∃ t ∈ ts, t.failure? = some f :=
  List.mem_filterMap.1 ((Report.mem_of_mem_foldl_record h).resolve_left List.not_mem_nil)

theorem entry_of_error {t : Turn} (ht : t ∈ ts) {e : RuleError} (he : t.error? = some e) :
    ∃ f ∈ Report.log (failuresOf ts), f.rule = t.name ∧ f.message = e.message ∧
      ∃ u, ts.find? (·.fails t.name e.message) = some u ∧ u.failure? = some f := by
  have hrecord : t.failure? = some (e.failure t.worker.active t.site.file.path) := by
    rw [Turn.failure?, he, Option.map_some]
  have hself : t.fails t.name e.message = true := by
    rw [Turn.fails, hrecord]
    simp [RuleError.failure, Turn.name]
  obtain ⟨u, hu⟩ : ∃ u, ts.find? (·.fails t.name e.message) = some u :=
    Option.isSome_iff_exists.1 (List.find?_isSome.2 ⟨t, ht, hself⟩)
  have hfails := List.find?_some hu
  obtain ⟨f, hf, hkey⟩ := (Option.any_eq_true _ _).1 hfails
  have hentry := find?_log ts t.name e.message
  rw [hu, Option.bind_some, hf] at hentry
  obtain ⟨hrule, hmessage⟩ := of_decide_eq_true hkey
  exact ⟨f, List.mem_of_find?_eq_some hentry, hrule, hmessage, u, hu, hf⟩

theorem logged_of_leads {run run' : RunState} (h : run.Leads ts run') (hrun : run.disabled = []) :
    RuleFailure.Logged ts (Report.log (failuresOf ts)) where
  distinct := Report.nodup_foldl_record (failuresOf ts) List.nodup_nil
  config := by
    intro t ht hfails
    -- an entry of this name and kind can only be the record of this turn
    have hown : ∀ f u, u ∈ ts → u.failure? = some f → f.rule = t.name → f.kind = .config →
        t.failure? = some f := by
      intro f u hu hf hrule hkind
      obtain ⟨e, -, rfl⟩ := Turn.failure?_eq_some hf
      obtain rfl := h.eq_of_failsConfig hrun hu ht ((Turn.kind_of_failure? hf).1 hkind) hfails hrule
      exact hf
    obtain ⟨e, he, hconfig⟩ := (Option.any_eq_true _ _).1 hfails
    obtain ⟨f, hf, hrule, hmessage, u, hu, hrecord⟩ := entry_of_error ht he
    have hu := List.mem_of_find?_eq_some hu
    have hkind : f.kind = .config := by
      obtain ⟨e', -, rfl⟩ := Turn.failure?_eq_some hrecord
      have hsame := RuleError.isConfig_eq_of_message hmessage
      rw [RuleError.failure, hsame, hconfig]
      rfl
    refine ⟨f, ⟨hf, hrule, hkind⟩, ?_⟩
    rintro g ⟨hg, hgrule, hgkind⟩
    obtain ⟨v, hv, hgrecord⟩ := turn_of_mem_log hg
    have htg := hown g v hv hgrecord hgrule hgkind
    have htf := hown f u hu hrecord hrule hkind
    exact Option.some_inj.1 (htg.symm.trans htf)
  entry := by
    intro t ht e he
    obtain ⟨f, hf, hrule, hmessage, u, hu, hrecord⟩ := entry_of_error ht he
    refine ⟨f, hf, hrule, hmessage, ?_⟩
    obtain ⟨e', -, rfl⟩ := Turn.failure?_eq_some hrecord
    rw [hu]
    rfl
  record := fun _ => turn_of_mem_log

variable (a : Analyzer) (disk : Disk)

/-- **Failures of a run.** Files are analysed one after the other, from a state in which no rule is
off. Every enabled rule has a turn at each token of its kinds in every pass, and takes it unless a
rule of its name has failed for its configuration before. If the files can be read, the failures of
the report are those of the turns. -/
theorem failures_logged (paths : List Path) (memories : List Memory) :
    let run : RunState := ⟨memories, []⟩
    let turns := a.runTurns disk paths run
    run.Leads turns (a.analyzeFiles disk paths run).2 ∧
    (∀ r ∈ a.runRounds disk paths run,
      (a.turnsOf disk r).map (fun t => (t.index, t.worker)) = (a.siteOf disk r).dues a.workers) ∧
    (∀ before t after, turns = before ++ t :: after →
      (t.taken = true ↔ ∀ u ∈ before, u.name = t.name → u.failsConfig = false)) ∧
    ((∀ path ∈ paths, ∃ text, disk.readText path = .ok text) →
      ∃ reports, (a.analyzeFiles disk paths run).1 = .ok reports ∧
        RuleFailure.Logged turns (reports.foldl Report.merge {}).sorted.failures) := by
  intro run turns
  have hlead := a.runTurns_lead disk paths run
  refine ⟨hlead, fun r _ => ?_, fun before t after => ?_, fun hread => ?_⟩
  · exact (a.siteOf disk r).turns_places _ _
  · exact hlead.taken_iff rfl
  · obtain ⟨reports, hok, hlog⟩ := a.analyzeFiles_log disk hread run {}
    refine ⟨reports, hok, ?_⟩
    rw [Report.sorted, hlog]
    exact logged_of_leads hlead rfl

/-- In two files, a rule without its schema is invoked once and a shaky one at every variable; each
has one entry. -/
theorem failures_logged_over_two_files :
    let disk : Disk :=
      { files := [(["a.php"], "<?php $a; $b;".toUTF8), (["b.php"], "<?php $a;".toUTF8)] }
    let paths : List Path := [⟨"/a.php"⟩, ⟨"/b.php"⟩]
    let a : Analyzer := ⟨⟨"/"⟩, [.failing "broken" (.config "no schema"),
      .failing "shaky" (.invariant "no parent")], [], {}, false, 50⟩
    let turns := a.runTurns disk paths ⟨[{}, {}], []⟩
    (∀ path ∈ paths, ∃ text, disk.readText path = .ok text) ∧
    turns.map (fun t => (t.name, t.taken)) =
      [("broken", true), ("shaky", true), ("broken", false), ("shaky", true),
        ("broken", false), ("shaky", true)] ∧
    ∃ reports, (a.analyzeFiles disk paths ⟨[{}, {}], []⟩).1 = .ok reports ∧
      RuleFailure.Logged turns (reports.foldl Report.merge {}).sorted.failures := by
  intro disk paths a turns
  have hread : ∀ path ∈ paths, ∃ text, disk.readText path = .ok text := by
    have hfirst : disk.readText ⟨"/a.php"⟩ = .ok "<?php $a; $b;" := by decide +kernel
    have hsecond : disk.readText ⟨"/b.php"⟩ = .ok "<?php $a;" := by decide +kernel
    exact List.forall_mem_cons.2 ⟨⟨_, hfirst⟩, List.forall_mem_singleton.2 ⟨_, hsecond⟩⟩
  refine ⟨hread, by decide +kernel, ?_⟩
  exact (a.failures_logged disk paths [{}, {}]).2.2.2 hread

end Analyzer

end PhpStyle
