import PhpStyle.Analyzer.Basic

/-!
# A run, turn by turn

In a pass every rule has a turn at each token of its kinds (`Site.dues`), and takes it unless it is
off. A `Turn` holds the state in which it comes; `Turn.next` is the state it leaves, and the four
lemmas on `Turn.next` say all that a turn can do. The turns of a pass, each in the state that the
one before it left, end in the state of the pass (`Analyzer.turns_reach`).

A `Round` is one pass with what it starts from. `Analyzer.rounds` lists those of one file and
`Analyzer.runRounds` those of many files one after the other, and along all their turns the state of
the run is handed on (`Analyzer.runTurns_lead`).
-/

namespace PhpStyle

namespace RuleError

/-- The record of an error that a rule returned. -/
def failure (e : RuleError) (r : ActiveRule) (file : Path) : RuleFailure where
  rule := r.name
  code := r.code
  kind := if e.isConfig then .config else .invariant
  message := e.message
  file := file

end RuleError

/-- The failures after one more, which may be known already. -/
def Report.record (fs : List RuleFailure) (f : RuleFailure) : List RuleFailure :=
  (({ failures := fs : Report }).addFailure f).failures

theorem Report.failures_addFailure (r : Report) (f : RuleFailure) :
    (r.addFailure f).failures = record r.failures f := by
  unfold record addFailure hasFailure
  split <;> rfl

/-- The turn of a rule at a token of its kinds, and the state in which it comes. -/
structure Turn where
  site : Site
  index : Nat
  worker : Worker
  state : PassState

namespace Turn

variable (t : Turn)

def name : String :=
  t.worker.active.name

/-- Whether the rule is invoked, which it is unless it is off. -/
def taken : Bool :=
  !t.state.run.disabled.contains t.name

def memory : Memory :=
  t.state.run.memories[t.worker.number]?.getD {}

/-- What the rule does when it is invoked, and what it remembers then. -/
def processed : RuleScript × Memory :=
  t.worker.rule.process t.site t.index t.memory

/-- What an invocation returns, and the desk that it hands back. -/
def outcome : Except RuleError Unit × Desk :=
  t.worker.active.run t.site t.processed.1 t.state.desk

/-- The error that the rule returned, if it was invoked and did. -/
def error? : Option RuleError :=
  if t.taken then
    match t.outcome.1 with
    | .ok () => none
    | .error e => some e
  else none

def failure? : Option RuleFailure :=
  t.error?.map fun e => e.failure t.worker.active t.site.file.path

def failsConfig : Bool :=
  t.error?.any (·.isConfig)

/-- Whether the rule was invoked and returned with a changeset open. -/
def leaks : Bool :=
  t.taken && t.outcome.2.buffer.inChangeset

def next : PassState :=
  if t.taken then t.state.invoke t.site t.index t.worker.number t.worker.rule t.worker.active
  else t.state

theorem desk_next : t.next.desk =
    if t.taken then t.worker.active.close t.site t.index t.outcome.2 else t.state.desk := by
  unfold next
  split
  · unfold PassState.invoke
    simp only
    split <;> rfl
  · rfl

theorem memories_next : t.next.run.memories =
    if t.taken then t.state.run.memories.set t.worker.number t.processed.2
    else t.state.run.memories := by
  unfold next
  split
  · unfold PassState.invoke PassState.fail
    simp only
    split
    · rfl
    · split <;> rfl
  · rfl

/-- An error of configuration, and nothing else, switches the name of the rule off. -/
theorem disabled_next : t.next.run.disabled =
    if t.failsConfig then t.name :: t.state.run.disabled else t.state.run.disabled := by
  unfold next failsConfig error? outcome processed memory
  split
  · unfold PassState.invoke PassState.fail
    simp only
    generalize ActiveRule.run _ _ _ _ = result
    obtain ⟨e | u, d⟩ := result
    · cases e <;> rfl
    · rfl
  · rfl

theorem failures_next : t.next.failures = t.failure?.toList.foldl Report.record t.state.failures := by
  unfold next failure? error? outcome processed memory
  split
  · unfold PassState.invoke PassState.fail
    simp only
    generalize ActiveRule.run _ _ _ _ = result
    obtain ⟨e | u, d⟩ := result <;> rfl
  · rfl

end Turn

namespace Site

variable (site : Site)

/-- The turns of a pass, in order of the tokens and then of the rules. -/
def dues (workers : List Worker) : List (Nat × Worker) :=
  site.tokens.items.toList.zipIdx.flatMap fun p =>
    (workers.filter (·.rule.kinds.contains p.1.kind)).map (p.2, ·)

theorem worker_of_mem_dues {workers : List Worker} {due : Nat × Worker}
    (h : due ∈ site.dues workers) : due.2 ∈ workers := by
  obtain ⟨p, -, hp⟩ := List.mem_flatMap.1 h
  obtain ⟨w, hw, rfl⟩ := List.mem_map.1 hp
  exact (List.mem_filter.1 hw).1

/-- Turns one after the other, from a state on. -/
def turns : List (Nat × Worker) → PassState → List Turn
  | [], _ => []
  | due :: dues, s =>
    let t : Turn := ⟨site, due.1, due.2, s⟩
    t :: turns dues t.next

theorem turns_places (dues : List (Nat × Worker)) (s : PassState) :
    (site.turns dues s).map (fun t => (t.index, t.worker)) = dues := by
  induction dues generalizing s with
  | nil => rfl
  | cons due dues ih => exact congrArg (due :: ·) (ih _)

end Site

/-- The turns `ts` lead from the state `s` to the state `s'`. -/
inductive PassState.Reaches : PassState → List Turn → PassState → Prop
  | nil (s : PassState) : Reaches s [] s
  | cons (t : Turn) {ts : List Turn} {s' : PassState} (h : Reaches t.next ts s') :
    Reaches t.state (t :: ts) s'

namespace PassState.Reaches

variable {s s' : PassState} {ts : List Turn}

theorem inv {P : PassState → Prop} (h : Reaches s ts s')
    (step : ∀ t ∈ ts, P t.state → P t.next) (hs : P s) : (∀ t ∈ ts, P t.state) ∧ P s' := by
  induction h with
  | nil s => exact ⟨fun t ht => absurd ht List.not_mem_nil, hs⟩
  | cons t h ih =>
    obtain ⟨ht, hts⟩ := List.forall_mem_cons.1 step
    obtain ⟨hrest, hlast⟩ := ih hts (ht hs)
    exact ⟨List.forall_mem_cons.2 ⟨hs, hrest⟩, hlast⟩

theorem failures (h : Reaches s ts s') :
    s'.failures = (ts.filterMap Turn.failure?).foldl Report.record s.failures := by
  induction h with
  | nil s => rfl
  | cons t h ih =>
    rw [ih, t.failures_next]
    cases hf : t.failure? with
    | none => rw [List.filterMap_cons_none hf]; rfl
    | some f => rw [List.filterMap_cons_some hf]; rfl

end PassState.Reaches

theorem Site.turns_reach (site : Site) (dues : List (Nat × Worker)) (s : PassState) :
    s.Reaches (site.turns dues s)
      (dues.foldl (fun s due => (⟨site, due.1, due.2, s⟩ : Turn).next) s) := by
  induction dues generalizing s with
  | nil => exact .nil s
  | cons due dues ih => exact .cons ⟨site, due.1, due.2, s⟩ (ih _)

/-- Going through all tokens is taking all turns. -/
theorem visitTokens_eq (site : Site) (workers : List Worker) (s : PassState) :
    visitTokens site workers s =
      (site.dues workers).foldl (fun s due => (⟨site, due.1, due.2, s⟩ : Turn).next) s := by
  rw [visitTokens, Site.dues, List.foldl_flatMap]
  congr 1
  funext s p
  -- the loop skips the rules that are not for this kind, `dues` leaves them out
  rw [visitToken, List.foldl_map, List.foldl_filter]
  congr 1
  funext s w
  unfold Worker.visit Turn.next Turn.taken Turn.name
  cases w.rule.kinds.contains p.1.kind <;> rfl

/-! ### Rounds -/

/-- One pass over a file, with what it starts from. -/
structure Round where
  path : Path
  text : String
  fixing : Bool
  run : RunState
  failures : List RuleFailure

namespace Analyzer

variable (a : Analyzer) (disk : Disk)

def siteOf (r : Round) : Site :=
  ⟨⟨r.path, r.text, a.root⟩, Tokens.ofSource r.text, disk⟩

def opening (r : Round) : PassState :=
  ⟨⟨.ofTokens (Tokens.ofSource r.text) r.fixing, []⟩, r.run, r.failures⟩

def closing (r : Round) : PassState :=
  a.pass disk r.path r.text r.fixing r.run r.failures

def turnsOf (r : Round) : List Turn :=
  (a.siteOf disk r).turns ((a.siteOf disk r).dues a.workers) (opening r)

theorem turns_reach (r : Round) :
    (opening r).Reaches (a.turnsOf disk r) (a.closing disk r) := by
  have h := (a.siteOf disk r).turns_reach ((a.siteOf disk r).dues a.workers) (opening r)
  rwa [← visitTokens_eq] at h

theorem worker_of_mem_turnsOf {r : Round} {t : Turn} (h : t ∈ a.turnsOf disk r) :
    t.worker ∈ a.workers := by
  have hplaces := (a.siteOf disk r).turns_places ((a.siteOf disk r).dues a.workers) (opening r)
  have hdue : (t.index, t.worker) ∈ (a.siteOf disk r).dues a.workers := by
    rw [← hplaces]
    exact List.mem_map.2 ⟨t, h, rfl⟩
  exact (a.siteOf disk r).worker_of_mem_dues hdue

/-- The pass that comes next in a file. -/
def FixState.round (s : FixState) (path : Path) (fixing : Bool) : Round :=
  ⟨path, s.text, fixing, s.run, s.failures⟩

theorem closing_round (s : FixState) (path : Path) (fixing : Bool) :
    a.closing disk (s.round path fixing) = a.pass disk path s.text fixing s.run s.failures := rfl

/-- The state after a pass that committed something. -/
def FixState.advance (s : FixState) (p : PassState) : FixState where
  text := p.desk.buffer.text
  fixed := s.fixed ++ p.desk.violations.filter (·.fixed)
  passes := s.passes + 1
  run := p.run
  failures := p.failures

/-- The state after a pass that committed nothing. -/
def FixState.settle (s : FixState) (p : PassState) : FixState :=
  { s with converged := true, run := p.run, failures := p.failures }

/-- The passes of `fixLoop`. -/
def fixRounds (path : Path) : Nat → FixState → List Round
  | 0, _ => []
  | n + 1, s =>
    let p := a.closing disk (s.round path true)
    s.round path true ::
      if p.desk.buffer.commits = 0 then [] else fixRounds path n (s.advance p)

theorem fixLoop_succ (path : Path) (n : Nat) (s : FixState) :
    a.fixLoop disk path (n + 1) s =
      if (a.closing disk (s.round path true)).desk.buffer.commits = 0 then
        s.settle (a.closing disk (s.round path true))
      else a.fixLoop disk path n (s.advance (a.closing disk (s.round path true))) := by
  rw [closing_round, fixLoop]
  simp only [FixState.settle, FixState.advance]

/-- What `fixLoop` does and which passes it makes: none, one that commits nothing, or one that
commits something and then those of the loop that goes on from there. -/
theorem fixLoop_cases {motive : Nat → FixState → FixState → List Round → Prop} (path : Path)
    (stop : ∀ s, motive 0 s s [])
    (settle : ∀ n s, (a.closing disk (s.round path true)).desk.buffer.commits = 0 →
      motive (n + 1) s (s.settle (a.closing disk (s.round path true))) [s.round path true])
    (advance : ∀ n s s' rs, (a.closing disk (s.round path true)).desk.buffer.commits ≠ 0 →
      motive n (s.advance (a.closing disk (s.round path true))) s' rs →
      motive (n + 1) s s' (s.round path true :: rs))
    (n : Nat) (s : FixState) :
    motive n s (a.fixLoop disk path n s) (a.fixRounds disk path n s) := by
  induction n generalizing s with
  | zero => exact stop s
  | succ n ih =>
    have hsettle := settle n s
    have hadvance := advance n s
    rw [fixRounds, fixLoop_succ]
    -- the pass becomes a variable, so that no later step tries to run it
    generalize a.closing disk (s.round path true) = p at hsettle hadvance ⊢
    by_cases h : p.desk.buffer.commits = 0
    · rw [if_pos h, if_pos h]
      exact hsettle h
    · rw [if_neg h, if_neg h]
      exact hadvance _ _ h (ih _)

def fixStart (source : String) (run : RunState) : FixState where
  text := source
  converged := !a.fixing
  run := run

/-- The number of fix passes that a file may take. -/
def fixPasses : Nat :=
  if a.fixing then a.maxPasses else 0

theorem fixedState_eq (path : Path) (source : String) (run : RunState) :
    a.fixedState disk path source run = a.fixLoop disk path a.fixPasses (a.fixStart source run) := by
  unfold fixedState fixPasses
  split <;> rfl

def fixRoundsOf (path : Path) (source : String) (run : RunState) : List Round :=
  a.fixRounds disk path a.fixPasses (a.fixStart source run)

/-- The pass that reports what remains. -/
def lastRound (path : Path) (source : String) (run : RunState) : Round :=
  (a.fixedState disk path source run).round path false

def rounds (path : Path) (source : String) (run : RunState) : List Round :=
  a.fixRoundsOf disk path source run ++ [a.lastRound disk path source run]

/-- The passes over files one after the other, up to the first that cannot be read. -/
def runRounds : List Path → RunState → List Round
  | [], _ => []
  | path :: paths, run =>
    match disk.readText path with
    | .error _ => []
    | .ok text =>
      a.rounds disk path text run ++ runRounds paths (a.analyzeText disk path text run).2

theorem analyzeText_violations (path : Path) (source : String) (run : RunState) :
    (a.analyzeText disk path source run).1.violations =
      (a.fixedState disk path source run).fixed ++
        (a.closing disk (a.lastRound disk path source run)).desk.violations := by
  simp only [analyzeText, closing, lastRound, FixState.round]

theorem analyzeText_failures (path : Path) (source : String) (run : RunState) :
    (a.analyzeText disk path source run).1.failures =
      (a.closing disk (a.lastRound disk path source run)).failures := by
  simp only [analyzeText, closing, lastRound, FixState.round]

theorem analyzeText_run (path : Path) (source : String) (run : RunState) :
    (a.analyzeText disk path source run).2 =
      (a.closing disk (a.lastRound disk path source run)).run := by
  simp only [analyzeText, closing, lastRound, FixState.round]

end Analyzer

/-- The turns `ts` hand the state of the run on, from `run` to `run'`. -/
inductive RunState.Leads : RunState → List Turn → RunState → Prop
  | nil (run : RunState) : Leads run [] run
  | cons (t : Turn) {ts : List Turn} {run' : RunState} (h : Leads t.next.run ts run') :
    Leads t.state.run (t :: ts) run'

namespace RunState.Leads

variable {run run' run'' : RunState} {ts us : List Turn}

theorem append (h : Leads run ts run') (h' : Leads run' us run'') : Leads run (ts ++ us) run'' := by
  induction h with
  | nil run => exact h'
  | cons t h ih => exact .cons t (ih h')

theorem of_reaches {s s' : PassState} (h : s.Reaches ts s') : Leads s.run ts s'.run := by
  induction h with
  | nil s => exact .nil s.run
  | cons t h ih => exact .cons t ih

/-- The turns before a turn lead to the state in which it comes. -/
theorem before {t : Turn} (h : Leads run (ts ++ t :: us) run') : Leads run ts t.state.run := by
  induction ts generalizing run with
  | nil =>
    cases h
    exact .nil _
  | cons u ts ih =>
    cases h with
    | cons _ h => exact .cons u (ih h)

end RunState.Leads

namespace Analyzer

variable (a : Analyzer) (disk : Disk)

theorem turnsOf_lead (r : Round) : r.run.Leads (a.turnsOf disk r) (a.closing disk r).run :=
  .of_reaches (a.turns_reach disk r)

theorem fixRounds_lead (path : Path) (n : Nat) (s : FixState) :
    s.run.Leads ((a.fixRounds disk path n s).flatMap (a.turnsOf disk))
      (a.fixLoop disk path n s).run := by
  refine a.fixLoop_cases disk path (motive := fun _ s s' rs =>
    s.run.Leads (rs.flatMap (a.turnsOf disk)) s'.run) ?_ ?_ ?_ n s
  · exact fun s => .nil s.run
  · intro n s _
    have hfirst := a.turnsOf_lead disk (s.round path true)
    rw [List.flatMap_singleton]
    generalize a.closing disk (s.round path true) = p at hfirst ⊢
    exact hfirst
  · intro n s s' rs _ ih
    have hfirst := a.turnsOf_lead disk (s.round path true)
    rw [List.flatMap_cons]
    generalize a.closing disk (s.round path true) = p at hfirst ih
    exact hfirst.append ih

theorem rounds_lead (path : Path) (source : String) (run : RunState) :
    run.Leads ((a.rounds disk path source run).flatMap (a.turnsOf disk))
      (a.analyzeText disk path source run).2 := by
  have hfix := a.fixRounds_lead disk path a.fixPasses (a.fixStart source run)
  rw [← fixedState_eq, ← fixRoundsOf] at hfix
  rw [rounds, List.flatMap_append, List.flatMap_singleton, analyzeText_run]
  exact hfix.append (a.turnsOf_lead disk (a.lastRound disk path source run))

def runTurns (paths : List Path) (run : RunState) : List Turn :=
  (a.runRounds disk paths run).flatMap (a.turnsOf disk)

theorem runTurns_lead (paths : List Path) (run : RunState) :
    run.Leads (a.runTurns disk paths run) (a.analyzeFiles disk paths run).2 := by
  unfold runTurns
  induction paths generalizing run with
  | nil => exact .nil run
  | cons path paths ih =>
    rw [runRounds, analyzeFiles]
    cases disk.readText path with
    | error e => exact .nil run
    | ok text =>
      have hrest := ih (a.analyzeText disk path text run).2
      simp only [List.flatMap_append]
      refine (a.rounds_lead disk path text run).append ?_
      generalize a.analyzeFiles disk paths (a.analyzeText disk path text run).2 = result at hrest ⊢
      obtain ⟨e | reports, run'⟩ := result <;> exact hrest

end Analyzer

end PhpStyle
