import PhpStyle.Analyzer.Pass
import PhpStyle.Glob
import PhpStyle.Ignore.Walk

/-!
Analysing files. With fixing on, a file is fixed and read again until a pass changes nothing or the
number of passes is used up; then a last pass reports what remains.
-/

namespace PhpStyle

/-- Why an analysis cannot be set up or carried out. -/
inductive AnalyzerError where
  /-- A pattern to exclude by is faulty. -/
  | pattern
  /-- The files cannot be searched for. -/
  | walk
  | read (file : Path) (cause : DiskError)
  deriving DecidableEq, Repr

/-- How a file that could not be read is reported. -/
def AnalyzerError.message : AnalyzerError → String
  | pattern => "Invalid glob pattern"
  | walk => "Walk error"
  | read file cause => "Failed to read " ++ file.text ++ ": " ++ cause.message

structure Analyzer where
  /-- The directory or file to analyse, as an absolute path. -/
  root : Path
  rules : List Rule
  exclude : List String
  config : Config
  fixing : Bool
  maxPasses : Nat

/-- What an analyzer is asked for; the configuration decides what is left open. -/
structure AnalyzerRequest where
  config : Config := {}
  rules : List Rule
  root : Option Path := none
  exclude : List String := []
  fixing : Bool := false
  maxPasses : Option Nat := none

namespace Analyzer

/-- Sets up an analyzer. -/
def build (disk : Disk) (r : AnalyzerRequest) : Except AnalyzerError Analyzer :=
  let exclude := r.exclude ++ r.config.exclude
  if exclude.all fun p => (Glob.parse? p).isSome then
    .ok {
      root := disk.cwd.join (r.root.getD r.config.root)
      rules := r.rules
      exclude := exclude
      config := r.config
      fixing := r.fixing
      maxPasses := max 1 (r.maxPasses.getD r.config.maxPasses) }
  else .error .pattern

variable (a : Analyzer) (disk : Disk)

def workers : List Worker :=
  Worker.ofRules a.config a.rules

/-- Nothing remembered, and no rule off. -/
def start : RunState where
  memories := a.rules.map fun _ => {}

/-- One pass over a text. -/
def pass (path : Path) (text : String) (fixing : Bool) (run : RunState)
    (failures : List RuleFailure) : PassState :=
  runPass disk a.workers ⟨path, text, a.root⟩ fixing run failures

/-- How far the fixing of a file has come. -/
structure FixState where
  text : String
  /-- The violations that were fixed, pass by pass. -/
  fixed : List Violation := []
  /-- The number of passes that changed something. -/
  passes : Nat := 0
  converged : Bool := false
  run : RunState
  failures : List RuleFailure := []
  deriving DecidableEq, Repr

/-- Fixes a file, with `n` passes left. -/
def fixLoop (path : Path) : Nat → FixState → FixState
  | 0, s => s
  | n + 1, s =>
    let p := a.pass disk path s.text true s.run s.failures
    if p.desk.buffer.commits = 0 then
      { s with converged := true, run := p.run, failures := p.failures }
    else
      fixLoop path n
        { text := p.desk.buffer.text
          fixed := s.fixed ++ p.desk.violations.filter (·.fixed)
          passes := s.passes + 1
          converged := false
          run := p.run
          failures := p.failures }

/-- The state after fixing, or that before it if nothing is to be fixed. -/
def fixedState (path : Path) (source : String) (run : RunState) : FixState :=
  let s : FixState := { text := source, converged := !a.fixing, run := run }
  if a.fixing then a.fixLoop disk path a.maxPasses s else s

/-- Analyses one file. -/
def analyzeText (path : Path) (source : String) (run : RunState) : Report × RunState :=
  let s := a.fixedState disk path source run
  let p := a.pass disk path s.text false s.run s.failures
  let outcome : FileOutcome :=
    { file := path
      passes := s.passes
      converged := s.converged
      fixedSource := if s.text = source then none else some s.text }
  ({ violations := s.fixed ++ p.desk.violations
     filesChecked := 1
     files := [outcome]
     failures := p.failures }, p.run)

/-- Analyses a text that need not be on the disk. Rules keep their memory, but none stays off. -/
def analyzeSource (path : Path) (source : String) (memories : List Memory) :
    Report × List Memory :=
  let (report, run) := a.analyzeText disk path source ⟨memories, []⟩
  (report.sorted, run.memories)

/-! ### Finding files -/

/-- Whether the extension is one of those to analyse, in any letter case. -/
def hasSourceExtension (path : Path) : Bool :=
  path.extension?.any fun e => a.config.extensions.any (Text.sameLetters · e)

def isExcluded (path : Path) : Bool :=
  a.exclude.any fun p => Glob.excludes p path.text

/-- The files to analyse, in order of their paths. -/
def sourceFiles : Except AnalyzerError (List Path) :=
  if disk.isFile a.root then .ok [a.root]
  else match disk.resolve a.root with
    | .error _ => .error .walk
    | .ok place => match Ignore.filesFound? disk a.config.respectGitignore place with
      | none => .error .walk
      | some found =>
        let paths := found.map fun names => names.foldl Path.joinName a.root
        .ok ((paths.filter fun p => a.hasSourceExtension p && !a.isExcluded p).mergeSort Path.le)

/-- Analyses files one after the other, up to the first that cannot be read. -/
def analyzeFiles : List Path → RunState → Except AnalyzerError (List Report) × RunState
  | [], run => (.ok [], run)
  | path :: paths, run =>
    match disk.readText path with
    | .error e => (.error (.read path e), run)
    | .ok text =>
      let (report, run) := a.analyzeText disk path text run
      match analyzeFiles paths run with
      | (.ok reports, run) => (.ok (report :: reports), run)
      | (.error e, run) => (.error e, run)

/-- Analyses all source files. -/
def analyze (memories : List Memory) : Except AnalyzerError Report × List Memory :=
  match a.sourceFiles disk with
  | .error e => (.error e, memories)
  | .ok paths => match a.analyzeFiles disk paths ⟨memories, []⟩ with
    | (.ok reports, run) => (.ok (reports.foldl Report.merge {}).sorted, run.memories)
    | (.error e, run) => (.error e, run.memories)

end Analyzer

end PhpStyle
