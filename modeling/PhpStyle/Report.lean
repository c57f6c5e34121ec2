import PhpStyle.Violation

/-!
What an analysis found: violations, one outcome per file, and the failures of rules.
-/

namespace PhpStyle

/-- How far a failure reaches: a rule that lacks what it needs is off for the rest of the run, a
broken assumption ends one invocation only. -/
inductive FailureKind where
  | config | invariant
  deriving DecidableEq, Repr, Inhabited

def FailureKind.label : FailureKind → String
  | config => "config"
  | invariant => "invariant"

structure RuleFailure where
  rule : String
  code : String
  kind : FailureKind
  message : String
  /-- The file under analysis when the rule first failed so. -/
  file : Path
  deriving DecidableEq, Repr, Inhabited

def RuleFailure.line (f : RuleFailure) : String :=
  "rule " ++ f.rule ++ " [" ++ f.code ++ "] failed: " ++ f.message ++ "\n"

/-- What became of one file. -/
structure FileOutcome where
  file : Path
  /-- The number of fix passes that changed something. -/
  passes : Nat
  /-- Whether a fix pass changed nothing, or none was asked for. -/
  converged : Bool
  /-- The text after fixing, where it differs. -/
  fixedSource : Option String
  deriving DecidableEq, Repr, Inhabited

structure Report where
  violations : List Violation := []
  filesChecked : Nat := 0
  files : List FileOutcome := []
  failures : List RuleFailure := []
  deriving DecidableEq, Repr, Inhabited

namespace Report

variable (r : Report)

def unfixed : List Violation :=
  r.violations.filter fun v => !v.fixed

def fixedCount : Nat :=
  r.violations.countP (·.fixed)

/-- The number of unfixed violations of one severity. -/
def count (s : Severity) : Nat :=
  r.unfixed.countP fun v => v.severity == s

/-- The unfixed violations as severe as `bound` or more. -/
def failing (bound : Severity) : List Violation :=
  r.unfixed.filter fun v => v.severity.reaches bound

def failsAt (bound : Severity) : Bool :=
  !(r.failing bound).isEmpty

def unconverged : List FileOutcome :=
  r.files.filter fun f => !f.converged

/-- Whether the rule of `f` already failed with the same message. -/
def hasFailure (f : RuleFailure) : Bool :=
  r.failures.any fun g => g.rule == f.rule && g.message == f.message

/-- Adds a failure, once for each rule and message. -/
def addFailure (f : RuleFailure) : Report :=
  if r.hasFailure f then r else { r with failures := r.failures ++ [f] }

/-- All of `r`, then all of `other`. -/
def merge (other : Report) : Report :=
  let both : Report :=
    { violations := r.violations ++ other.violations
      filesChecked := r.filesChecked + other.filesChecked
      files := r.files ++ other.files
      failures := r.failures }
  other.failures.foldl addFailure both

/-- The order of violations: by file, line and column. -/
def violationLe (a b : Violation) : Bool :=
  if a.location.file.same b.location.file then
    if a.location.line = b.location.line then a.location.column ≤ b.location.column
    else a.location.line ≤ b.location.line
  else a.location.file.le b.location.file

/-- Puts violations and files into order; what is equal in it stays as it was. -/
def sorted : Report :=
  { r with
    violations := r.violations.mergeSort violationLe
    files := r.files.mergeSort fun a b => a.file.le b.file }

def paragraph (v : Violation) : String :=
  v.rule ++ " [" ++ v.code ++ "] at " ++ v.location.text ++ "\n" ++
    "  " ++ v.severity.label ++ ": " ++ v.message ++ "\n" ++ v.helpLine ++ "\n"

/-- The report as a text: the failing violations, the failures of rules, and a line of totals. -/
def text (bound : Severity) : String :=
  "\n=== sniffkit: " ++ toString (r.failing bound).length ++ " violation(s) ===\n\n" ++
    String.join ((r.failing bound).map paragraph) ++
    String.join (r.failures.map RuleFailure.line) ++
    "Total: " ++ toString (r.count .error) ++ " error(s), " ++ toString (r.count .warning) ++
    " warning(s), " ++ toString (r.count .info) ++ " info(s) in " ++ toString r.filesChecked ++
    " file(s), " ++ toString r.fixedCount ++ " fixed\n"

end Report

end PhpStyle
