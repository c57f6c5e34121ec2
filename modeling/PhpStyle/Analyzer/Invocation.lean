import PhpStyle.Allowance
import PhpStyle.Report
import PhpStyle.Rule.Basic

/-!
One invocation of a rule: its script acts on the edit buffer of the pass and on the list of
violations, and whatever it leaves open is closed for it.
-/

namespace PhpStyle

/-- What scripts act on. -/
structure Desk where
  buffer : EditBuffer
  violations : List Violation
  deriving DecidableEq, Repr

/-- A rule at work: its identity, and the severity in force. -/
structure ActiveRule where
  name : String
  code : String
  severity : Severity
  deriving DecidableEq, Repr

namespace ActiveRule

variable (r : ActiveRule) (site : Site)

/-- The violation that the rule reports at a token, unless a directive allows it. -/
def violation? (index : Nat) (message : String) (help : Option String) (fixable : Bool) :
    Option Violation :=
  let location := site.file.location site.tokens index
  match Allowance.find? site.file.content location.line [r.name, r.code] with
  | some _ => none
  | none => some {
      code := r.code
      rule := r.name
      severity := r.severity
      location := location
      message := message
      fixable := fixable
      help := help }

/-- Runs a script. -/
def run : RuleScript → Desk → Except RuleError Unit × Desk
  | .done, d => (.ok (), d)
  | .fail e, d => (.error e, d)
  | .look next, d => run (next d.buffer) d
  | .report index message help next, d =>
    match r.violation? site index message help false with
    | none => run (next false) d
    | some v => run (next true) { d with violations := d.violations ++ [v] }
  | .fixable index message fix next, d =>
    match r.violation? site index message none true with
    | none => run (next (.ok false)) d
    | some v =>
      if d.buffer.enabled then
        match d.buffer.changeset RuleError.edit fix.run with
        | (.ok committed, b) =>
          run (next (.ok committed)) ⟨b, d.violations ++ [{ v with fixed := committed }]⟩
        | (.error e, b) => run (next (.error e)) ⟨b, d.violations ++ [v]⟩
      else run (next (.ok false)) { d with violations := d.violations ++ [v] }
  | .edit fix next, d =>
    match fix.run d.buffer with
    | (result, b) => run (next result) { d with buffer := b }

def leakCode : String :=
  "Internal.ChangesetLeak"

/-- The violation for a changeset that was left open. -/
def leak (index : Nat) : Violation where
  code := leakCode
  rule := r.name
  severity := .error
  location := site.file.location site.tokens index
  message := "Rule " ++ r.name ++ " left a changeset open; it was rolled back"

/-- Drops a changeset that was left open, and reports that. -/
def close (index : Nat) (d : Desk) : Desk :=
  if d.buffer.inChangeset then ⟨d.buffer.rollback, d.violations ++ [r.leak site index]⟩ else d

end ActiveRule

end PhpStyle
