import PhpStyle.Path
import PhpStyle.Toml.Document
import PhpStyle.Violation

/-!
The configuration of an analysis, and how it is read from a TOML document. Keys that mean nothing
are passed over; a key that means something must have a value of the right kind.
-/

namespace PhpStyle

/-- What is configured for one rule. -/
structure RuleConfig where
  enabled : Option Bool := none
  severity : Option Severity := none
  /-- All other keys, for the rule itself. -/
  options : List (String × Toml) := []
  deriving Repr, Inhabited

structure Config where
  preset : Option String := none
  /-- The directory or file to analyse. -/
  root : Path := ⟨"."⟩
  /-- Patterns of paths to leave out. -/
  exclude : List String := ["**/vendor/**", "**/node_modules/**"]
  /-- The extensions of source files. -/
  extensions : List String := ["php", "inc"]
  respectGitignore : Bool := true
  /-- How many files may be analysed at once. -/
  parallelism : Option Nat := none
  /-- How often a file may be fixed and read again. -/
  maxPasses : Nat := 50
  /-- The severity from which on a violation fails the analysis. -/
  failOn : Severity := .error
  rules : List (String × RuleConfig) := []
  deriving Repr, Inhabited

namespace Toml

def string? : Toml → Option String
  | string s => some s
  | _ => none

def boolean? : Toml → Option Bool
  | boolean b => some b
  | _ => none

def natural? : Toml → Option Nat
  | integer n => if 0 ≤ n then some n.toNat else none
  | _ => none

def strings? : Toml → Option (List String)
  | array items => items.mapM string?
  | _ => none

/-- The entries of a table. A date-time counts as a table with one entry, its text. -/
def entries? : Toml → Option (List (String × Toml))
  | table es => some es
  | dateTime d => some [("$__toml_private_datetime", .string d.text)]
  | _ => none

def isEmpty : Toml → Bool
  | array items => items.isEmpty
  | table es => es.isEmpty
  | _ => false

/-- A severity: its name, or a table whose only key is its name and holds nothing. -/
def severity? : Toml → Option Severity
  | string s => Severity.ofLabel? s
  | table [(s, v)] => if v.isEmpty then Severity.ofLabel? s else none
  | _ => none

end Toml

namespace Config

/-- Decodes the value of a key, if the key is there. -/
def decode? {α : Type} (read? : Toml → Option α) (es : List (String × Toml)) (key : String) :
    Option (Option α) :=
  match es.lookup key with
  | some v => (read? v).map some
  | none => some none

/-- The keys that configure an analysis, in order. -/
def analyzerKeys : List String :=
  ["root", "exclude", "extensions", "respect_gitignore", "parallelism", "max_passes", "fail_on"]

/-- The entries that configure an analysis; a list gives the values of the keys in order. -/
def analyzerEntries? : Toml → Option (List (String × Toml))
  | .array items => some (analyzerKeys.zip items)
  | v => v.entries?

/-- Applies the entries that configure an analysis. -/
def withAnalyzer (c : Config) (es : List (String × Toml)) : Option Config := do
  let root ← decode? Toml.string? es "root"
  let exclude ← decode? Toml.strings? es "exclude"
  let extensions ← decode? Toml.strings? es "extensions"
  let respectGitignore ← decode? Toml.boolean? es "respect_gitignore"
  let parallelism ← decode? Toml.natural? es "parallelism"
  let maxPasses ← decode? Toml.natural? es "max_passes"
  let failOn ← decode? Toml.severity? es "fail_on"
  return { c with
    root := (root.map Path.mk).getD c.root
    exclude := exclude.getD c.exclude
    extensions := extensions.getD c.extensions
    respectGitignore := respectGitignore.getD c.respectGitignore
    parallelism := parallelism
    maxPasses := maxPasses.getD c.maxPasses
    failOn := failOn.getD c.failOn }

def ruleConfig? (v : Toml) : Option RuleConfig := do
  let es ← v.entries?
  return {
    enabled := ← decode? Toml.boolean? es "enabled"
    severity := ← decode? Toml.severity? es "severity"
    options := es.filter fun e => e.1 ≠ "enabled" && e.1 ≠ "severity" }

def rules? (v : Toml) : Option (List (String × RuleConfig)) := do
  (← v.entries?).mapM fun e => do return (e.1, ← ruleConfig? e.2)

/-- Reads a configuration. -/
def parse? (text : String) : Option Config := do
  let es ← Toml.parse? text
  let preset ← decode? Toml.string? es "preset"
  let analyzer ← decode? analyzerEntries? es "analyzer"
  let rules ← decode? rules? es "rules"
  withAnalyzer { preset := preset, rules := rules.getD [] } (analyzer.getD [])

def rule? (c : Config) (name : String) : Option RuleConfig :=
  c.rules.lookup name

/-- Rules are enabled unless they are switched off. -/
def isEnabled (c : Config) (name : String) : Bool :=
  ((c.rule? name).bind (·.enabled)).getD true

def severity? (c : Config) (name : String) : Option Severity :=
  (c.rule? name).bind (·.severity)

end Config

namespace RuleConfig

variable (c : RuleConfig) (key : String)

def option? : Option Toml :=
  c.options.lookup key

def flag (default : Bool) : Bool :=
  ((c.option? key).bind Toml.boolean?).getD default

def stringOr (default : String) : String :=
  ((c.option? key).bind Toml.string?).getD default

/-- The strings among the items of an array. -/
def stringItems : List String :=
  match c.option? key with
  | some (.array items) => items.filterMap Toml.string?
  | _ => []

def natural? : Option Nat :=
  (c.option? key).bind Toml.natural?

end RuleConfig

/-- The text of a string or of a date-time. -/
def Toml.text? : Toml → Option String
  | .string s => some s
  | .dateTime d => some d.text
  | _ => none

def RuleConfig.text? (c : RuleConfig) (key : String) : Option String :=
  (c.option? key).bind Toml.text?

/-- The texts of an array that holds nothing else. -/
def RuleConfig.texts? (c : RuleConfig) (key : String) : Option (List String) :=
  match c.option? key with
  | some (.array items) => items.mapM Toml.text?
  | _ => none

end PhpStyle
