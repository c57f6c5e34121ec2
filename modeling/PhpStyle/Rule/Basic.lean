import PhpStyle.Disk
import PhpStyle.Rule.Script
import PhpStyle.SourceFile

/-!
Rules: what they are called, which tokens they look at, and what they do there.
-/

namespace PhpStyle

/-- All that a rule may look at. -/
structure Site where
  file : SourceFile
  tokens : Tokens
  disk : Disk

/-- The directories of each namespace, in order; a directory is the list of names that lead to it. -/
abbrev NamespaceMap := List (String × List (List String))

/-- What a rule remembers from one invocation to the next, so as to read each file once. -/
structure Memory where
  /-- The working directory from which headers were looked up. -/
  headerCwd : Path := ⟨""⟩
  /-- The header comment of each directory. -/
  headers : List (Path × Option String) := []
  /-- The manifest that was read last. -/
  manifest : Option (Path × NamespaceMap) := none
  deriving DecidableEq, Repr, Inhabited

/-- How a rule presents itself. -/
structure RuleInfo where
  name : String
  code : String
  description : String
  severity : Severity
  fixable : Bool
  /-- The kinds of token that the rule is called for. -/
  kinds : List Kind
  deriving DecidableEq, Repr

/-- A rule. `process` is called with the index of a token of one of its kinds. -/
structure Rule extends RuleInfo where
  process : Site → Nat → Memory → RuleScript × Memory

/-- A rule that remembers nothing and reports what `findings` gives. -/
def Rule.ofFindings (info : RuleInfo) (findings : Site → Nat → List Finding) : Rule where
  toRuleInfo := info
  process site i memory := (.ofFindings (findings site i), memory)

/-- The same rule, as severe as asked for. -/
def Rule.withSeverity (r : Rule) (s : Option Severity) : Rule :=
  { r with severity := s.getD r.severity }

theorem Rule.withSeverity_ofFindings (info : RuleInfo) (findings : Site → Nat → List Finding)
    (s : Option Severity) : (ofFindings info findings).withSeverity s =
      ofFindings { info with severity := s.getD info.severity } findings :=
  rfl

end PhpStyle
