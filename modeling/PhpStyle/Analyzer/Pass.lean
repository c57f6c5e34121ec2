import PhpStyle.Analyzer.Invocation
import PhpStyle.Config
import PhpStyle.Token.Linking

/-!
One pass over a file: every enabled rule is invoked at every token of its kinds, in order of the
tokens and then of the rules.
-/

namespace PhpStyle

/-- What lasts longer than one pass: the memory of each rule, and the rules that are off. -/
structure RunState where
  memories : List Memory
  disabled : List String := []
  deriving DecidableEq, Repr, Inhabited

structure PassState where
  desk : Desk
  run : RunState
  /-- The failures of the file so far. -/
  failures : List RuleFailure
  deriving DecidableEq, Repr

namespace PassState

/-- Records a failure; one that comes from the configuration switches the rule off. -/
def fail (s : PassState) (r : ActiveRule) (file : Path) (e : RuleError) : PassState :=
  let failure : RuleFailure :=
    { rule := r.name
      code := r.code
      kind := if e.isConfig then .config else .invariant
      message := e.message
      file := file }
  { s with
    run := if e.isConfig then { s.run with disabled := r.name :: s.run.disabled } else s.run
    failures := (({ failures := s.failures : Report }).addFailure failure).failures }

/-- Invokes the rule number `n` at a token. -/
def invoke (site : Site) (i n : Nat) (rule : Rule) (r : ActiveRule) (s : PassState) : PassState :=
  let (script, memory) := rule.process site i (s.run.memories[n]?.getD {})
  let (outcome, desk) := r.run site script s.desk
  let s' : PassState :=
    { desk := r.close site i desk
      run := { s.run with memories := s.run.memories.set n memory }
      failures := s.failures }
  match outcome with
  | .ok () => s'
  | .error e => s'.fail r site.file.path e

end PassState

/-- A rule with its number and its identity. -/
structure Worker where
  number : Nat
  rule : Rule
  active : ActiveRule

/-- The rules that the configuration does not switch off, with the severities it sets. -/
def Worker.ofRules (config : Config) (rules : List Rule) : List Worker :=
  (rules.zipIdx.filter fun p => config.isEnabled p.1.name).map fun p =>
    ⟨p.2, p.1, ⟨p.1.name, p.1.code, (config.severity? p.1.name).getD p.1.severity⟩⟩

/-- Invokes a rule at a token, if it is one of its kinds and the rule is not off. -/
def Worker.visit (site : Site) (w : Worker) (i : Nat) (kind : Kind) (s : PassState) : PassState :=
  if w.rule.kinds.contains kind && !s.run.disabled.contains w.active.name then
    s.invoke site i w.number w.rule w.active
  else s

/-- Invokes all rules at one token. -/
def visitToken (site : Site) (workers : List Worker) (i : Nat) (kind : Kind) (s : PassState) :
    PassState :=
  workers.foldl (fun s w => w.visit site i kind s) s

/-- Goes through all tokens. -/
def visitTokens (site : Site) (workers : List Worker) (s : PassState) : PassState :=
  site.tokens.items.toList.zipIdx.foldl (fun s p => visitToken site workers p.2 p.1.kind s) s

/-- A whole pass over a file, with fixes or without. -/
def runPass (disk : Disk) (workers : List Worker) (file : SourceFile) (fixing : Bool)
    (run : RunState) (failures : List RuleFailure) : PassState :=
  let tokens := Tokens.ofSource file.content
  visitTokens ⟨file, tokens, disk⟩ workers ⟨⟨.ofTokens tokens fixing, []⟩, run, failures⟩

end PhpStyle
