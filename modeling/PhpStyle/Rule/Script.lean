import PhpStyle.Edit.Buffer
import PhpStyle.Violation

/-!
Rules as programs. A rule reports and edits only through the operations of this module, and may go
on in any way by their answers; what an operation does to a file is decided where a script is run.
-/

namespace PhpStyle

/-- Why one invocation of a rule ended early. -/
inductive RuleError where
  /-- The rule cannot work here: it is off for the rest of the run. -/
  | config (message : String)
  /-- Something that should always hold does not. -/
  | invariant (message : String)
  /-- Misuse of a changeset. -/
  | edit (cause : EditError)
  deriving DecidableEq, Repr

namespace RuleError

def message : RuleError → String
  | config m => "configuration error: " ++ m
  | invariant m => "invariant violated: " ++ m
  | edit e => e.message

def isConfig : RuleError → Bool
  | config _ => true
  | _ => false

end RuleError

/-- A program over an edit buffer. -/
inductive FixScript where
  | done
  | fail (error : RuleError)
  | look (next : EditBuffer → FixScript)
  | openChangeset (next : Except EditError Unit → FixScript)
  | stage (edit : Edit) (next : Except EditError Unit → FixScript)
  | commit (next : Except EditError Bool → FixScript)
  | rollback (next : FixScript)

namespace FixScript

def run : FixScript → EditBuffer → Except RuleError Unit × EditBuffer
  | done, b => (.ok (), b)
  | fail e, b => (.error e, b)
  | look next, b => (next b).run b
  | openChangeset next, b => match b.openChangeset with
    | .ok b' => (next (.ok ())).run b'
    | .error e => (next (.error e)).run b
  | stage edit next, b => match b.stage edit with
    | .ok b' => (next (.ok ())).run b'
    | .error e => (next (.error e)).run b
  | commit next, b => match b.commit with
    | .ok (committed, b') => (next (.ok committed)).run b'
    | .error e => (next (.error e)).run b
  | rollback next, b => next.run b.rollback

/-- Goes on after a success; a failure ends the script. -/
def orFail {α : Type} (next : α → FixScript) : Except EditError α → FixScript
  | .ok a => next a
  | .error e => fail (.edit e)

/-- Stages edits in order, up to the first that fails. -/
def ofEdits : List Edit → FixScript
  | [] => done
  | e :: es => stage e (orFail fun _ => ofEdits es)

end FixScript

/-- One invocation of a rule. -/
inductive RuleScript where
  | done
  | fail (error : RuleError)
  | look (next : EditBuffer → RuleScript)
  /-- Reports a violation without a fix; the answer tells whether it was not allowed. -/
  | report (index : Nat) (message : String) (help : Option String) (next : Bool → RuleScript)
  /-- Reports a violation and, when fixing, runs its fix in a changeset of its own; the answer tells
  whether that was committed. -/
  | fixable (index : Nat) (message : String) (fix : FixScript)
      (next : Except RuleError Bool → RuleScript)
  /-- Edits without reporting. -/
  | edit (fix : FixScript) (next : Except RuleError Unit → RuleScript)

namespace RuleScript

/-- Goes on after a success; a failure ends the script. -/
def orFail {α : Type} (next : α → RuleScript) : Except RuleError α → RuleScript
  | .ok a => next a
  | .error e => fail e

end RuleScript

/-- What a rule has to say about one place. -/
structure Finding where
  /-- The token that is reported. -/
  index : Nat
  message : String
  help : Option String := none
  /-- The edits that mend it, if the rule knows any. -/
  fix : Option (List Edit) := none
  deriving DecidableEq, Repr

/-- Reports findings in order, mending those that can be. -/
def RuleScript.ofFindings : List Finding → RuleScript
  | [] => done
  | f :: fs => match f.fix with
    | none => report f.index f.message f.help fun _ => ofFindings fs
    | some edits => fixable f.index f.message (.ofEdits edits) (orFail fun _ => ofFindings fs)

end PhpStyle
