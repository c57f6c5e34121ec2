import PhpStyle.Rule.Basic
import PhpStyle.Text.Search
import PhpStyle.Token.Structure

/-!
The cases of an enumeration are in PascalCase. Names with underscores are reported without a fix,
since it is not clear where their words begin.
-/

namespace PhpStyle.Rules.EnumCase

open Text

def info : RuleInfo where
  name := "enum-case-pascal-case"
  code := "SK004"
  description := "Requires enum case names to be PascalCase"
  severity := .error
  fixable := true
  kinds := [.kwCase]

inductive Verdict where
  | valid
  | fixable (name : List Char)
  | unfixable
  deriving DecidableEq, Repr

/-- Judges a name: one word of capitals keeps the first of them only, and a small first letter
becomes a capital. -/
def judge : List Char → Verdict
  | [] => .valid
  | first :: rest =>
    let name := first :: rest
    if name.contains '_' then .unfixable
    else if !name.any Char.isLower && 1 < name.countP Char.isAlpha then
      .fixable (first.toUpper :: lower rest)
    else if first.isLower then .fixable (first.toUpper :: rest)
    else .valid

def isPlainName (name : List Char) : Bool :=
  name.all fun c => c.isAlphanum || c == '_'

def finding? (ts : Tokens) (i : Nat) : Option Finding := do
  guard ((ts.enclosingOwner i).any (ts.kindIs (· == .kwEnum)))
  let at_ ← ts.nextEffective i
  let name := ts.content at_
  guard (isPlainName name.toList)
  match judge name.toList with
  | .valid => none
  | .fixable better =>
    let better := String.ofList better
    return {
      index := at_
      message := "Enum case \"" ++ name ++ "\" is not PascalCase; expected \"" ++ better ++ "\""
      fix := some [.replace at_ better] }
  | .unfixable => return {
      index := at_
      message := "Enum case \"" ++ name ++ "\" is not PascalCase"
      help := some "Rename the case by hand; word boundaries are ambiguous" }

def findings (site : Site) (i : Nat) : List Finding :=
  (finding? site.tokens i).toList

def rule : Rule :=
  .ofFindings info findings

end PhpStyle.Rules.EnumCase
