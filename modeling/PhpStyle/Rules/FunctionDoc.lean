import PhpStyle.Rule.Basic
import PhpStyle.Signature

/-!
A named function has a doc comment, unless all of its types are declared.
-/

namespace PhpStyle.Rules.FunctionDoc

def info : RuleInfo where
  name := "require-function-doc"
  code := "SK005"
  description := "Requires doc comments on functions that are not fully typed"
  severity := .warning
  fixable := false
  kinds := [.kwFunction]

structure Options where
  /-- Whether functions with all types declared are exempt. -/
  skipFullyTyped : Bool := true
  /-- Whether test files are exempt. -/
  allowInTests : Bool := true
  deriving DecidableEq, Repr

def finding? (o : Options) (site : Site) (i : Nat) : Option Finding := do
  guard !(o.allowInTests && site.file.isTest)
  let signature ← site.tokens.signature? i
  let name ← signature.name
  guard ((site.tokens.docCommentOf i).isNone && !(o.skipFullyTyped && signature.isFullyTyped))
  return {
    index := i
    message := "Missing doc comment for function " ++ name ++ "()"
    help := some ("Add a doc comment, or declare native types for every parameter and the " ++
      "return value") }

def rule (o : Options) : Rule :=
  .ofFindings info fun site i => (finding? o site i).toList

end PhpStyle.Rules.FunctionDoc
