import PhpStyle.DocBlock
import PhpStyle.Rule.Basic

/-!
In doc comments, a type that admits `null` is written `T|null` and not `?T`.
-/

namespace PhpStyle.Rules.NullableDoc

def info : RuleInfo where
  name := "doc-nullable-type"
  code := "SK001"
  description := "Requires T|null instead of ?T in doc-comment types"
  severity := .warning
  fixable := true
  kinds := [.docOpen]

def isChecked (t : DocTag) : Bool :=
  ["var", "param", "return"].contains (TagValue.plainName t.baseName)

/-- A tag on one line whose type starts with a question mark, with the type spelled out. -/
def finding? (t : DocTag) : Option Finding := do
  guard (isChecked t && !t.multiline)
  let at_ ← t.valueIndex
  let typed ← t.value.typed?
  let expanded ← typed.type.expandNullable?
  return {
    index := t.index
    message := "Use \"" ++ expanded.text ++ "\" instead of \"" ++ typed.type.text ++ "\" in " ++ t.name
    fix := some [.replace at_ (t.value.withTyped { typed with type := expanded }).text] }

def findings (site : Site) (i : Nat) : List Finding :=
  match DocBlock.read? site.tokens i with
  | some block => block.tags.filterMap finding?
  | none => []

def rule : Rule :=
  .ofFindings info findings

end PhpStyle.Rules.NullableDoc
