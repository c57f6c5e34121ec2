import PhpStyle.Rule.Basic
import PhpStyle.Token.Search

/-!
An array on several lines has no blank line before its closing bracket.
-/

namespace PhpStyle.Rules.ArrayBlankLines

def info : RuleInfo where
  name := "array-trailing-blank-lines"
  code := "SK003"
  description := "Forbids blank lines before a multi-line array's closing bracket"
  severity := .warning
  fixable := true
  kinds := [.openArray]

/-- The blank tokens with a line feed after `last` and before `closer` that end a blank line. The
first of them ends the line of `last`, unless that ends in a line feed itself. -/
def blankLines (ts : Tokens) (last closer : Nat) : List Nat :=
  let breaks := (List.range' (last + 1) (closer - (last + 1))).filter fun i =>
    (ts.get? i).any fun t => t.kind == .blank && t.hasNewline
  if (ts.content last).toList.getLast? == some '\n' then breaks else breaks.drop 1

def finding? (ts : Tokens) (i : Nat) : Option Finding := do
  let opener ← ts.get? i
  let c ← opener.links.bracketCloser
  let closer ← ts.get? c
  guard (closer.line ≠ opener.line)
  let last ← ts.findPrevious (fun t => t.kind != .blank) (c - 1) (some i)
  let blanks := blankLines ts last c
  guard !blanks.isEmpty
  return {
    index := c
    message := "Expected 0 blank lines before the array's closing bracket; " ++
      toString blanks.length ++ " found"
    fix := some (blanks.map Edit.remove) }

def findings (site : Site) (i : Nat) : List Finding :=
  (finding? site.tokens i).toList

def rule : Rule :=
  .ofFindings info findings

end PhpStyle.Rules.ArrayBlankLines
