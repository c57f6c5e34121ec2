import PhpStyle.Rule.Basic
import PhpStyle.Text.Search
import PhpStyle.Token.Search

/-!
A fixed number of spaces stands after a cast.
-/

namespace PhpStyle.Rules.CastSpacing

def info : RuleInfo where
  name := "cast-spacing"
  code := "SK006"
  description := "Requires exactly one space after a type cast"
  severity := .error
  fixable := true
  kinds := [.cast]

def spaces (n : Nat) : String :=
  String.ofList (List.replicate n ' ')

/-- The number of blank tokens right after the token at `i`. -/
def blanksAfter (ts : Tokens) (i : Nat) : Nat :=
  ((ts.items.toList.drop (i + 1)).takeWhile fun t => t.kind == .blank).length

/-- The edits that leave `n` spaces where `count` blank tokens follow the token at `i`. -/
def edits (n i count : Nat) : List Edit :=
  match List.range' (i + 1) count with
  | [] => [.insertAfter i (spaces n)]
  | first :: rest => .replace first (spaces n) :: rest.map Edit.remove

/-- A cast that something other than blanks follows, but not at the right distance. -/
def finding? (n : Nat) (ts : Tokens) (i : Nat) : Option Finding := do
  let count := blanksAfter ts i
  guard (i + 1 + count < ts.size)
  let found := ts.contentBetween (i + 1) (i + count)
  guard (found ≠ spaces n)
  let distance :=
    if found.toList.contains '\n' then "newline" else toString (Text.byteLength found.toList)
  return {
    index := i
    message := "Expected " ++ toString n ++ " space(s) after cast statement; " ++ distance ++ " found"
    fix := some (edits n i count) }

def rule (n : Nat) : Rule :=
  .ofFindings info fun site i => (finding? n site.tokens i).toList

end PhpStyle.Rules.CastSpacing
