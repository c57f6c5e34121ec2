import PhpStyle.Text.Blank
import PhpStyle.Text.Search

/-!
Directives in comments that allow what a rule would report, such as

    // sniffkit: allow(cast-spacing, SK008) reason="generated"

A directive speaks for its own line and for the next one.
-/

namespace PhpStyle

open Text

structure Allowance where
  /-- Names or codes of rules; `all` stands for every rule. -/
  rules : List String
  reason : Option String
  deriving DecidableEq, Repr, Inhabited

namespace Allowance

def marker : List Char :=
  "sniffkit:".toList

/-- Whether the text before a marker on its line shows that it stands in a comment. -/
def inComment (before : List Char) : Bool :=
  occurs "//".toList before || occurs "#".toList before || occurs "/*".toList before ||
    (trimStart before).head? == some '*'

/-- The text in quotes after `reason=`. -/
def reason? (rest : List Char) : Option String := do
  let value ← after? "reason=".toList rest
  let quoted ← after? ['\x22'] (trim value)
  guard (quoted.contains '\x22')
  return String.ofList (quoted.takeWhile (· ≠ '\x22'))

/-- Reads the first directive on a line. -/
def ofLine? (line : List Char) : Option Allowance := do
  let (before, after) ← cut? marker line
  guard (inComment before)
  let body := trim (← after? "allow(".toList (trim after))
  let (list, rest) ← cut? [')'] body
  let rules := ((splitAt ',' list).map trim).filter (· ≠ [])
  guard (rules ≠ [])
  return ⟨rules.map String.ofList, reason? (trim rest)⟩

def covers (a : Allowance) (names : List String) : Bool :=
  a.rules.contains "all" || names.any a.rules.contains

/-- The directive on line number `n` that covers one of `names`. -/
def onLine? (lines : List (List Char)) (names : List String) (n : Nat) : Option Allowance :=
  if n = 0 then none else (lines[n - 1]?.bind ofLine?).filter (·.covers names)

/-- The directive that covers one of `names` on line `n`, the one above taken first. -/
def find? (content : String) (n : Nat) (names : List String) : Option Allowance :=
  if occurs marker content.toList then
    let ls := lines content.toList
    (onLine? ls names (n - 1)).or (onLine? ls names n)
  else none

end Allowance

end PhpStyle
