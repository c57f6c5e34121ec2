import PhpStyle.Token.Basic

/-!
Searching a token sequence. A search that finds nothing, an empty range and a bound outside the
sequence all give `none`.
-/

namespace PhpStyle

/-- What can go wrong with a position. -/
inductive PositionError where
  /-- It is too large for a word. -/
  | overflow
  deriving DecidableEq, Repr

namespace Tokens

variable (ts : Tokens)

/-- The first of the `n` indices from `i` upwards whose token satisfies `p`. -/
def scanUp (p : Token → Bool) (i : Nat) : Nat → Option Nat
  | 0 => none
  | n + 1 => if (ts.get? i).any p then some i else scanUp p (i + 1) n

/-- The first of the `n` indices from `i` downwards whose token satisfies `p`. -/
def scanDown (p : Token → Bool) (i : Nat) : Nat → Option Nat
  | 0 => none
  | n + 1 => if (ts.get? i).any p then some i else scanDown p (i - 1) n

/-- The first token at or after `start` and before `stop` that satisfies `p`. -/
def findNext (p : Token → Bool) (start : Nat) (stop : Option Nat) : Option Nat :=
  ts.scanUp p start (min (stop.getD ts.size) ts.size - start)

/-- The last token at or before `start`, and not before `stop`, that satisfies `p`. -/
def findPrevious (p : Token → Bool) (start : Nat) (stop : Option Nat) : Option Nat :=
  let first := min start (ts.size - 1)
  ts.scanDown p first (first + 1 - stop.getD 0)

def isEffective (t : Token) : Bool :=
  t.kind.isEffective

def findNextEffective (start : Nat) (stop : Option Nat) : Option Nat :=
  ts.findNext isEffective start stop

def findPreviousEffective (start : Nat) (stop : Option Nat) : Option Nat :=
  ts.findPrevious isEffective start stop

/-- The effective token next before `i`. -/
def previousEffective (i : Nat) : Option Nat :=
  if i = 0 then none else ts.findPreviousEffective (i - 1) none

/-- The effective token next after `i`. -/
def nextEffective (i : Nat) : Option Nat :=
  ts.findNextEffective (i + 1) none

/-- The effective token next after a 64-bit position. There is no position after the last, and the
search that would start there fails. -/
def effectiveAfter (i : UInt64) : Except PositionError (Option Nat) :=
  if i.toNat + 1 < UInt64.size then .ok (ts.nextEffective i.toNat) else .error .overflow

/-- The token that ends what starts at `i`: the closer of a bracket, the closing brace of a
scope, or else the closing parenthesis of its owner. -/
def skipBalanced (i : Nat) : Option Nat := do
  let t ← ts.get? i
  if t.kind.isOpener then t.links.bracketCloser
  else t.links.scopeCloser.or t.links.parenCloser

/-- The text of the tokens from `first` through `last`. -/
def contentBetween (first last : Nat) : String :=
  String.join (((ts.items.toList.drop first).take (last + 1 - first)).map (·.content))

/-- The first of the tokens before `i` that all start on `line`. -/
def lineStart (line : Nat) : Nat → Nat
  | 0 => 0
  | i + 1 => if (ts.get? i).any (·.line == line) then lineStart line i else i + 1

/-- The first token that starts on the line on which the token at `i` starts. -/
def firstOnLine (i : Nat) : Nat :=
  match ts.get? i with
  | some t => ts.lineStart t.line i
  | none => i

/-- The blanks at the start of the line of the token at `i`. -/
def indentation (i : Nat) : String :=
  match ts.get? (ts.firstOnLine i) with
  | some t => if t.kind = .blank && !t.hasNewline then t.content else ""
  | none => ""

end Tokens

end PhpStyle
