import PhpStyle.Text.Blank
import PhpStyle.Text.Search
import PhpStyle.Token.Search

/-!
Where declarations, scopes and statements begin and end, and which doc comment belongs to a
declaration.
-/

namespace PhpStyle.Tokens

open Text

variable (ts : Tokens)

/-- The kinds of which a type before a variable or a constant's name is made. -/
def isTypePart : Kind → Bool
  | .nullable | .name | .kwArray | .litNull | .litTrue | .litFalse | .bitwiseOr | .bitwiseAnd
  | .kwConst => true
  | _ => false

/-- One step back from `start` within the declaration at `index`: over a modifier, over a whole
attribute, or, when the declaration is a variable or a name, over a part of its type. -/
def declarationStep (index start : Nat) : Option Nat := do
  let p ← ts.previousEffective start
  let t ← ts.get? p
  if t.kind = .closeAttribute then t.links.bracketOpener
  else if t.kind.isModifier then some p
  else if isTypePart t.kind && ts.kindIs (fun k => k == .variableName || k == .name) index then some p
  else none

def declarationFrom (index start : Nat) : Nat :=
  match ts.declarationStep index start with
  | some s => if s < start then declarationFrom index s else start
  | none => start
termination_by start

/-- The first token of the declaration whose keyword, variable or name is at `index`. -/
def declarationStart (index : Nat) : Nat :=
  ts.declarationFrom index index

/-- The closer of the doc comment of the declaration at `index`: it stands on the line just above
the first token of the declaration, with nothing but blanks in between. -/
def docCommentOf (index : Nat) : Option Nat := do
  let start := ts.declarationStart index
  guard (0 < start)
  let p ← ts.findPrevious (fun t => t.kind != .blank) (start - 1) none
  let closer ← ts.get? p
  let first ← ts.get? start
  guard (closer.kind = .docClose && first.line = closer.line + 1)
  return p

def docOpenerOf (index : Nat) : Option Nat :=
  (ts.docCommentOf index).bind fun c => (ts.links c).docOpener

/-- The braces of a scope. -/
structure Scope where
  opener : Nat
  closer : Nat
  deriving DecidableEq, Repr

def scope? (i : Nat) : Option Scope := do
  let t ← ts.get? i
  let opener ← t.links.scopeOpener
  let closer ← t.links.scopeCloser
  return ⟨opener, closer⟩

/-- The owner of the innermost scope around `i`. -/
def enclosingOwner (i : Nat) : Option Nat := do
  guard (0 < i)
  let opensAround (t : Token) : Bool :=
    t.kind == .openBrace && t.links.scopeOwner.isSome && t.links.scopeCloser.any (i < ·)
  let o ← ts.findPrevious opensAround (i - 1) none
  (ts.links o).scopeOwner

/-- The first and the last token of a statement. -/
structure Statement where
  first : Nat
  last : Nat
  deriving DecidableEq, Repr

def endsStatement : Kind → Bool
  | .semicolon | .comma | .closeTag => true
  | _ => false

def precedesStatement : Kind → Bool
  | .semicolon | .comma | .colon | .doubleArrow | .openTag | .closeTag => true
  | _ => false

/-- Looks at `n` tokens from `i` on, at bracket depth `depth`, `last` being the last effective
token so far. -/
def statementEndFrom (i depth last : Nat) : Nat → Nat
  | 0 => last
  | n + 1 =>
    match ts.kind? i with
    | none => last
    | some k =>
      let last' := if k.isEffective then i else last
      if k.isOpener then statementEndFrom (i + 1) (depth + 1) last' n
      else if k.isCloser then
        if depth = 0 then last else statementEndFrom (i + 1) (depth - 1) last' n
      else if depth = 0 && endsStatement k then i
      else statementEndFrom (i + 1) depth last' n

/-- The terminator of the statement at `i`, or its last effective token when a bracket around it
closes first. -/
def statementEnd (i : Nat) : Nat :=
  ts.statementEndFrom i 0 i (ts.size - i)

/-- Whether the closing brace at `c` ends an expression (a closure, a `match`, an anonymous class,
a computed member) and not a block. -/
def endsExpression (c : Nat) : Bool :=
  match (ts.links c).scopeOwner with
  | some owner => match ts.kind? owner with
    | some .kwFunction =>
      (ts.nextEffective owner).any (ts.kindIs fun k => k == .openParen || k == .bitwiseAnd)
    | some .kwMatch => true
    | some .kwClass => (ts.previousEffective owner).any (ts.kindIs (· == .kwNew))
    | _ => false
  | none => ((ts.links c).bracketOpener.bind ts.previousEffective).any
      (ts.kindIs fun k => k == .arrow || k == .doubleColon || k == .variableName)

/-- Looks at the tokens below `i`, from the last one down, at bracket depth `depth`, `first` being
the first effective token of the statement so far. -/
def statementStartFrom (depth first : Nat) : Nat → Nat
  | 0 => first
  | i + 1 =>
    match ts.kind? i with
    | none => statementStartFrom depth first i
    | some k =>
      if k = .closeBrace && depth = 0 && !ts.endsExpression i then first
      else if k.isCloser then statementStartFrom (depth + 1) first i
      else if k.isOpener then
        if depth = 0 then first
        else statementStartFrom (depth - 1) (if depth = 1 then i else first) i
      else if depth = 0 then
        if precedesStatement k then first
        else statementStartFrom 0 (if k.isEffective then i else first) i
      else statementStartFrom depth first i

/-- The statement around `i`. Terminators inside brackets that open within it do not end it. -/
def statementAt (i : Nat) : Statement :=
  ⟨ts.statementStartFrom 0 i i, ts.statementEnd i⟩

/-- The text of a doc tag with its continuation lines: the pieces after the tag at `i` up to the
next tag, trimmed and joined by single spaces. -/
def tagText? (i : Nat) : Option String := do
  guard (ts.kindIs (· == .docTag) i)
  let opener ← ts.findPrevious (fun t => t.kind == .docOpen) i none
  let closer ← (ts.links opener).docCloser
  let body := (ts.items.toList.drop (i + 1)).take (closer - (i + 1))
  let pieces := (body.takeWhile fun t => t.kind != .docTag).filter fun t => t.kind == .docText
  return String.ofList (joinWith [' '] (pieces.map fun t => trim t.content.toList))

end PhpStyle.Tokens
