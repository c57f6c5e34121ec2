import PhpStyle.Rule.Basic
import PhpStyle.Text.Search
import PhpStyle.Token.Structure

/-!
A comparison does not have its constant on the left. The operands are swapped when the right one is
plain: variables, members, constants and literals, and no call.
-/

namespace PhpStyle.Rules.Yoda

open Text

def info : RuleInfo where
  name := "disallow-yoda-comparison"
  code := "SK009"
  description := "Disallows comparisons with a literal or constant on the left"
  severity := .error
  fixable := true
  kinds := [.equal, .notEqual, .identical, .notIdentical]

/-- The kinds after which an operand may start. -/
def precedesOperand : Kind → Bool
  | .openParen | .openSquare | .openArray | .openBrace | .booleanAnd | .booleanOr | .logicalAnd
  | .logicalOr | .logicalXor | .assign | .kwReturn | .comma | .ternary | .colon | .doubleArrow
  | .semicolon | .openTag => true
  | _ => false

/-- The kinds that end an operand, outside brackets. -/
def endsOperand : Kind → Bool
  | .semicolon | .comma | .closeTag | .booleanAnd | .booleanOr | .logicalAnd | .logicalOr
  | .logicalXor | .ternary | .colon | .doubleArrow => true
  | k => k.isEquality

/-- Whether the last segment of a qualified name is that of a constant: capitals, digits and
underscores, with a capital among them. -/
def isConstantName (name : List Char) : Bool :=
  let last := (splitAt '\\' (name.dropWhile (· == '\\'))).getLast?.getD []
  last.any Char.isUpper && last.all fun c => c.isUpper || c.isDigit || c == '_'

def isConstant (t : Token) : Bool :=
  t.kind.isLiteral || (t.kind == .name && isConstantName t.content.toList)

/-- The first token of the constant that ends at `last`, if it is one: a literal, a short array, or
a constant with its class. -/
def constantStart? (ts : Tokens) (last : Nat) : Option Nat := do
  let t ← ts.get? last
  if t.kind = .closeArray then t.links.bracketOpener
  else if !isConstant t then none
  else if t.kind = .name then
    let classIndex :=
      (((ts.previousEffective last).filter (ts.kindIs (· == .doubleColon))).bind
        ts.previousEffective).filter (ts.kindIs fun k => k == .name || k == .kwStatic)
    return classIndex.getD last
  else return last

/-- Looks at `n` tokens from `i` on, at bracket depth `depth`, `last` being the last effective token
of the operand so far. -/
def operandEndFrom (ts : Tokens) (i depth : Nat) (last : Option Nat) : Nat → Option Nat
  | 0 => last
  | n + 1 =>
    match ts.kind? i with
    | none => last
    | some k =>
      if k.isTrivia then operandEndFrom ts (i + 1) depth last n
      else if k.isOpener then operandEndFrom ts (i + 1) (depth + 1) (some i) n
      else if k.isCloser then
        if depth = 0 then last else operandEndFrom ts (i + 1) (depth - 1) (some i) n
      else if depth = 0 && endsOperand k then last
      else operandEndFrom ts (i + 1) depth (some i) n

/-- The last token of the operand after the operator at `i`, which ends at `limit` at the latest. -/
def operandEnd? (ts : Tokens) (i limit : Nat) : Option Nat :=
  operandEndFrom ts (i + 1) 0 none (min (limit + 1) ts.size - (i + 1))

def isPlainAt (ts : Tokens) (i : Nat) : Bool :=
  match ts.kind? i with
  | some .variableName | some .arrow | some .doubleColon | some .openSquare | some .closeSquare => true
  | some .name => (ts.nextEffective i).all (ts.kindIs (· != .openParen))
  | some k => k.isLiteral || k.isBlank
  | none => false

/-- Whether the operand from `first` through `last` can change sides. -/
def isPlain (ts : Tokens) (first last : Nat) : Bool :=
  (List.range' first (last + 1 - first)).all (isPlainAt ts)

/-- Puts a text in place of the tokens from `first` through `last`. -/
def overwrite (first last : Nat) (text : String) : List Edit :=
  .replace first text :: (List.range' (first + 1) (last - first)).map Edit.remove

/-- The operands of a comparison with a constant on the left only. -/
structure Operands where
  leftFirst : Nat
  leftLast : Nat
  rightFirst : Nat
  rightLast : Nat
  deriving DecidableEq, Repr

def operands? (ts : Tokens) (i : Nat) : Option Operands := do
  let leftLast ← ts.previousEffective i
  let leftFirst ← constantStart? ts leftLast
  let statement := ts.statementAt i
  guard (leftFirst ≤ statement.first ||
    (ts.previousEffective leftFirst).all (ts.kindIs precedesOperand))
  let rightFirst ← ts.nextEffective i
  let rightLast ← operandEnd? ts i statement.last
  guard (constantStart? ts rightLast ≠ some rightFirst)
  return ⟨leftFirst, leftLast, rightFirst, rightLast⟩

def finding? (ts : Tokens) (i : Nat) : Option Finding := do
  let o ← operands? ts i
  let left := ts.contentBetween o.leftFirst o.leftLast
  let right := ts.contentBetween o.rightFirst o.rightLast
  let message := "Yoda comparison: move \"" ++ left ++ "\" to the right of \"" ++ ts.content i ++ "\""
  if isPlain ts o.rightFirst o.rightLast then
    return {
      index := o.leftFirst
      message := message
      fix := some (overwrite o.leftFirst o.leftLast right ++
        overwrite o.rightFirst o.rightLast left) }
  else
    return {
      index := o.leftFirst
      message := message
      help := some "Swap the operands by hand; the right side is not a plain value" }

def findings (site : Site) (i : Nat) : List Finding :=
  (finding? site.tokens i).toList

def rule : Rule :=
  .ofFindings info findings

end PhpStyle.Rules.Yoda
