import PhpStyle.Token.Lexer
import PhpStyle.Token.Search

/-!
Tying tokens to each other: doc comments with their tags, bracket pairs, the keywords that own
parentheses, and the keywords that own a body in braces. `Tokens.ofSource` lexes a text and ties
its tokens.
-/

namespace PhpStyle

/-- A doc comment: its first token, its last when it is closed, and its tags. -/
structure DocSpan where
  opener : Nat
  closer : Option Nat
  tags : List Nat
  deriving DecidableEq, Repr

/-- The doc comments in a list of kinds that starts at index `i`, given the comment that is open
there and its tags so far, last first. -/
def DocSpan.collect (i : Nat) (current : Option (Nat × List Nat)) : List Kind → List DocSpan
  | [] => match current with
    | some (o, tags) => [⟨o, none, tags.reverse⟩]
    | none => []
  | .docOpen :: ks => collect (i + 1) (some (i, [])) ks
  | .docTag :: ks => collect (i + 1) (current.map fun (o, tags) => (o, i :: tags)) ks
  | .docClose :: ks => match current with
    | some (o, tags) => ⟨o, some i, tags.reverse⟩ :: collect (i + 1) none ks
    | none => collect (i + 1) none ks
  | _ :: ks => collect (i + 1) current ks

/-- The bracket pairs in a list of kinds that starts at index `i`, given the brackets open there,
innermost first. A closer belongs to the innermost open bracket of its shape, and the brackets
opened after that one stay without a partner. -/
def bracketPairs (i : Nat) (stack : List (Nat × Kind)) : List Kind → List (Nat × Nat)
  | [] => []
  | k :: ks =>
    if k.isOpener then bracketPairs (i + 1) ((i, k) :: stack) ks
    else if k.isCloser then
      match stack.dropWhile fun o => o.2.closer? != some k with
      | (o, _) :: rest => (o, i) :: bracketPairs (i + 1) rest ks
      | [] => bracketPairs (i + 1) stack ks
    else bracketPairs (i + 1) stack ks

/-- A keyword with the two ends of what it owns. -/
structure Owned where
  owner : Nat
  opener : Nat
  closer : Nat
  deriving DecidableEq, Repr

namespace Tokens

variable (ts : Tokens)

def kinds : List Kind :=
  ts.items.toList.map (·.kind)

/-- Changes the links of one token. -/
def relink (i : Nat) (f : Links → Links) : Tokens :=
  ⟨ts.items.modify i fun t => { t with links := f t.links }⟩

def linkDoc (d : DocSpan) : Tokens :=
  let opened := ts.relink d.opener fun l => { l with docCloser := d.closer, docTags := d.tags }
  match d.closer with
  | some c => opened.relink c fun l => { l with docOpener := some d.opener }
  | none => opened

def linkDocs : Tokens :=
  (DocSpan.collect 0 none ts.kinds).foldl linkDoc ts

/-- Sets the links of a bracket pair on both of its ends. -/
def linkBracket (p : Nat × Nat) : Tokens :=
  let isParen := ts.kindIs (· == .closeParen) p.2
  let set : Links → Links := fun l =>
    let l := { l with bracketOpener := some p.1, bracketCloser := some p.2 }
    if isParen then { l with parenOpener := some p.1, parenCloser := some p.2 } else l
  (ts.relink p.1 set).relink p.2 set

def linkBrackets : Tokens :=
  (bracketPairs 0 [] ts.kinds).foldl linkBracket ts

/-- The keywords that own the parentheses right after them. -/
def ownsParens : Kind → Bool
  | .kwFunction | .kwFn | .kwIf | .kwElseif | .kwWhile | .kwFor | .kwForeach | .kwSwitch | .kwCatch
  | .kwMatch | .kwArray | .kwUse => true
  | _ => false

/-- The owner of the parentheses that open at `i`: the keyword before them, or the keyword of the
function whose name, perhaps after a reference mark, stands before them. -/
def parenOwnerAt (i : Nat) : Option Nat := do
  let p ← ts.previousEffective i
  if ts.kindIs ownsParens p then return p
  guard (ts.kindIs (· == .name) p)
  let q ← ts.previousEffective p
  let f ← if ts.kindIs (· == .bitwiseAnd) q then ts.previousEffective q else some q
  guard (ts.kindIs (· == .kwFunction) f)
  return f

/-- The owned pair of parentheses that opens at `i`. -/
def ownedParens? (i : Nat) : Option Owned := do
  guard (ts.kindIs (· == .openParen) i)
  let closer ← (ts.links i).parenCloser
  let owner ← ts.parenOwnerAt i
  return ⟨owner, i, closer⟩

def linkParenOwner (o : Owned) : Tokens :=
  let own : Links → Links := fun l => { l with parenOwner := some o.owner }
  ((ts.relink o.owner fun l =>
    { l with parenOpener := some o.opener, parenCloser := some o.closer }).relink o.opener
      own).relink o.closer own

def linkParenOwners : Tokens :=
  ((List.range ts.size).filterMap ts.ownedParens?).foldl linkParenOwner ts

/-- Looks for the brace that opens a declaration's body, passing over bracket pairs. A semicolon
or a closing brace ends a declaration without a body, as does a bracket without a partner. -/
def bodyFrom (j : Nat) : Option Nat :=
  if h : j < ts.size then
    let t := ts.items[j]
    if t.kind = .openBrace then some j
    else if t.kind = .semicolon || t.kind = .closeBrace then none
    else if t.kind.isOpener then
      match t.links.bracketCloser with
      | some c => bodyFrom (max (c + 1) (j + 1))
      | none => none
    else bodyFrom (j + 1)
  else none
termination_by ts.size - j
decreasing_by all_goals omega

/-- The brace that opens the body of the keyword at `i`. -/
def bodyOpener? (i : Nat) : Option Nat :=
  let braceAfter (j : Nat) : Option Nat := (ts.nextEffective j).filter (ts.kindIs (· == .openBrace))
  match ts.kind? i with
  | some .kwFunction | some .kwClass | some .kwInterface | some .kwTrait | some .kwEnum =>
    ts.bodyFrom (((ts.links i).parenCloser.getD i) + 1)
  | some .kwIf | some .kwElseif | some .kwWhile | some .kwFor | some .kwForeach | some .kwSwitch
  | some .kwCatch | some .kwMatch => (ts.links i).parenCloser.bind braceAfter
  | some .kwElse | some .kwTry | some .kwFinally => braceAfter i
  | _ => none

/-- The scope that the keyword at `i` owns. -/
def ownedScope? (i : Nat) : Option Owned := do
  let opener ← ts.bodyOpener? i
  let closer ← (ts.links opener).bracketCloser
  return ⟨i, opener, closer⟩

def linkScope (o : Owned) : Tokens :=
  let brace : Links → Links := fun l =>
    { l with scopeOwner := some o.owner, scopeOpener := some o.opener, scopeCloser := some o.closer }
  ((ts.relink o.owner fun l =>
    { l with scopeOpener := some o.opener, scopeCloser := some o.closer }).relink o.opener
      brace).relink o.closer brace

/-- Scopes are tied in the order of their keywords, so that of two keywords before one brace the
later owns it. -/
def linkScopes : Tokens :=
  ((List.range ts.size).filterMap ts.ownedScope?).foldl linkScope ts

/-- The tokens of a text, not yet tied to each other. -/
def lex (source : String) : Tokens :=
  ⟨(Token.place {} (({} : Lexer).run source.toList)).toArray⟩

/-- The tokens of a source text. -/
def ofSource (source : String) : Tokens :=
  (lex source).linkDocs.linkBrackets.linkParenOwners.linkScopes

end Tokens

end PhpStyle
