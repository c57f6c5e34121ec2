import PhpStyle.Token.Kind

/-!
Tokens and sequences of tokens. Tokens of one source are addressed by their index; what belongs
together (the two ends of a bracket, a keyword and its braces, a doc comment and its tags) refers
to each other by index.
-/

namespace PhpStyle

/-- How a token is tied to others of its sequence. -/
structure Links where
  /-- Both ends of the bracket pair that the token belongs to. -/
  bracketOpener : Option Nat := none
  bracketCloser : Option Nat := none
  /-- The parentheses of a pair, on both and on the keyword that owns them. -/
  parenOpener : Option Nat := none
  parenCloser : Option Nat := none
  /-- The keyword that owns a pair of parentheses, on both of them. -/
  parenOwner : Option Nat := none
  /-- The braces of a scope, on both and on the keyword that owns it. -/
  scopeOpener : Option Nat := none
  scopeCloser : Option Nat := none
  /-- The keyword that owns a scope, on both of its braces. -/
  scopeOwner : Option Nat := none
  /-- The opener of a doc comment, on its closer. -/
  docOpener : Option Nat := none
  /-- The closer of a doc comment, on its opener. -/
  docCloser : Option Nat := none
  /-- The tags of a doc comment, on its opener. -/
  docTags : List Nat := []
  deriving DecidableEq, Repr, Inhabited

/-- A piece of source text with its position. Lines and columns count from one, columns in
characters. -/
structure Token where
  kind : Kind
  content : String
  line : Nat
  column : Nat
  links : Links := {}
  deriving DecidableEq, Repr, Inhabited

def Token.hasNewline (t : Token) : Bool :=
  t.content.toList.contains '\n'

/-- The tokens of one source, in order. -/
structure Tokens where
  items : Array Token
  deriving DecidableEq, Repr, Inhabited

namespace Tokens

def size (ts : Tokens) : Nat :=
  ts.items.size

def get? (ts : Tokens) (i : Nat) : Option Token :=
  ts.items[i]?

def kind? (ts : Tokens) (i : Nat) : Option Kind :=
  (ts.get? i).map (·.kind)

/-- The content at `i`, empty past the end. -/
def content (ts : Tokens) (i : Nat) : String :=
  ((ts.get? i).map (·.content)).getD ""

/-- The links at `i`, none past the end. -/
def links (ts : Tokens) (i : Nat) : Links :=
  ((ts.get? i).map (·.links)).getD {}

/-- Whether the token at `i` exists and its kind satisfies `p`. -/
def kindIs (ts : Tokens) (p : Kind → Bool) (i : Nat) : Bool :=
  (ts.kind? i).any p

/-- The text that the tokens spell out. -/
def source (ts : Tokens) : String :=
  String.join (ts.items.toList.map (·.content))

end Tokens

end PhpStyle
