import PhpStyle.DocType.Parser

/-!
The values of doc-comment tags. Tags such as `@param` start with a type; an absent or malformed
type makes the value typeless or invalid, and never an error.
-/

namespace PhpStyle

open Text

/-- A type and the text after it, with the blanks between them. -/
structure TypedText where
  type : DocType
  rest : String
  deriving Repr, BEq, Inhabited

namespace TypedText

def text (v : TypedText) : String :=
  v.type.text ++ v.rest

/-- Drops what marks a parameter as passed by reference or as variadic. -/
def dropMarks (cs : List Char) : List Char :=
  let cs := cs.dropWhile (· == '&')
  let points := (cs.takeWhile (· == '.')).length
  cs.drop (points / 3 * 3)

/-- The variable named right after the type. -/
def variableName? (v : TypedText) : Option String := do
  let word ← (words v.rest.toList).head?
  let name := dropMarks word
  guard (name.head? = some '$')
  return String.ofList name

/-- What follows the type and the variable. -/
def description (v : TypedText) : String :=
  let rest := trimStart v.rest.toList
  String.ofList <|
    if v.variableName?.isSome then trimStart (rest.dropWhile fun c => !isBlank c) else rest

end TypedText

/-- What the type of a tag is the type of. -/
inductive TypeRole where
  | param | result | variable | throws
  deriving DecidableEq, Repr

/-- The value of a tag. -/
inductive TagValue where
  | typed (role : TypeRole) (value : TypedText)
  /-- A method, with the type before its name. -/
  | method (result : Option DocType) (body : String)
  /-- A tag that takes no type. -/
  | generic (body : String)
  /-- A tag that should start with a type and does not. -/
  | typeless (body : String)
  /-- A tag whose type has unmatched brackets; `continues` when some are still open. -/
  | invalid (body : String) (continues : Bool)
  deriving Repr, BEq, Inhabited

namespace TagValue

def text : TagValue → String
  | typed _ v => v.text
  | method _ body | generic body | typeless body | invalid body _ => body

def typed? : TagValue → Option TypedText
  | typed _ v => some v
  | _ => none

/-- Replaces the typed text of a tag that has one. -/
def withTyped (v : TypedText) : TagValue → TagValue
  | typed role _ => typed role v
  | t => t

def isInvalid : TagValue → Bool
  | invalid _ _ => true
  | _ => false

/-- A tag's name without its at sign, in lower case. -/
def baseName (name : String) : String :=
  String.ofList (lower (name.toList.dropWhile (· == '@')))

/-- A base name without the name of the tool that it is meant for. -/
def plainName (base : String) : String :=
  let cs := base.toList
  String.ofList
    (((after? "phpstan-".toList cs).or (after? "psalm-".toList cs)).getD cs)

def roleOf? (plain : String) : Option TypeRole :=
  match plain with
  | "param" => some .param
  | "return" => some .result
  | "var" => some .variable
  | "throws" => some .throws
  | _ => none

/-- The type before a method's name: the first word, after `static`, if the next one is a call and
it is none. -/
def methodResult? (body : List Char) : Option DocType :=
  let ws := words body
  let ws := if ws.head?.any (fun w => lower w = "static".toList) then ws.tail else ws
  match ws with
  | type :: name :: _ =>
    if !type.contains '(' && name.contains '(' then some (DocType.parseChars type) else none
  | _ => none

/-- Reads the text of a tag that starts with a type. -/
def parseTyped (role : TypeRole) (body : List Char) : TagValue :=
  let trimmed := trimStart body
  if trimmed.isEmpty || (TypedText.dropMarks trimmed).head? = some '$' ||
      trimmed.length ≠ body.length then
    typeless (String.ofList body)
  else
    let s := DocType.splitType body
    if s.depth ≠ 0 then invalid (String.ofList body) (0 < s.depth)
    else typed role ⟨DocType.parseChars s.typeText, String.ofList s.rest⟩

/-- Reads the text of the tag called `name`. -/
def parse (name body : String) : TagValue :=
  let plain := plainName (baseName name)
  match roleOf? plain with
  | some role => parseTyped role body.toList
  | none =>
    if plain = "method" then method (methodResult? body.toList) body
    else generic body

end TagValue

end PhpStyle
