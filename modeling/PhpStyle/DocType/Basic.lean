import PhpStyle.Text.Search

/-!
The types written in doc comments, and their text. What the structure does not describe (shapes,
callables, literals) is kept as it is written.
-/

namespace PhpStyle

inductive DocType where
  /-- A single name, such as `int` or `\Foo\Bar`. -/
  | name (text : String)
  /-- Alternatives separated by bars, in written order. -/
  | union (members : List DocType)
  /-- Parts separated by ampersands, in written order. -/
  | intersection (members : List DocType)
  /-- An element type followed by an empty pair of brackets. -/
  | array (element : DocType)
  /-- A base with arguments in angle brackets, and what stands between the arguments. -/
  | generic (base : String) (args : List DocType) (separators : List String)
  /-- A type after a question mark. -/
  | nullable (inner : DocType)
  | paren (inner : DocType)
  | verbatim (text : String)
  deriving Repr, BEq, Inhabited

namespace DocType

mutual

/-- The text of a type. -/
def chars : DocType → List Char
  | name s => s.toList
  | union ms => joined '|' ms
  | intersection ms => joined '&' ms
  | array t => t.chars ++ ['[', ']']
  | generic base args seps => base.toList ++ '<' :: argChars args seps ++ ['>']
  | nullable t => '?' :: t.chars
  | paren t => '(' :: t.chars ++ [')']
  | verbatim s => s.toList

def joined (sep : Char) : List DocType → List Char
  | [] => []
  | [t] => t.chars
  | t :: ts => t.chars ++ sep :: joined sep ts

/-- Arguments with their separators; a missing one is a comma and a space. -/
def argChars : List DocType → List String → List Char
  | [], _ => []
  | [t], _ => t.chars
  | t :: ts, seps => t.chars ++ (seps.headD ", ").toList ++ argChars ts seps.tail

end

def text (t : DocType) : String :=
  String.ofList t.chars

/-- The alternatives of a union; any other type is its own single alternative. -/
def members : DocType → List DocType
  | union ms => ms
  | t => [t]

/-- The type with the given alternatives. -/
def ofMembers : List DocType → DocType
  | [t] => t
  | ms => union ms

/-- A type after a question mark, with `null` as its last alternative instead. -/
def expandNullable? : DocType → Option DocType
  | nullable t => some (union (t.members ++ [name "null"]))
  | _ => none

def isNull : DocType → Bool
  | name s => Text.sameLetters s "null"
  | _ => false

/-- Whether a type says that it admits `null`. -/
def containsNull : DocType → Bool
  | nullable _ => true
  | t => t.members.any isNull

def name? : DocType → Option String
  | name s => some s
  | _ => none

/-- The type names that are never class names, in lower case. -/
def basicNames : List String :=
  ["array", "array-key", "bool", "boolean", "callable", "callable-string", "class-string",
   "double", "false", "float", "int", "integer", "iterable", "list", "mixed", "negative-int",
   "never", "non-empty-array", "non-empty-list", "non-empty-string", "null", "numeric",
   "numeric-string", "object", "parent", "positive-int", "resource", "scalar", "self", "static",
   "string", "true", "void", "$this"]

def isBasicName (s : String) : Bool :=
  basicNames.any (Text.sameLetters · s)

/-- Whether a name looks like that of a class: it is qualified, or it starts with an ASCII capital
and is not basic. -/
def isClassName (s : String) : Bool :=
  s.toList.contains '\\' || (s.toList.head?.any Char.isUpper && !isBasicName s)

end DocType

end PhpStyle
