import PhpStyle.DocBlock
import PhpStyle.Rule.Basic
import PhpStyle.Signature

/-!
The documented type of a parameter names nothing that its declared type refuses. An alternative is
dropped only if it certainly cannot be passed; any class may be compatible with any other.
-/

namespace PhpStyle.Rules.ParamDoc

open Text

def info : RuleInfo where
  name := "param-doc-type-mismatch"
  code := "SK002"
  description := "Reports @param types incompatible with the native parameter type"
  severity := .error
  fixable := true
  kinds := [.kwFunction]

/-- The kinds of value that are no objects, by the names that declare them. -/
inductive Category where
  | int | float | string | bool | litTrue | litFalse | array | null | resource
  deriving DecidableEq, Repr

def Category.label : Category → String
  | int => "int"
  | float => "float"
  | string => "string"
  | bool => "bool"
  | litTrue => "true"
  | litFalse => "false"
  | array => "array"
  | null => "null"
  | resource => "resource"

/-- A type name without leading backslashes, in lower case unless it names a class. -/
def normalize (name : List Char) : String :=
  let s := String.ofList (name.dropWhile (· == '\\'))
  if DocType.isClassName s then s else lowerString s

/-- The members of a declared type, `null` included when it is accepted. -/
def nativeMembers (declared : String) (nullable : Bool) : List String :=
  let pieces := declared.toList.splitOnP fun c => c == '|' || c == '&'
  let members := (pieces.map fun p => normalize (trimBoth (fun c => c == '(' || c == ')') p)).filter
    (· ≠ "")
  if nullable && !members.contains "null" then members ++ ["null"] else members

/-- The names documented types may use for values that are no objects. -/
def categoryNames : List (List String × List Category) :=
  [(["int", "integer", "positive-int", "negative-int", "non-negative-int", "non-positive-int",
      "non-zero-int"], [.int]),
   (["float", "double"], [.float]),
   (["string", "non-empty-string", "numeric-string", "literal-string", "lowercase-string",
      "class-string", "callable-string", "trait-string", "interface-string", "enum-string"],
      [.string]),
   (["bool", "boolean"], [.bool]),
   (["true"], [.litTrue]),
   (["false"], [.litFalse]),
   (["array", "list", "non-empty-array", "non-empty-list", "associative-array", "callable-array"],
      [.array]),
   (["array-key"], [.int, .string]),
   (["numeric"], [.int, .float, .string]),
   (["scalar"], [.int, .float, .string, .bool]),
   (["null", "void"], [.null]),
   (["resource", "closed-resource", "open-resource"], [.resource])]

def categories? (name : String) : Option (List Category) :=
  (categoryNames.find? fun row => row.1.contains name).map (·.2)

/-- Whether a declared type name takes the values of a category. -/
def takesCategory (native : String) (c : Category) : Bool :=
  match native with
  | "mixed" => true
  | "float" => c == .float || c == .int
  | "bool" => c == .bool || c == .litTrue || c == .litFalse
  | "iterable" => c == .array
  | "callable" => c == .string || c == .array
  | n => n == c.label

/-- Whether a declared type name takes some object. -/
def takesObject (native : String) : Bool :=
  ["mixed", "object", "iterable", "callable", "self", "static"].contains native ||
    DocType.isClassName native

/-- The name by which a documented alternative is judged; what has none is always accepted. -/
def judgedName? : DocType → Option String
  | .name s => some (normalize s.toList)
  | .array _ => some "array"
  | .generic base _ _ => some (normalize base.toList)
  | _ => none

/-- Whether a documented name may be passed where one of `natives` is declared. -/
def isCompatibleName (name : String) (natives : List String) (p : Parameter) : Bool :=
  if name == "null" && p.default == .null then true
  else match categories? name with
    | some cs => cs.any fun c => natives.any (takesCategory · c)
    | none =>
      if name == "mixed" then true
      else if ["object", "self", "static", "$this", "closure", "iterable", "callable"].contains name then
        natives.any fun n => takesObject n || n == name || n == "mixed"
      else if DocType.isClassName name then natives.any takesObject
      else true

def isCompatible (natives : List String) (p : Parameter) (member : DocType) : Bool :=
  match judgedName? member with
  | some name => isCompatibleName name natives p
  | none => true

/-- A documented parameter with alternatives that its declared type refuses. They are taken out
when others remain and the tag is on one line. -/
def finding? (block : DocBlock) (p : Parameter) : Option Finding := do
  let declared ← p.type
  let tag ← block.paramTag? p.name
  let typed ← tag.value.typed?
  let natives := nativeMembers declared.bare p.nullable
  let (kept, dropped) := typed.type.members.partition (isCompatible natives p)
  guard !dropped.isEmpty
  let message := "@param type \"" ++ typed.type.text ++ "\" of " ++ p.name ++
    " is incompatible with native type \"" ++ declared.full ++ "\": " ++
    ", ".intercalate (dropped.map DocType.text)
  let fix := (tag.valueIndex.filter fun _ => !kept.isEmpty && !tag.multiline).map fun at_ =>
    [Edit.replace at_ (tag.value.withTyped { typed with type := .ofMembers kept }).text]
  return { index := tag.index, message := message, fix := fix }

def findings (site : Site) (i : Nat) : List Finding :=
  match (site.tokens.docOpenerOf i).bind (DocBlock.read? site.tokens) with
  | some block => (site.tokens.parameters i).filterMap (finding? block)
  | none => []

def rule : Rule :=
  .ofFindings info findings

end PhpStyle.Rules.ParamDoc
