import PhpStyle.Token.Structure

/-!
The signatures of functions and the declarations of properties.
-/

namespace PhpStyle

open Text

/-- What kind of value a default is, judged by its first token and perhaps a sign before it. -/
inductive DefaultValue where
  | none | string | int | float | bool | null | array | expression
  deriving DecidableEq, Repr, Inhabited

namespace DefaultValue

def label : DefaultValue → String
  | none => "None"
  | string => "String"
  | int => "Int"
  | float => "Float"
  | bool => "Bool"
  | null => "Null"
  | array => "Array"
  | expression => "Expression"

def isPresent (d : DefaultValue) : Bool :=
  d != none

end DefaultValue

/-- A type as it is declared. -/
structure DeclaredType where
  /-- As written. -/
  full : String
  /-- Whether it has a question mark before it or `null` among its alternatives. -/
  nullable : Bool
  deriving DecidableEq, Repr, Inhabited

namespace DeclaredType

/-- The type without a question mark before it. -/
def bare (t : DeclaredType) : String :=
  String.ofList (match t.full.toList with
    | '?' :: cs => cs
    | cs => cs)

/-- The declared type with the given text; an empty text declares none. -/
def ofText? (full : String) : Option DeclaredType :=
  let cs := full.toList
  if cs.isEmpty then .none
  else
    let isNull (member : List Char) : Bool :=
      lower (trimBoth (fun c => c == '(' || c == ')') member) == "null".toList
    some ⟨full, cs.head? == some '?' || (splitAt '|' cs).any isNull⟩

end DeclaredType

/-- A parameter of a function. -/
structure Parameter where
  /-- The index of the parameter's variable. -/
  nameIndex : Nat
  /-- The variable with its dollar sign. -/
  name : String
  type : Option DeclaredType
  default : DefaultValue
  variadic : Bool
  byReference : Bool
  /-- Whether the parameter also declares a property. -/
  promoted : Bool
  deriving DecidableEq, Repr, Inhabited

/-- Whether `null` may be passed: by the type, or because it is the default. -/
def Parameter.nullable (p : Parameter) : Bool :=
  p.type.any (·.nullable) || p.default == .null

def Parameter.isTyped (p : Parameter) : Bool :=
  p.type.isSome

structure Signature where
  /-- The name; closures and arrow functions have none. -/
  name : Option String
  parameters : List Parameter
  result : Option DeclaredType
  hasBody : Bool
  deriving DecidableEq, Repr, Inhabited

/-- Whether every parameter and the result have a declared type. Constructors and destructors need
none for their result. -/
def Signature.isFullyTyped (s : Signature) : Bool :=
  (s.result.isSome ||
    s.name.any fun n => sameLetters n "__construct" || sameLetters n "__destruct") &&
  s.parameters.all Parameter.isTyped

/-- The declaration of a property. -/
structure Property where
  name : String
  type : Option DeclaredType
  default : DefaultValue
  isStatic : Bool
  deriving DecidableEq, Repr, Inhabited

def Property.nullable (p : Property) : Bool :=
  p.type.any (·.nullable) || p.default == .null

namespace Tokens

variable (ts : Tokens)

/-- Splits the tokens from `i` up to `stop` at the commas outside brackets; `start` is where the
current piece begins. -/
def splitAtCommas (start i stop : Nat) : List (Nat × Nat) :=
  if i < stop then
    match ts.get? i with
    | none => splitAtCommas start (i + 1) stop
    | some t =>
      if t.kind.isOpener then
        splitAtCommas start (max ((t.links.bracketCloser.getD i) + 1) (i + 1)) stop
      else if t.kind = .comma then (start, i) :: splitAtCommas (i + 1) (i + 1) stop
      else splitAtCommas start (i + 1) stop
  else [(start, stop)]
termination_by stop - i

/-- The default of the variable at `name`, whose declaration ends before `stop`. The equals sign
must be one of the three tokens after the name. -/
def defaultAfter (name stop : Nat) : DefaultValue :=
  match (ts.findNextEffective (name + 1) (some stop)).filter
      (fun e => e ≤ name + 3 && ts.kindIs (· == .assign) e) with
  | none => .none
  | some e => match ts.findNextEffective (e + 1) (some stop) with
    | none => .expression
    | some v => match ts.kind? v with
      | some .quoted => .string
      | some .openArray | some .kwArray => .array
      | some .integer => .int
      | some .float => .float
      | some .litTrue | some .litFalse => .bool
      | some .litNull => .null
      | some .operator =>
        if ts.content v = "-" || ts.content v = "+" then
          match (ts.findNextEffective (v + 1) (some stop)).bind ts.kind? with
          | some .integer => .int
          | some .float => .float
          | _ => .expression
        else .expression
      | _ => .expression

/-- What was read of a parameter before its variable. -/
structure ParameterHead where
  type : String := ""
  variadic : Bool := false
  byReference : Bool := false
  promoted : Bool := false

/-- Reads the tokens of a parameter from `i` up to its variable. -/
def parameterHead (head : ParameterHead) (i stop : Nat) : Option (ParameterHead × Nat) :=
  if i < stop then
    match ts.get? i with
    | none => parameterHead head (i + 1) stop
    | some t => match t.kind with
      | .openAttribute =>
        parameterHead head (max ((t.links.bracketCloser.getD i) + 1) (i + 1)) stop
      | .variableName => some (head, i)
      | .ellipsis => parameterHead { head with variadic := true } (i + 1) stop
      | .kwPublic | .kwProtected | .kwPrivate | .kwReadonly =>
        parameterHead { head with promoted := true } (i + 1) stop
      | k =>
        if k == .bitwiseAnd && (ts.nextEffective i).any
            (ts.kindIs fun k => k == .variableName || k == .ellipsis) then
          parameterHead { head with byReference := true } (i + 1) stop
        else if k.isTrivia then parameterHead head (i + 1) stop
        else parameterHead { head with type := head.type ++ t.content } (i + 1) stop
  else none
termination_by stop - i

/-- The parameter declared by the tokens from `start` up to `stop`. -/
def parameter? (start stop : Nat) : Option Parameter := do
  let (head, name) ← ts.parameterHead {} start stop
  return {
    nameIndex := name
    name := ts.content name
    type := DeclaredType.ofText? head.type
    default := ts.defaultAfter name stop
    variadic := head.variadic
    byReference := head.byReference
    promoted := head.promoted }

/-- The parameters of the function whose keyword is at `i`. -/
def parameters (i : Nat) : List Parameter :=
  match (ts.links i).parenOpener, (ts.links i).parenCloser with
  | some o, some c => (ts.splitAtCommas (o + 1) (o + 1) c).filterMap fun p => ts.parameter? p.1 p.2
  | _, _ => []

def endsResultType : Kind → Bool
  | .openBrace | .semicolon | .doubleArrow => true
  | _ => false

/-- The colon before a result type: it follows the parameters, or the variables that a closure
uses. -/
def resultColon? (closer : Nat) : Option Nat := do
  let next ← ts.nextEffective closer
  let colon ←
    if ts.kindIs (· == .kwUse) next then do
      let o ← ts.nextEffective next
      let c ← (ts.links o).bracketCloser
      ts.nextEffective c
    else some next
  guard (ts.kindIs (· == .colon) colon)
  return colon

/-- The result type of a function whose parameters end at `closer`. -/
def resultType? (closer : Nat) : Option DeclaredType := do
  let colon ← ts.resultColon? closer
  let tokens := (ts.items.toList.drop (colon + 1)).takeWhile fun t => !endsResultType t.kind
  DeclaredType.ofText?
    (String.join ((tokens.filter fun t => t.kind.isEffective).map (·.content)))

/-- The name of the function whose keyword is at `i`, perhaps after a reference mark. -/
def functionName? (i : Nat) : Option String := do
  let n ← ts.nextEffective i
  let n ← if ts.kindIs (· == .bitwiseAnd) n then ts.nextEffective n else some n
  guard (ts.kindIs (· == .name) n)
  return ts.content n

/-- The signature of the function whose keyword is at `i`. -/
def signature? (i : Nat) : Option Signature := do
  let t ← ts.get? i
  guard (t.kind = .kwFunction || t.kind = .kwFn)
  return {
    name := ts.functionName? i
    parameters := ts.parameters i
    result := t.links.parenCloser.bind ts.resultType?
    hasBody := t.links.scopeOpener.isSome || t.kind = .kwFn }

def isPropertyTypePart : Kind → Bool
  | .name | .nullable | .kwArray | .litNull | .litTrue | .litFalse | .bitwiseOr | .bitwiseAnd
  | .openParen | .closeParen => true
  | _ => false

/-- What was read of a property before its variable, from right to left. -/
structure PropertyHead where
  type : String := ""
  hasModifier : Bool := false
  isStatic : Bool := false

/-- Reads backwards from `i`: first the type, then the modifiers. -/
def propertyHead (head : PropertyHead) (i : Nat) : PropertyHead :=
  match ts.previousEffective i with
  | none => head
  | some p =>
    if p < i then
      match ts.get? p with
      | none => head
      | some t =>
        if t.kind.isModifier then
          propertyHead { head with
            hasModifier := true, isStatic := head.isStatic || t.kind == .kwStatic } p
        else if !head.hasModifier && isPropertyTypePart t.kind then
          propertyHead { head with type := t.content ++ head.type } p
        else head
    else head
termination_by i

def ownsProperties : Kind → Bool
  | .kwClass | .kwTrait | .kwInterface | .kwEnum => true
  | _ => false

/-- The property declared by the variable at `i`: it stands directly in the body of a class or the
like, after at least one modifier. -/
def property? (i : Nat) : Option Property := do
  guard (ts.kindIs (· == .variableName) i)
  let owner ← ts.enclosingOwner i
  guard (ts.kindIs ownsProperties owner)
  let head := ts.propertyHead {} i
  guard head.hasModifier
  return {
    name := ts.content i
    type := DeclaredType.ofText? head.type
    default := ts.defaultAfter i ts.size
    isStatic := head.isStatic }

end Tokens

end PhpStyle
