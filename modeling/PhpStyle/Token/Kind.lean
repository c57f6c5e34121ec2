/-!
The lexical categories of PHP source text.
-/

namespace PhpStyle

/-- What a token is. `name` is an identifier or a namespace-qualified name, `quoted` a string
literal of any form, `operator` an operator without a kind of its own. -/
inductive Kind where
  | openTag | closeTag | html | blank | comment | docOpen | docClose | docBlank | docStar
  | docTag | docText | variableName | name | quoted | integer | float | litTrue | litFalse | litNull | cast
  | openParen | closeParen | openBrace | closeBrace | openSquare | closeSquare | openArray
  | closeArray | openAttribute | closeAttribute | semicolon | comma | colon | doubleColon
  | assign | doubleArrow | arrow | nullable | ternary | bitwiseOr | bitwiseAnd | ellipsis | equal
  | notEqual | identical | notIdentical | booleanAnd | booleanOr | logicalAnd | logicalOr
  | logicalXor | kwInstanceof | operator | kwFunction | kwFn | kwClass | kwInterface
  | kwTrait | kwEnum | kwCase | kwExtends | kwImplements | kwAbstract | kwFinal | kwPublic | kwProtected
  | kwPrivate | kwStatic | kwReadonly | kwVar | kwConst | kwReturn | kwNamespace | kwUse | kwNew | kwIf
  | kwElseif | kwElse | kwWhile | kwFor | kwForeach | kwSwitch | kwMatch | kwTry | kwCatch | kwFinally
  | kwArray | unknown
  deriving DecidableEq, Repr, Inhabited

namespace Kind

/-- Every kind, in order of declaration. -/
def all : List Kind :=
  [.openTag, .closeTag, .html, .blank, .comment, .docOpen, .docClose, .docBlank, .docStar,
   .docTag, .docText, .variableName, .name, .quoted, .integer, .float, .litTrue, .litFalse, .litNull,
   .cast, .openParen, .closeParen, .openBrace, .closeBrace, .openSquare, .closeSquare,
   .openArray, .closeArray, .openAttribute, .closeAttribute, .semicolon, .comma, .colon,
   .doubleColon, .assign, .doubleArrow, .arrow, .nullable, .ternary, .bitwiseOr, .bitwiseAnd,
   .ellipsis, .equal, .notEqual, .identical, .notIdentical, .booleanAnd, .booleanOr, .logicalAnd,
   .logicalOr, .logicalXor, .kwInstanceof, .operator, .kwFunction, .kwFn, .kwClass,
   .kwInterface, .kwTrait, .kwEnum, .kwCase, .kwExtends, .kwImplements, .kwAbstract, .kwFinal, .kwPublic,
   .kwProtected, .kwPrivate, .kwStatic, .kwReadonly, .kwVar, .kwConst, .kwReturn, .kwNamespace, .kwUse,
   .kwNew, .kwIf, .kwElseif, .kwElse, .kwWhile, .kwFor, .kwForeach, .kwSwitch, .kwMatch, .kwTry, .kwCatch,
   .kwFinally, .kwArray, .unknown]

/-- The name under which a kind is published. -/
def label : Kind → String
  | .openTag => "OpenTag"
  | .closeTag => "CloseTag"
  | .html => "InlineHtml"
  | .blank => "Whitespace"
  | .comment => "Comment"
  | .docOpen => "DocCommentOpenTag"
  | .docClose => "DocCommentCloseTag"
  | .docBlank => "DocCommentWhitespace"
  | .docStar => "DocCommentStar"
  | .docTag => "DocCommentTag"
  | .docText => "DocCommentString"
  | .variableName => "Variable"
  | .name => "String"
  | .quoted => "ConstantString"
  | .integer => "LNumber"
  | .float => "DNumber"
  | .litTrue => "True"
  | .litFalse => "False"
  | .litNull => "Null"
  | .cast => "Cast"
  | .openParen => "OpenParenthesis"
  | .closeParen => "CloseParenthesis"
  | .openBrace => "OpenCurlyBracket"
  | .closeBrace => "CloseCurlyBracket"
  | .openSquare => "OpenSquareBracket"
  | .closeSquare => "CloseSquareBracket"
  | .openArray => "OpenShortArray"
  | .closeArray => "CloseShortArray"
  | .openAttribute => "AttributeOpen"
  | .closeAttribute => "AttributeClose"
  | .semicolon => "Semicolon"
  | .comma => "Comma"
  | .colon => "Colon"
  | .doubleColon => "DoubleColon"
  | .assign => "Equal"
  | .doubleArrow => "DoubleArrow"
  | .arrow => "ObjectOperator"
  | .nullable => "Nullable"
  | .ternary => "InlineThen"
  | .bitwiseOr => "BitwiseOr"
  | .bitwiseAnd => "BitwiseAnd"
  | .ellipsis => "Ellipsis"
  | .equal => "IsEqual"
  | .notEqual => "IsNotEqual"
  | .identical => "IsIdentical"
  | .notIdentical => "IsNotIdentical"
  | .booleanAnd => "BooleanAnd"
  | .booleanOr => "BooleanOr"
  | .logicalAnd => "LogicalAnd"
  | .logicalOr => "LogicalOr"
  | .logicalXor => "LogicalXor"
  | .kwInstanceof => "Instanceof"
  | .operator => "Operator"
  | .kwFunction => "Function"
  | .kwFn => "Fn"
  | .kwClass => "Class"
  | .kwInterface => "Interface"
  | .kwTrait => "Trait"
  | .kwEnum => "Enum"
  | .kwCase => "Case"
  | .kwExtends => "Extends"
  | .kwImplements => "Implements"
  | .kwAbstract => "Abstract"
  | .kwFinal => "Final"
  | .kwPublic => "Public"
  | .kwProtected => "Protected"
  | .kwPrivate => "Private"
  | .kwStatic => "Static"
  | .kwReadonly => "Readonly"
  | .kwVar => "Var"
  | .kwConst => "Const"
  | .kwReturn => "Return"
  | .kwNamespace => "Namespace"
  | .kwUse => "Use"
  | .kwNew => "New"
  | .kwIf => "If"
  | .kwElseif => "Elseif"
  | .kwElse => "Else"
  | .kwWhile => "While"
  | .kwFor => "For"
  | .kwForeach => "Foreach"
  | .kwSwitch => "Switch"
  | .kwMatch => "Match"
  | .kwTry => "Try"
  | .kwCatch => "Catch"
  | .kwFinally => "Finally"
  | .kwArray => "Array"
  | .unknown => "Unknown"

def ofLabel? (s : String) : Option Kind :=
  all.find? (·.label == s)

/-- Comments and blanks: what searches for effective tokens pass over. -/
def isTrivia : Kind → Bool
  | .blank | .comment | .docOpen | .docClose | .docBlank | .docStar | .docTag | .docText => true
  | _ => false

def isEffective (k : Kind) : Bool :=
  !k.isTrivia

def isBlank : Kind → Bool
  | .blank | .docBlank => true
  | _ => false

def isComment (k : Kind) : Bool :=
  k.isTrivia && k != .blank

/-- The keywords that may stand before a function, a property or a constant. -/
def isModifier : Kind → Bool
  | .kwAbstract | .kwFinal | .kwPublic | .kwProtected | .kwPrivate | .kwStatic | .kwReadonly | .kwVar => true
  | _ => false

/-- The kind of bracket that closes one of kind `k`. -/
def closer? : Kind → Option Kind
  | .openParen => some .closeParen
  | .openBrace => some .closeBrace
  | .openSquare => some .closeSquare
  | .openArray => some .closeArray
  | .openAttribute => some .closeAttribute
  | _ => none

def isOpener (k : Kind) : Bool :=
  k.closer?.isSome

def isCloser : Kind → Bool
  | .closeParen | .closeBrace | .closeSquare | .closeArray | .closeAttribute => true
  | _ => false

/-- Literals of scalar type, and null. -/
def isLiteral : Kind → Bool
  | .quoted | .integer | .float | .litTrue | .litFalse | .litNull => true
  | _ => false

/-- The comparisons for equality and identity. -/
def isEquality : Kind → Bool
  | .equal | .notEqual | .identical | .notIdentical => true
  | _ => false

end Kind

end PhpStyle
