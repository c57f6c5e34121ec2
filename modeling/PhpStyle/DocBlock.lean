import PhpStyle.DocTag
import PhpStyle.Token.Structure

/-!
Doc comments read from a token sequence.
-/

namespace PhpStyle

open Text

/-- A tag of a doc comment. -/
structure DocTag where
  /-- The index of the tag's token. -/
  index : Nat
  /-- The name with its at sign. -/
  name : String
  /-- The index of the text on the tag's line. -/
  valueIndex : Option Nat
  value : TagValue
  /-- Whether the value was put together from several lines. -/
  multiline : Bool
  deriving Repr, BEq, Inhabited

namespace DocTag

def baseName (t : DocTag) : String :=
  TagValue.baseName t.name

/-- The text on the line of the tag at `i`, within the comment that ends at `closer`. -/
def valueIndexAt (ts : Tokens) (i closer : Nat) : Option Nat := do
  let tag ← ts.get? i
  let v ← ts.findNext (fun t => t.kind != .docBlank) (i + 1) (some closer)
  let t ← ts.get? v
  guard (t.kind = .docText && t.line = tag.line)
  return v

/-- Reads the tag at `i` of the comment that ends at `closer`. When brackets are open at the end
of its line, the value is read from all of its lines. -/
def read (ts : Tokens) (closer i : Nat) : DocTag :=
  let name := ts.content i
  let valueIndex := valueIndexAt ts i closer
  let value := TagValue.parse name ((valueIndex.map ts.content).getD "")
  match value, ts.tagText? i with
  | .invalid _ true, some joined => ⟨i, name, valueIndex, TagValue.parse name joined, true⟩
  | _, _ => ⟨i, name, valueIndex, value, false⟩

end DocTag

/-- A doc comment: its two ends, the text before its first tag, and its tags. -/
structure DocBlock where
  opener : Nat
  closer : Nat
  summary : String
  tags : List DocTag
  deriving Repr, BEq, Inhabited

namespace DocBlock

/-- Reads the closed doc comment that opens at `opener`. -/
def read? (ts : Tokens) (opener : Nat) : Option DocBlock := do
  let t ← ts.get? opener
  guard (t.kind = .docOpen)
  let closer ← t.links.docCloser
  let firstTag := t.links.docTags.headD closer
  let lead := (ts.items.toList.drop (opener + 1)).take (firstTag - (opener + 1))
  let pieces := (lead.filter fun t => t.kind == .docText).map fun t => trim t.content.toList
  return ⟨opener, closer, String.ofList (joinWith [' '] pieces),
    t.links.docTags.map (DocTag.read ts closer)⟩

/-- The tags called `name`, with or without an at sign, in any letter case. -/
def tagsNamed (b : DocBlock) (name : String) : List DocTag :=
  b.tags.filter fun t => t.baseName == TagValue.baseName name

def hasTag (b : DocBlock) (name : String) : Bool :=
  !(b.tagsNamed name).isEmpty

/-- The tag that documents the parameter called `name`. -/
def paramTag? (b : DocBlock) (name : String) : Option DocTag :=
  (b.tagsNamed "param").find? fun t => (t.value.typed?.bind TypedText.variableName?) == some name

/-- Whether the comment stands for the one it inherits. -/
def inheritsDoc (b : DocBlock) : Bool :=
  b.hasTag "inheritdoc" || occurs "\x7b@inheritdoc\x7d".toList (lower b.summary.toList)

end DocBlock

end PhpStyle
