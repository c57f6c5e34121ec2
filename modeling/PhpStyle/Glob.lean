import PhpStyle.Text.Search

/-!
The patterns by which paths are excluded. A star matches any text, slashes included; two stars are a
component of their own and match any number of whole components.
-/

namespace PhpStyle

/-- A pattern as a list of pieces. -/
inductive GlobPiece where
  /-- Any one character. -/
  | any
  /-- Any text. -/
  | star
  /-- Any text that ends at a slash. -/
  | deep
  /-- One character in the ranges. -/
  | within (ranges : List (Char × Char))
  /-- One character outside of the ranges. -/
  | outside (ranges : List (Char × Char))
  | char (c : Char)
  deriving DecidableEq, Repr

abbrev Glob := List GlobPiece

namespace Glob

/-! ### Reading -/

/-- The ranges of a class; a character alone is a range of its own. -/
def ranges : List Char → List (Char × Char)
  | a :: '-' :: b :: rest => (a, b) :: ranges rest
  | a :: rest => (a, a) :: ranges rest
  | [] => []

/-- A class up to its closing bracket, which is not its first character. -/
def classBody? : List Char → Option (List Char × List Char)
  | [] => none
  | c :: cs =>
    if cs.contains ']' then
      some (c :: cs.takeWhile (· ≠ ']'), (cs.dropWhile (· ≠ ']')).tail)
    else none

/-- A class after its opening bracket. -/
def class? : List Char → Option (GlobPiece × List Char)
  | '!' :: cs => (classBody? cs).map fun p => (.outside (ranges p.1), p.2)
  | cs => (classBody? cs).map fun p => (.within (ranges p.1), p.2)

/-- Adds two stars, unless the piece before it says the same. -/
def addDeep (done : List GlobPiece) : List GlobPiece :=
  if 1 < done.length && done.head? == some .deep then done else .deep :: done

/-- Reads pieces, `done` holding those before in reverse and `before` being the last character. -/
def parseFrom (before : Option Char) (done : List GlobPiece) (cs : List Char) : Option Glob :=
  match cs with
  | [] => some done.reverse
  | '?' :: rest => parseFrom (some '?') (.any :: done) rest
  | '*' :: '*' :: '*' :: _ => none
  | '*' :: '*' :: rest =>
    if before = none || before = some '/' then
      match rest with
      | [] => some (addDeep done).reverse
      | '/' :: rest => parseFrom (some '/') (addDeep done) rest
      | _ => none
    else none
  | '*' :: rest => parseFrom (some '*') (.star :: done) rest
  | '[' :: rest =>
    match class? rest with
    | some (piece, rest') =>
      if rest'.length < rest.length then parseFrom (some ']') (piece :: done) rest' else none
    | none => none
  | c :: rest => parseFrom (some c) (.char c :: done) rest
termination_by cs.length

/-- Reads a pattern. Stars come in ones or, as a whole component, in twos; brackets are closed. -/
def parse? (pattern : String) : Option Glob :=
  parseFrom none [] pattern.toList

/-! ### Matching -/

/-- How an attempt to match ended. -/
inductive Verdict where
  | matches
  /-- Here it does not match; a longer text for the star before may help. -/
  | fails
  /-- The text was too short, and stays so for every later attempt. -/
  | exhausted
  deriving DecidableEq, Repr

def inRanges (ranges : List (Char × Char)) (c : Char) : Bool :=
  ranges.any fun r => r.1 ≤ c && c ≤ r.2

def matchesChar (c : Char) : GlobPiece → Bool
  | .any => true
  | .within rs => inRanges rs c
  | .outside rs => !inRanges rs c
  | .char d => c == d
  | .star | .deep => false

/-- Tries what follows a star after each character, or for `deep` after each slash. -/
def extend (rest : List Char → Verdict) (deep : Bool) : List Char → Verdict
  | [] => rest []
  | c :: cs =>
    if deep && c ≠ '/' then extend rest deep cs
    else match rest cs with
      | .fails => extend rest deep cs
      | v => v

def attempt : Glob → List Char → Verdict
  | [], [] => .matches
  | [], _ :: _ => .fails
  | p :: ps, cs =>
    if p = .star || p = .deep then
      match attempt ps cs with
      | .fails => extend (attempt ps) (p = .deep) cs
      | v => v
    else match cs with
      | [] => .exhausted
      | c :: cs => if matchesChar c p then attempt ps cs else .fails

def isMatch (g : Glob) (text : String) : Bool :=
  attempt g text.toList = .matches

/-! ### Excluding -/

/-- A text without its pairs of stars. -/
def dropDeep : List Char → List Char
  | '*' :: '*' :: cs => dropDeep cs
  | c :: cs => c :: dropDeep cs
  | [] => []

/-- Whether a path is excluded: by the pattern, or because it contains the pattern's text without
pairs of stars, if that has more than one byte. -/
def excludes (pattern path : String) : Bool :=
  (parse? pattern).any (·.isMatch path) ||
    (let plain := dropDeep pattern.toList
     1 < Text.byteLength plain && Text.occurs plain path.toList)

end Glob

end PhpStyle
