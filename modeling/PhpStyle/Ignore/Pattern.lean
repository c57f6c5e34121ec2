import PhpStyle.Text.Blank
import PhpStyle.Text.Search

/-!
The lines of ignore files, such as `.gitignore`. Patterns are matched against the bytes of a path
seen from the directory of the file; only pairs of stars match slashes.
-/

namespace PhpStyle.Ignore

open Text

inductive Piece where
  | byte (b : UInt8)
  /-- Any byte but a slash. -/
  | any
  /-- Any bytes but slashes. -/
  | star
  /-- Nothing, or whole components, at the start. -/
  | deepStart
  /-- A slash, or whole components between two. -/
  | deepMiddle
  /-- A slash and all that follows. -/
  | deepEnd
  | set (negated : Bool) (ranges : List (UInt8 × UInt8))
  deriving DecidableEq, Repr

/-! ### Reading -/

/-- What was read of one branch: all the ways in which its inner alternatives can be chosen. -/
structure Branch where
  ways : List (List Piece) := [[]]
  started : Bool := false
  deriving DecidableEq, Repr

namespace Branch

def push (b : Branch) (pieces : List Piece) : Branch :=
  ⟨b.ways.map (· ++ pieces), true⟩

def pushChar (b : Branch) (c : Char) : Branch :=
  b.push ((String.utf8EncodeChar c).map Piece.byte)

def last? (b : Branch) : Option Piece :=
  b.ways.head?.bind (·.getLast?)

/-- Replaces the last piece, unless that already stands for whole components at its place. -/
def replaceLast (b : Branch) (p : Piece) : Branch :=
  if b.last? = some .deepStart || b.last? = some .deepEnd then b
  else ⟨b.ways.map fun w => w.dropLast ++ [p], true⟩

/-- Goes on with any of the branches that are not empty. -/
def choose (b : Branch) (branches : List Branch) : Branch :=
  let chosen := (branches.map (·.ways)).filter (· ≠ [[]])
  if chosen.isEmpty then { b with started := true }
  else ⟨b.ways.flatMap fun w => chosen.flatten.map (w ++ ·), true⟩

end Branch

/-- The bytes that a range of characters stands for, byte by byte. -/
def byteRanges? (r : Char × Char) : Option (List (UInt8 × UInt8)) :=
  let low := String.utf8EncodeChar r.1
  let high := String.utf8EncodeChar r.2
  if r.1 = r.2 then some (low.map fun b => (b, b))
  else match low.getLast?, high with
    | some a, b :: rest =>
      if a ≤ b then some (low.dropLast.map (fun x => (x, x)) ++ (a, b) :: rest.map fun x => (x, x))
      else none
    | _, _ => none

/-- Reads the members of a set up to its closing bracket. `first` holds before any was read, and
`inRange` after a hyphen that may join two. -/
def setMembers? (first inRange : Bool) (done : List (Char × Char)) :
    List Char → Option (List (Char × Char) × List Char)
  | [] => none
  | c :: cs =>
    if c = ']' && !first then
      some ((if inRange then ('-', '-') :: done else done).reverse, cs)
    else if c = '-' && !first && !inRange then setMembers? false true done cs
    else if inRange then
      match done with
      | (low, _) :: rest => if c < low then none else setMembers? false false ((low, c) :: rest) cs
      | [] => none
    else setMembers? false false ((c, c) :: done) cs

def set? (cs : List Char) : Option (Piece × List Char) := do
  let negated := cs.head? == some '!' || cs.head? == some '^'
  let (members, rest) ← setMembers? true false [] (if negated then cs.tail else cs)
  let ranges ← members.mapM byteRanges?
  return (.set negated ranges.flatten, rest)

/-- A reader's state: the character before, the branch being read, and for each open brace the
branch that it stands in and the finished alternatives. -/
structure Progress where
  before : Option Char := none
  current : Branch := {}
  pending : List (Branch × List Branch) := []
  deriving DecidableEq, Repr

/-- Where a pair of stars stands, by what is around it: `none` if it is but two single stars. -/
def deepPiece? (s : Progress) (next : Option Char) : Option Piece :=
  let inBraces := !s.pending.isEmpty
  let atEnd := next = none || (inBraces && (next = some ',' || next = some '\x7d'))
  if !s.current.started then
    if next = none || next = some '/' then some .deepStart else none
  else if s.before = some '/' || (inBraces && (s.before = some ',' || s.before = some '\x7b')) then
    if atEnd then some .deepEnd else if next = some '/' then some .deepMiddle else none
  else none

def afterStars (s : Progress) (next : Option Char) : Progress :=
  match deepPiece? s next with
  | none => { s with before := some '*', current := s.current.push [.star, .star] }
  | some p =>
    { s with
      before := some (if next = some '/' then '/' else '*')
      current := if p = .deepStart then s.current.push [p] else s.current.replaceLast p }

/-- Reads a pattern to its end. -/
def parseFrom (s : Progress) (cs : List Char) : Option (List (List Piece)) :=
  match cs with
  | [] => if s.pending.isEmpty then some s.current.ways else none
  | '?' :: rest => parseFrom { s with before := some '?', current := s.current.push [.any] } rest
  | '*' :: '*' :: rest =>
    let next := rest.head?
    let s' := afterStars s next
    match rest with
    | '/' :: rest' =>
      if (deepPiece? s next).isSome then parseFrom s' rest' else parseFrom s' ('/' :: rest')
    | rest => parseFrom s' rest
  | '*' :: rest => parseFrom { s with before := some '*', current := s.current.push [.star] } rest
  | '[' :: rest =>
    match set? rest with
    | some (p, rest') =>
      if rest'.length < rest.length then
        parseFrom { s with before := some ']', current := s.current.push [p] } rest'
      else none
    | none => none
  | '\x7b' :: rest =>
    parseFrom ⟨some '\x7b', {}, (s.current, []) :: s.pending⟩ rest
  | '\x7d' :: rest =>
    match s.pending with
    | [] => none
    | (outer, done) :: pending =>
      parseFrom ⟨some '\x7d', outer.choose (done ++ [s.current]), pending⟩ rest
  | ',' :: rest =>
    match s.pending with
    | [] => parseFrom { s with before := some ',', current := s.current.pushChar ',' } rest
    | (outer, done) :: pending =>
      parseFrom ⟨some ',', {}, (outer, done ++ [s.current]) :: pending⟩ rest
  | ['\\'] => none
  | '\\' :: c :: rest => parseFrom { s with before := some c, current := s.current.pushChar c } rest
  | c :: rest => parseFrom { s with before := some c, current := s.current.pushChar c } rest
termination_by cs.length

/-! ### Matching -/

def slash : UInt8 :=
  47

/-- Whether `p` holds of some tail. -/
def someTail (p : List UInt8 → Bool) : List UInt8 → Bool
  | [] => p []
  | b :: bs => p (b :: bs) || someTail p bs

/-- Whether `p` holds of the tail after some slash. -/
def someTailAfterSlash (p : List UInt8 → Bool) : List UInt8 → Bool
  | [] => false
  | b :: bs => (b == slash && p bs) || someTailAfterSlash p bs

/-- Whether `p` holds of some tail before which no slash is passed. -/
def someTailInName (p : List UInt8 → Bool) : List UInt8 → Bool
  | [] => p []
  | b :: bs => p (b :: bs) || (b != slash && someTailInName p bs)

def afterSlash? : List UInt8 → Option (List UInt8)
  | b :: bs => if b == slash then some bs else none
  | [] => none

def isMatch : List Piece → List UInt8 → Bool
  | [], bs => bs.isEmpty
  | .byte b :: ps, bs => match bs with
    | c :: cs => c == b && isMatch ps cs
    | [] => false
  | .any :: ps, bs => match bs with
    | c :: cs => c != slash && isMatch ps cs
    | [] => false
  | .set negated ranges :: ps, bs => match bs with
    | c :: cs => (ranges.any fun r => r.1 ≤ c && c ≤ r.2) != negated && isMatch ps cs
    | [] => false
  | .star :: ps, bs => someTailInName (isMatch ps) bs
  | .deepStart :: ps, bs =>
    isMatch ps bs || (afterSlash? bs).any (isMatch ps) || someTailAfterSlash (isMatch ps) bs
  | .deepMiddle :: ps, bs =>
    (afterSlash? bs).any fun cs => isMatch ps cs || someTailAfterSlash (isMatch ps) cs
  | .deepEnd :: ps, bs => (afterSlash? bs).any (someTail (isMatch ps))

/-! ### Lines -/

/-- A line of an ignore file. -/
structure Line where
  /-- The pattern, with all choices between braces made. -/
  ways : List (List Piece)
  /-- Whether the line takes back what lines above ignore. -/
  negated : Bool
  /-- Whether the line is about directories only. -/
  onlyDirectories : Bool
  deriving DecidableEq, Repr

def Line.isMatch (l : Line) (path : List UInt8) (isDirectory : Bool) : Bool :=
  (!l.onlyDirectories || isDirectory) &&
    l.ways.any fun w => w = [.deepStart] || Ignore.isMatch w path

/-- The marks around a pattern. -/
structure Marks where
  negated : Bool
  anchored : Bool
  body : List Char

def marks (line : List Char) : Marks :=
  match line with
  | '\\' :: '!' :: rest => ⟨false, false, '!' :: rest⟩
  | '\\' :: '#' :: rest => ⟨false, false, '#' :: rest⟩
  | _ =>
    let negated := line.head? == some '!'
    let line := if negated then line.tail else line
    let anchored := line.head? == some '/'
    ⟨negated, anchored, if anchored then line.tail else line⟩

/-- A pattern without its last slash, and without a backslash before that. -/
def dropLastSlash (body : List Char) : List Char :=
  let cut := body.dropLast
  if cut.getLast? == some '\\' then cut.dropLast else cut

/-- The pattern that a line stands for: one without a slash matches at any depth, and one that ends
in a pair of stars does not match the directory itself. -/
def fullPattern (anchored : Bool) (body : List Char) : List Char :=
  let body :=
    if !anchored && !body.contains '/' && !startsWith "**/".toList body && body ≠ "**".toList then
      "**/".toList ++ body
    else body
  if endsWith "/**".toList body then body ++ "/*".toList else body

/-- What a line says: nothing for a comment or a blank line, and no answer for a faulty pattern. -/
def parseLine (line : List Char) : Except Unit (Option Line) :=
  if line.head? = some '#' then .ok none
  else
    let line := if endsWith "\\ ".toList line then line else trimEnd line
    if line.isEmpty then .ok none
    else
      let m := marks line
      let onlyDirectories := m.body.getLast? == some '/'
      let body := if onlyDirectories then dropLastSlash m.body else m.body
      match parseFrom {} (fullPattern m.anchored body) with
      | some ways => .ok (some ⟨ways, m.negated, onlyDirectories⟩)
      | none => .error ()

end PhpStyle.Ignore
