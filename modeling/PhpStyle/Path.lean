import PhpStyle.Text.Search

/-!
File paths with slashes. A path is kept as it is written; two spellings that differ only in
repeated slashes, in `.` inside the path or in a slash at the end have the same components.
-/

namespace PhpStyle

structure Path where
  text : String
  deriving DecidableEq, Repr, Inhabited

namespace Path

inductive Component where
  | root
  /-- A `.` at the start of a relative path. -/
  | current
  /-- A `..`, anywhere. -/
  | parent
  | normal (name : String)
  deriving DecidableEq, Repr

def isAbsolute (p : Path) : Bool :=
  p.text.toList.head? == some '/'

/-- The pieces between slashes, without the slash at the start of an absolute path. -/
def segments (p : Path) : List String :=
  let cs := p.text.toList
  (Text.splitAt '/' (if p.isAbsolute then cs.tail else cs)).map String.ofList

/-- Segments that name no component. -/
def isSkipped (s : String) : Bool :=
  s == "" || s == "."

def ofSegment? (s : String) : Option Component :=
  if isSkipped s then none else if s == ".." then some .parent else some (.normal s)

/-- Whether a path starts with `.` as a component of its own. -/
def startsAtCurrent (p : Path) : Bool :=
  !p.isAbsolute && p.segments.head? == some "."

def components (p : Path) : List Component :=
  (if p.isAbsolute then [.root] else if p.startsAtCurrent then [.current] else []) ++
    p.segments.filterMap ofSegment?

/-- Whether two spellings name the same components. -/
def same (p q : Path) : Bool :=
  p.components == q.components

/-- The order of components: the root, `.`, `..`, then names by their code points. -/
def Component.le : Component → Component → Bool
  | .normal a, .normal b => a ≤ b
  | a, b => rank a ≤ rank b
where
  rank : Component → Nat
    | .root => 0
    | .current => 1
    | .parent => 2
    | .normal _ => 3

def componentsLe : List Component → List Component → Bool
  | [], _ => true
  | _ :: _, [] => false
  | a :: as, b :: bs => if a = b then componentsLe as bs else a.le b

/-- Paths are ordered by their components. -/
def le (p q : Path) : Bool :=
  componentsLe p.components q.components

def ofSegments (absolute : Bool) (segments : List String) : Path :=
  ⟨(if absolute then "/" else "") ++ "/".intercalate segments⟩

/-- `q` as seen from `p`. -/
def join (p q : Path) : Path :=
  if q.isAbsolute || p.text == "" then q
  else if p.text.toList.getLast? == some '/' then ⟨p.text ++ q.text⟩
  else ⟨p.text ++ "/" ++ q.text⟩

def joinName (p : Path) (name : String) : Path :=
  p.join ⟨name⟩

/-- Segments without those at the end that name no component. -/
def trimSegments (segments : List String) : List String :=
  (segments.reverse.dropWhile isSkipped).reverse

/-- The segments through the last component; a `.` at the start of a relative path is one. -/
def trimmedSegments (p : Path) : List String :=
  if p.startsAtCurrent then "." :: trimSegments p.segments.tail else trimSegments p.segments

/-- The path without its last component. -/
def parent? (p : Path) : Option Path :=
  match p.trimmedSegments with
  | [] => none
  | segs =>
    let q := ofSegments p.isAbsolute segs.dropLast
    some (ofSegments p.isAbsolute q.trimmedSegments)

def ancestorsUpTo : Nat → Path → List Path
  | 0, p => [p]
  | n + 1, p => p :: match p.parent? with
    | some q => ancestorsUpTo n q
    | none => []

/-- The path, its parent, the parent of that, and so on. -/
def ancestors (p : Path) : List Path :=
  ancestorsUpTo p.text.length p

def fileName? (p : Path) : Option String :=
  match p.components.getLast? with
  | some (.normal s) => some s
  | _ => none

/-- A file name cut at its last point, unless that is its first character. -/
def splitName (name : String) : String × Option String :=
  let cs := name.toList
  let ext := (cs.reverse.takeWhile (· ≠ '.')).reverse
  let stem := cs.take (cs.length - ext.length - 1)
  if ext.length = cs.length || stem.isEmpty then (name, none)
  else (String.ofList stem, some (String.ofList ext))

def fileStem? (p : Path) : Option String :=
  p.fileName?.map fun n => (splitName n).1

def extension? (p : Path) : Option String :=
  p.fileName?.bind fun n => (splitName n).2

/-- Whether the components of `base` come first in those of `p`. -/
def startsWith (p base : Path) : Bool :=
  base.components.isPrefixOf p.components

/-- Segments without the first `n` components. -/
def dropComponents : Nat → List String → List String
  | 0, segs => segs.dropWhile isSkipped
  | n + 1, segs => dropComponents n (segs.dropWhile isSkipped).tail

/-- What follows `base` in `p`, as written. -/
def relativeTo? (p base : Path) : Option Path :=
  if p.startsWith base then
    match base.components with
    | [] => some (ofSegments p.isAbsolute p.trimmedSegments)
    | .root :: rest => some (ofSegments false (trimSegments (dropComponents rest.length p.segments)))
    | .current :: rest =>
      some (ofSegments false (trimSegments (dropComponents rest.length p.segments.tail)))
    | cs => some (ofSegments false (trimSegments (dropComponents cs.length p.segments)))
  else none

/-- The names among the components. -/
def names (p : Path) : List String :=
  p.components.filterMap fun
    | .normal s => some s
    | _ => none

/-- The path made of the names alone. -/
def onlyNames (p : Path) : Path :=
  ofSegments false p.names

end Path

end PhpStyle
