import PhpStyle.Disk
import PhpStyle.Ignore.Pattern

/-!
Which files below a directory are found: hidden ones and those that ignore files name are left out,
with all that is below them.
-/

namespace PhpStyle.Ignore

open Text

/-- The lines of one ignore file that mean something, and whether a line was faulty. -/
structure Rules where
  lines : List Line := []
  faulty : Bool := false
  deriving DecidableEq, Repr

/-- The bytes of each line, without its end. -/
def byteLines (bytes : ByteArray) : List (List UInt8) :=
  let pieces := bytes.toList.splitOnP (· == 10)
  let pieces := if pieces.getLast? == some [] then pieces.dropLast else pieces
  pieces.map fun l => if l.getLast? == some 13 then l.dropLast else l

/-- The lines of a file up to the first that is not text, without a byte order mark at the start. -/
def textLines (bytes : ByteArray) : List (List Char) :=
  let texts := (byteLines bytes).map fun l => String.fromUTF8? ⟨l.toArray⟩
  match ((texts.takeWhile Option.isSome).filterMap id).map String.toList with
  | first :: rest => first.dropWhile (· == '\uFEFF') :: rest
  | [] => []

def Rules.ofBytes (bytes : ByteArray) : Rules :=
  let parsed := (textLines bytes).map parseLine
  { lines := parsed.filterMap fun
      | .ok l => l
      | .error _ => none
    faulty := parsed.any fun
      | .ok _ => false
      | .error _ => true }

/-- What is said of a path. -/
inductive Verdict where
  | ignored | kept
  deriving DecidableEq, Repr

/-- The last line that matches a path decides. -/
def Rules.verdict? (r : Rules) (path : List UInt8) (isDirectory : Bool) : Option Verdict :=
  (r.lines.reverse.find? fun l => l.isMatch path isDirectory).map fun l =>
    if l.negated then .kept else .ignored

/-- The ignore files of one directory. -/
structure Level where
  /-- The place of the directory. -/
  place : Place
  plain : Rules := {}
  git : Rules := {}
  gitExclude : Rules := {}
  deriving DecidableEq, Repr

def rulesAt (d : Disk) (place : Place) : Rules :=
  match d.fileAt? place with
  | some bytes => Rules.ofBytes bytes
  | none => {}

/-- The ignore files of the directory at a place; those of git only if `useGit`. -/
def levelAt (d : Disk) (useGit : Bool) (place : Place) : Level where
  place := place
  plain := rulesAt d (place ++ [".ignore"])
  git := if useGit then rulesAt d (place ++ [".gitignore"]) else {}
  gitExclude := if useGit then rulesAt d (place ++ [".git", "info", "exclude"]) else {}

def Level.faulty (l : Level) : Bool :=
  l.plain.faulty || l.git.faulty || l.gitExclude.faulty

/-- The path of a place as seen from a directory above it. -/
def bytesFrom (above place : Place) : List UInt8 :=
  ("/".intercalate (place.drop above.length)).toUTF8.toList

/-- The nearest of the levels that says something in one kind of file; the kinds come in order. -/
def verdictIn? (levels : List Level) (place : Place) (isDirectory : Bool) : Option Verdict :=
  let by_ (rules : Level → Rules) : Option Verdict :=
    levels.findSome? fun l => (rules l).verdict? (bytesFrom l.place place) isDirectory
  ((by_ Level.plain).or (by_ Level.git)).or (by_ Level.gitExclude)

/-- The places above a place, the nearest first. -/
def placesAbove (place : Place) : List Place :=
  (List.range place.length).reverse.map place.take

/-- Whether the entry at a place is passed over, with `levels` for all directories above it. -/
def isSkipped (d : Disk) (useGit : Bool) (place : Place) (isDirectory : Bool) : Bool :=
  match verdictIn? ((placesAbove place).map (levelAt d useGit)) place isDirectory with
  | some .ignored => true
  | some .kept => false
  | none => (place.getLast?.any fun name => name.toList.head? == some '.')

/-- Whether the file that `names` lead to from `root` is found. -/
def isFound (d : Disk) (useGit : Bool) (root : Place) (names : List String) : Bool :=
  (List.range names.length).all fun n =>
    !isSkipped d useGit (root ++ names.take (n + 1)) (n + 1 < names.length)

/-- The files found below a directory, each by the names that lead to it. A faulty line in an ignore
file above the directory prevents the search. -/
def filesFound? (d : Disk) (useGit : Bool) (root : Place) : Option (List (List String)) :=
  if (placesAbove root).any fun p => (levelAt d useGit p).faulty then none
  else some ((d.filesBelow root).filter (isFound d useGit root))

end PhpStyle.Ignore
