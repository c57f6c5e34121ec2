import PhpStyle.Path

/-!
A snapshot of a file system: which files and directories exist, what the files hold, and which
directory is the working directory. Directories that hold something need not be listed.
-/

namespace PhpStyle

/-- Where a file or a directory is: the names from the root down. -/
abbrev Place := List String

structure Disk where
  files : List (Place × ByteArray) := []
  directories : List Place := []
  cwd : Path := ⟨"/"⟩

/-- Why a path cannot be used. -/
inductive DiskError where
  | notFound
  | notADirectory
  | isADirectory
  | notText
  deriving DecidableEq, Repr

def DiskError.message : DiskError → String
  | notFound => "No such file or directory (os error 2)"
  | notADirectory => "Not a directory (os error 20)"
  | isADirectory => "Is a directory (os error 21)"
  | notText => "stream did not contain valid UTF-8"

namespace Disk

variable (d : Disk)

def fileAt? (place : Place) : Option ByteArray :=
  d.files.lookup place

def isDirectoryAt (place : Place) : Bool :=
  place.isEmpty || d.directories.any place.isPrefixOf ||
    d.files.any fun f => place.isPrefixOf f.1 && place != f.1

/-- Follows segments from a place. Every segment needs a directory to start from. -/
def follow (place : Place) : List String → Except DiskError Place
  | [] => .ok place
  | s :: rest =>
    if !d.isDirectoryAt place then .error .notADirectory
    else if Path.isSkipped s then follow place rest
    else if s == ".." then follow place.dropLast rest
    else
      let next := place ++ [s]
      if (d.fileAt? next).isSome || d.isDirectoryAt next then follow next rest
      else .error .notFound

def absolute (p : Path) : Path :=
  d.cwd.join p

/-- The place that a path leads to. -/
def resolve (p : Path) : Except DiskError Place :=
  if p.text == "" then .error .notFound else d.follow [] (d.absolute p).segments

def isFile (p : Path) : Bool :=
  match d.resolve p with
  | .ok place => (d.fileAt? place).isSome
  | .error _ => false

def isDirectory (p : Path) : Bool :=
  match d.resolve p with
  | .ok place => d.isDirectoryAt place
  | .error _ => false

def pathExists (p : Path) : Bool :=
  (d.resolve p).isOk

/-- The text of a file. -/
def readText (p : Path) : Except DiskError String := do
  match d.fileAt? (← d.resolve p) with
  | none => .error .isADirectory
  | some bytes => match String.fromUTF8? bytes with
    | some s => .ok s
    | none => .error .notText

def pathOf (place : Place) : Path :=
  Path.ofSegments true place

/-- The path without `.`, `..` and repeated slashes, from the root. -/
def canonical (p : Path) : Except DiskError Path :=
  (d.resolve p).map pathOf

/-- Puts a file at a place. -/
def putFile (place : Place) (bytes : ByteArray) : Disk :=
  if (d.fileAt? place).isSome then
    { d with files := d.files.map fun f => if f.1 = place then (place, bytes) else f }
  else { d with files := d.files ++ [(place, bytes)] }

def removeFile (place : Place) : Disk :=
  { d with
    files := d.files.filter fun f => f.1 ≠ place
    directories := if place.isEmpty then d.directories else place.dropLast :: d.directories }

def putDirectory (place : Place) : Disk :=
  { d with directories := place :: d.directories }

/-- Writes a file: over an old one, or into a directory that exists. -/
def writeText (p : Path) (text : String) : Except DiskError Disk :=
  match d.resolve p with
  | .ok place =>
    if (d.fileAt? place).isSome then .ok (d.putFile place text.toUTF8) else .error .isADirectory
  | .error e =>
    let segs := (d.absolute p).segments
    match d.follow [] segs.dropLast, segs.getLast? with
    | .ok place, some name =>
      if p.text == "" || Path.isSkipped name || name == ".." || !d.isDirectoryAt place then .error e
      else .ok (d.putFile (place ++ [name]) text.toUTF8)
    | _, _ => .error e

/-- The files below a place, each with the names that lead to it from there. -/
def filesBelow (place : Place) : List Place :=
  d.files.filterMap fun f =>
    if place.isPrefixOf f.1 && place != f.1 then some (f.1.drop place.length) else none

end Disk

end PhpStyle
