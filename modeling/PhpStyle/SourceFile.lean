import PhpStyle.Text.Blank
import PhpStyle.Token.Basic
import PhpStyle.Violation

/-!
A file under analysis, and where its tokens are in it.
-/

namespace PhpStyle

open Text

structure SourceFile where
  path : Path
  content : String
  /-- The directory that the analysis starts from. -/
  root : Path
  deriving DecidableEq, Repr, Inhabited

namespace SourceFile

def isTestDirectory (name : String) : Bool :=
  name == "tests" || name == "test" || name == "Tests"

/-- Whether the path is that of a test, by its directories or its name. -/
def isTest (f : SourceFile) : Bool :=
  f.path.names.any isTestDirectory ||
    f.path.fileStem?.any fun stem =>
      endsWith "Test".toList stem.toList || endsWith "TestCase".toList stem.toList

/-- The path seen from the root, or the whole path when it lies outside. -/
def relativePath (f : SourceFile) : Path :=
  (f.path.relativeTo? f.root).getD f.path

/-- The byte offset of a line and column in `lines`; past the end of a line or of the text, that
end. -/
def offsetIn : List (List Char) → Nat → Nat → Nat
  | _, 0, _ => 0
  | [], _, _ => 0
  | l :: _, 1, column => byteLength (l.take (column - 1))
  | l :: ls, n + 1, column => byteLength l + offsetIn ls n column

def offsetOf (f : SourceFile) (line column : Nat) : Nat :=
  offsetIn (linesKeeping f.content.toList) line column

/-- The location of a token, without the blanks at its end; of none, line and column zero. -/
def location (f : SourceFile) (ts : Tokens) (i : Nat) : Location :=
  match ts.get? i with
  | none => ⟨f.path, 0, 0, 0, 0⟩
  | some t => ⟨f.path, t.line, t.column, f.offsetOf t.line t.column,
      byteLength (trimEnd t.content.toList)⟩

end SourceFile

end PhpStyle
