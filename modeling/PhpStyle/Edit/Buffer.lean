import PhpStyle.Edit.Basic
import PhpStyle.Token.Basic

/-!
The texts of all tokens of one pass, and the changesets that edit them. Edits are staged in an
open changeset; committing it applies all of them, and any other end applies none. A changeset
that touches a token which an earlier commit changed is dropped as a whole.
-/

namespace PhpStyle

structure EditBuffer where
  /-- Whether commits are applied; if not, every changeset is dropped. -/
  enabled : Bool
  contents : Array String
  /-- The tokens that commits have changed. -/
  touched : List Nat := []
  /-- The texts staged in the open changeset, by token. -/
  staged : Option (List (Nat × String)) := none
  /-- The number of changesets that were committed. -/
  commits : Nat := 0
  /-- The number of changesets that were dropped because they met an earlier commit. -/
  conflicts : Nat := 0
  deriving DecidableEq, Repr

namespace EditBuffer

def ofTokens (ts : Tokens) (enabled : Bool) : EditBuffer where
  enabled := enabled
  contents := ts.items.map (·.content)

/-- The committed text. -/
def text (b : EditBuffer) : String :=
  String.join b.contents.toList

def inChangeset (b : EditBuffer) : Bool :=
  b.staged.isSome

/-- The text of a token as the open changeset would leave it, empty for a token that does not
exist. -/
def current (b : EditBuffer) (i : Nat) : String :=
  ((b.staged.bind (·.lookup i)).or b.contents[i]?).getD ""

/-- Opens a changeset. -/
def openChangeset (b : EditBuffer) : Except EditError EditBuffer :=
  if b.inChangeset then .error .nestedChangeset else .ok { b with staged := some [] }

/-- Sets the staged text of a token. -/
def setStaged (i : Nat) (text : String) : List (Nat × String) → List (Nat × String)
  | [] => [(i, text)]
  | (j, s) :: rest => if j = i then (i, text) :: rest else (j, s) :: setStaged i text rest

/-- Stages an edit, on top of those staged before for the same token. -/
def stage (b : EditBuffer) (e : Edit) : Except EditError EditBuffer :=
  match b.contents[e.index]?, b.staged with
  | none, _ => .error (.outOfRange e.index)
  | some _, none => .error .noChangeset
  | some base, some staged =>
    .ok { b with staged := some (setStaged e.index (e.apply ((staged.lookup e.index).getD base)) staged) }

/-- Puts staged texts into the contents. -/
def applyStaged (contents : Array String) (staged : List (Nat × String)) : Array String :=
  staged.foldl (fun a p => a.setIfInBounds p.1 p.2) contents

/-- Closes the open changeset and tells whether it was committed. -/
def commit (b : EditBuffer) : Except EditError (Bool × EditBuffer) :=
  match b.staged with
  | none => .error .noChangeset
  | some staged =>
    let closed := { b with staged := none }
    if !b.enabled || staged.isEmpty then .ok (false, closed)
    else if staged.any fun p => b.touched.contains p.1 then
      .ok (false, { closed with conflicts := b.conflicts + 1 })
    else .ok (true, { closed with
      contents := applyStaged b.contents staged
      touched := b.touched ++ staged.map (·.1)
      commits := b.commits + 1 })

/-- Drops the open changeset, if there is one. -/
def rollback (b : EditBuffer) : EditBuffer :=
  { b with staged := none }

/-- Runs `body` in a changeset of its own, which is committed when `body` succeeds and dropped
when it fails. -/
def changeset {ε : Type} (lift : EditError → ε) (body : EditBuffer → Except ε Unit × EditBuffer)
    (b : EditBuffer) : Except ε Bool × EditBuffer :=
  match b.openChangeset with
  | .error e => (.error (lift e), b)
  | .ok opened => match body opened with
    | (.error e, after) => (.error e, after.rollback)
    | (.ok (), after) => match after.commit with
      | .error e => (.error (lift e), after)
      | .ok (committed, closed) => (.ok committed, closed)

/-- A step inside a changeset: an edit, or an attempt to open another one. -/
inductive Step where
  | stage (edit : Edit)
  | openChangeset
  deriving DecidableEq, Repr

/-- Takes steps up to the first that fails. -/
def runSteps : List Step → EditBuffer → Except EditError Unit × EditBuffer
  | [], b => (.ok (), b)
  | s :: ss, b =>
    let next := match s with
      | .stage e => b.stage e
      | .openChangeset => b.openChangeset
    match next with
    | .ok b' => runSteps ss b'
    | .error e => (.error e, b)

/-- The operations of the buffer. -/
inductive Op where
  | openChangeset
  | commit
  | rollback
  | stage (edit : Edit)
  | current (index : Nat)
  | changeset (steps : List Step)
  deriving DecidableEq, Repr

inductive Answer where
  | unit
  | committed (value : Bool)
  | text (value : String)
  deriving DecidableEq, Repr

/-- One operation: its answer and the buffer after it. -/
def perform (b : EditBuffer) : Op → Except EditError Answer × EditBuffer
  | .openChangeset => match b.openChangeset with
    | .ok b' => (.ok .unit, b')
    | .error e => (.error e, b)
  | .commit => match b.commit with
    | .ok (committed, b') => (.ok (.committed committed), b')
    | .error e => (.error e, b)
  | .rollback => (.ok .unit, b.rollback)
  | .stage e => match b.stage e with
    | .ok b' => (.ok .unit, b')
    | .error e => (.error e, b)
  | .current i => (.ok (.text (b.current i)), b)
  | .changeset steps => match b.changeset id (runSteps steps) with
    | (.ok committed, b') => (.ok (.committed committed), b')
    | (.error e, b') => (.error e, b')

end EditBuffer

end PhpStyle
