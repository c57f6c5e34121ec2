/-!
Edits of token texts. An edit names a token and says how its text changes.
-/

namespace PhpStyle

inductive Edit where
  | replace (index : Nat) (text : String)
  | insertBefore (index : Nat) (text : String)
  | insertAfter (index : Nat) (text : String)
  deriving DecidableEq, Repr, Inhabited

namespace Edit

/-- Removal leaves the token with an empty text. -/
def remove (index : Nat) : Edit :=
  replace index ""

def index : Edit → Nat
  | replace i _ | insertBefore i _ | insertAfter i _ => i

/-- The text of the token after the edit. -/
def apply : Edit → String → String
  | replace _ s, _ => s
  | insertBefore _ s, current => s ++ current
  | insertAfter _ s, current => current ++ s

end Edit

/-- Misuse of changesets. -/
inductive EditError where
  /-- A changeset was opened while one was open. -/
  | nestedChangeset
  /-- An edit or a commit without an open changeset. -/
  | noChangeset
  /-- An edit of a token that does not exist. -/
  | outOfRange (index : Nat)
  deriving DecidableEq, Repr

def EditError.message : EditError → String
  | nestedChangeset => "a changeset is already open"
  | noChangeset => "no changeset is open"
  | outOfRange i => "token index " ++ toString i ++ " is out of range"

end PhpStyle
