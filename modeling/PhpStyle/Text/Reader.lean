import PhpStyle.Text.Search

/-!
Readers: functions that take something off the front of a text, or fail.
-/

namespace PhpStyle

/-- Reads a value and leaves the rest of the text. -/
abbrev Reader (α : Type) := StateT (List Char) Option α

namespace Reader

variable {α β : Type}

/-- The next character, which stays. -/
def peek : Reader (Option Char) :=
  fun cs => some (cs.head?, cs)

/-- The text ahead, which stays. -/
def ahead : Reader (List Char) :=
  fun cs => some (cs, cs)

/-- The next character, if it satisfies `p`. -/
def char (p : Char → Bool) : Reader Char
  | c :: cs => if p c then some (c, cs) else none
  | [] => none

/-- Exactly this text. -/
def text (s : String) : Reader Unit :=
  fun cs => (Text.after? s.toList cs).map ((), ·)

/-- The longest run of characters that satisfy `p`, perhaps empty. -/
def run (p : Char → Bool) : Reader (List Char) :=
  fun cs => some (cs.takeWhile p, cs.dropWhile p)

/-- The longest run of characters that satisfy `p`, not empty. -/
def run1 (p : Char → Bool) : Reader (List Char) := do
  let cs ← run p
  guard !cs.isEmpty
  return cs

/-- The first of two readers that succeeds. -/
def orElse (a b : Reader α) : Reader α :=
  fun cs => (a cs).or (b cs)

/-- What `r` reads, if it succeeds. -/
def attempt (r : Reader α) : Reader (Option α) :=
  fun cs => match r cs with
    | some (a, rest) => some (some a, rest)
    | none => some (none, cs)

/-- Reads with `r` for as long as it succeeds and takes something. -/
def many (r : Reader α) (cs : List Char) : Option (List α × List Char) :=
  match r cs with
  | none => some ([], cs)
  | some (a, rest) =>
    if rest.length < cs.length then (many r rest).map fun p => (a :: p.1, p.2) else some ([a], rest)
termination_by cs.length

/-- One or more, with a separator in between. -/
def sepBy1 (r : Reader α) (sep : Reader β) : Reader (List α) := do
  let first ← r
  let rest ← many (do let _ ← sep; r)
  return first :: rest

/-- None or more, with a separator in between. -/
def sepBy (r : Reader α) (sep : Reader β) : Reader (List α) := do
  return (← attempt (sepBy1 r sep)).getD []

/-- Exactly `n` characters that satisfy `p`. -/
def count (n : Nat) (p : Char → Bool) : Reader (List Char) :=
  fun cs =>
    let taken := cs.take n
    if taken.length = n && taken.all p then some (taken, cs.drop n) else none

/-- Reads the whole text. -/
def whole? (r : Reader α) (s : String) : Option α :=
  match r s.toList with
  | some (a, []) => some a
  | _ => none

end Reader

end PhpStyle
