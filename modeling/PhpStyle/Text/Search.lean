/-!
Looking for pieces of text, and cutting a text into pieces. Texts are lists of characters; letter
case means the case of ASCII letters.
-/

namespace PhpStyle.Text

def lower (cs : List Char) : List Char :=
  cs.map Char.toLower

/-- Equality up to the case of ASCII letters. -/
def sameLetters (a b : String) : Bool :=
  lower a.toList == lower b.toList

def lowerString (s : String) : String :=
  String.ofList (lower s.toList)

/-- What follows `lead` at the start of a text. -/
def after? : List Char → List Char → Option (List Char)
  | [], cs => some cs
  | _ :: _, [] => none
  | l :: ls, c :: cs => if l = c then after? ls cs else none

def startsWith (lead cs : List Char) : Bool :=
  (after? lead cs).isSome

theorem eq_append_of_after? {lead cs rest : List Char} (h : after? lead cs = some rest) :
    cs = lead ++ rest := by
  induction lead generalizing cs with
  | nil => simp only [after?, Option.some.injEq] at h; rw [h, List.nil_append]
  | cons l ls ih =>
    cases cs with
    | nil => simp [after?] at h
    | cons c cs =>
      rw [after?] at h
      split at h
      · rename_i hc
        rw [hc, ih h, List.cons_append]
      · cases h

theorem exists_eq_append_of_startsWith {lead cs : List Char} (h : startsWith lead cs = true) :
    ∃ rest, cs = lead ++ rest :=
  let ⟨rest, hr⟩ := Option.isSome_iff_exists.1 h
  ⟨rest, eq_append_of_after? hr⟩

theorem length_le_of_startsWith {lead cs : List Char} (h : startsWith lead cs = true) :
    lead.length ≤ cs.length := by
  obtain ⟨rest, rfl⟩ := exists_eq_append_of_startsWith h
  simp

/-- The number of characters before the first occurrence of `piece`. -/
def find? (piece : List Char) : List Char → Option Nat
  | [] => if piece = [] then some 0 else none
  | c :: cs => if startsWith piece (c :: cs) then some 0 else (find? piece cs).map (· + 1)

theorem add_length_le_of_find? {piece cs : List Char} {n : Nat} (h : find? piece cs = some n) :
    n + piece.length ≤ cs.length := by
  induction cs generalizing n with
  | nil =>
    rw [find?] at h
    split at h
    · rename_i hp
      cases h
      simp [hp]
    · cases h
  | cons c cs ih =>
    rw [find?] at h
    split at h
    · rename_i hs
      cases h
      simpa using length_le_of_startsWith hs
    · obtain ⟨m, hm, rfl⟩ := Option.map_eq_some_iff.1 h
      have := ih hm
      simp only [List.length_cons]
      omega

def occurs (piece cs : List Char) : Bool :=
  (find? piece cs).isSome

def endsWith (tail cs : List Char) : Bool :=
  startsWith tail.reverse cs.reverse

/-- The text before and after the first occurrence of `piece`. -/
def cut? (piece cs : List Char) : Option (List Char × List Char) :=
  (find? piece cs).map fun n => (cs.take n, cs.drop (n + piece.length))

/-- Replaces every occurrence of a single character by a text. -/
def replaceChar (c : Char) (by_ : List Char) (cs : List Char) : List Char :=
  cs.flatMap fun d => if d = c then by_ else [d]

/-- Splits at every `c`; there is always at least one piece. -/
def splitAt (c : Char) (cs : List Char) : List (List Char) :=
  cs.splitOnP (· == c)

/-- The lines of a text, each with its line feed; a text that ends in one has no empty last line. -/
def linesKeeping : List Char → List (List Char)
  | [] => []
  | c :: cs =>
    if c = '\n' then [c] :: linesKeeping cs
    else match linesKeeping cs with
      | [] => [[c]]
      | l :: ls => (c :: l) :: ls

/-- A line without its line feed, nor a carriage return just before that. -/
def bareLine (line : List Char) : List Char :=
  match line.reverse with
  | '\n' :: '\r' :: r => r.reverse
  | '\n' :: r => r.reverse
  | _ => line

/-- The lines of a text without their ends. -/
def lines (cs : List Char) : List (List Char) :=
  (linesKeeping cs).map bareLine

/-- The length of a text in UTF-8. -/
def byteLength : List Char → Nat
  | [] => 0
  | c :: cs => c.utf8Size + byteLength cs

def joinWith (sep : List Char) : List (List Char) → List Char
  | [] => []
  | [p] => p
  | p :: ps => p ++ sep ++ joinWith sep ps

theorem linesKeeping_flatten (cs : List Char) : (linesKeeping cs).flatten = cs := by
  induction cs with
  | nil => rfl
  | cons c cs ih =>
    rw [linesKeeping]
    split
    · simp [ih]
    · split
      · rename_i h
        rw [h] at ih
        simpa using ih
      · rename_i h
        rw [h] at ih
        simpa using ih

end PhpStyle.Text
