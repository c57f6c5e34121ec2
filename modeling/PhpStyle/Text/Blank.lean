/-!
Blank characters and trimming. A character is blank when it has the Unicode property
White_Space; texts are lists of characters.
-/

namespace PhpStyle.Text

/-- The characters with the Unicode property White_Space. -/
def isBlank (c : Char) : Bool :=
  let n := c.toNat
  (9 ≤ n && n ≤ 13) || n == 32 || n == 0x85 || n == 0xA0 || n == 0x1680 ||
    (0x2000 ≤ n && n ≤ 0x200A) || n == 0x2028 || n == 0x2029 || n == 0x202F || n == 0x205F ||
    n == 0x3000

/-- Drops the longest tail of characters that satisfy `p`. -/
def dropTail (p : Char → Bool) (cs : List Char) : List Char :=
  (cs.reverse.dropWhile p).reverse

def trimStart (cs : List Char) : List Char :=
  cs.dropWhile isBlank

def trimEnd (cs : List Char) : List Char :=
  dropTail isBlank cs

def trim (cs : List Char) : List Char :=
  trimEnd (trimStart cs)

/-- Drops characters satisfying `p` at both ends. -/
def trimBoth (p : Char → Bool) (cs : List Char) : List Char :=
  dropTail p (cs.dropWhile p)

/-- Splits a text at its blanks, leaving no empty word. -/
def words (cs : List Char) : List (List Char) :=
  (cs.splitOnP isBlank).filter (· ≠ [])

theorem dropTail_append_tail (p : Char → Bool) (cs : List Char) :
    dropTail p cs ++ (cs.reverse.takeWhile p).reverse = cs := by
  rw [dropTail, ← List.reverse_append, List.takeWhile_append_dropWhile, List.reverse_reverse]

theorem length_dropTail_le (p : Char → Bool) (cs : List Char) :
    (dropTail p cs).length ≤ cs.length := by
  have h := congrArg List.length (dropTail_append_tail p cs)
  simp only [List.length_append] at h
  omega

theorem length_trimStart_le (cs : List Char) : (trimStart cs).length ≤ cs.length :=
  List.Sublist.length_le (List.dropWhile_sublist _)

end PhpStyle.Text
