import PhpStyle.DocType.Basic
import PhpStyle.Text.Blank
import PhpStyle.Text.Letter

/-!
Reading doc types. `DocType.parse` never fails and always gives a type whose text is the text
read; `splitType` separates the type at the start of a tag's text from what follows it.
-/

namespace PhpStyle.DocType

open Text

def opens (c : Char) : Bool :=
  c == '<' || c == '\x7b' || c == '(' || c == '['

def closes (c : Char) : Bool :=
  c == '>' || c == '\x7d' || c == ')' || c == ']'

def isQuote (c : Char) : Bool :=
  c == '\x27' || c == '\x22'

/-- Puts a character before the first piece. -/
def prepend (c : Char) : List (List Char) → List (List Char)
  | [] => [[c]]
  | p :: ps => (c :: p) :: ps

/-- Splits a text at each `sep` that lies outside brackets and quotes, given the bracket depth and
the open quote at its start. -/
def splitTop (sep : Char) (depth : Int) (quote : Option Char) : List Char → List (List Char)
  | [] => [[]]
  | c :: cs =>
    match quote with
    | some q => prepend c (splitTop sep depth (if c = q then none else some q) cs)
    | none =>
      if isQuote c then prepend c (splitTop sep depth (some c) cs)
      else if opens c then prepend c (splitTop sep (depth + 1) none cs)
      else if closes c then prepend c (splitTop sep (depth - 1) none cs)
      else if c = sep && depth = 0 then [] :: splitTop sep 0 none cs
      else prepend c (splitTop sep depth none cs)

theorem length_le_of_mem_prepend {c : Char} {ps : List (List Char)} {n : Nat}
    (h : ∀ p ∈ ps, p.length ≤ n) : ∀ p ∈ prepend c ps, p.length ≤ n + 1 := by
  cases ps with
  | nil => simp [prepend]
  | cons q qs =>
    intro p hp
    rcases List.mem_cons.1 hp with rfl | hp
    · have := h q (List.mem_cons_self ..)
      simpa using this
    · have := h p (List.mem_cons_of_mem _ hp)
      omega

theorem length_le_of_mem_splitTop {sep : Char} {cs : List Char} :
    ∀ {depth : Int} {quote : Option Char},
      ∀ p ∈ splitTop sep depth quote cs, p.length ≤ cs.length := by
  induction cs with
  | nil => intro depth quote p hp; simp [splitTop] at hp; simp [hp]
  | cons c cs ih =>
    intro depth quote p hp
    have step : ∀ {d q}, p ∈ prepend c (splitTop sep d q cs) → p.length ≤ cs.length + 1 :=
      fun h => length_le_of_mem_prepend (fun _ hq => ih _ hq) p h
    rw [List.length_cons]
    cases quote with
    | some q => rw [splitTop] at hp; exact step hp
    | none =>
      rw [splitTop] at hp
      split at hp
      · exact step hp
      split at hp
      · exact step hp
      split at hp
      · exact step hp
      split at hp
      · rcases List.mem_cons.1 hp with rfl | hp
        · simp
        · have := ih p hp
          omega
      · exact step hp

/-- Whether a text is a type name: letters, numerals, underscores, backslashes and hyphens, no
numeral or hyphen first; one dollar sign may stand before it. -/
def isTypeName (cs : List Char) : Bool :=
  match (if cs.head? = some '$' then cs.tail else cs) with
  | [] => false
  | c :: cs => (isLetter c || c == '_' || c == '\\') &&
      cs.all fun d => isLetterOrNumeral d || d == '_' || d == '\\' || d == '-'

/-- Whether brackets close in a text that starts at depth `depth`, never more than were opened. -/
def balanced (depth : Nat) : List Char → Bool
  | [] => depth = 0
  | c :: cs =>
    if opens c then balanced (depth + 1) cs
    else if closes c then 0 < depth && balanced (depth - 1) cs
    else balanced depth cs

/-- Where the bracket closes that was opened at depth one. -/
def closeIndex? (depth : Nat) : List Char → Option Nat
  | [] => none
  | c :: cs =>
    if opens c then (closeIndex? (depth + 1) cs).map (· + 1)
    else if closes c then if depth = 1 then some 0 else (closeIndex? (depth - 1) cs).map (· + 1)
    else (closeIndex? depth cs).map (· + 1)

/-- Whether the bracket that opens at the start of a text closes at its end. -/
def encloses (cs : List Char) : Bool :=
  closeIndex? 0 cs = some (cs.length - 1)

/-- The inside of an array type. -/
def arrayElement? (cs : List Char) : Option (List Char) :=
  let inner := cs.take (cs.length - 2)
  if cs.drop (cs.length - 2) = ['[', ']'] && !inner.isEmpty && balanced 0 inner then some inner
  else none

/-- The inside of a text in parentheses. -/
def parenthesized? (cs : List Char) : Option (List Char) :=
  if cs.head? = some '(' && cs.getLast? = some ')' && encloses cs then
    some ((cs.drop 1).take (cs.length - 2))
  else none

/-- The base and the inside of a generic type. -/
def genericParts? (cs : List Char) : Option (List Char × List Char) :=
  let base := cs.takeWhile (· ≠ '<')
  let rest := cs.drop base.length
  if isTypeName base && rest.getLast? = some '>' && encloses rest then
    some (base, (rest.drop 1).take (rest.length - 2))
  else none

theorem length_arrayElement? {cs inner : List Char} (h : arrayElement? cs = some inner) :
    inner.length + 2 = cs.length := by
  unfold arrayElement? at h
  simp only at h
  split at h
  · rename_i hc
    simp only [Bool.and_eq_true, decide_eq_true_eq] at hc
    have hlength := congrArg List.length hc.1.1
    cases h
    simp only [List.length_drop, List.length_cons, List.length_nil] at hlength
    rw [List.length_take]
    omega
  · cases h

theorem two_le_length {cs : List Char} {o c : Char} (hhead : cs.head? = some o)
    (hlast : cs.getLast? = some c) (hne : o ≠ c) : 2 ≤ cs.length := by
  match cs with
  | [] => cases hhead
  | [d] =>
    cases hhead
    cases hlast
    exact absurd rfl hne
  | _ :: _ :: cs => simp

theorem length_parenthesized? {cs inner : List Char} (h : parenthesized? cs = some inner) :
    inner.length + 2 = cs.length := by
  unfold parenthesized? at h
  split at h
  · rename_i hc
    simp only [Bool.and_eq_true, decide_eq_true_eq] at hc
    have hlength := two_le_length hc.1.1 hc.1.2 (by decide)
    cases h
    rw [List.length_take, List.length_drop]
    omega
  · cases h

theorem length_genericParts? {cs base inner : List Char} (h : genericParts? cs = some (base, inner)) :
    base.length + inner.length + 2 = cs.length := by
  unfold genericParts? at h
  simp only at h
  split at h
  · rename_i hc
    simp only [Bool.and_eq_true, decide_eq_true_eq] at hc
    have hdrop : cs.drop (cs.takeWhile (· ≠ '<')).length = cs.dropWhile (· ≠ '<') := by
      have hparts := @List.drop_left _ (cs.takeWhile (· ≠ '<')) (cs.dropWhile (· ≠ '<'))
      rwa [List.takeWhile_append_dropWhile] at hparts
    rw [hdrop] at h hc
    have hhead : (cs.dropWhile (· ≠ '<')).head? = some '<' := by
      cases hrest : cs.dropWhile (· ≠ '<') with
      | nil =>
        rw [hrest] at hc
        simp at hc
      | cons c rest =>
        have hfirst := List.head?_dropWhile_not (· ≠ '<') cs
        rw [hrest] at hfirst
        simpa using hfirst
    have hlength := two_le_length hhead hc.1.2 (by decide)
    have htotal := congrArg List.length (cs.takeWhile_append_dropWhile (p := (· ≠ '<')))
    rw [List.length_append] at htotal
    cases h
    rw [List.length_take, List.length_drop]
    omega
  · cases h

theorem length_arrayElement?_lt {cs inner : List Char} (h : arrayElement? cs = some inner) :
    inner.length < cs.length := by
  have := length_arrayElement? h
  omega

theorem length_parenthesized?_lt {cs inner : List Char} (h : parenthesized? cs = some inner) :
    inner.length < cs.length := by
  have := length_parenthesized? h
  omega

theorem length_genericParts?_lt {cs base inner : List Char}
    (h : genericParts? cs = some (base, inner)) : inner.length < cs.length := by
  have := length_genericParts? h
  omega

mutual

def parseUnion (cs : List Char) : DocType :=
  let parts := splitTop '|' 0 none cs
  if 1 < parts.length then
    .union (parts.attach.map fun p => parseIntersection p.1)
  else parseIntersection cs
termination_by 3 * cs.length + 2
decreasing_by
  · have := length_le_of_mem_splitTop p.1 p.2
    omega
  · omega

def parseIntersection (cs : List Char) : DocType :=
  let parts := splitTop '&' 0 none cs
  if 1 < parts.length then
    .intersection (parts.attach.map fun p => parseAtom p.1)
  else parseAtom cs
termination_by 3 * cs.length + 1
decreasing_by
  · have := length_le_of_mem_splitTop p.1 p.2
    omega
  · omega

def parseAtom (cs : List Char) : DocType :=
  match cs with
  | '?' :: rest => .nullable (parseAtom rest)
  | cs =>
    match _ha : arrayElement? cs with
    | some inner => .array (parseAtom inner)
    | none => match _hp : parenthesized? cs with
      | some inner => .paren (parseUnion inner)
      | none => match _hg : genericParts? cs with
        | some (base, inner) =>
          let parts := splitTop ',' 0 none inner
          .generic (String.ofList base) (parts.attach.map fun p => parseUnion (trimStart p.1))
            (parts.tail.map fun p => String.ofList (',' :: p.takeWhile isBlank))
        | none =>
          if isTypeName cs then .name (String.ofList cs) else .verbatim (String.ofList cs)
termination_by 3 * cs.length
decreasing_by
  · simp only [List.length_cons]
    omega
  · have := length_arrayElement?_lt _ha
    omega
  · have := length_parenthesized?_lt _hp
    omega
  · have := length_genericParts?_lt _hg
    have := length_le_of_mem_splitTop p.1 p.2
    have := length_trimStart_le p.1
    omega

end

/-- Reads a type. A text that would not be written back as it stands is kept verbatim. -/
def parseChars (cs : List Char) : DocType :=
  let t := parseUnion cs
  if t.chars = cs then t else .verbatim (String.ofList cs)

def parse (s : String) : DocType :=
  parseChars s.toList

theorem chars_parseChars (cs : List Char) : (parseChars cs).chars = cs := by
  unfold parseChars
  simp only
  split
  · assumption
  · simp [chars]

/-- A tag's text cut after the type at its start. -/
structure Split where
  typeText : List Char
  rest : List Char
  /-- The bracket depth at the cut: positive when brackets are still open, negative after a
  closer too many. -/
  depth : Int
  deriving DecidableEq, Repr

/-- The number of characters of the type at the start of a text, and the bracket depth after it.
`before` holds the characters before the text, nearest first. A blank outside brackets ends the
type, unless it follows the colon of a callable's return type, as in `callable(int): void`. -/
def typeLength (depth : Int) (quote : Option Char) (before : List Char) :
    List Char → Nat × Int
  | [] => (0, depth)
  | c :: cs =>
    let continued (r : Nat × Int) : Nat × Int := (r.1 + 1, r.2)
    match quote with
    | some q => continued (typeLength depth (if c = q then none else some q) (c :: before) cs)
    | none =>
      if isQuote c then continued (typeLength depth (some c) (c :: before) cs)
      else if opens c then continued (typeLength (depth + 1) none (c :: before) cs)
      else if closes c then
        if depth ≤ 0 then (1, depth - 1)
        else continued (typeLength (depth - 1) none (c :: before) cs)
      else if isBlank c && depth = 0 then
        if before.take 2 = [':', ')'] then continued (typeLength depth none before cs)
        else (0, depth)
      else continued (typeLength depth none (c :: before) cs)

/-- Cuts a tag's text after the type at its start. -/
def splitType (cs : List Char) : Split :=
  let r := typeLength 0 none [] cs
  ⟨cs.take r.1, cs.drop r.1, r.2⟩

end PhpStyle.DocType
