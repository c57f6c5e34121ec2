import PhpStyle.Text.Blank
import PhpStyle.Text.Search
import PhpStyle.Token.Basic

/-!
Cutting source text into lexemes. The lexer looks at the rest of the text, chooses a kind and a
number of characters, takes that many characters off the front and goes on; a text that starts no
known lexeme gives one of kind `unknown`, so that lexing never fails. Every lexeme takes at least
one character.

Outside tags the text is HTML. Inside a doc comment the lexemes are the pieces of its lines.
-/

namespace PhpStyle

open Text

/-- Characters that may start a name: ASCII letters, the underscore, all that is not ASCII. -/
def isNameStart (c : Char) : Bool :=
  c.isAlpha || c == '_' || 0x80 ≤ c.toNat

def isNameChar (c : Char) : Bool :=
  c.isAlphanum || c == '_' || 0x80 ≤ c.toNat

namespace Lexer

/-- What kind of text is being read. In a doc comment: whether the line has begun and a star may
follow, and whether the line already holds a tag or some text. -/
inductive Mode where
  | html
  | php
  | doc (lineStart hasText : Bool)
  deriving DecidableEq, Repr

/-- Where the next lexeme ends, what it is, and how to read on. -/
structure Cut where
  kind : Kind
  length : Nat
  mode : Mode
  deriving DecidableEq, Repr

/-- The lexeme takes at least one of the characters ahead, and no more than there are. -/
structure Cut.Fits (c : Cut) (cs : List Char) : Prop where
  pos : 0 < c.length
  le : c.length ≤ cs.length

theorem length_takeWhile_le (p : Char → Bool) (cs : List Char) :
    (cs.takeWhile p).length ≤ cs.length :=
  (List.takeWhile_sublist p).length_le

/-! ### HTML -/

/-- The length of the opening tag at the start of a text. -/
def openTagLength? (cs : List Char) : Option Nat :=
  if lower (cs.take 5) = "<?php".toList then some 5
  else if startsWith "<?=".toList cs then some 3
  else none

/-- The number of characters before the first opening tag. -/
def htmlLength : List Char → Nat
  | [] => 0
  | c :: cs => if (openTagLength? (c :: cs)).isSome then 0 else htmlLength cs + 1

def cutHtml (cs : List Char) : Cut :=
  match openTagLength? cs with
  | some n => ⟨.openTag, n, .php⟩
  | none => ⟨.html, htmlLength cs, .html⟩

theorem openTagLength?_bounds {cs : List Char} {n : Nat} (h : openTagLength? cs = some n) :
    0 < n ∧ n ≤ cs.length := by
  unfold openTagLength? at h
  split at h
  · rename_i hl
    cases h
    have hlen := congrArg List.length hl
    simp only [lower, List.length_map, List.length_take] at hlen
    refine ⟨by decide, ?_⟩
    change min 5 cs.length = 5 at hlen
    omega
  · split at h
    · rename_i hs
      cases h
      exact ⟨by decide, length_le_of_startsWith hs⟩
    · cases h

theorem htmlLength_le (cs : List Char) : htmlLength cs ≤ cs.length := by
  induction cs with
  | nil => exact Nat.le_refl 0
  | cons c cs ih =>
    rw [htmlLength]
    split
    · exact Nat.zero_le _
    · exact Nat.succ_le_succ ih

theorem htmlLength_pos {c : Char} {cs : List Char} (h : openTagLength? (c :: cs) = none) :
    0 < htmlLength (c :: cs) := by
  simp [htmlLength, h]

theorem cutHtml_fits (c : Char) (cs : List Char) : (cutHtml (c :: cs)).Fits (c :: cs) := by
  unfold cutHtml
  split
  · rename_i h
    exact ⟨(openTagLength?_bounds h).1, (openTagLength?_bounds h).2⟩
  · rename_i h
    exact ⟨htmlLength_pos h, htmlLength_le _⟩

/-! ### Doc comments -/

/-- The characters before the end of the line and before the end of the comment. -/
def docLine : List Char → List Char
  | [] => []
  | c :: cs => if c = '\n' || startsWith "*/".toList (c :: cs) then [] else c :: docLine cs

def isTagStart (c : Char) : Bool :=
  c.isAlpha || c == '\\'

def isTagChar (c : Char) : Bool :=
  c.isAlphanum || c == '_' || c == '-' || c == '\\' || c == ':'

/-- A piece of text in a doc comment: the rest of the line without the blanks at its end, or one
character when all of it is blank. -/
def docTextLength (cs : List Char) : Nat :=
  max 1 (trimEnd (docLine cs)).length

/-- A star counts as decoration only as the first mark of a line after the first; a tag only as
the first thing of a line apart from blanks and that star. -/
def cutDoc (lineStart hasText : Bool) (cs : List Char) : Cut :=
  match cs with
  | '*' :: '/' :: _ => ⟨.docClose, 2, .php⟩
  | '\n' :: _ => ⟨.docBlank, 1, .doc true false⟩
  | '\r' :: '\n' :: _ => ⟨.docBlank, 2, .doc true false⟩
  | '\r' :: _ => ⟨.docBlank, 1, .doc lineStart hasText⟩
  | c :: rest =>
    if c = ' ' || c = '\t' then
      ⟨.docBlank, (cs.takeWhile fun d => d = ' ' || d = '\t').length, .doc lineStart hasText⟩
    else if c = '*' && lineStart then ⟨.docStar, 1, .doc false hasText⟩
    else if c = '@' && !hasText && rest.head?.any isTagStart then
      ⟨.docTag, 1 + (rest.takeWhile isTagChar).length, .doc false true⟩
    else ⟨.docText, docTextLength cs, .doc false true⟩
  | [] => ⟨.docText, 0, .doc lineStart hasText⟩

theorem length_docLine_le (cs : List Char) : (docLine cs).length ≤ cs.length := by
  induction cs with
  | nil => exact Nat.le_refl 0
  | cons c cs ih =>
    rw [docLine]
    split
    · exact Nat.zero_le _
    · exact Nat.succ_le_succ ih

theorem docTextLength_bounds (c : Char) (cs : List Char) :
    0 < docTextLength (c :: cs) ∧ docTextLength (c :: cs) ≤ (c :: cs).length := by
  have htrim := length_dropTail_le isBlank (docLine (c :: cs))
  have hline := length_docLine_le (c :: cs)
  simp only [docTextLength, trimEnd, List.length_cons] at *
  omega

theorem cutDoc_fits (lineStart hasText : Bool) (c : Char) (cs : List Char) :
    (cutDoc lineStart hasText (c :: cs)).Fits (c :: cs) := by
  unfold cutDoc
  split
  case h_5 d rest _ _ _ _ heq =>
    obtain ⟨rfl, rfl⟩ := List.cons.inj heq
    split
    · rename_i hb
      refine ⟨?_, length_takeWhile_le _ _⟩
      simp only [List.takeWhile_cons]
      rw [show (decide (c = ' ') || decide (c = '\t')) = true from hb]
      exact Nat.succ_pos _
    split
    · exact ⟨Nat.succ_pos _, Nat.succ_le_succ (Nat.zero_le _)⟩
    split
    · have := length_takeWhile_le isTagChar cs
      exact ⟨by simp only; omega, by simp only [List.length_cons]; omega⟩
    · exact ⟨(docTextLength_bounds c cs).1, (docTextLength_bounds c cs).2⟩
  case h_6 heq => cases heq
  all_goals
    rename_i heq
    rw [heq]
    exact ⟨by simp, by simp⟩

/-! ### Literals and comments -/

/-- A run of blanks, up to and including the first line feed. -/
def blankLength : List Char → Nat
  | [] => 0
  | c :: cs =>
    if c = '\n' then 1
    else if c = ' ' || c = '\t' || c = '\r' then blankLength cs + 1
    else 0

theorem blankLength_le (cs : List Char) : blankLength cs ≤ cs.length := by
  induction cs with
  | nil => exact Nat.le_refl 0
  | cons c cs ih =>
    rw [blankLength]
    split
    · exact Nat.succ_le_succ (Nat.zero_le _)
    split
    · exact Nat.succ_le_succ ih
    · exact Nat.zero_le _

/-- A comment to the end of the line: it stops before a closing tag, and a carriage return at its
end is not part of it. -/
def lineCommentLength (cs : List Char) : Nat :=
  let line := cs.takeWhile (· ≠ '\n')
  let body := line.take ((find? "?>".toList line).getD line.length)
  if body.getLast? = some '\r' then body.length - 1 else body.length

/-- A comment keeps at least its first mark, which neither ends a line nor starts a closing tag. -/
theorem lineCommentLength_bounds {c : Char} (cs : List Char) (hn : c ≠ '\n') (hq : c ≠ '?')
    (hr : c ≠ '\r') :
    0 < lineCommentLength (c :: cs) ∧ lineCommentLength (c :: cs) ≤ (c :: cs).length := by
  have hline : (c :: cs).takeWhile (· ≠ '\n') = c :: cs.takeWhile (· ≠ '\n') := by
    simp [hn]
  have hlen := length_takeWhile_le (· ≠ '\n') cs
  have hfind : ∃ k, (find? "?>".toList (c :: cs.takeWhile (· ≠ '\n'))).getD
      (c :: cs.takeWhile (· ≠ '\n')).length = k + 1 := by
    have hs : startsWith "?>".toList (c :: cs.takeWhile (· ≠ '\n')) = false := by
      simp [startsWith, after?, Ne.symm hq]
    rw [find?, hs]
    cases find? "?>".toList (cs.takeWhile (· ≠ '\n')) <;> simp
  obtain ⟨k, hk⟩ := hfind
  unfold lineCommentLength
  simp only [hline, hk]
  simp only [List.take_succ_cons, List.length_cons, List.length_take]
  split
  · rename_i hlast
    have : (cs.takeWhile (· ≠ '\n')).take k ≠ [] := by
      intro hnil
      rw [hnil] at hlast
      exact hr (Option.some.inj hlast)
    have := List.length_pos_iff.2 this
    rw [List.length_take] at this
    omega
  · omega

def blockCommentLength (cs : List Char) : Nat :=
  match find? "*/".toList (cs.drop 2) with
  | some n => n + 4
  | none => cs.length

theorem blockCommentLength_bounds {cs : List Char} (h : 2 ≤ cs.length) :
    0 < blockCommentLength cs ∧ blockCommentLength cs ≤ cs.length := by
  unfold blockCommentLength
  split
  · rename_i n hn
    have := add_length_le_of_find? hn
    rw [List.length_drop] at this
    change n + 2 ≤ cs.length - 2 at this
    omega
  · omega

/-- What follows the opening quote, through the closing one; a backslash hides the character after
it. -/
def quotedTail (quote : Char) : List Char → Nat
  | [] => 0
  | '\\' :: _ :: cs => quotedTail quote cs + 2
  | c :: cs => if c = quote then 1 else quotedTail quote cs + 1

theorem quotedTail_le (quote : Char) (cs : List Char) : quotedTail quote cs ≤ cs.length := by
  fun_induction quotedTail quote cs with
  | case1 => exact Nat.le_refl 0
  | case2 c cs ih => simp only [List.length_cons]; omega
  | case3 cs _ => simp only [List.length_cons]; omega
  | case4 c cs _ _ ih => simp only [List.length_cons]; omega

/-- The lines of a heredoc through the first that starts, apart from blanks, with the label; all
of them when there is none. -/
def heredocTail (label : List Char) : List (List Char) → Nat
  | [] => 0
  | line :: lines =>
    let text := trimStart line
    match after? label text with
    | some rest =>
      if rest.head?.any isNameChar then line.length + heredocTail label lines
      else (line.length - text.length) + label.length
    | none => line.length + heredocTail label lines

theorem heredocTail_le (label : List Char) (lines : List (List Char)) :
    heredocTail label lines ≤ lines.flatten.length := by
  induction lines with
  | nil => exact Nat.zero_le _
  | cons line lines ih =>
    simp only [heredocTail, List.flatten_cons, List.length_append]
    split
    · rename_i rest h
      have := congrArg List.length (eq_append_of_after? h)
      rw [List.length_append] at this
      have := length_trimStart_le line
      split <;> omega
    · omega

def isQuoteMark (c : Char) : Bool :=
  c == '\x27' || c == '\x22'

/-- The length of the heredoc at the start of a text: its first line must hold a label and nothing
else. -/
def heredocLength? (cs : List Char) : Option Nat :=
  let header := cs.takeWhile (· ≠ '\n')
  let label := trimBoth isQuoteMark (trim (header.drop 3))
  if header.length = cs.length || label.isEmpty || !label.all isNameChar then none
  else some (header.length + 1 + heredocTail label (linesKeeping (cs.drop (header.length + 1))))

theorem heredocLength?_bounds {cs : List Char} {n : Nat} (h : heredocLength? cs = some n) :
    0 < n ∧ n ≤ cs.length := by
  unfold heredocLength? at h
  simp only at h
  split at h
  · cases h
  · rename_i hc
    cases h
    simp only [Bool.or_eq_true, decide_eq_true_eq, not_or] at hc
    have hhead := length_takeWhile_le (· ≠ '\n') cs
    have hne := hc.1.1
    have htail := heredocTail_le (trimBoth isQuoteMark (trim ((cs.takeWhile (· ≠ '\n')).drop 3)))
      (linesKeeping (cs.drop ((cs.takeWhile (· ≠ '\n')).length + 1)))
    rw [linesKeeping_flatten, List.length_drop] at htail
    omega

def isDigitOrBar (c : Char) : Bool :=
  c.isDigit || c == '_'

def isHexOrBar (c : Char) : Bool :=
  c.isDigit || ('a' ≤ c && c ≤ 'f') || ('A' ≤ c && c ≤ 'F') || c == '_'

/-- A fraction: a point and digits, the first of them no bar. -/
def fractionLength : List Char → Nat
  | '.' :: d :: cs => if d.isDigit then 2 + (cs.takeWhile isDigitOrBar).length else 0
  | _ => 0

/-- An exponent: its mark, perhaps a sign, at least one digit. -/
def exponentLength : List Char → Nat
  | [] => 0
  | e :: cs =>
    if e = 'e' || e = 'E' then
      let sign := if cs.head? = some '+' || cs.head? = some '-' then 1 else 0
      let digits := ((cs.drop sign).takeWhile Char.isDigit).length
      if digits = 0 then 0 else 1 + sign + digits
    else 0

theorem fractionLength_le (cs : List Char) : fractionLength cs ≤ cs.length := by
  unfold fractionLength
  split
  · rename_i d cs
    have := length_takeWhile_le isDigitOrBar cs
    simp only [List.length_cons]
    split <;> omega
  · exact Nat.zero_le _

theorem exponentLength_le (cs : List Char) : exponentLength cs ≤ cs.length := by
  unfold exponentLength
  split
  · exact Nat.zero_le _
  · rename_i e cs
    simp only [List.length_cons]
    split
    · generalize hsign : (if cs.head? = some '+' || cs.head? = some '-' then 1 else 0) = sign
      have := length_takeWhile_le Char.isDigit (cs.drop sign)
      rw [List.length_drop] at this
      split <;> omega
    · omega

def cutDecimal (cs : List Char) : Cut :=
  let whole := (cs.takeWhile isDigitOrBar).length
  let fraction := fractionLength (cs.drop whole)
  let exponent := exponentLength (cs.drop (whole + fraction))
  ⟨if fraction = 0 && exponent = 0 then .integer else .float, whole + fraction + exponent, .php⟩

/-- A number starts with a digit, or with a point and a digit. -/
theorem cutDecimal_fits {c : Char} {cs : List Char}
    (h : (c.isDigit || (c = '.' && cs.head?.any Char.isDigit)) = true) :
    (cutDecimal (c :: cs)).Fits (c :: cs) := by
  have hwhole := length_takeWhile_le isDigitOrBar (c :: cs)
  have hfrac := fractionLength_le ((c :: cs).drop ((c :: cs).takeWhile isDigitOrBar).length)
  have hexp := exponentLength_le ((c :: cs).drop (((c :: cs).takeWhile isDigitOrBar).length +
    fractionLength ((c :: cs).drop ((c :: cs).takeWhile isDigitOrBar).length)))
  rw [List.length_drop] at hfrac hexp
  refine ⟨?_, by simp only [cutDecimal]; omega⟩
  rcases Bool.or_eq_true_iff.1 h with hd | hd
  · have : 0 < ((c :: cs).takeWhile isDigitOrBar).length := by
      simp [isDigitOrBar, hd]
    simp only [cutDecimal]
    omega
  · simp only [Bool.and_eq_true, decide_eq_true_eq] at hd
    obtain ⟨rfl, hd⟩ := hd
    cases cs with
    | nil => simp at hd
    | cons d cs =>
      have hd : d.isDigit = true := hd
      have hnone : ('.' :: d :: cs).takeWhile isDigitOrBar = [] := rfl
      simp only [cutDecimal, hnone, List.length_nil, List.drop_zero, fractionLength, hd, if_true]
      omega

def isRadixMark (c : Char) : Bool :=
  c == 'x' || c == 'X' || c == 'b' || c == 'B' || c == 'o' || c == 'O'

def cutNumber : List Char → Cut
  | '0' :: m :: cs =>
    if isRadixMark m then ⟨.integer, 2 + (cs.takeWhile isHexOrBar).length, .php⟩
    else cutDecimal ('0' :: m :: cs)
  | cs => cutDecimal cs

theorem cutNumber_fits {c : Char} {cs : List Char}
    (h : (c.isDigit || (c = '.' && cs.head?.any Char.isDigit)) = true) :
    (cutNumber (c :: cs)).Fits (c :: cs) := by
  unfold cutNumber
  split
  · rename_i m ds heq
    rw [heq]
    obtain ⟨rfl, rfl⟩ := List.cons.inj heq
    split
    · have := length_takeWhile_le isHexOrBar ds
      exact ⟨by simp only; omega, by simp only [List.length_cons]; omega⟩
    · exact cutDecimal_fits h
  · exact cutDecimal_fits h

/-- The types that a cast may name, in any letter case. -/
def castTypes : List String :=
  ["int", "integer", "bool", "boolean", "float", "double", "real", "string", "binary", "array",
   "object", "unset", "void"]

/-- The length of a cast such as `(int)` or `( void )`. -/
def castLength? (cs : List Char) : Option Nat :=
  let isGap := fun c => c == ' ' || c == '\t'
  let lead := ((cs.drop 1).takeWhile isGap).length
  let word := (cs.drop (1 + lead)).takeWhile Char.isAlpha
  let rest := cs.drop (1 + lead + word.length)
  let gap := (rest.takeWhile isGap).length
  if castTypes.contains (String.ofList (lower word)) && (rest.drop gap).head? = some ')' then
    some (lead + word.length + gap + 2)
  else none

theorem castLength?_bounds {cs : List Char} {n : Nat} (h : castLength? cs = some n) :
    0 < n ∧ n ≤ cs.length := by
  unfold castLength? at h
  simp only at h
  split at h
  · rename_i hc
    cases h
    simp only [Bool.and_eq_true, decide_eq_true_eq] at hc
    -- the closing parenthesis stands after the gap, so the text reaches past it
    have hpos := List.length_pos_iff.2 (List.ne_nil_of_mem (List.mem_of_head? hc.2))
    simp only [List.length_drop] at hpos
    omega
  · cases h

/-! ### Words and operators -/

/-- Name characters, with single backslashes between segments. -/
def nameLength : List Char → Nat
  | [] => 0
  | '\\' :: c :: cs => if isNameStart c then nameLength (c :: cs) + 1 else 0
  | c :: cs => if isNameChar c then nameLength cs + 1 else 0

theorem nameLength_le (cs : List Char) : nameLength cs ≤ cs.length := by
  fun_induction nameLength cs with
  | case1 => exact Nat.le_refl 0
  | case2 c cs _ ih => simp only [List.length_cons] at *; omega
  | case3 => exact Nat.zero_le _
  | case4 c cs _ _ ih => simp only [List.length_cons]; omega
  | case5 => exact Nat.zero_le _

/-- The reserved words and their kinds; letter case does not matter. -/
def keywords : List (String × Kind) :=
  [("function", .kwFunction), ("fn", .kwFn), ("class", .kwClass), ("interface", .kwInterface),
   ("trait", .kwTrait), ("case", .kwCase), ("extends", .kwExtends),
   ("implements", .kwImplements), ("abstract", .kwAbstract), ("final", .kwFinal),
   ("public", .kwPublic), ("protected", .kwProtected), ("private", .kwPrivate),
   ("static", .kwStatic), ("readonly", .kwReadonly), ("var", .kwVar), ("const", .kwConst),
   ("return", .kwReturn), ("namespace", .kwNamespace), ("use", .kwUse), ("new", .kwNew),
   ("if", .kwIf), ("elseif", .kwElseif), ("else", .kwElse), ("while", .kwWhile), ("for", .kwFor),
   ("foreach", .kwForeach), ("switch", .kwSwitch), ("match", .kwMatch), ("try", .kwTry),
   ("catch", .kwCatch), ("finally", .kwFinally), ("array", .kwArray), ("true", .litTrue),
   ("false", .litFalse), ("null", .litNull), ("and", .logicalAnd), ("or", .logicalOr),
   ("xor", .logicalXor), ("instanceof", .kwInstanceof)]

/-- Whether a word after a token of this kind is a member's or a function's name. -/
def namesMember : Option Kind → Bool
  | some .arrow | some .doubleColon | some .kwFunction => true
  | _ => false

/-- The kind of a word without backslashes. `enum` is reserved only before a name. -/
def wordKind (last : Option Kind) (word rest : List Char) : Kind :=
  let w := String.ofList (lower word)
  if namesMember last then .name
  else if w = "enum" then
    if (trimStart rest).head?.any isNameStart then .kwEnum else .name
  else (keywords.lookup w).getD .name

/-- The length of a name that may start with a backslash. -/
def wordLength : List Char → Nat
  | '\\' :: cs => if nameLength cs = 0 then 0 else nameLength cs + 1
  | cs => nameLength cs

theorem wordLength_le (cs : List Char) : wordLength cs ≤ cs.length := by
  unfold wordLength
  split
  · rename_i cs
    have := nameLength_le cs
    split
    · exact Nat.zero_le _
    · exact Nat.succ_le_succ this
  · exact nameLength_le _

/-- A name, a keyword, or a lone backslash. -/
def cutWord (last : Option Kind) (cs : List Char) : Cut :=
  let n := wordLength cs
  let word := cs.take n
  if n = 0 then ⟨.unknown, 1, .php⟩
  else if word.contains '\\' then ⟨.name, n, .php⟩
  else ⟨wordKind last word (cs.drop n), n, .php⟩

theorem cutWord_fits (last : Option Kind) (c : Char) (cs : List Char) :
    (cutWord last (c :: cs)).Fits (c :: cs) := by
  have hle := wordLength_le (c :: cs)
  unfold cutWord
  simp only
  split
  · exact ⟨Nat.succ_pos 0, Nat.succ_le_succ (Nat.zero_le _)⟩
  · rename_i hpos
    split <;> exact ⟨Nat.pos_of_ne_zero hpos, hle⟩

/-- The operators of several characters, longer ones first. -/
def operators : List (String × Kind) :=
  [("<=>", .operator), ("===", .identical), ("!==", .notIdentical), ("**=", .operator),
   ("...", .ellipsis), ("<<=", .operator), (">>=", .operator), ("??=", .operator),
   ("?->", .arrow), ("==", .equal), ("!=", .notEqual), ("<>", .notEqual), ("<=", .operator),
   (">=", .operator), ("&&", .booleanAnd), ("||", .booleanOr), ("??", .operator), ("->", .arrow),
   ("=>", .doubleArrow), ("::", .doubleColon), ("++", .operator), ("--", .operator),
   ("+=", .operator), ("-=", .operator), ("*=", .operator), ("/=", .operator), (".=", .operator),
   ("%=", .operator), ("&=", .operator), ("|=", .operator), ("^=", .operator), ("**", .operator),
   ("<<", .operator), (">>", .operator)]

/-- Whether a type may follow a token of this kind. -/
def precedesType : Option Kind → Bool
  | some .openParen | some .comma | some .colon | some .kwPublic | some .kwProtected
  | some .kwPrivate | some .kwStatic | some .kwReadonly | some .kwVar | some .kwConst
  | some .closeAttribute => true
  | _ => false

/-- ASCII punctuation. -/
def isPunctuation (c : Char) : Bool :=
  let n := c.toNat
  (33 ≤ n && n ≤ 47) || (58 ≤ n && n ≤ 64) || (91 ≤ n && n ≤ 96) || (123 ≤ n && n ≤ 126)

/-- The kind of an operator of one character, with what follows it. A question mark in front of a
type marks it as nullable. -/
def signKind (last : Option Kind) (c : Char) (rest : List Char) : Kind :=
  if c = '=' then .assign
  else if c = '|' then .bitwiseOr
  else if c = '&' then .bitwiseAnd
  else if c = ':' then .colon
  else if c = '?' then
    if precedesType last && (trimStart rest).head?.any (fun d => d == '\\' || isNameStart d)
    then .nullable else .ternary
  else if isPunctuation c then .operator
  else .unknown

def cutOperator (last : Option Kind) (cs : List Char) : Cut :=
  match operators.find? fun o => startsWith o.1.toList cs with
  | some (text, kind) => ⟨kind, text.length, .php⟩
  | none => match cs with
    | c :: rest => ⟨signKind last c rest, 1, .php⟩
    | [] => ⟨.unknown, 0, .php⟩

theorem operators_length_pos : ∀ o ∈ operators, 0 < o.1.length := by
  decide

theorem cutOperator_fits (last : Option Kind) (c : Char) (cs : List Char) :
    (cutOperator last (c :: cs)).Fits (c :: cs) := by
  unfold cutOperator
  split
  · rename_i text kind h
    have hs : startsWith text.toList (c :: cs) = true := by simpa using List.find?_some h
    have hle := length_le_of_startsWith hs
    rw [String.length_toList] at hle
    exact ⟨operators_length_pos _ (List.mem_of_find?_eq_some h), hle⟩
  · exact ⟨Nat.succ_pos 0, Nat.succ_le_succ (Nat.zero_le _)⟩

/-! ### One lexeme -/

/-- The kind of an opening square bracket: after a value it is an index, else an array. -/
def squareKind : Option Kind → Kind
  | some .variableName | some .closeSquare | some .closeArray | some .closeParen
  | some .closeBrace | some .name | some .quoted => .openSquare
  | _ => .openArray

/-- The kind of the bracket that closes the innermost open square bracket. -/
def closeSquareKind : Option Kind → Kind
  | some .openArray => .closeArray
  | some .openAttribute => .closeAttribute
  | _ => .closeSquare

end Lexer

/-- What the lexer remembers: the kind of text, the square brackets that are open, innermost
first, and the kind of the last effective lexeme. -/
structure Lexer where
  mode : Lexer.Mode := .html
  squares : List Kind := []
  last : Option Kind := none
  deriving DecidableEq, Repr

namespace Lexer

def cutPhp (s : Lexer) (cs : List Char) : Cut :=
  match cs with
  | '?' :: '>' :: _ => ⟨.closeTag, 2, .html⟩
  | '#' :: '[' :: _ => ⟨.openAttribute, 2, .php⟩
  | '#' :: _ => ⟨.comment, lineCommentLength cs, .php⟩
  | '/' :: '/' :: _ => ⟨.comment, lineCommentLength cs, .php⟩
  | '/' :: '*' :: '*' :: '/' :: _ => ⟨.comment, 4, .php⟩
  | '/' :: '*' :: '*' :: _ => ⟨.docOpen, 3, .doc false false⟩
  | '/' :: '*' :: _ => ⟨.comment, blockCommentLength cs, .php⟩
  | c :: rest =>
    if c = ' ' || c = '\t' || c = '\r' || c = '\n' then ⟨.blank, blankLength cs, .php⟩
    else if c = '$' && rest.head?.any isNameStart then
      ⟨.variableName, 1 + (rest.takeWhile isNameChar).length, .php⟩
    else if c = '\x27' || c = '\x22' || c = '\x60' then ⟨.quoted, 1 + quotedTail c rest, .php⟩
    else if startsWith "<<<".toList cs then
      match heredocLength? cs with
      | some n => ⟨.quoted, n, .php⟩
      | none => cutOperator s.last cs
    else if c.isDigit || (c = '.' && rest.head?.any Char.isDigit) then cutNumber cs
    else if c = '(' then
      match castLength? cs with
      | some n => ⟨.cast, n, .php⟩
      | none => ⟨.openParen, 1, .php⟩
    else if c = ')' then ⟨.closeParen, 1, .php⟩
    else if c = '\x7b' then ⟨.openBrace, 1, .php⟩
    else if c = '\x7d' then ⟨.closeBrace, 1, .php⟩
    else if c = '[' then ⟨squareKind s.last, 1, .php⟩
    else if c = ']' then ⟨closeSquareKind s.squares.head?, 1, .php⟩
    else if c = ';' then ⟨.semicolon, 1, .php⟩
    else if c = ',' then ⟨.comma, 1, .php⟩
    else if c = '\\' || isNameStart c then cutWord s.last cs
    else cutOperator s.last cs
  | [] => ⟨.unknown, 0, .php⟩

/-- The marks of one character that have a kind of their own. -/
def marks : List (Char × Kind) :=
  [('(', .openParen), (')', .closeParen), ('\x7b', .openBrace), ('\x7d', .closeBrace),
   (';', .semicolon), (',', .comma)]

/-- The forms of a lexeme of code: what each looks like at the start of the text, and its cut. -/
inductive PhpCut (s : Lexer) : List Char → Cut → Prop
  | closeTag (cs) : PhpCut s ('?' :: '>' :: cs) ⟨.closeTag, 2, .html⟩
  | openAttribute (cs) : PhpCut s ('#' :: '[' :: cs) ⟨.openAttribute, 2, .php⟩
  | lineComment (c cs) (h : c = '#' ∨ c = '/') :
      PhpCut s (c :: cs) ⟨.comment, lineCommentLength (c :: cs), .php⟩
  | emptyComment (cs) : PhpCut s ('/' :: '*' :: '*' :: '/' :: cs) ⟨.comment, 4, .php⟩
  | docOpen (cs) : PhpCut s ('/' :: '*' :: '*' :: cs) ⟨.docOpen, 3, .doc false false⟩
  | blockComment (cs) :
      PhpCut s ('/' :: '*' :: cs) ⟨.comment, blockCommentLength ('/' :: '*' :: cs), .php⟩
  | blank (c cs) (h : c = ' ' ∨ c = '\t' ∨ c = '\r' ∨ c = '\n') :
      PhpCut s (c :: cs) ⟨.blank, blankLength (c :: cs), .php⟩
  | variableName (cs) :
      PhpCut s ('$' :: cs) ⟨.variableName, 1 + (cs.takeWhile isNameChar).length, .php⟩
  | quoted (c cs) : PhpCut s (c :: cs) ⟨.quoted, 1 + quotedTail c cs, .php⟩
  | heredoc (cs n) (h : heredocLength? cs = some n) : PhpCut s cs ⟨.quoted, n, .php⟩
  | number (c cs) (h : (c.isDigit || (c = '.' && cs.head?.any Char.isDigit)) = true) :
      PhpCut s (c :: cs) (cutNumber (c :: cs))
  | cast (cs n) (h : castLength? cs = some n) : PhpCut s cs ⟨.cast, n, .php⟩
  | mark (c k cs) (h : (c, k) ∈ marks) : PhpCut s (c :: cs) ⟨k, 1, .php⟩
  | openSquare (cs) : PhpCut s ('[' :: cs) ⟨squareKind s.last, 1, .php⟩
  | closeSquare (cs) : PhpCut s (']' :: cs) ⟨closeSquareKind s.squares.head?, 1, .php⟩
  | word (c cs) : PhpCut s (c :: cs) (cutWord s.last (c :: cs))
  | operator (c cs) : PhpCut s (c :: cs) (cutOperator s.last (c :: cs))

theorem cutPhp_form (s : Lexer) (c : Char) (cs : List Char) :
    PhpCut s (c :: cs) (s.cutPhp (c :: cs)) := by
  unfold cutPhp
  split
  case h_1 heq => rw [heq]; exact .closeTag _
  case h_2 heq => rw [heq]; exact .openAttribute _
  case h_3 heq => rw [heq]; exact .lineComment _ _ (.inl rfl)
  case h_4 heq => rw [heq]; exact .lineComment _ _ (.inr rfl)
  case h_5 heq => rw [heq]; exact .emptyComment _
  case h_6 heq => rw [heq]; exact .docOpen _
  case h_7 heq => rw [heq]; exact .blockComment _
  case h_9 heq => cases heq
  case h_8 d ds _ _ _ _ _ _ _ heq =>
    obtain ⟨rfl, rfl⟩ := List.cons.inj heq
    refine iteInduction (fun h => ?_) fun _ => iteInduction (fun h => ?_) fun _ =>
      iteInduction (fun _ => .quoted c cs) fun _ => iteInduction (fun _ => ?_) fun _ =>
      iteInduction (.number c cs) fun _ => iteInduction (fun h => ?_) fun _ =>
      iteInduction (fun h => ?_) fun _ => iteInduction (fun h => ?_) fun _ =>
      iteInduction (fun h => ?_) fun _ => iteInduction (fun h => ?_) fun _ =>
      iteInduction (fun h => ?_) fun _ => iteInduction (fun h => ?_) fun _ =>
      iteInduction (fun h => ?_) fun _ => iteInduction (fun _ => .word c cs) fun _ => .operator c cs
    · exact .blank c cs (by simpa [or_assoc] using h)
    · simp only [Bool.and_eq_true, decide_eq_true_eq] at h
      rw [h.1]
      exact .variableName cs
    · split
      · rename_i h
        exact .heredoc _ _ h
      · exact .operator c cs
    · rw [h]
      split
      · rename_i h
        exact .cast _ _ h
      · exact .mark _ _ cs (by decide)
    · rw [h]; exact .mark _ _ cs (by decide)
    · rw [h]; exact .mark _ _ cs (by decide)
    · rw [h]; exact .mark _ _ cs (by decide)
    · rw [h]; exact .openSquare cs
    · rw [h]; exact .closeSquare cs
    · rw [h]; exact .mark _ _ cs (by decide)
    · rw [h]; exact .mark _ _ cs (by decide)

theorem PhpCut.fits {s : Lexer} {cs : List Char} {cut : Cut} (h : PhpCut s cs cut) :
    cut.Fits cs := by
  cases h with
  | closeTag | openAttribute | emptyComment | docOpen | mark | openSquare | closeSquare =>
    exact ⟨by simp, by simp⟩
  | lineComment c cs h =>
    rcases h with rfl | rfl
    · obtain ⟨hpos, hle⟩ := lineCommentLength_bounds (c := '#') cs (by decide) (by decide) (by decide)
      exact ⟨hpos, hle⟩
    · obtain ⟨hpos, hle⟩ := lineCommentLength_bounds (c := '/') cs (by decide) (by decide) (by decide)
      exact ⟨hpos, hle⟩
  | blockComment cs =>
    have h2 : 2 ≤ ('/' :: '*' :: cs).length := by simp
    exact ⟨(blockCommentLength_bounds h2).1, (blockCommentLength_bounds h2).2⟩
  | blank c cs h =>
    refine ⟨?_, blankLength_le _⟩
    rcases h with rfl | rfl | rfl | rfl <;> simp [blankLength]
  | variableName cs =>
    have := length_takeWhile_le isNameChar cs
    exact ⟨by simp only; omega, by simp only [List.length_cons]; omega⟩
  | quoted c cs =>
    have := quotedTail_le c cs
    exact ⟨by simp only; omega, by simp only [List.length_cons]; omega⟩
  | heredoc _ _ h => exact ⟨(heredocLength?_bounds h).1, (heredocLength?_bounds h).2⟩
  | number c cs h => exact cutNumber_fits h
  | cast _ _ h => exact ⟨(castLength?_bounds h).1, (castLength?_bounds h).2⟩
  | word c cs => exact cutWord_fits s.last c cs
  | operator c cs => exact cutOperator_fits s.last c cs

/-- Chooses the next lexeme of a text. -/
def cut (s : Lexer) (cs : List Char) : Cut :=
  match s.mode with
  | .html => cutHtml cs
  | .php => s.cutPhp cs
  | .doc lineStart hasText => cutDoc lineStart hasText cs

theorem cut_fits (s : Lexer) {cs : List Char} (h : cs ≠ []) : (s.cut cs).Fits cs := by
  obtain ⟨c, cs, rfl⟩ := List.exists_cons_of_ne_nil h
  unfold cut
  split
  · exact cutHtml_fits c cs
  · exact (s.cutPhp_form c cs).fits
  · exact cutDoc_fits _ _ c cs

/-- The open square brackets after a lexeme of kind `k`. -/
def squaresAfter (squares : List Kind) (k : Kind) : List Kind :=
  match k with
  | .openSquare | .openArray | .openAttribute => k :: squares
  | .closeSquare | .closeArray | .closeAttribute => squares.tail
  | _ => squares

def advance (s : Lexer) (c : Cut) : Lexer where
  mode := c.mode
  squares := squaresAfter s.squares c.kind
  last := if c.kind.isEffective then some c.kind else s.last

/-- The lexemes of a text, each with its kind. -/
def run (s : Lexer) (cs : List Char) : List (Kind × List Char) :=
  if cs = [] then []
  else
    let c := s.cut cs
    (c.kind, cs.take c.length) :: (s.advance c).run (cs.drop c.length)
termination_by cs.length
decreasing_by
  have := (s.cut_fits ‹cs ≠ []›).pos
  have := (s.cut_fits ‹cs ≠ []›).le
  rw [List.length_drop]
  omega

end Lexer

/-- A place in a text; lines and columns count from one. -/
structure Position where
  line : Nat := 1
  column : Nat := 1
  deriving DecidableEq, Repr

namespace Position

def step (p : Position) (c : Char) : Position :=
  if c = '\n' then ⟨p.line + 1, 1⟩ else ⟨p.line, p.column + 1⟩

/-- The place after a text that starts at `p`. -/
def after (p : Position) (cs : List Char) : Position :=
  cs.foldl step p

end Position

/-- Lexemes with their places, the first at `p`. -/
def Token.place (p : Position) : List (Kind × List Char) → List Token
  | [] => []
  | (k, cs) :: ls =>
    { kind := k, content := String.ofList cs, line := p.line, column := p.column } ::
      Token.place (p.after cs) ls

end PhpStyle
