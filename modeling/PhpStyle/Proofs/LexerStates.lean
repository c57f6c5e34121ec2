import PhpStyle.Proofs.BlankLexemes

/-!
# What the lexer sees of its state

Most lexemes of code are cut in every state alike. The last effective lexeme matters to words, to
question marks and to opening square brackets only (`Unseen`), the open square brackets to closing
ones only. So a segment is read in another state as before if its first effective lexeme does not
tell the two apart (`Reads.relast`), or if it closes no square bracket but those that it opens
itself (`Reads.resquare`).

Many kinds have few spellings (`Kind.spellings`), so that the kind of a lexeme gives its text.
-/

namespace PhpStyle

open Text

namespace Kind

/-- The spellings of a kind, where they do not depend on letter case. -/
def spellings : Kind → List (List Char)
  | .openParen => [['(']]
  | .closeParen => [[')']]
  | .openBrace => [['\x7b']]
  | .closeBrace => [['\x7d']]
  | .openSquare | .openArray => [['[']]
  | .openAttribute => [['#', '[']]
  | .closeSquare | .closeArray | .closeAttribute => [[']']]
  | .semicolon => [[';']]
  | .comma => [[',']]
  | .assign => [['=']]
  | .colon => [[':']]
  | .ternary => [['?']]
  | .closeTag => [['?', '>']]
  | .booleanAnd => [['&', '&']]
  | .booleanOr => [['|', '|']]
  | .doubleArrow => [['=', '>']]
  | .doubleColon => [[':', ':']]
  | .arrow => [['-', '>'], ['?', '-', '>']]
  | .equal => [['=', '=']]
  | .notEqual => [['!', '='], ['<', '>']]
  | .identical => [['=', '=', '=']]
  | .notIdentical => [['!', '=', '=']]
  | _ => []

/-- The kinds that lexemes of code have, and no others. -/
def isCode : Kind → Bool
  | .openTag | .html | .docClose | .docBlank | .docStar | .docTag | .docText => false
  | _ => true

/-- The keywords before which or behind which an operand may stand. -/
def isConjunction : Kind → Bool
  | .kwReturn | .logicalAnd | .logicalOr | .logicalXor => true
  | _ => false

end Kind

namespace Lexer

variable {s s' t : Lexer} {c : Char} {cs z : List Char} {ls ls' : List (Kind × List Char)}

@[simp] theorem spelled_nil : spelled [] = [] :=
  rfl

theorem kind_cutNumber (cs : List Char) :
    (cutNumber cs).kind = .integer ∨ (cutNumber cs).kind = .float := by
  unfold cutNumber cutDecimal
  simp only
  repeat' split
  all_goals simp

/-- A word is a keyword of some kind, or a name. -/
theorem kind_cutWord (last : Option Kind) (cs : List Char) :
    (cutWord last cs).kind ∈ [.unknown, .name, .kwEnum] ∨
      (String.ofList (lower (cs.take (cutWord last cs).length)), (cutWord last cs).kind) ∈
        keywords := by
  unfold cutWord
  simp only
  split
  · simp
  split
  · simp
  unfold wordKind
  simp only
  split
  · simp
  split
  · split <;> simp
  · cases hlookup : keywords.lookup _ with
    | none => simp
    | some k =>
      right
      obtain ⟨l₁, l₂, heq, -⟩ := List.lookup_eq_some_iff.1 hlookup
      rw [heq]
      simp

theorem PhpCut.spelling {cut : Cut} (h : PhpCut s cs cut) (hk : cut.kind.spellings ≠ []) :
    cs.take cut.length ∈ cut.kind.spellings := by
  cases h with
  | closeTag | openAttribute => exact List.mem_singleton.2 rfl
  | lineComment | emptyComment | docOpen | blockComment | blank | variableName | quoted | heredoc
  | cast => exact absurd rfl hk
  | number c cs =>
    rcases kind_cutNumber (c :: cs) with hkind | hkind <;> rw [hkind] at hk <;> exact absurd rfl hk
  | mark c k cs h =>
    simp only [marks, List.mem_cons, List.not_mem_nil, Prod.mk.injEq, or_false] at h
    rcases h with ⟨rfl, rfl⟩ | ⟨rfl, rfl⟩ | ⟨rfl, rfl⟩ | ⟨rfl, rfl⟩ | ⟨rfl, rfl⟩ | ⟨rfl, rfl⟩ <;>
      exact List.mem_singleton.2 rfl
  | openSquare cs =>
    rcases squareKind_eq s.last with hkind | hkind <;> rw [hkind] <;> exact List.mem_singleton.2 rfl
  | closeSquare cs =>
    unfold closeSquareKind
    split <;> exact List.mem_singleton.2 rfl
  | word c cs =>
    have hnames : ∀ k ∈ [Kind.unknown, .name, .kwEnum], k.spellings = [] := by decide
    have hkeywords : ∀ p ∈ keywords, p.2.spellings = [] := by decide
    rcases kind_cutWord s.last (c :: cs) with hkind | hkind
    · exact absurd (hnames _ hkind) hk
    · exact absurd (hkeywords _ hkind) hk
  | operator c cs =>
    have hoperators : ∀ o ∈ operators, o.2.spellings ≠ [] → o.1.toList ∈ o.2.spellings := by decide
    unfold cutOperator at hk ⊢
    split
    · rename_i text kind hfind
      rw [hfind] at hk
      have hs := List.find?_some hfind
      obtain ⟨rest, hrest⟩ := exists_eq_append_of_startsWith hs
      rw [hrest, ← String.length_toList, List.take_left]
      exact hoperators _ (List.mem_of_find?_eq_some hfind) hk
    · rename_i hfind
      rw [hfind] at hk
      simp only at hk ⊢
      unfold signKind at hk ⊢
      repeat' split
      all_goals simp_all [Kind.spellings]

theorem spelling_of_cutPhp (hk : (s.cutPhp (c :: cs)).kind.spellings ≠ []) :
    (c :: cs).take (s.cutPhp (c :: cs)).length ∈ (s.cutPhp (c :: cs)).kind.spellings :=
  (s.cutPhp_form c cs).spelling hk

/-- The cuts that are blanks and comments. -/
inductive TriviaCut : List Char → Cut → Prop
  | blank (c : Char) (cs : List Char) (h : c ∈ [' ', '\t', '\r', '\n']) :
      TriviaCut (c :: cs) ⟨.blank, blankLength (c :: cs), .php⟩
  | line (c : Char) (cs : List Char) (h : c = '#' ∨ c = '/') :
      TriviaCut (c :: cs) ⟨.comment, lineCommentLength (c :: cs), .php⟩
  | block (cs : List Char) :
      TriviaCut ('/' :: '*' :: cs) ⟨.comment, blockCommentLength ('/' :: '*' :: cs), .php⟩
  | doc (cs : List Char) : TriviaCut ('/' :: '*' :: '*' :: cs) ⟨.docOpen, 3, .doc false false⟩

theorem PhpCut.trivia {cut : Cut} (h : PhpCut s cs cut) (hk : cut.kind.isTrivia = true) :
    TriviaCut cs cut := by
  have hplain : ∀ {k : Kind}, k.isPlain = true → ¬ k.isTrivia = true := by
    intro k h
    cases k <;> revert h <;> decide
  cases h with
  | lineComment c cs h => exact .line c cs h
  | emptyComment cs => exact .block _
  | docOpen cs => exact .doc cs
  | blockComment cs => exact .block cs
  | blank c cs h => exact .blank c cs (by simpa using h)
  | number c cs => exact absurd hk (hplain (cutNumber_isPlain _))
  | word c cs => exact absurd hk (hplain (cutWord_isPlain _ _))
  | operator c cs => exact absurd hk (hplain (cutOperator_isPlain _ _))
  | mark c k cs h =>
    have hmarks : ∀ m ∈ marks, m.2.isTrivia = false := by decide
    rw [hmarks _ h] at hk
    cases hk
  | openSquare cs =>
    rcases squareKind_eq s.last with hkind | hkind <;> rw [hkind] at hk <;> cases hk
  | closeSquare cs =>
    unfold closeSquareKind at hk
    split at hk <;> cases hk
  | _ => cases hk

/-- Blanks and comments start with marks of their own. -/
theorem head_of_trivia (hk : (s.cutPhp (c :: cs)).kind.isTrivia = true) :
    c ∈ [' ', '\t', '\r', '\n', '#', '/'] := by
  have h := (s.cutPhp_form c cs).trivia hk
  generalize s.cutPhp (c :: cs) = cut at h
  generalize hcs : c :: cs = text at h
  cases h with
  | blank d ds hd =>
    cases hcs
    simp only [List.mem_cons, List.not_mem_nil, or_false] at hd ⊢
    tauto
  | line d ds hd =>
    cases hcs
    rcases hd with rfl | rfl <;> decide
  | block ds | doc ds =>
    cases hcs
    decide

theorem mode_of_isCode (h : (s.cut cs).kind.isCode = true) : s.mode = .php := by
  unfold cut at h
  cases hm : s.mode with
  | php => rfl
  | html =>
    rw [hm] at h
    simp only [cutHtml] at h
    split at h <;> cases h
  | doc lineStart hasText =>
    rw [hm] at h
    simp only at h
    unfold cutDoc at h
    split at h
    case h_5 =>
      repeat' split at h
      all_goals cases h
    case h_6 => cases h
    all_goals cases h

theorem PhpCut.isCode {cut : Cut} (h : PhpCut s cs cut) : cut.kind.isCode = true := by
  cases h with
  | number c cs =>
    rcases kind_cutNumber (c :: cs) with hkind | hkind <;> rw [hkind] <;> rfl
  | mark c k cs h =>
    have hmarks : ∀ m ∈ marks, m.2.isCode = true := by decide
    exact hmarks _ h
  | openSquare cs => rcases squareKind_eq s.last with hkind | hkind <;> rw [hkind] <;> rfl
  | closeSquare cs =>
    unfold closeSquareKind
    split <;> rfl
  | word c cs =>
    have hnames : ∀ k ∈ [Kind.unknown, .name, .kwEnum], k.isCode = true := by decide
    have hkeywords : ∀ p ∈ keywords, p.2.isCode = true := by decide
    rcases kind_cutWord s.last (c :: cs) with hkind | hkind
    · exact hnames _ hkind
    · exact hkeywords _ hkind
  | operator c cs =>
    have hoperators : ∀ o ∈ operators, o.2.isCode = true := by decide
    unfold cutOperator
    split
    · rename_i hfind
      exact hoperators _ (List.mem_of_find?_eq_some hfind)
    · simp only [signKind]
      repeat' split
      all_goals rfl
  | _ => rfl

theorem cut_of_openTag (hne : cs ≠ []) (h : (s.cut cs).kind = .openTag) :
    s.cut cs = cutHtml cs := by
  obtain ⟨c, cs, rfl⟩ := List.exists_cons_of_ne_nil hne
  unfold cut at h ⊢
  cases hm : s.mode with
  | html => rfl
  | php =>
    rw [hm] at h
    have hcode := (s.cutPhp_form c cs).isCode
    simp only at h
    rw [h] at hcode
    cases hcode
  | doc lineStart hasText =>
    rw [hm] at h
    simp only [cutDoc_cons] at h
    repeat' split at h
    all_goals cases h

theorem PhpCut.mode_eq {cut : Cut} (h : PhpCut s cs cut) (htag : cut.kind ≠ .closeTag)
    (hdoc : cut.kind ≠ .docOpen) : cut.mode = .php := by
  cases h with
  | closeTag => exact absurd rfl htag
  | docOpen => exact absurd rfl hdoc
  | number c cs => exact cutNumber_mode (c :: cs)
  | word c cs => exact cutWord_mode s.last (c :: cs)
  | operator c cs => exact cutOperator_mode s.last (c :: cs)
  | _ => rfl

/-! ### The state behind a lexeme -/

/-- A lexeme that starts with `c` does not tell the two apart as kinds of the last lexeme. -/
structure Unseen (last last' : Option Kind) (c : Char) : Prop where
  word : isTypeStart c = true → namesMember last' = namesMember last
  mark : c = '?' → precedesType last' = precedesType last
  opener : c = '[' → squareKind last' = squareKind last

theorem Unseen.of_mark {last last' : Option Kind} (hc : isTypeStart c = false)
    (hmark : c = '?' → precedesType last' = precedesType last) (hopener : c ≠ '[') :
    Unseen last last' c :=
  ⟨fun h => absurd h (by simp [hc]), hmark, fun h => absurd h hopener⟩

theorem Unseen.of_trivia {last last' : Option Kind} (hc : c ∈ [' ', '\t', '\r', '\n', '#', '/']) :
    Unseen last last' c := by
  have hall : ∀ c ∈ [' ', '\t', '\r', '\n', '#', '/'],
      isTypeStart c = false ∧ c ≠ '?' ∧ c ≠ '[' := by decide
  obtain ⟨hword, hmark, hopener⟩ := hall c hc
  exact .of_mark hword (fun h => absurd h hmark) hopener

theorem cutWord_agree {last last' : Option Kind} (h : namesMember last' = namesMember last)
    (cs : List Char) : cutWord last' cs = cutWord last cs := by
  simp only [cutWord, wordKind, h]

theorem cutOperator_agree {last last' : Option Kind}
    (h : c = '?' → precedesType last' = precedesType last) (cs : List Char) :
    cutOperator last' (c :: cs) = cutOperator last (c :: cs) := by
  by_cases hc : c = '?'
  · simp only [cutOperator, signKind, h hc]
  · simp only [cutOperator, signKind, if_neg hc]

theorem cutPhp_agree (hlast : Unseen s.last s'.last c)
    (hclose : c = ']' → closeSquareKind s'.squares.head? = closeSquareKind s.squares.head?)
    (cs : List Char) : s'.cutPhp (c :: cs) = s.cutPhp (c :: cs) := by
  have hoperator := cutOperator_agree hlast.mark cs
  have hsquare : (if c = '[' then (⟨squareKind s'.last, 1, .php⟩ : Cut)
      else if c = ']' then ⟨closeSquareKind s'.squares.head?, 1, .php⟩
      else if c = ';' then ⟨.semicolon, 1, .php⟩
      else if c = ',' then ⟨.comma, 1, .php⟩
      else if c = '\\' || isNameStart c then cutWord s'.last (c :: cs)
      else cutOperator s'.last (c :: cs)) =
      if c = '[' then ⟨squareKind s.last, 1, .php⟩
      else if c = ']' then ⟨closeSquareKind s.squares.head?, 1, .php⟩
      else if c = ';' then ⟨.semicolon, 1, .php⟩
      else if c = ',' then ⟨.comma, 1, .php⟩
      else if c = '\\' || isNameStart c then cutWord s.last (c :: cs)
      else cutOperator s.last (c :: cs) := by
    split
    · rename_i hc
      rw [hlast.opener hc]
    split
    · rename_i hc
      rw [hclose hc]
    split
    · rfl
    split
    · rfl
    split
    · rename_i hc
      exact cutWord_agree (hlast.word (by simpa [isTypeStart] using hc)) _
    · exact hoperator
  rw [cutPhp_eq, cutPhp_eq]
  unfold cutCode
  rw [hsquare, hoperator]

theorem cut_agree (s s' : Lexer) (hmode : s'.mode = s.mode)
    (hlast : s.mode = .php → Unseen s.last s'.last c)
    (hclose : s.mode = .php → c = ']' →
      closeSquareKind s'.squares.head? = closeSquareKind s.squares.head?)
    (cs : List Char) : s'.cut (c :: cs) = s.cut (c :: cs) := by
  unfold cut
  rw [hmode]
  cases hm : s.mode with
  | php => exact cutPhp_agree (hlast hm) (hclose hm) cs
  | html => rfl
  | doc lineStart hasText => rfl

namespace Reads

theorem of_append (h : Reads s (ls ++ ls') z t) :
    ∃ m, Reads s ls (spelled ls' ++ z) m ∧ Reads m ls' z t := by
  induction ls generalizing s with
  | nil => exact ⟨s, .nil s _, h⟩
  | cons l ls ih =>
    rw [List.cons_append] at h
    obtain - | ⟨hu, hcut, hlength, hrest⟩ := h
    obtain ⟨m, hleft, hright⟩ := ih hrest
    refine ⟨m, .cons hu ?_ hlength hleft, hright⟩
    rwa [spelled_append, List.append_assoc] at hcut

theorem head_code {l : Kind × List Char} (h : Reads s (l :: ls) z t) (hphp : s.mode = .php) :
    ∃ c u, l.2 = c :: u ∧ (s.cutPhp (c :: (u ++ (spelled ls ++ z)))).kind = l.1 ∧
      (s.cutPhp (c :: (u ++ (spelled ls ++ z)))).length = u.length + 1 := by
  obtain ⟨hne, hkind, hlength⟩ := h.head
  obtain ⟨c, u, hu⟩ := List.exists_cons_of_ne_nil hne
  rw [Lexer.cut, hphp, hu] at hkind hlength
  exact ⟨c, u, hu, hkind, hlength⟩

theorem frame_of_trivia (h : Reads s ls z t) (htrivia : ∀ l ∈ ls, l.1.isTrivia = true) :
    t.last = s.last ∧ t.squares = s.squares := by
  induction h with
  | nil s z => exact ⟨rfl, rfl⟩
  | cons hu hcut hlength hrest ih =>
    obtain ⟨hkind, hothers⟩ := List.forall_mem_cons.1 htrivia
    obtain ⟨hlast, hsquares⟩ := ih hothers
    rw [hlast, hsquares, advance_of_trivia _ hkind]
    exact ⟨rfl, rfl⟩

theorem relast_trivia (h : Reads s ls z t) (htrivia : ∀ l ∈ ls, l.1.isTrivia = true)
    (last : Option Kind) : Reads { s with last := last } ls z { t with last := last } := by
  induction h with
  | nil s z => exact .nil _ z
  | cons hu hcut hlength hrest ih =>
    rename_i s t cut u z ls
    obtain ⟨hkind, hothers⟩ := List.forall_mem_cons.1 htrivia
    obtain ⟨c, v, rfl⟩ := List.exists_cons_of_ne_nil hu
    have hhead : s.mode = .php → c ∈ [' ', '\t', '\r', '\n', '#', '/'] := by
      intro hm
      rw [← hcut, Lexer.cut, hm] at hkind
      exact head_of_trivia hkind
    have hagree := cut_agree s { s with last := last } rfl (fun hm => .of_trivia (hhead hm))
      (fun _ _ => rfl) (v ++ (spelled ls ++ z))
    refine .cons hu (hagree.trans hcut) hlength ?_
    have hsame : ({ s with last := last } : Lexer).advance cut =
        { s.advance cut with last := last } := by
      rw [advance_of_trivia _ hkind, advance_of_trivia _ hkind]
    rw [hsame]
    exact ih hothers

/-- Behind an effective lexeme it does not matter which one was the last before the segment. -/
theorem relast {last : Option Kind} (h : Reads s ls z t)
    (hfirst : ∃ ts l rest, ls = ts ++ l :: rest ∧ (∀ l ∈ ts, l.1.isTrivia = true) ∧
      l.1.isEffective = true ∧ ∀ c ∈ l.2.head?, Unseen s.last last c) :
    Reads { s with last := last } ls z t := by
  obtain ⟨ts, l, rest, rfl, htrivia, heffective, hunseen⟩ := hfirst
  obtain ⟨m, hbefore, h⟩ := h.of_append
  refine (hbefore.relast_trivia htrivia last).append ?_
  rw [← (hbefore.frame_of_trivia htrivia).1] at hunseen
  obtain - | ⟨hu, hcut, hlength, hrest⟩ := h
  rename_i cut u
  obtain ⟨c, v, rfl⟩ := List.exists_cons_of_ne_nil hu
  have hagree := cut_agree m { m with last := last } rfl (fun _ => hunseen c rfl)
    (fun _ _ => rfl) (v ++ (spelled rest ++ z))
  refine .cons hu (hagree.trans hcut) hlength ?_
  have hsame : ({ m with last := last } : Lexer).advance cut = m.advance cut := by
    simp only [advance, heffective, if_true]
  rwa [hsame]

end Reads

/-- The number of open brackets behind lexemes of the kinds `ks`, `depth` of them being open before;
none if they close another one. -/
def levelAfter (depth : Nat) : List Kind → Option Nat
  | [] => some depth
  | k :: ks =>
    if k.isOpener then levelAfter (depth + 1) ks
    else if k.isCloser then if depth = 0 then none else levelAfter (depth - 1) ks
    else levelAfter depth ks

/-- The brackets of the lexemes, if there are any, are those of an index. -/
def IndexOnly (ls : List (Kind × List Char)) : Prop :=
  ∀ l ∈ ls, l.1.isBracket = true → l.1 = .openSquare ∨ l.1 = .closeSquare

theorem squaresAfter_of_levelAfter {k : Kind} {ks : List Kind} {depth depth' : Nat}
    (h : levelAfter depth (k :: ks) = some depth')
    (hk : k.isBracket = true → k = .openSquare ∨ k = .closeSquare) :
    ∃ next, levelAfter next ks = some depth' ∧ (k.isCloser = true → depth ≠ 0) ∧
      ∀ squares, squaresAfter (List.replicate depth .openSquare ++ squares) k =
        List.replicate next .openSquare ++ squares := by
  by_cases hbracket : k.isBracket = true
  · rcases hk hbracket with rfl | rfl
    · exact ⟨depth + 1, h, nofun, fun _ => rfl⟩
    · cases depth with
      | zero => cases h
      | succ depth => exact ⟨depth, h, fun _ => Nat.succ_ne_zero depth, fun _ => rfl⟩
  · obtain ⟨hopen, hclose⟩ := not_or.1 (mt Bool.or_eq_true_iff.2 hbracket)
    rw [levelAfter, if_neg hopen, if_neg hclose] at h
    exact ⟨depth, h, fun hc => absurd hc hclose, fun _ => squaresAfter_of_not_isBracket hbracket _⟩

theorem cut_resquare {squares : List Kind}
    (h : (s.cut (c :: cs)).kind.isCloser = true → squares.head? = s.squares.head?) :
    ({ s with squares := squares } : Lexer).cut (c :: cs) = s.cut (c :: cs) := by
  refine cut_agree s { s with squares := squares } rfl
    (fun _ => ⟨fun _ => rfl, fun _ => rfl, fun _ => rfl⟩) (fun hm hc => ?_) cs
  subst hc
  have hcut : (s.cut (']' :: cs)).kind = closeSquareKind s.squares.head? := by
    rw [cut, hm]
    rfl
  rw [hcut] at h
  rw [h]
  unfold closeSquareKind
  split <;> rfl

/-- A segment that closes what it opens does not see which brackets are open around it. -/
theorem Reads.resquare {depth depth' : Nat} {squares : List Kind} (h : Reads s ls z t)
    (hlevel : levelAfter depth (ls.map (·.1)) = some depth') (hindex : IndexOnly ls)
    (hsquares : s.squares = List.replicate depth .openSquare ++ squares) (squares' : List Kind) :
    t.squares = List.replicate depth' .openSquare ++ squares ∧
      Reads { s with squares := List.replicate depth .openSquare ++ squares' } ls z
        { t with squares := List.replicate depth' .openSquare ++ squares' } := by
  induction h generalizing depth with
  | nil s z =>
    obtain rfl : depth = depth' := Option.some.inj hlevel
    exact ⟨hsquares, .nil _ _⟩
  | cons hu hcut hlength hrest ih =>
    rename_i s t cut u z ls
    obtain ⟨hkind, hrestIndex⟩ := List.forall_mem_cons.1 hindex
    obtain ⟨next, hlevel, hdepth, hafter⟩ := squaresAfter_of_levelAfter hlevel hkind
    have hnext : (s.advance cut).squares = List.replicate next .openSquare ++ squares := by
      rw [advance, hsquares]
      exact hafter squares
    obtain ⟨hlast, hreads⟩ := ih hlevel hrestIndex hnext
    refine ⟨hlast, .cons hu ?_ hlength ?_⟩
    · obtain ⟨c, v, rfl⟩ := List.exists_cons_of_ne_nil hu
      rw [List.cons_append] at hcut ⊢
      rw [← hcut]
      refine cut_resquare fun hclose => ?_
      rw [hcut] at hclose
      obtain ⟨depth, rfl⟩ := Nat.exists_eq_succ_of_ne_zero (hdepth hclose)
      rw [hsquares]
      rfl
    · simpa only [advance, hafter] using hreads

end Lexer

end PhpStyle
