import PhpStyle.Proofs.Lookahead
import PhpStyle.Proofs.TriviaSegments

/-!
# Where marks of comments stand

Two slashes, a hash, a slash with a star or a star show a comment to a reader of lines. To the lexer
they start a comment or stand inside of one, unless they stand in a string, in HTML, at the start of
an attribute, or the star is an operator (`kind_of_mark`). A word that starts inside of a comment
stands there as a whole, and from a mark inside of a comment the lexemes go on with pieces of
comments up to a word behind it, or one of them ends the comment before that (`exists_comment`).
-/

namespace PhpStyle

open Text

namespace Lexer

variable {s : Lexer} {c d x : Char} {u w y z : List Char}

/-- The text starts with a mark by which comments are told. -/
inductive MarkAhead : List Char → Prop
  | slashes (z : List Char) : MarkAhead ('/' :: '/' :: z)
  | hash (z : List Char) : MarkAhead ('#' :: z)
  | block (z : List Char) : MarkAhead ('/' :: '*' :: z)
  | star (z : List Char) : MarkAhead ('*' :: z)

theorem MarkAhead.head (h : MarkAhead y) : ∃ x z, y = x :: z ∧ x ∈ ['/', '#', '*'] := by
  cases h with
  | slashes z | hash z | block z | star z => exact ⟨_, _, rfl, by decide⟩

theorem star_of_operator (last : Option Kind) (hx : x ∈ ['/', '#', '*']) (hne : w ≠ [])
    (h : w.length < (cutOperator last (w ++ x :: z)).length) :
    (cutOperator last (w ++ x :: z)).kind = .operator ∧ x = '*' := by
  have hoperators : ∀ o ∈ operators, ∀ x ∈ o.1.toList.tail, x ∈ ['/', '#', '*'] → o.2 = .operator ∧ x = '*' := by
    decide
  obtain ⟨c, w, rfl⟩ := List.exists_cons_of_ne_nil hne
  unfold cutOperator at h ⊢
  split
  · rename_i text kind hfind
    rw [hfind] at h
    have hs : startsWith text.toList (c :: w ++ x :: z) = true := by simpa using List.find?_some hfind
    obtain ⟨rest, hrest⟩ := exists_eq_append_of_startsWith hs
    refine hoperators _ (List.mem_of_find?_eq_some hfind) x ?_ hx
    simp only at h ⊢
    rw [← String.length_toList] at h
    cases htext : text.toList with
    | nil =>
      rw [htext] at h
      cases h
    | cons e t =>
      rw [htext] at h hrest
      rw [List.cons_append, List.cons_append] at hrest
      have htail := (List.cons.inj hrest).2
      have hget := congrArg (·[w.length]?) htail
      simp only [List.getElem?_append_right (Nat.le_refl _), Nat.sub_self, List.getElem?_cons_zero] at hget
      rw [List.getElem?_append_left (by simpa using h)] at hget
      exact List.mem_of_getElem? hget.symm
  · rename_i hfind
    rw [hfind] at h
    simp only [List.cons_append, List.length_cons] at h
    omega

theorem stops_mark (hx : x ∈ ['/', '#', '*']) (z : List Char) : Stops (x :: z) where
  halts e he := by
    obtain rfl : x = e := Option.some.inj he
    exact (by decide : ∀ x ∈ ['/', '#', '*'], isNameChar x = false ∧ x ∉ ['\\', '.', '+', '-']) x hx
  head e he := by
    obtain rfl : x = e := Option.some.inj he
    exact (by decide : ∀ x ∈ ['/', '#', '*'], x ∉ [' ', '\t', ')', '>', '[']) x hx

theorem kind_of_mark_inside (hx : x ∈ ['/', '#', '*']) (hne : w ≠ [])
    (h : w.length < (s.cutPhp (w ++ x :: z)).length) :
    (s.cutPhp (w ++ x :: z)).kind = .quoted ∨ (s.cutPhp (w ++ x :: z)).kind.isComment = true ∨
      (s.cutPhp (w ++ x :: z)).kind = .operator ∧ x = '*' := by
  obtain ⟨c, v, hcv⟩ := List.exists_cons_of_ne_nil (l := w ++ x :: z) (by simp)
  have hform := s.cutPhp_form c v
  rw [← hcv] at hform
  have hcross := hform.crosses hne (stops_mark hx z) h
  generalize s.cutPhp (w ++ x :: z) = cut at h hcross
  generalize htext : w ++ x :: z = text at hcross
  cases hcross with
  | quoted | heredoc => exact .inl rfl
  | lineComment | emptyComment | docOpen | blockComment => exact .inr (.inl rfl)
  | blank e t =>
    have hmem : x ∈ (e :: t).take (blankLength (e :: t)) := by
      rw [← htext]
      exact mem_take_of_length_lt (by rw [htext]; exact h)
    exact absurd (mem_take_blankLength hmem)
      ((by decide : ∀ x ∈ ['/', '#', '*'], x ∉ [' ', '\t', '\r', '\n']) x hx)
  | operator e t =>
    rw [← htext] at h ⊢
    exact .inr (.inr (star_of_operator s.last hx hne h))

theorem kind_of_star (z : List Char) : (s.cutPhp ('*' :: z)).kind = .operator := by
  have hoperators : ∀ o ∈ operators, o.1.toList.head? = some '*' → o.2 = .operator := by decide
  have hcut : s.cutPhp ('*' :: z) = cutOperator s.last ('*' :: z) := by
    have hword : isNameStart '*' = false := by decide
    simp [cutPhp, startsWith, after?, hword]
  rw [hcut, cutOperator]
  split
  · rename_i text kind hfind
    have hs : startsWith text.toList ('*' :: z) = true := by simpa using List.find?_some hfind
    obtain ⟨rest, hrest⟩ := exists_eq_append_of_startsWith hs
    refine hoperators _ (List.mem_of_find?_eq_some hfind) ?_
    cases htext : text.toList with
    | nil =>
      have := operators_length_pos _ (List.mem_of_find?_eq_some hfind)
      rw [← String.length_toList, htext] at this
      cases this
    | cons e t =>
      rw [htext, List.cons_append] at hrest
      rw [(List.cons.inj hrest).1]
      rfl
  · rfl

theorem kind_of_mark_first (h : MarkAhead y) :
    (s.cutPhp y).kind = .openAttribute ∨ (s.cutPhp y).kind.isComment = true ∨
      (s.cutPhp y).kind = .operator ∧ y.head? = some '*' := by
  cases h with
  | slashes z => exact .inr (.inl rfl)
  | hash z =>
    by_cases hz : z.head? = some '['
    · obtain ⟨t, rfl⟩ := List.head?_eq_some_iff.1 hz
      exact .inl rfl
    · refine .inr (.inl ?_)
      cases z with
      | nil => rfl
      | cons e z =>
        have he : e ≠ '[' := fun he => hz (by rw [he]; rfl)
        simp [cutPhp, he, Kind.isComment, Kind.isTrivia]
  | block z =>
    refine .inr (.inl ?_)
    rcases z with - | ⟨e, z⟩
    · rfl
    by_cases he : e = '*'
    · subst he
      rcases z with - | ⟨e, z⟩
      · rfl
      by_cases he : e = '/'
      · subst he
        rfl
      · simp [cutPhp, he, Kind.isComment, Kind.isTrivia]
    · simp [cutPhp, he, Kind.isComment, Kind.isTrivia]
  | star z => exact .inr (.inr ⟨kind_of_star z, rfl⟩)

theorem isComment_cutDoc (lineStart hasText : Bool) (c : Char) (cs : List Char) :
    (cutDoc lineStart hasText (c :: cs)).kind.isComment = true := by
  rw [cutDoc_cons]
  split_ifs <;> rfl

/-- A mark of a comment stands in a comment, or in what only looks like one. -/
theorem kind_of_mark (hmark : MarkAhead y) (h : w.length < (s.cut (w ++ y)).length) :
    (s.cut (w ++ y)).kind ∈ [.html, .quoted, .openAttribute] ∨
      (s.cut (w ++ y)).kind.isComment = true ∨
        (s.cut (w ++ y)).kind = .operator ∧ y.head? = some '*' := by
  obtain ⟨x, z, rfl, hx⟩ := hmark.head
  cases hm : s.mode with
  | html =>
    rw [Lexer.cut, hm] at h ⊢
    simp only [cutHtml] at h ⊢
    split
    · rename_i n hopen
      rw [hopen] at h
      have hmark := (by decide : ∀ x ∈ ['/', '#', '*'], x.toLower ∉ "<?php".toList ∧ x ∉ "<?=".toList) x hx
      exact absurd h (Nat.not_lt.2 (openTagLength?_le hmark.1 hmark.2 hopen))
    · exact .inl List.mem_cons_self
  | php =>
    rw [Lexer.cut, hm] at h ⊢
    simp only at h ⊢
    rcases List.eq_nil_or_concat w with rfl | ⟨v, e, rfl⟩
    · rcases kind_of_mark_first (s := s) hmark with hk | hk | hk
      · rw [List.nil_append, hk]
        exact .inl (by decide)
      · exact .inr (.inl hk)
      · exact .inr (.inr hk)
    · rcases kind_of_mark_inside hx (by simp) h with hk | hk | ⟨hk, rfl⟩
      · rw [hk]
        exact .inl (by decide)
      · exact .inr (.inl hk)
      · exact .inr (.inr ⟨hk, rfl⟩)
  | doc lineStart hasText =>
    obtain ⟨c, v, hcv⟩ := List.exists_cons_of_ne_nil (l := w ++ x :: z) (by simp)
    rw [Lexer.cut, hm, hcv]
    exact .inr (.inl (isComment_cutDoc lineStart hasText c v))

/-! ### Words in comments -/

theorem isBlank_of_isTagChar (hc : isTagChar c = true) : Text.isBlank c = false := by
  simp only [isTagChar, Bool.or_eq_true, beq_iff_eq] at hc
  rcases hc with (((hc | rfl) | rfl) | rfl) | rfl
  · delta Char.isAlphanum Char.isAlpha Char.isUpper Char.isLower Char.isDigit at hc
    simp only [Bool.or_eq_true, Bool.and_eq_true, decide_eq_true_eq, ge_iff_le,
      UInt32.le_iff_toNat_le] at hc
    change ((65 ≤ c.toNat ∧ c.toNat ≤ 90) ∨ 97 ≤ c.toNat ∧ c.toNat ≤ 122) ∨
      48 ≤ c.toNat ∧ c.toNat ≤ 57 at hc
    rw [← Bool.not_eq_true]
    intro hblank
    simp only [Text.isBlank, Bool.or_eq_true, Bool.and_eq_true, decide_eq_true_eq, beq_iff_eq] at hblank
    omega
  all_goals decide

theorem ne_of_isTagChar (hc : isTagChar c = true) : c ∉ ['\n', '\r', '?', '/', '*', ' ', '\t'] := by
  intro hmem
  have hstop := (by decide : ∀ c ∈ ['\n', '\r', '?', '/', '*', ' ', '\t'], isTagChar c = false) c hmem
  rw [hstop] at hc
  cases hc

theorem docLine_word (hc : isTagChar c = true) (cs : List Char) :
    docLine (c :: cs) = c :: docLine cs := by
  have hne := ne_of_isTagChar hc
  simp only [List.mem_cons, List.not_mem_nil, or_false, not_or] at hne
  rw [docLine, if_neg (by simp [startsWith, after?, hne.1, Ne.symm hne.2.2.2.2.1])]

theorem docTextLength_word (hd : isTagChar d = true) (hc : isTagChar c = true)
    (h : u.length < docTextLength (u ++ d :: c :: z)) :
    u.length + 1 < docTextLength (u ++ d :: c :: z) := by
  have hline : docLine (u ++ d :: c :: z) = u ++ d :: c :: docLine z := by
    rcases List.eq_nil_or_concat u with rfl | ⟨v, e, rfl⟩
    · simp [docLine_word, hd, hc]
    · have htrim := length_dropTail_le Text.isBlank (docLine (v.concat e ++ d :: c :: z))
      rw [docTextLength, trimEnd] at h
      rw [(docLine_append_of_le (by simp only [List.length_concat] at h ⊢; omega)).1, docLine_word hd,
        docLine_word hc]
  have hlt := lt_length_trimEnd (u := u ++ [d]) (v := docLine z) (isBlank_of_isTagChar hc)
  rw [List.append_assoc, List.singleton_append, ← hline, List.length_append] at hlt
  rw [docTextLength]
  exact Nat.lt_of_lt_of_le hlt (Nat.le_max_right _ _)

theorem length_cutPhp_ne_of_word (hk : (s.cutPhp (u ++ d :: c :: z)).kind.isComment = true)
    (hd : isTagChar d = true) (hc : isTagChar c = true) :
    (s.cutPhp (u ++ d :: c :: z)).length ≠ u.length + 1 := by
  intro hlength
  have hdne := ne_of_isTagChar hd
  have hcne := ne_of_isTagChar hc
  simp only [List.mem_cons, List.not_mem_nil, or_false, not_or] at hdne hcne
  obtain ⟨e, v, hev⟩ := List.exists_cons_of_ne_nil (l := u ++ d :: c :: z) (by simp)
  have htrivia := (s.cutPhp_form e v).trivia (by
    rw [← hev]
    simp only [Kind.isComment, Bool.and_eq_true] at hk
    exact hk.1)
  rw [← hev] at htrivia
  generalize s.cutPhp (u ++ d :: c :: z) = cut at hk hlength htrivia
  generalize htext : u ++ d :: c :: z = text at htrivia
  have hsplit : text = (u ++ [d]) ++ c :: z := by
    rw [← htext, List.append_assoc]
    rfl
  have hend : cut.length = (u ++ [d]).length := by rw [hlength, List.length_append]; rfl
  cases htrivia with
  | blank => cases hk
  | line a t =>
    rw [hsplit] at hend
    rcases endsComment_of_lineCommentLength hend with hend | ⟨y, hy, -⟩
    · rcases hend with hnil | hfeed | htag
      · cases hnil
      · exact hcne.1 (Option.some.inj hfeed)
      · obtain ⟨t, ht⟩ := exists_eq_append_of_startsWith htag
        exact hcne.2.2.1 (List.cons.inj ht).1
    · exact hcne.2.1 (List.cons.inj hy).1
  | block t =>
    rw [hsplit] at hend
    have hslash := slash_of_block hend
    rw [List.getLast?_concat] at hslash
    exact hdne.2.2.2.1 (Option.some.inj hslash)
  | doc t =>
    obtain ⟨a, b, rfl⟩ := List.length_eq_two.1 (Nat.succ.inj hlength).symm
    simp only [List.cons_append, List.nil_append, List.cons.injEq] at htext
    exact hdne.2.2.2.2.1 htext.2.2.1

theorem length_takeWhile_ne {p : Char → Bool} (hc : p c = true) (u z : List Char) :
    ((u ++ c :: z).takeWhile p).length ≠ u.length := by
  intro hlength
  have hprefix : (u ++ c :: z).takeWhile p = u := by
    rw [List.prefix_iff_eq_take.1 (List.takeWhile_prefix p), hlength, List.take_left]
  have hhead := (takeWhile_append_eq_left.1 hprefix).2 c rfl
  rw [hc] at hhead
  cases hhead

theorem length_cutDoc_ne_of_word (lineStart hasText : Bool) (hd : isTagChar d = true)
    (hc : isTagChar c = true) :
    (cutDoc lineStart hasText (u ++ d :: c :: z)).length ≠ u.length + 1 := by
  intro hlength
  have hdne := ne_of_isTagChar hd
  simp only [List.mem_cons, List.not_mem_nil, or_false, not_or] at hdne
  -- the last of the cases: the piece is text
  have htext : ¬ docTextLength (u ++ d :: c :: z) = u.length + 1 := by
    intro htext
    have := docTextLength_word hd hc (u := u) (z := z) (by omega)
    omega
  rcases u with - | ⟨e, v⟩
  · rw [List.nil_append, cutDoc_cons] at hlength
    have hat : d ≠ '@' := by
      rintro rfl
      cases hd
    simp only [hdne, hat, false_and, or_false, if_false] at hlength
    exact htext hlength
  · have hone : ¬ 1 = v.length + 1 + 1 := by omega
    rw [List.cons_append, cutDoc_cons] at hlength
    simp only [List.length_cons] at hlength
    split_ifs at hlength with hclose hfeed hreturn hcrlf hgap hstar htag
    · obtain rfl : v = [] := List.length_eq_zero_iff.1 (Nat.succ.inj (Nat.succ.inj hlength)).symm
      exact hdne.2.2.2.1 (Option.some.inj hclose.2)
    · exact hone hlength
    · obtain rfl : v = [] := List.length_eq_zero_iff.1 (Nat.succ.inj (Nat.succ.inj hlength)).symm
      exact hdne.1 (Option.some.inj hcrlf)
    · exact hone hlength
    · -- a gap ends before the word
      have hstop := takeWhile_stop (p := fun x => decide (x = ' ') || decide (x = '\t'))
        (y := d :: c :: z) (by simp [hdne]) (e :: v)
      rw [List.cons_append] at hstop
      have hle := length_takeWhile_le (fun x => decide (x = ' ') || decide (x = '\t')) (e :: v)
      simp only [hstop, List.length_cons] at hlength hle
      omega
    · exact hone hlength
    · -- the name of a tag ends behind it
      refine length_takeWhile_ne hc (v ++ [d]) z ?_
      rw [List.append_assoc, List.singleton_append, List.length_append]
      simp only at hlength
      rw [List.length_singleton]
      omega
    · exact htext hlength

theorem length_ne_of_word (hk : (s.cut (u ++ d :: c :: z)).kind.isComment = true)
    (hd : isTagChar d = true) (hc : isTagChar c = true) :
    (s.cut (u ++ d :: c :: z)).length ≠ u.length + 1 := by
  cases hm : s.mode with
  | html =>
    rw [Lexer.cut, hm] at hk
    simp only [cutHtml] at hk
    split at hk <;> cases hk
  | php =>
    rw [Lexer.cut, hm] at hk ⊢
    exact length_cutPhp_ne_of_word hk hd hc
  | doc lineStart hasText =>
    rw [Lexer.cut, hm]
    exact length_cutDoc_ne_of_word lineStart hasText hd hc

theorem isDoc_behind_piece (hne : cs ≠ []) (hk : (s.cut cs).kind.isComment = true)
    (hcomment : (s.cut cs).kind ≠ .comment) (hclose : (s.cut cs).kind ≠ .docClose) :
    (s.cut cs).mode.isDoc = true := by
  obtain ⟨c, cs, rfl⟩ := List.exists_cons_of_ne_nil hne
  cases hm : s.mode with
  | html =>
    rw [Lexer.cut, hm] at hk
    simp only [cutHtml] at hk
    split at hk <;> cases hk
  | php =>
    rw [Lexer.cut, hm] at hk hcomment ⊢
    simp only [Kind.isComment, Bool.and_eq_true, bne_iff_ne] at hk hcomment ⊢
    have htrivia := (s.cutPhp_form c cs).trivia hk.1
    generalize s.cutPhp (c :: cs) = cut at hk hcomment htrivia
    generalize c :: cs = text at htrivia
    cases htrivia with
    | blank => exact absurd rfl hk.2
    | line | block => exact absurd rfl hcomment
    | doc => rfl
  | doc lineStart hasText =>
    rw [Lexer.cut, hm] at hclose ⊢
    simp only at hclose ⊢
    rcases cutDoc_cases lineStart hasText c cs with ⟨_, -, heq⟩ | hpiece
    · rw [heq] at hclose
      exact absurd rfl hclose
    · exact hpiece.stays

/-- The characters from `a` to `b` stand in a comment. -/
def Commented (ls : List (Kind × List Char)) (a b : Nat) : Prop :=
  ∃ pre l post, ls = pre ++ l :: post ∧ l.1.isComment = true ∧ (spelled pre).length ≤ a ∧
    b ≤ (spelled pre).length + l.2.length

/-- A comment ends behind `q`, and not behind `a`. -/
def EndsBetween (ls : List (Kind × List Char)) (q a : Nat) : Prop :=
  ∃ pre l post, ls = pre ++ l :: post ∧ (l.1 = .comment ∨ l.1 = .docClose) ∧
    q < (spelled pre).length + l.2.length ∧ (spelled pre).length + l.2.length ≤ a

theorem Commented.cons {ls : List (Kind × List Char)} {a b : Nat} (h : Commented ls a b)
    (l : Kind × List Char) : Commented (l :: ls) (l.2.length + a) (l.2.length + b) := by
  obtain ⟨pre, m, post, rfl, hm, ha, hb⟩ := h
  refine ⟨l :: pre, m, post, rfl, hm, ?_, ?_⟩
  all_goals
    rw [spelled_cons, List.length_append]
    omega

theorem EndsBetween.cons {ls : List (Kind × List Char)} {q a : Nat} (h : EndsBetween ls q a)
    (l : Kind × List Char) : EndsBetween (l :: ls) (l.2.length + q) (l.2.length + a) := by
  obtain ⟨pre, m, post, rfl, hm, hq, ha⟩ := h
  refine ⟨l :: pre, m, post, rfl, hm, ?_, ?_⟩
  all_goals
    rw [spelled_cons, List.length_append]
    omega

section Word

variable {m : List Char} {l : Kind × List Char} {post : List (Kind × List Char)}

theorem word_le_comment (hword : ∀ c ∈ m, isTagChar c = true) (hrun : s.run cs = l :: post)
    (hk : l.1.isComment = true) (htext : l.2 ++ spelled post = w ++ (m ++ y))
    (h : w.length < l.2.length) : w.length + m.length ≤ l.2.length := by
  by_contra hlt
  obtain ⟨cut, hcut, hkind, hlength, -, -⟩ := cut_of_run hrun
  obtain ⟨k, hk'⟩ : ∃ k, l.2.length = w.length + k + 1 := ⟨l.2.length - w.length - 1, by omega⟩
  obtain ⟨hkm, hkm'⟩ : k < m.length ∧ k + 1 < m.length := by omega
  have hsplit : m = m.take k ++ m[k] :: m[k + 1] :: m.drop (k + 2) := by
    rw [← List.drop_eq_getElem_cons hkm', ← List.drop_eq_getElem_cons hkm, List.take_append_drop]
  have hwhole : w ++ (m ++ y) = (w ++ m.take k) ++ m[k] :: m[k + 1] :: (m.drop (k + 2) ++ y) :=
    (congrArg (fun t => w ++ (t ++ y)) hsplit).trans (by rw [List.append_assoc, List.append_assoc]; rfl)
  rw [htext, hwhole] at hcut
  refine length_ne_of_word (s := s) (u := w ++ m.take k) (d := m[k]) (c := m[k + 1])
    (z := m.drop (k + 2) ++ y) ?_ (hword _ (List.getElem_mem _)) (hword _ (List.getElem_mem _)) ?_
  · rw [hcut, ← hkind]
    exact hk
  · rw [hcut, hlength, hk', List.length_append, List.length_take, Nat.min_eq_left (Nat.le_of_lt hkm)]

/-- From inside of a comment, a word ahead stands in it, or the comment ends before the word. -/
theorem commented_or_ends (hm : m ≠ []) (hword : ∀ c ∈ m, isTagChar c = true) {q : Nat}
    (hrun : s.run cs = l :: post) (hk : l.1.isComment = true) (hq : q < l.2.length)
    (htext : l.2 ++ spelled post = w ++ (m ++ y)) :
    Commented (l :: post) w.length (w.length + m.length) ∨ EndsBetween (l :: post) q w.length := by
  induction post generalizing s cs l w q with
  | nil =>
    have hlength := congrArg List.length htext
    have hpos := List.length_pos_iff.2 hm
    simp only [spelled_nil, List.append_nil, List.length_append] at hlength
    exact .inl ⟨[], l, [], rfl, hk, Nat.zero_le _, by simp only [spelled_nil, List.length_nil]; omega⟩
  | cons l' post ih =>
    rcases Nat.lt_or_ge w.length l.2.length with hlt | hle
    · have hend := word_le_comment hword hrun hk htext hlt
      exact .inl ⟨[], l, _, rfl, hk, Nat.zero_le _, by simpa using hend⟩
    by_cases hends : l.1 = .comment ∨ l.1 = .docClose
    · exact .inr ⟨[], l, _, rfl, hends, by simpa using hq, by simpa using hle⟩
    -- the comment goes on with the next lexeme
    obtain ⟨cut, hcut, hkind, hlength, hne, hrest⟩ := cut_of_run hrun
    rw [not_or, hkind, ← hcut] at hends
    rw [hkind, ← hcut] at hk
    have hdoc := isDoc_behind_piece (by simp [hne]) hk hends.1 hends.2
    rw [hcut] at hdoc
    have hk' : l'.1.isComment = true := by
      obtain ⟨cut', hcut', hkind', -, hne', -⟩ := cut_of_run hrest
      obtain ⟨lineStart, hasText, hmode⟩ := exists_of_isDoc hdoc
      obtain ⟨c, v, hcv⟩ := List.exists_cons_of_ne_nil (l := l'.2 ++ spelled post) (by simp [hne'])
      rw [hkind', ← hcut', hcv, Lexer.cut]
      simp only [advance, hmode]
      exact isComment_cutDoc lineStart hasText c v
    obtain ⟨w', rfl⟩ : ∃ w', w = l.2 ++ w' := by
      have hprefix : l.2 <+: w ++ (m ++ y) := ⟨_, htext⟩
      obtain ⟨w', hw'⟩ := List.prefix_of_prefix_length_le hprefix (List.prefix_append w _) hle
      exact ⟨w', hw'.symm⟩
    rw [List.append_assoc, List.append_cancel_left_eq, spelled_cons] at htext
    have hpos := List.length_pos_iff.2 (ne_nil_of_mem_run (l := l') (by rw [hrest]; exact List.mem_cons_self))
    rw [List.length_append]
    rcases ih hrest hk' hpos htext with hin | hout
    · left
      have := hin.cons l
      rwa [Nat.add_assoc]
    · right
      obtain ⟨pre, n, rest, heq, hn, hlt, hend⟩ := hout.cons l
      exact ⟨pre, n, rest, heq, hn, by omega, hend⟩

end Word

end Lexer

end PhpStyle
