import PhpStyle.Proofs.OperandContext

/-!
# Words that touch operands

A word such as `return` or `or` may touch an operand that does not go on with it. What stands before
the operand is then read alike before every other that does not either (`Reads.retail_touched`), for
a text that ends with a letter leaves little to see behind it (`EndsWord`); and the operand itself is
read alike before the word, unless it is a number that the word goes on with
(`cutPhp_of_withstands`).
-/

namespace PhpStyle

open Text

namespace Lexer

variable {s t : Lexer} {c d e : Char} {u w x y y' z : List Char}
  {l p : Kind × List Char} {ls rest : List (Kind × List Char)}

theorem startsWith_of_letter {a : Char} (ha : a ∈ w) (hl : a ∉ u) (y y' : List Char) :
    startsWith u (w ++ y') = startsWith u (w ++ y) := by
  by_cases hle : u.length ≤ w.length
  · rw [startsWith_append_of_le hle, startsWith_append_of_le hle]
  · have hno : ∀ y, startsWith u (w ++ y) = false := by
      intro y
      refine startsWith_eq_false fun t ht => hl ?_
      have hfront : w <+: u ++ t := ht ▸ List.prefix_append w y
      exact (List.prefix_of_prefix_length_le hfront (List.prefix_append u t) (by omega)).subset ha
    rw [hno, hno]

/-- A text that may touch a word: it starts with a mark of its own. -/
structure Aloof (y : List Char) : Prop where
  ends : EndsName y
  head : ∃ c z, y = c :: z ∧ c ∉ [' ', '\t', '\r', '\n', ')', '?']

theorem endsDecimal_of_letter (hc : c.isAlpha = true) (he : c.toLower ≠ 'e') (z : List Char) :
    EndsDecimal (c :: z) := by
  rintro d ⟨⟩
  have hmarks : ∀ e ∈ ['_', '.', '+', '-'], c ≠ e := by
    have hmarks : ∀ e ∈ ['_', '.', '+', '-'], e.isAlpha = false := by decide
    rintro e he rfl
    rw [hmarks c he] at hc
    cases hc
  have hletters : ∀ e ∈ ['e', 'E'], c ≠ e := by
    have hletters : ∀ e ∈ ['e', 'E'], e.toLower = 'e' := by decide
    rintro e he' rfl
    exact he (hletters c he')
  simp only [List.mem_cons, List.not_mem_nil, or_false, forall_eq_or_imp, forall_eq] at hmarks hletters
  simp [isDigitOrBar, not_isDigit_of_isNameStart (isNameStart_of_isAlpha hc), hmarks, hletters]

theorem first_of_conjunction (h : lower u ∈ conjunctions) : EndsDecimal u := by
  have hheads : ∀ w ∈ conjunctions, w.head? ≠ some 'e' := by decide
  rintro c hc
  obtain ⟨v, rfl⟩ := List.head?_eq_some_iff.1 hc
  exact endsDecimal_of_letter ((isAlpha_of_conjunction h).2 c List.mem_cons_self)
    (fun he => hheads _ h (congrArg some he)) v c rfl

theorem last_of_conjunction (h : lower (u ++ [c]) ∈ conjunctions) :
    EndsDecimal [c] ∧ isRadixMark c = false := by
  have hends : ∀ w ∈ conjunctions, ∀ d ∈ w.getLast?, d ≠ 'e' ∧ isRadixMark d = false := by decide
  have hlast : (lower (u ++ [c])).getLast? = some c.toLower := by simp [lower]
  obtain ⟨he, hmark⟩ := hends _ h c.toLower hlast
  refine ⟨endsDecimal_of_letter ((isAlpha_of_conjunction h).2 c (by simp)) he [], ?_⟩
  by_contra hradix
  simp only [isRadixMark, Bool.not_eq_false, Bool.or_eq_true, beq_iff_eq] at hradix
  rcases hradix with ((((rfl | rfl) | rfl) | rfl) | rfl) | rfl <;> exact absurd hmark (by decide)

theorem heredocLength?_of_mark (hs : startsWith "<<<".toList w = true) (hline : '\n' ∉ w)
    (he : isNameChar e = false) (hblank : isBlank e = false) (hquote : isQuoteMark e = false) :
    heredocLength? (w ++ e :: v) = none := by
  have hfeed : e ≠ '\n' := by
    rintro rfl
    cases hblank
  have hthree : 3 ≤ w.length := length_le_of_startsWith hs
  refine heredocLength?_eq_none he (mem_trimBoth (mem_trim ?_ hblank) hquote)
  rw [takeWhile_line hline, List.drop_append_of_le_length hthree]
  simp [hfeed]

/-- The text `d :: w` ends with a letter of a word. -/
structure EndsWord (d : Char) (w : List Char) (a : Char) : Prop where
  last : (d :: w).getLast? = some a
  alpha : a.isAlpha = true
  decimal : EndsDecimal [a]
  radix : isRadixMark a = false

namespace EndsWord

variable {a : Char}

theorem mem (h : EndsWord d w a) : a ∈ d :: w :=
  List.mem_of_getLast? h.last

theorem not_mem (h : EndsWord d w a) (hu : ∀ c ∈ u, c.isAlpha = false) : a ∉ u := by
  intro ha
  have halpha := h.alpha
  rw [hu a ha] at halpha
  cases halpha

theorem ne (h : EndsWord d w a) (hc : c.isAlpha = false) : c ≠ a := by
  rintro rfl
  exact h.not_mem (u := [c]) (by simpa using hc) List.mem_cons_self

theorem split (h : EndsWord d w a) (hd : d.isAlpha = false) : ∃ w', w = w' ++ [a] := by
  have hlast := h.last
  rcases List.eq_nil_or_concat w with rfl | ⟨w', b, rfl⟩
  · exact absurd (Option.some.inj hlast) (h.ne hd)
  · rw [List.concat_eq_append, ← List.cons_append, List.getLast?_concat] at hlast
    exact ⟨w', by rw [List.concat_eq_append, Option.some.inj hlast]⟩

theorem startsWith (h : EndsWord d w a) (hu : ∀ c ∈ u, c.isAlpha = false) (y y' : List Char) :
    Text.startsWith u (d :: (w ++ y')) = Text.startsWith u (d :: (w ++ y)) :=
  startsWith_of_letter (w := d :: w) h.mem (h.not_mem hu) y y'

theorem blankLength (h : EndsWord d w a) (y y' : List Char) :
    Lexer.blankLength (d :: (w ++ y')) = Lexer.blankLength (d :: (w ++ y)) := by
  have hno : ¬ ∀ c ∈ d :: w, c ∈ [' ', '\t', '\r'] := fun hall =>
    h.not_mem (u := [' ', '\t', '\r']) (by decide) (hall a h.mem)
  rw [← List.cons_append, ← List.cons_append, blankLength_append, blankLength_append, if_neg hno,
    if_neg hno]

theorem number (h : EndsWord d w a) (hd : (d = '.' || d.isDigit) = true) (hy : EndsName y)
    (hy' : EndsName y') : (w ++ y').head?.any Char.isDigit = (w ++ y).head?.any Char.isDigit ∧
      cutNumber (d :: (w ++ y')) = cutNumber (d :: (w ++ y)) := by
  have hmark : d.isAlpha = false := by
    rw [← Bool.not_eq_true]
    intro halpha
    have hpoint : d ≠ '.' := by
      rintro rfl
      cases halpha
    simp [hpoint, not_isDigit_of_isNameStart (isNameStart_of_isAlpha halpha)] at hd
  obtain ⟨w', rfl⟩ := h.split hmark
  refine ⟨?_, ?_⟩
  · cases w' <;> rfl
  · rw [List.append_assoc, List.append_assoc, ← List.cons_append, ← List.cons_append]
    exact cutNumber_letter h.decimal h.radix hy hy' (d :: w')

/-- A comment that ends before the letter ends there before all texts. -/
theorem lineCommentLength (h : EndsWord d w a) (hd : d = '#' ∨ d = '/')
    (hlt : Lexer.lineCommentLength (d :: (w ++ y)) < w.length + 1) (y' : List Char) :
    Lexer.lineCommentLength (d :: (w ++ y')) = Lexer.lineCommentLength (d :: (w ++ y)) := by
  have hmark : d.isAlpha = false := by rcases hd with rfl | rfl <;> rfl
  obtain ⟨w', rfl⟩ := h.split hmark
  rw [List.append_assoc, List.singleton_append, ← List.cons_append] at hlt ⊢
  rw [List.append_assoc, List.singleton_append, ← List.cons_append]
  simp only [List.length_append, List.length_singleton] at hlt
  exact lineCommentLength_congr (h.ne (by decide)).symm
    (fun heq => absurd heq.symm (h.ne (by decide))) (fun heq => absurd heq.symm (h.ne (by decide)))
    (Nat.le_of_lt_succ hlt)

theorem blockCommentLength (h : EndsWord d w a)
    (hs : Text.startsWith "/*".toList (d :: (w ++ c :: z)) = true)
    (hle : Lexer.blockCommentLength (d :: (w ++ c :: z)) ≤ w.length + 1) (y' : List Char) :
    Lexer.blockCommentLength (d :: (w ++ y')) = Lexer.blockCommentLength (d :: (w ++ c :: z)) := by
  have hlength : 2 ≤ (d :: w).length := by
    obtain ⟨t, ht⟩ := exists_eq_append_of_startsWith hs
    have hd : d = '/' := (List.cons.inj ht).1
    obtain ⟨w', rfl⟩ := h.split (by rw [hd]; rfl)
    simp
  exact blockCommentLength_congr (w := d :: w) hlength hle _

/-- Without a line feed, and without a quote behind the word, there is no heredoc. -/
theorem heredocLength? (h : EndsWord d w a)
    (hs : Text.startsWith "<<<".toList (d :: (w ++ c :: z)) = true)
    (hle : ∀ n, Lexer.heredocLength? (d :: (w ++ c :: z)) = some n → n ≤ w.length + 1)
    (hc : isNameChar c = false) (he : isNameChar e = false) (hblank : isBlank e = false)
    (hquote : isQuoteMark e = true → Text.startsWith "<<<".toList (d :: w) = true → '\n' ∈ d :: w)
    (v : List Char) :
    Lexer.heredocLength? (d :: (w ++ e :: v)) = Lexer.heredocLength? (d :: (w ++ c :: z)) := by
  by_cases hfeed : '\n' ∈ d :: w
  · exact heredocLength?_congr (w := d :: w) (by rintro f ⟨⟩; exact hc) (by rintro f ⟨⟩; exact he)
      hfeed fun n hn => ⟨hle n hn, fun hnil => absurd hnil (List.cons_ne_nil c z)⟩
  · have hnone : Lexer.heredocLength? (d :: (w ++ c :: z)) = none := by
      by_contra hsome
      obtain ⟨n, hn⟩ := Option.ne_none_iff_exists'.1 hsome
      exact hfeed (newline_of_heredocLength? (w := d :: w) hn (hle n hn))
    have hhere : Text.startsWith "<<<".toList (d :: w) = true := by
      rw [← hs, ← List.append_nil w]
      simpa using h.startsWith (u := "<<<".toList) (by decide) (c :: z) []
    rw [hnone]
    refine heredocLength?_of_mark (w := d :: w) hhere hfeed he hblank ?_
    by_contra hq
    exact hfeed (hquote (by simpa using hq) hhere)

theorem operator_le (h : EndsWord d w a) {o : String × Kind} (ho : o ∈ operators)
    (hs : Text.startsWith o.1.toList (d :: (w ++ y')) = true) : o.1.length ≤ w.length + 1 := by
  have hsigns : ∀ o ∈ operators, ∀ c ∈ o.1.toList, c.isAlpha = false := by decide
  by_contra hlong
  refine h.not_mem (hsigns o ho) ?_
  obtain ⟨t, ht⟩ := exists_eq_append_of_startsWith hs
  have hfront : d :: w <+: o.1.toList ++ t := by
    rw [← ht, ← List.cons_append]
    exact List.prefix_append _ _
  refine (List.prefix_of_prefix_length_le hfront (List.prefix_append _ t) ?_).subset h.mem
  rw [String.length_toList, List.length_cons]
  omega

end EndsWord

theorem Aloof.castLength? (hy : Aloof y) (hy' : Aloof y') (d : Char) (w : List Char) :
    Lexer.castLength? (d :: (w ++ y')) = Lexer.castLength? (d :: (w ++ y)) := by
  have hstops : ∀ {y}, Aloof y → ∀ c, y.head? = some c → c.isAlpha = false ∧ c ∉ [' ', '\t'] := by
    rintro y ⟨hends, e, z, rfl, he⟩ c ⟨⟩
    simp only [List.mem_cons, List.not_mem_nil, or_false, not_or] at he ⊢
    exact ⟨hends.stop isNameChar_of_isAlpha e rfl, he.1, he.2.1⟩
  have hparen : ∀ {y}, Aloof y → y.head? ≠ some ')' := by
    rintro y ⟨-, e, z, rfl, he⟩ ⟨⟩
    exact absurd he (by decide)
  exact castLength?_congr (w := d :: w) (hstops hy) (hstops hy')
    (iff_of_false (hparen hy') (hparen hy)) (List.cons_ne_nil d w)

/-- Before a mark that touches a word, no lexeme sees beyond the word, unless the mark is a quote and
a heredoc might begin. -/
theorem Alike.of_letter {a : Char} (hword : EndsWord d w a) (hy : Aloof y) (hy' : Aloof y')
    (hblank : ∀ e ∈ y'.head?, isBlank e = false)
    (hquote : ∀ e ∈ y'.head?, isQuoteMark e = true → startsWith "<<<".toList (d :: w) = true →
      '\n' ∈ d :: w)
    (hline :
      (startsWith "#".toList (d :: (w ++ y)) || startsWith "//".toList (d :: (w ++ y))) = true →
      lineCommentLength (d :: (w ++ y)) < w.length + 1)
    (hview : ∀ q, Peeks s.last ((d :: w).take (s.cutPhp (d :: (w ++ y))).length) q →
      trimStart ((d :: w).drop (s.cutPhp (d :: (w ++ y))).length) ≠ []) :
    Alike s d w y y' where
  lead l hl := by
    have hletters : ∀ l ∈ leads, ∀ c ∈ l.toList, c.isAlpha = false := by decide
    exact hword.startsWith (hletters l hl) y y'
  blank _ _ := hword.blankLength y y'
  name _ := ⟨hy.ends, hy'.ends⟩
  number hd := hword.number hd hy.ends hy'.ends
  quoted _ h := by
    obtain ⟨-, c, z, rfl, -⟩ := hy
    exact quotedTail_congr w h _
  line hs _ := hword.lineCommentLength (head_of_line_comment hs) (hline hs) y'
  block hs h := by
    obtain ⟨-, c, z, rfl, -⟩ := hy
    exact hword.blockCommentLength hs h y'
  heredoc hs h := by
    obtain ⟨hends, c, z, rfl, -⟩ := hy
    obtain ⟨hends', e, v, rfl, -⟩ := hy'
    exact hword.heredocLength? hs h (hends.stop (fun _ => id) c rfl) (hends'.stop (fun _ => id) e rfl)
      (hblank e rfl) (hquote e rfl) v
  cast _ _ := hy.castLength? hy' d w
  operator _ _ ho hs := hword.operator_le ho hs
  view n q hpeeks hn := by
    subst hn
    obtain ⟨f, r, hr⟩ := List.exists_cons_of_ne_nil (hview q hpeeks)
    rw [head?_trimStart_append, head?_trimStart_append, hr]
    rfl

/-- A lexeme of such a text is read alike if it is a word itself, or the letter stands behind it. -/
theorem cutPhp_touched {a : Char} (hword : EndsWord d w a) (hy : Aloof y) (hy' : Aloof y')
    (hblank : ∀ e ∈ y'.head?, isBlank e = false)
    (hquote : ∀ e ∈ y'.head?, isQuoteMark e = true → startsWith "<<<".toList (d :: w) = true →
      '\n' ∈ d :: w)
    (hle : (s.cutPhp (d :: (w ++ y))).length ≤ w.length + 1)
    (hrest : lower ((d :: w).take (s.cutPhp (d :: (w ++ y))).length) ∈ conjunctions ∨
      a ∈ (d :: w).drop (s.cutPhp (d :: (w ++ y))).length) :
    s.cutPhp (d :: (w ++ y')) = s.cutPhp (d :: (w ++ y)) := by
  by_cases hattribute : startsWith "#[".toList (d :: (w ++ y)) = true
  · have hstays := (hword.startsWith (u := "#[".toList) (by decide) y y').trans hattribute
    rw [cutPhp_attribute hattribute, cutPhp_attribute hstays]
  refine (Alike.of_letter hword hy hy' hblank hquote (fun hs => ?_) fun q hpeeks => ?_).cutPhp hle
  · have hmark : d = '#' ∨ d = '/' := head_of_line_comment hs
    have htag : ¬ startsWith "?>".toList (d :: (w ++ y)) = true := by
      rcases hmark with rfl | rfl <;> simp [startsWith, after?]
    rw [cutPhp_eq, if_neg htag, if_neg hattribute, if_pos hs] at hle hrest
    refine Nat.lt_of_le_of_ne hle fun heq => ?_
    rcases hrest with hconjunction | hmem
    · have hd := (isAlpha_of_conjunction hconjunction).2 d (by simp [heq])
      rcases hmark with rfl | rfl <;> cases hd
    · simp [heq] at hmem
  · rcases hrest with hconjunction | hmem
    · exact absurd hpeeks (not_peeks_of_conjunction hconjunction)
    · exact List.ne_nil_of_mem (mem_dropWhile hmem (isBlank_of_isAlpha hword.alpha))

/-- From any of its lexemes on, a text whose last one is a word ends with a letter. The lexeme is that
word, or the letter stands behind it. -/
theorem exists_endsWord (hp : lower p.2 ∈ conjunctions) (hlast : (l :: rest).getLast? = some p)
    (hl : l.2 = d :: u) :
    ∃ a, EndsWord d (u ++ spelled rest) a ∧ (lower l.2 ∈ conjunctions ∨ a ∈ spelled rest) := by
  obtain ⟨hne, hletters⟩ := isAlpha_of_conjunction hp
  obtain ⟨b, a, hb⟩ := List.eq_nil_or_concat p.2 |>.resolve_left hne
  rw [List.concat_eq_append] at hb
  obtain ⟨hdecimal, hradix⟩ := last_of_conjunction (hb ▸ hp)
  refine ⟨a, ⟨?_, hletters a (by simp [hb]), hdecimal, hradix⟩, ?_⟩
  · obtain ⟨ms, hms⟩ := List.getLast?_eq_some_iff.1 hlast
    have hwhole : d :: (u ++ spelled rest) = spelled ms ++ (b ++ [a]) := by
      rw [← List.cons_append, ← hl, ← spelled_cons, hms, spelled_append, ← hb]
      simp
    rw [hwhole, ← List.append_assoc, List.getLast?_concat]
  · rcases List.eq_nil_or_concat rest with rfl | ⟨ms, m, rfl⟩
    · obtain rfl : l = p := by simpa using hlast
      exact .inl hp
    · obtain rfl : m = p := by simpa [List.getLast?_cons] using hlast
      exact .inr (by simp [spelled_append, hb])

/-- A word, and what stands before it, before a mark that touches it. -/
theorem Reads.retail_touched (h : Reads s (ls ++ [p]) y t) (hphp : t.mode = .php)
    (hp : lower p.2 ∈ conjunctions) (hy : Aloof y) (hy' : Aloof y')
    (hblank : ∀ e ∈ y'.head?, isBlank e = false)
    (hquote : ∀ e ∈ y'.head?, isQuoteMark e = true → ∀ w, w <:+ spelled (ls ++ [p]) →
      startsWith "<<<".toList w = true → '\n' ∈ w) :
    Reads s (ls ++ [p]) y' t := by
  refine h.retail hphp fun r l rest hmode hsuffix hreads => ?_
  have hlast : (l :: rest).getLast? = some p := by
    obtain ⟨pre, hpre⟩ := hsuffix
    rw [← List.getLast?_append_of_ne_nil pre (List.cons_ne_nil l rest), hpre, List.getLast?_concat]
  obtain ⟨hne, -, hlength⟩ := hreads.head
  obtain ⟨d, u, hl⟩ := List.exists_cons_of_ne_nil hne
  obtain ⟨a, hword, hrest⟩ := exists_endsWord hp hlast hl
  have hwhole : spelled (l :: rest) = d :: (u ++ spelled rest) := by
    simp [hl]
  have hsuffix' : d :: (u ++ spelled rest) <:+ spelled (ls ++ [p]) := by
    obtain ⟨pre, hpre⟩ := hsuffix
    exact ⟨spelled pre, by rw [← hpre, spelled_append, hwhole]⟩
  have htext : ∀ z, l.2 ++ (spelled rest ++ z) = d :: (u ++ spelled rest ++ z) := by
    simp [hl]
  rw [Lexer.cut, hmode] at hlength
  simp only [htext] at hlength ⊢
  refine cutPhp_touched hword hy hy' hblank (fun e he hq hs => hquote e he hq _ hsuffix' hs) ?_ ?_
  · rw [hlength, hl, List.length_append, List.length_cons]
    omega
  · rwa [hlength, ← hwhole, spelled_cons, List.take_left, List.drop_left]

/-- A lexeme stays as it is before a word that touches it: a string literal, or a number that does
not go on with the word. -/
def withstands (word : List Char) : List Char → Bool
  | [] => false
  | d :: u => isStringMark d ||
      (d.isDigit || d = '.' && u.head?.any Char.isDigit) &&
        (cutNumber (d :: u ++ word)).length = u.length + 1

theorem number_of_withstands (h : withstands w (d :: u) = true) (hd : isStringMark d = false)
    (y : List Char) : s.cutPhp (d :: u ++ y) = cutNumber (d :: u ++ y) ∧
      (cutNumber (d :: u ++ w)).length = (d :: u).length := by
  simp only [withstands, hd, Bool.false_or, Bool.and_eq_true, Bool.or_eq_true,
    decide_eq_true_eq] at h
  obtain ⟨hnumber, hstays⟩ := h
  refine ⟨cutPhp_number ?_, hstays⟩
  rcases hnumber with hd | ⟨rfl, hdigit⟩
  · rw [hd, Bool.true_or]
  · obtain ⟨e, he, hstart⟩ := (Option.any_eq_true _ _).1 hdigit
    obtain ⟨r, rfl⟩ := List.head?_eq_some_iff.1 he
    simp [hstart]

theorem kind_of_withstands (h : withstands w u = true) (y : List Char) :
    (s.cutPhp (u ++ y)).kind ≠ .name := by
  cases u with
  | nil => cases h
  | cons d u =>
    cases hd : isStringMark d with
    | true =>
      rw [List.cons_append, cutPhp_string hd]
      simp
    | false =>
      rw [(number_of_withstands h hd y).1]
      rcases kind_cutNumber (d :: u ++ y) with hk | hk <;> rw [hk] <;> decide

theorem cutPhp_of_withstands (h : withstands w u = true) (hw : EndsDecimal w) (hne : w ≠ [])
    (hlength : (s.cutPhp (u ++ c :: z)).length = u.length) (v : List Char) :
    s.cutPhp (u ++ (w ++ v)) = s.cutPhp (u ++ [';']) := by
  cases u with
  | nil => cases h
  | cons d u =>
    cases hd : isStringMark d with
    | true =>
      rw [List.cons_append, cutPhp_string hd, List.length_cons] at hlength
      have htail : quotedTail d (u ++ c :: z) = u.length := by
        simp only at hlength
        omega
      have hend : ∀ y, quotedTail d (u ++ y) = u.length := fun y =>
        (quotedTail_congr u (Nat.le_of_eq htail) y).trans htail
      rw [List.cons_append, List.cons_append, cutPhp_string hd, cutPhp_string hd, hend, hend]
    | false =>
      obtain ⟨f, r, rfl⟩ := List.exists_cons_of_ne_nil hne
      obtain ⟨hbefore, hstays⟩ := number_of_withstands (s := s) h hd (f :: r ++ v)
      have hsemicolon : Halts [';'] := by
        rintro e ⟨⟩
        decide
      rw [hbefore, (number_of_withstands h hd [';']).1,
        cutNumber_stop hsemicolon (List.cons_ne_nil d u)]
      exact cutNumber_of_length hw (List.cons_ne_nil d u) hstays _

end Lexer

end PhpStyle
