import PhpStyle.Proofs.OperandLexemes

/-!
# Lexemes around operands before another text

In front of an operand stands a mark, an opening tag or a word such as `return`. A mark is read alike
before all operands, and it hides them from the lexemes before it (`Reads.retail_mark`). A word is
read alike if a blank or a comment stands behind it (`Reads.retail_word`). That blank hides the
operand too, but for two things: a parenthesis might become a cast, which the operand has to prevent
by what comes behind it (`Uncast`), and shift operators might become a heredoc, which no character
of an operand allows unless it is a blank (`heredocLength?_two_words`).
-/

namespace PhpStyle

open Text

namespace Lexer

variable {s t : Lexer} {c d e : Char} {b cs u v w x y y' z z' : List Char}
  {l p : Kind × List Char} {ls rest : List (Kind × List Char)}

theorem isBlank_of_wall : ∀ c ∈ walls, c ∉ [' ', '\t', '\r', '\n'] → isBlank c = false := by
  decide

theorem cutPhp_wall (hu : u ≠ []) (hlength : (s.cutPhp (u ++ (x ++ c :: z))).length = u.length)
    (hc : c ∈ walls) (hhard : c ∉ [' ', '\t', '\r']) (htag : c = '?' → z.head? ≠ some '>')
    (hview : ∀ q, Peeks s.last u q → isBlank c = true → trimStart x ≠ []) (z' : List Char) :
    s.cutPhp (u ++ (x ++ c :: z')) = s.cutPhp (u ++ (x ++ c :: z)) := by
  rw [← List.append_assoc] at hlength
  rw [← List.append_assoc, ← List.append_assoc]
  refine cutPhp_hard s hc hhard (List.append_ne_nil_of_left_ne_nil hu x) htag
    (fun n q hpeeks hn => ?_) ?_
  · rw [hn, hlength, List.take_left] at hpeeks
    rw [hn, hlength, List.drop_left, head?_trimStart_append x, head?_trimStart_append x]
    by_cases hblank : isBlank c = true
    · obtain ⟨e, r, hr⟩ := List.exists_cons_of_ne_nil (hview q hpeeks hblank)
      rw [hr]
      rfl
    · have htrim : ∀ z, trimStart (c :: z) = c :: z := fun z => List.dropWhile_cons_of_neg hblank
      rw [htrim, htrim]
      rfl
  · rw [hlength, List.length_append]
    omega

theorem Reads.retail_wall (h : Reads s ls (w ++ c :: z) t) (hphp : t.mode = .php) (hc : c ∈ walls)
    (hhard : c ∉ [' ', '\t', '\r', '\n']) (htag : c = '?' → z.head? ≠ some '>') (z' : List Char) :
    Reads s ls (w ++ c :: z') t := by
  refine h.retail hphp fun r l rest hmode hsuffix hreads => ?_
  obtain ⟨hu, -, hlength⟩ := hreads.head
  rw [Lexer.cut, hmode, ← List.append_assoc (spelled rest)] at hlength
  rw [← List.append_assoc (spelled rest), ← List.append_assoc (spelled rest)]
  refine cutPhp_wall hu hlength hc (by simp_all) htag (fun q _ hblank => ?_) z'
  rw [isBlank_of_wall c hc hhard] at hblank
  cases hblank

theorem Reads.retail_last (h : Reads s (ls ++ [p]) z t) (hphp : t.mode = .php)
    (hp : ∀ r : Lexer, r.mode = .php → Reads r [p] z t →
      r.cutPhp (p.2 ++ z') = r.cutPhp (p.2 ++ z))
    (hbefore : ∀ (r : Lexer) (u x : List Char), u ≠ [] →
      (r.cutPhp (u ++ (x ++ p.2 ++ z))).length = u.length →
      r.cutPhp (u ++ (x ++ p.2 ++ z')) = r.cutPhp (u ++ (x ++ p.2 ++ z))) :
    Reads s (ls ++ [p]) z' t := by
  refine h.retail hphp fun r l rest hmode hsuffix hreads => ?_
  have hlast : (l :: rest).getLast? = some p := by
    obtain ⟨pre, hpre⟩ := hsuffix
    rw [← List.getLast?_append_of_ne_nil pre (List.cons_ne_nil l rest), hpre]
    simp
  rcases List.eq_nil_or_concat rest with rfl | ⟨ms, m, rfl⟩
  · obtain rfl : l = p := by simpa using hlast
    simpa using hp r hmode hreads
  · obtain rfl : m = p := by simpa [List.getLast?_cons] using hlast
    obtain ⟨hu, -, hlength⟩ := hreads.head
    rw [Lexer.cut, hmode] at hlength
    have hspelled : ∀ z, spelled (ms.concat m) ++ z = spelled ms ++ m.2 ++ z := by
      simp [spelled_append]
    simp only [hspelled] at hlength ⊢
    exact hbefore r l.2 (spelled ms) hu hlength

theorem eq_of_toLower (hd : d.isAlpha = false) (h : c.toLower = d) : c = d := by
  unfold Char.toLower at h
  split at h
  · exfalso
    have hsmall : d.isLower = true := by
      rw [← h]
      delta Char.isLower
      simp only [ge_iff_le, Bool.and_eq_true, decide_eq_true_eq]
      grind
    exact absurd ((Bool.or_eq_false_iff.1 hd).2.symm.trans hsmall) (by decide)
  · exact h

theorem exists_of_isOpenTag (h : IsOpenTag u) : ∃ c v, u = '<' :: '?' :: c :: v ∧ c ≠ '>' := by
  rcases h with h | rfl
  · have h : u.map Char.toLower = ['<', '?', 'p', 'h', 'p'] := h
    obtain ⟨a, u, rfl, ha, h⟩ := List.map_eq_cons_iff.1 h
    obtain ⟨b, u, rfl, hb, h⟩ := List.map_eq_cons_iff.1 h
    obtain ⟨c, u, rfl, hc, -⟩ := List.map_eq_cons_iff.1 h
    refine ⟨c, u, by rw [eq_of_toLower (by decide) ha, eq_of_toLower (by decide) hb], ?_⟩
    rintro rfl
    exact absurd hc (by decide)
  · exact ⟨'=', [], rfl, by decide⟩

theorem Reads.openTag (h : Reads s [p] z t) (hp : p.1 = .openTag) :
    IsOpenTag p.2 ∧ t.mode = .php := by
  obtain ⟨hne, hkind, hlength⟩ := h.head
  have hcut := cut_of_openTag (List.append_ne_nil_of_left_ne_nil hne _) (hkind.trans hp)
  obtain - | ⟨-, hread, -, hrest⟩ := h
  obtain - | - := hrest
  rename_i cut u
  change s.cut (u ++ z) = cut at hread
  change s.cut (u ++ z) = cutHtml (u ++ z) at hcut
  change (s.cut (u ++ z)).length = u.length at hlength
  have hp : cut.kind = .openTag := hp
  rw [hread] at hlength hcut
  rw [hcut] at hp hlength ⊢
  unfold cutHtml at hp hlength ⊢
  split at hp
  · rename_i n hn
    rw [hn] at hlength
    exact ⟨isOpenTag_of_length (hn.trans (congrArg some hlength)), rfl⟩
  · cases hp

theorem Reads.retail_openTag (h : Reads s (ls ++ [p]) z t) (hp : p.1 = .openTag) (z' : List Char) :
    Reads s (ls ++ [p]) z' t := by
  obtain ⟨m, -, hm⟩ := h.of_append
  obtain ⟨htag, hphp⟩ := hm.openTag hp
  obtain ⟨c, v, htext, hc⟩ := exists_of_isOpenTag htag
  refine h.retail_last hphp (fun r hmode hreads => ?_) fun r u x hu hlength => ?_
  · -- an opening tag is not read as code
    obtain ⟨d, u, -, hkind, -⟩ := hreads.head_code hmode
    have hcode := (r.cutPhp_form d (u ++ (spelled [] ++ z))).isCode
    rw [hkind, hp] at hcode
    cases hcode
  · have hwall : ∀ z, x ++ p.2 ++ z = x ++ ['<'] ++ '?' :: (c :: v ++ z) := by
      simp [htext]
    rw [hwall] at hlength
    rw [hwall, hwall]
    refine cutPhp_wall hu hlength (by decide) (by decide) (fun _ => ?_) (fun _ _ h => ?_) _
    · simpa using hc
    · exact absurd h (by decide)

theorem cutPhp_mark (s : Lexer) (hc : c ∈ [')', '[', ']', '\x7b', '\x7d', ';', ',']) :
    ∃ cut, ∀ cs, s.cutPhp (c :: cs) = cut := by
  simp only [List.mem_cons, List.not_mem_nil, or_false] at hc
  rcases hc with rfl | rfl | rfl | rfl | rfl | rfl | rfl
  · exact ⟨⟨.closeParen, 1, .php⟩, fun _ => rfl⟩
  · exact ⟨⟨squareKind s.last, 1, .php⟩, fun _ => rfl⟩
  · exact ⟨⟨closeSquareKind s.squares.head?, 1, .php⟩, fun _ => rfl⟩
  · exact ⟨⟨.openBrace, 1, .php⟩, fun _ => rfl⟩
  · exact ⟨⟨.closeBrace, 1, .php⟩, fun _ => rfl⟩
  · exact ⟨⟨.semicolon, 1, .php⟩, fun _ => rfl⟩
  · exact ⟨⟨.comma, 1, .php⟩, fun _ => rfl⟩

theorem cutPhp_number (hd : (d.isDigit || d = '.' && cs.head?.any Char.isDigit) = true) :
    s.cutPhp (d :: cs) = cutNumber (d :: cs) := by
  rcases Bool.or_eq_true_iff.1 hd with hd | hd
  · have hne : ∀ e ∈ ['?', '#', '/', ' ', '\t', '\r', '\n', '$', '\x27', '\x22', '\x60', '<'],
        d ≠ e ∧ e ≠ d := by
      have hmarks : ∀ e ∈ ['?', '#', '/', ' ', '\t', '\r', '\n', '$', '\x27', '\x22', '\x60', '<'],
          e.isDigit = false := by decide
      intro e he
      have hne : d ≠ e := by
        rintro rfl
        rw [hmarks d he] at hd
        cases hd
      exact ⟨hne, hne.symm⟩
    simp only [List.mem_cons, List.not_mem_nil, or_false, forall_eq_or_imp, forall_eq] at hne
    simp [cutPhp_eq, cutCode, startsWith, after?, hne, hd]
  · simp only [Bool.and_eq_true, decide_eq_true_eq] at hd
    obtain ⟨rfl, hdigit⟩ := hd
    simp [cutPhp_eq, cutCode, startsWith, after?, hdigit]

/-- Operators in front of operands and between them. -/
def signs : List (List Char) :=
  [['='], [':'], ['?'], ['&', '&'], ['|', '|'], ['=', '>'], [':', ':'], ['=', '='], ['!', '='],
   ['<', '>'], ['=', '=', '='], ['!', '=', '=']]

/-- The characters with which a longer operator could go on behind one of `signs`. -/
def extensions : List Char :=
  ['=', '>', ':', '?', '-']

theorem signs_extended : ∀ w ∈ signs, ∀ o ∈ operators, w <+: o.1.toList →
    ∀ e ∈ o.1.toList[w.length]?, e ∈ extensions := by
  decide

theorem cutOperator_sign {last : Option Kind} (hw : w ∈ signs)
    (hlength : (cutOperator last (w ++ y)).length = w.length)
    (hy' : ∀ e ∈ y'.head?, e ∉ extensions) (hmark : w = ['?'] → precedesType last = false) :
    cutOperator last (w ++ y') = cutOperator last (w ++ y) := by
  have hne : ∀ w ∈ signs, w ≠ [] := by decide
  refine cutOperator_congr last (hne w hw) (Nat.le_of_eq hlength) (fun o ho hs => ?_) ?_
  · by_contra hlong
    rw [← String.length_toList] at hlong
    obtain ⟨r, hr⟩ := exists_eq_append_of_startsWith hs
    have hfront : w <+: o.1.toList :=
      List.prefix_of_prefix_length_le (List.prefix_append w y') (hr ▸ List.prefix_append _ _)
        (by omega)
    obtain ⟨v, hv⟩ := hfront
    rw [← hv, List.append_assoc, List.append_cancel_left_eq] at hr
    obtain ⟨e, v, rfl⟩ : ∃ e v', v = e :: v' := by
      refine List.exists_cons_of_ne_nil ?_
      rintro rfl
      rw [List.append_nil] at hv
      rw [hv] at hlong
      omega
    refine hy' e (by rw [hr]; rfl) (signs_extended w hw o ho (hv ▸ List.prefix_append _ _) e ?_)
    rw [← hv, List.getElem?_append_right (Nat.le_refl _), Nat.sub_self]
    rfl
  · intro htake htype
    rw [hlength, List.take_length] at htake
    rw [hmark htake] at htype
    cases htype

theorem cutPhp_sign_eq (hw : w ∈ signs) (hq : w = ['?'] → y.head? ≠ some '>') :
    s.cutPhp (w ++ y) = cutOperator s.last (w ++ y) := by
  simp only [signs, List.mem_cons, List.not_mem_nil, or_false] at hw
  rcases hw with rfl | rfl | rfl | rfl | rfl | rfl | rfl | rfl | rfl | rfl | rfl | rfl
  case inr.inr.inl => exact cutPhp_question (hq rfl)
  all_goals rfl

/-! ### Casts -/

/-- What may stand between the parentheses of a cast. -/
def isCastChar (c : Char) : Bool :=
  c.isAlpha || c == ' ' || c == '\t'

/-- The characters of a cast do not lead from the start of the text to a closing parenthesis. -/
def Uncast (cs : List Char) : Prop :=
  (cs.dropWhile isCastChar).head? ≠ some ')'

theorem dropWhile_dropWhile {p q : Char → Bool} (h : ∀ c, p c = true → q c = true)
    (cs : List Char) :
    (cs.dropWhile p).dropWhile q = cs.dropWhile q := by
  induction cs with
  | nil => rfl
  | cons c cs ih =>
    by_cases hc : p c = true
    · rw [List.dropWhile_cons_of_pos hc, ih, List.dropWhile_cons_of_pos (h c hc)]
    · rw [List.dropWhile_cons_of_neg hc]

/-- Without a closing parenthesis in its place there is no cast. -/
theorem castLength?_eq_none (h : Uncast cs) : castLength? ('(' :: cs) = none := by
  unfold castLength?
  generalize hgap : (fun c : Char => c == ' ' || c == '\t') = isGap
  have hgaps : ∀ c, isGap c = true → isCastChar c = true := by
    intro c hc
    have hc : (c == ' ' || c == '\t') = true := by rwa [← hgap] at hc
    rw [isCastChar, Bool.or_assoc, hc, Bool.or_true]
  have hletters : ∀ c, c.isAlpha = true → isCastChar c = true := by
    intro c hc
    rw [isCastChar, hc]
    rfl
  have hdrop : ∀ n, ('(' :: cs).drop (1 + n) = cs.drop n := by
    intro n
    rw [Nat.add_comm, List.drop_succ_cons]
  simp only [Nat.add_assoc, hdrop, List.drop_succ_cons, List.drop_zero]
  rw [← List.drop_drop, drop_length_takeWhile, drop_length_takeWhile, drop_length_takeWhile]
  refine if_neg fun hc => h ?_
  simp only [Bool.and_eq_true, decide_eq_true_eq] at hc
  obtain ⟨r, hr⟩ := List.head?_eq_some_iff.1 hc.2
  have hchain := congrArg (List.dropWhile isCastChar) hr
  rw [dropWhile_dropWhile hgaps, dropWhile_dropWhile hletters, dropWhile_dropWhile hgaps] at hchain
  rw [hchain]
  rfl

theorem isNameChar_of_mem_name (h : c ∈ cs.take (nameLength cs)) :
    isNameChar c = true ∨ c = '\\' := by
  fun_induction nameLength cs with
  | case1 => cases h
  | case2 d ds hd ih =>
    rw [List.take_succ_cons] at h
    rcases List.mem_cons.1 h with rfl | h
    · exact .inr rfl
    · exact ih h
  | case3 => cases h
  | case4 d ds _ hd ih =>
    rw [List.take_succ_cons] at h
    rcases List.mem_cons.1 h with rfl | h
    · exact .inl hd
    · exact ih h
  | case5 => cases h

theorem paren_not_mem_word {last : Option Kind} (hc : c.isAlpha = true) :
    ')' ∉ (c :: cs).take (cutWord last (c :: cs)).length := by
  have hback : c ≠ '\\' := by
    rintro rfl
    cases hc
  have hname : wordLength (c :: cs) = nameLength (c :: cs) := by
    simp [wordLength, hback]
  have hpos : nameLength (c :: cs) ≠ 0 := by
    simp [nameLength, hback, isNameChar_of_isAlpha c hc]
  unfold cutWord
  simp only [hname, hpos, if_false]
  intro hmem
  have hmem : ')' ∈ (c :: cs).take (nameLength (c :: cs)) := by
    split at hmem <;> exact hmem
  rcases isNameChar_of_mem_name hmem with h | h
  · exact absurd h (by decide)
  · exact absurd h (by decide)

theorem Uncast.append (hu : Uncast u) (h : Uncast cs) : Uncast (u ++ cs) := by
  rw [Uncast, List.dropWhile_append]
  split
  · exact h
  · rename_i hstop
    obtain ⟨d, v, hv⟩ := List.exists_cons_of_ne_nil (mt List.isEmpty_iff.2 hstop)
    rw [Uncast, hv] at hu
    rw [hv]
    exact hu

theorem Uncast.of_not_mem (hu : ')' ∉ u) : Uncast u :=
  fun hhead => hu ((List.dropWhile_suffix _).subset (List.mem_of_head? hhead))

theorem Uncast.of_head (hc : isCastChar c = false) (hparen : c ≠ ')') : Uncast (c :: cs) := by
  rw [Uncast, List.dropWhile_cons_of_neg (by simp [hc])]
  exact fun h => hparen (Option.some.inj h)

/-- Neither trivia nor the lexemes of a plain operand complete a cast. -/
theorem Reads.uncast (h : Reads s ls z t) (hphp : s.mode = .php)
    (hkinds : ∀ l ∈ ls, l.1.isTrivia = true ∨ l.1.isValuePart = true) (hz : Uncast z) :
    Uncast (spelled ls ++ z) := by
  induction h with
  | nil s z => exact hz
  | cons hu hcut hlength hrest ih =>
    rename_i s t cut u z ls
    obtain ⟨hkind, hothers⟩ := List.forall_mem_cons.1 hkinds
    obtain ⟨c, v, rfl⟩ := List.exists_cons_of_ne_nil hu
    rw [Lexer.cut, hphp] at hcut
    rw [spelled_cons, List.append_assoc]
    have htake : ((c :: v) ++ (spelled ls ++ z)).take cut.length = c :: v := by
      rw [hlength, List.take_left]
    have hpass : ')' ∉ c :: v → cut.mode = .php → Uncast (c :: v ++ (spelled ls ++ z)) :=
      fun hparen hmode => .append (.of_not_mem hparen) (ih hmode hothers hz)
    change s.cutPhp (c :: (v ++ (spelled ls ++ z))) = cut at hcut
    by_cases hblank : c = ' ' ∨ c = '\t'
    · have hc : c ∈ [' ', '\t', '\r', '\n'] := by
        rcases hblank with rfl | rfl <;> decide
      rw [cutPhp_blank s hc] at hcut
      subst hcut
      refine hpass (fun hparen => ?_) rfl
      rw [← htake] at hparen
      exact absurd (mem_take_blankLength hparen) (by decide)
    by_cases halpha : c.isAlpha = true
    · rw [cutPhp_word (isNameStart_of_isAlpha halpha)] at hcut
      subst hcut
      exact hpass (htake ▸ paren_not_mem_word halpha) (cutWord_mode _ _)
    · refine .of_head (by simpa [isCastChar, halpha] using hblank) ?_
      rintro rfl
      have hclose : cut.kind = .closeParen := by
        rw [← hcut]
        rfl
      rw [hclose] at hkind
      rcases hkind with hkind | hkind <;> cases hkind

theorem Reads.retail_single (h : Reads s [p] z t) (hphp : s.mode = .php)
    (hcut : s.cutPhp (p.2 ++ z') = s.cutPhp (p.2 ++ z)) : Reads s [p] z' t := by
  obtain - | ⟨hu, hread, hlength, hrest⟩ := h
  obtain - | - := hrest
  refine .cons hu ?_ hlength (.nil _ z')
  rw [← hread, Lexer.cut, Lexer.cut, hphp]
  exact hcut

theorem Reads.spelling (h : Reads s [p] z t) (hphp : s.mode = .php) (hk : p.1.spellings ≠ []) :
    p.2 ∈ p.1.spellings := by
  obtain ⟨c, u, hu, hkind, hlength⟩ := h.head_code hphp
  have hmem := spelling_of_cutPhp (by rwa [hkind])
  rwa [hkind, hlength, ← List.length_cons, ← List.cons_append, List.take_left, ← hu] at hmem

/-- The marks behind which an operand may stand. -/
def leadMarks : List Kind :=
  [.openParen, .closeParen, .openSquare, .closeSquare, .openArray, .closeArray, .openAttribute,
   .closeAttribute, .openBrace, .closeBrace, .semicolon, .comma, .assign, .colon, .ternary,
   .booleanAnd, .booleanOr, .doubleArrow]

theorem leadMarks_spelled : ∀ k ∈ leadMarks, k.isCode = true ∧ k.spellings ≠ [] ∧
    ∀ u ∈ k.spellings, (u = ['('] ∨ u = ['#', '['] ∨ u ∈ signs ∨
        ∃ c ∈ [')', '[', ']', '\x7b', '\x7d', ';', ','], u = [c]) ∧
      (u = ['?'] → k = .ternary) ∧
      ∃ c ∈ u.head?, c ∈ walls ∧ c ∉ [' ', '\t', '\r', '\n'] ∧ (c = '?' → u = ['?']) := by
  decide

theorem Reads.not_tag (h : Reads s [p] z t) (hphp : s.mode = .php) (htext : p.2 = ['?'])
    (hk : p.1 ≠ .closeTag) : z.head? ≠ some '>' := by
  intro htag
  obtain ⟨r, rfl⟩ := List.head?_eq_some_iff.1 htag
  have hkind := h.head.2.1
  rw [Lexer.cut, hphp, htext] at hkind
  exact hk hkind.symm

theorem Reads.cutPhp_lead (h : Reads s [p] z t) (hphp : s.mode = .php) (hp : p.1 ∈ leadMarks)
    (hnext : ∀ e ∈ z'.head?, e ∉ extensions) (hcast : Uncast z')
    (hmark : p.1 = .ternary → precedesType s.last = false) :
    s.cutPhp (p.2 ++ z') = s.cutPhp (p.2 ++ z) := by
  obtain ⟨-, hspellings, hforms⟩ := leadMarks_spelled p.1 hp
  obtain ⟨hform, hquestion, -⟩ := hforms p.2 (h.spelling hphp hspellings)
  obtain ⟨-, hkind, hlength⟩ := h.head
  rw [Lexer.cut, hphp] at hkind hlength
  simp only [spelled_nil, List.nil_append] at hkind hlength
  rcases hform with hparen | hattribute | hsign | ⟨c, hc, htext⟩
  · rw [hparen, List.singleton_append, cutPhp_paren] at hkind
    rw [hparen, List.singleton_append, List.singleton_append, cutPhp_paren, cutPhp_paren,
      castLength?_eq_none hcast]
    split at hkind
    · rw [← hkind] at hp
      exact absurd (show Kind.cast ∈ leadMarks from hp) (by decide)
    · rfl
  · rw [hattribute]
    rfl
  · have hold : p.2 = ['?'] → z.head? ≠ some '>' := fun hq =>
      h.not_tag hphp hq (by rw [hquestion hq]; decide)
    have hnew : p.2 = ['?'] → z'.head? ≠ some '>' := fun _ htag => hnext '>' htag (by decide)
    rw [cutPhp_sign_eq hsign hold] at hlength ⊢
    rw [cutPhp_sign_eq hsign hnew]
    exact cutOperator_sign hsign hlength hnext fun hq => hmark (hquestion hq)
  · obtain ⟨cut, hcut⟩ := cutPhp_mark s hc
    rw [htext, List.singleton_append, List.singleton_append, hcut, hcut]

/-- A mark in front of an operand, and what stands before it. -/
theorem Reads.retail_mark (h : Reads s (ls ++ [p]) z t) (hp : p.1 ∈ leadMarks)
    (hnext : ∀ e ∈ z'.head?, e ∉ extensions) (hcast : Uncast z')
    (hmark : p.1 = .ternary → ∀ r, Reads s ls (p.2 ++ z) r → precedesType r.last = false) :
    Reads s (ls ++ [p]) z' t := by
  obtain ⟨m, hls, hm⟩ := h.of_append
  obtain ⟨hcode, hspellings, hforms⟩ := leadMarks_spelled p.1 hp
  have hphp : m.mode = .php := mode_of_isCode (by rw [hm.head.2.1]; exact hcode)
  obtain ⟨-, hquestion, c, hc, hwall, hhard, htag⟩ := hforms p.2 (hm.spelling hphp hspellings)
  obtain ⟨v, hv⟩ := List.head?_eq_some_iff.1 hc
  have hspelled : ∀ z, spelled [p] ++ z = [] ++ c :: (v ++ z) := by
    simp [hv]
  have hbefore : Reads s ls (spelled [p] ++ z') m := by
    rw [hspelled] at hls ⊢
    refine hls.retail_wall hphp hwall hhard (fun hq => ?_) _
    have hnil : c = '?' ∧ v = [] := by simpa [hv] using htag hq
    rw [hnil.2, List.nil_append]
    exact hm.not_tag hphp (htag hq) (by rw [hquestion (htag hq)]; decide)
  exact hbefore.append (hm.retail_single hphp (hm.cutPhp_lead hphp hp hnext hcast
    fun hk => hmark hk m (by simpa using hls)))

/-! ### Words before blanks -/

theorem isBlank_of_isAlpha (h : c.isAlpha = true) : isBlank c = false := by
  delta Char.isAlpha Char.isUpper Char.isLower at h
  simp only [Bool.or_eq_true, Bool.and_eq_true, decide_eq_true_eq, ge_iff_le,
    UInt32.le_iff_toNat_le] at h
  change (65 ≤ c.toNat ∧ c.toNat ≤ 90) ∨ 97 ≤ c.toNat ∧ c.toNat ≤ 122 at h
  rw [← Bool.not_eq_true]
  intro hblank
  simp only [isBlank, Bool.or_eq_true, Bool.and_eq_true, decide_eq_true_eq, beq_iff_eq] at hblank
  omega

theorem mem_trim_between {a : Char} (ha : isBlank a = false) (he : isBlank e = false) :
    c ∈ trim (w ++ a :: c :: (b ++ e :: v)) := by
  have hstart : trimStart (w ++ [a]) ≠ [] :=
    List.ne_nil_of_mem (mem_dropWhile (List.mem_append_right w (List.mem_singleton_self a)) ha)
  have hend : trimEnd (e :: v) ≠ [] :=
    List.ne_nil_of_mem (mem_dropTail (List.mem_cons_self) he)
  have htext : w ++ a :: c :: (b ++ e :: v) = w ++ [a] ++ (c :: b ++ e :: v) := by simp
  have htrim : trim (w ++ a :: c :: (b ++ e :: v)) =
      trimStart (w ++ [a]) ++ c :: b ++ trimEnd (e :: v) := by
    rw [htext, trim, trimStart_append hstart, ← List.append_assoc, trimEnd_append_of_ne_nil _ hend]
  rw [htrim]
  simp

/-- A word and something else do not make up the first line of a heredoc. -/
theorem heredocLength?_two_words {a : Char} (hs : startsWith "<<<".toList w = true)
    (hline : '\n' ∉ w) (ha : w.getLast? = some a) (halpha : a.isAlpha = true)
    (hc : c ∈ [' ', '\t', '\r']) (hb : '\n' ∉ b) (he : isBlank e = false) (v : List Char) :
    heredocLength? (w ++ c :: (b ++ e :: v)) = none := by
  have hmarks : ∀ c ∈ [' ', '\t', '\r'],
      isNameChar c = false ∧ c ≠ '\n' ∧ isQuoteMark c = false := by
    decide
  obtain ⟨hname, hfeed, hquote⟩ := hmarks c hc
  have he' : e ≠ '\n' := by
    rintro rfl
    exact absurd he (by decide)
  obtain ⟨x, rfl⟩ := exists_eq_append_of_startsWith hs
  obtain ⟨x, rfl⟩ : ∃ x', x = x' ++ [a] := by
    rcases List.eq_nil_or_concat x with rfl | ⟨x', a', rfl⟩
    · obtain rfl : '<' = a := Option.some.inj ha
      cases halpha
    · rw [List.concat_eq_append, ← List.append_assoc, List.getLast?_concat] at ha
      exact ⟨x', by rw [List.concat_eq_append, Option.some.inj ha]⟩
  have hfront : '\n' ∉ "<<<".toList ++ (x ++ [a]) ++ c :: (b ++ [e]) := by
    simp only [List.mem_append, List.mem_cons, List.not_mem_nil, or_false, not_or] at hline ⊢
    exact ⟨hline, hfeed.symm, hb, he'.symm⟩
  have htext : "<<<".toList ++ (x ++ [a]) ++ c :: (b ++ e :: v) =
      "<<<".toList ++ (x ++ [a]) ++ c :: (b ++ [e]) ++ v := by
    simp
  refine heredocLength?_eq_none hname (mem_trimBoth ?_ hquote)
  rw [htext, takeWhile_line hfront]
  have hdrop : ("<<<".toList ++ (x ++ [a]) ++ c :: (b ++ [e]) ++ v.takeWhile (· ≠ '\n')).drop 3 =
      x ++ a :: c :: (b ++ e :: v.takeWhile (· ≠ '\n')) := by
    simp
  rw [hdrop]
  exact mem_trim_between (isBlank_of_isAlpha halpha) he

theorem cutPhp_attribute (h : startsWith "#[".toList cs = true) :
    s.cutPhp cs = ⟨.openAttribute, 2, .php⟩ := by
  obtain ⟨r, rfl⟩ := exists_eq_append_of_startsWith h
  rfl

theorem head_of_line_comment
    (h : (startsWith "#".toList (d :: cs) || startsWith "//".toList (d :: cs)) = true) :
    d = '#' ∨ d = '/' := by
  rcases Bool.or_eq_true_iff.1 h with h | h
  · obtain ⟨r, hr⟩ := exists_eq_append_of_startsWith h
    exact .inl (List.cons.inj hr).1
  · obtain ⟨r, hr⟩ := exists_eq_append_of_startsWith h
    exact .inr (List.cons.inj hr).1

theorem castLength?_stays (hn : ∀ n, castLength? ('(' :: (w ++ c :: z)) = some n → n ≤ w.length + 1)
    (hcast : Uncast (c :: z')) :
    castLength? ('(' :: (w ++ c :: z')) = castLength? ('(' :: (w ++ c :: z)) := by
  by_cases hstop : ∃ f ∈ w, isCastChar f = false
  · obtain ⟨f, hf, hchar⟩ := hstop
    obtain ⟨u, r, rfl⟩ := List.append_of_mem hf
    have hf' : f.isAlpha = false ∧ f ∉ [' ', '\t'] := by
      simpa [isCastChar, and_assoc] using hchar
    rw [List.append_assoc, List.append_assoc, ← List.cons_append, ← List.cons_append]
    refine castLength?_congr (w := '(' :: u) (fun g hg => ?_) (fun g hg => ?_) Iff.rfl
      (List.cons_ne_nil _ _)
    · cases hg
      exact hf'
    · cases hg
      exact hf'
  · have hall : ')' ∉ w := fun hmem => hstop ⟨')', hmem, by decide⟩
    have hold : castLength? ('(' :: (w ++ c :: z)) = none := by
      by_contra hsome
      obtain ⟨n, hcast⟩ := Option.ne_none_iff_exists'.1 hsome
      have hle := hn n hcast
      have hclose := getElem?_of_castLength? hcast
      have hpos := (castLength?_bounds hcast).1
      rw [← List.cons_append, List.getElem?_append_left (by rw [List.length_cons]; omega)] at hclose
      rcases List.mem_cons.1 (List.mem_of_getElem? hclose) with hmem | hmem
      · cases hmem
      · exact hall hmem
    rw [hold, castLength?_eq_none (.append (.of_not_mem hall) hcast)]

/-- A lexeme before a word with a blank behind it does not see what follows the blank. -/
theorem cutPhp_soft {a : Char} (hu : u ≠ [])
    (hlength : (s.cutPhp (u ++ (x ++ c :: z))).length = u.length) (hc : c ∈ [' ', '\t', '\r'])
    (ha : (u ++ x).getLast? = some a) (halpha : a.isAlpha = true)
    (hx : x = [] → ∀ d ∈ u.head?, d.isAlpha = true)
    (hview : ∀ q, Peeks s.last u q → trimStart x ≠ []) (hb : '\n' ∉ b) (he : isBlank e = false)
    (hcast : Uncast (c :: (b ++ e :: v))) :
    s.cutPhp (u ++ (x ++ c :: (b ++ e :: v))) = s.cutPhp (u ++ (x ++ c :: z)) := by
  have hblanks : ∀ c ∈ [' ', '\t', '\r'], c ∈ walls ∧ c ≠ '?' := by decide
  obtain ⟨hwall, hquestion⟩ := hblanks c hc
  obtain ⟨d, u, rfl⟩ := List.exists_cons_of_ne_nil hu
  simp only [List.cons_append, ← List.append_assoc] at hlength ha ⊢
  by_cases hattribute : startsWith "#[".toList (d :: (u ++ x ++ c :: z)) = true
  · have hstays : startsWith "#[".toList (d :: (u ++ x ++ c :: (b ++ e :: v))) = true := by
      rw [← List.cons_append] at hattribute ⊢
      rw [← hattribute]
      exact startsWith_stop (List.cons_ne_nil d _) (leads_walls "#[" (by decide) c hwall)
    rw [cutPhp_attribute hattribute, cutPhp_attribute hstays]
  refine (Alike.of_wall hwall (fun h => absurd h hquestion) (fun _ hs => ?_) (fun hd hn => ?_)
    (fun hs hline hn => ?_) (fun n q hpeeks hn => ?_)).cutPhp ?_
  · -- a comment ends before the word
    have hcomment := head_of_line_comment hs
    have hne : x ≠ [] := by
      intro hnil
      have halpha := hx hnil d rfl
      rcases hcomment with rfl | rfl <;> cases halpha
    have htag : ¬ startsWith "?>".toList (d :: (u ++ x ++ c :: z)) = true := by
      rcases hcomment with rfl | rfl <;> simp [startsWith, after?]
    rw [cutPhp_eq, if_neg htag, if_neg hattribute, if_pos hs] at hlength
    simp only at hlength
    have hpos := List.length_pos_iff.2 hne
    rw [hlength, List.length_append, List.length_cons]
    omega
  · subst hd
    exact castLength?_stays hn hcast
  · have hnone : heredocLength? (d :: (u ++ x ++ c :: z)) = none := by
      by_contra hsome
      obtain ⟨n, hn'⟩ := Option.ne_none_iff_exists'.1 hsome
      exact hline (newline_of_heredocLength? (w := d :: (u ++ x)) hn' (hn n hn'))
    rw [hnone, ← List.cons_append]
    exact heredocLength?_two_words hs hline ha halpha hc hb he v
  · have hn' : n = (d :: u).length := hn.trans hlength
    have hdrop : (d :: (u ++ x)).drop n = x := by
      rw [hn', ← List.cons_append, List.drop_left]
    have htake : (d :: (u ++ x)).take n = d :: u := by
      rw [hn', ← List.cons_append, List.take_left]
    rw [htake] at hpeeks
    obtain ⟨f, r, hr⟩ := List.exists_cons_of_ne_nil (hview q hpeeks)
    rw [hdrop, head?_trimStart_append, head?_trimStart_append, hr]
    rfl
  · rw [hlength, List.length_append, List.length_cons]
    omega

/-- The spellings of the keywords before which or behind which an operand may stand. -/
def conjunctions : List (List Char) :=
  ["return".toList, "and".toList, "or".toList, "xor".toList]

theorem namesMember_of_cutWord {last : Option Kind}
    (h : (cutWord last cs).kind.isConjunction = true) : namesMember last = false := by
  rw [← Bool.not_eq_true]
  intro hlast
  unfold cutWord at h
  simp only [wordKind, hlast, if_true] at h
  repeat' split at h
  all_goals cases h

theorem PhpCut.conjunction {cut : Cut} (h : PhpCut s cs cut) (hk : cut.kind.isConjunction = true) :
    lower (cs.take cut.length) ∈ conjunctions ∧ namesMember s.last = false := by
  cases h with
  | word c cs =>
    refine ⟨?_, namesMember_of_cutWord hk⟩
    have hnames : ∀ k ∈ [Kind.unknown, .name, .kwEnum], k.isConjunction = false := by decide
    have hkeywords : ∀ k ∈ keywords, k.2.isConjunction = true → k.1.toList ∈ conjunctions := by
      decide
    rcases kind_cutWord s.last (c :: cs) with hkind | hkind
    · rw [hnames _ hkind] at hk
      cases hk
    · simpa using hkeywords _ hkind hk
  | number c cs =>
    rcases kind_cutNumber (c :: cs) with hkind | hkind <;> rw [hkind] at hk <;> cases hk
  | operator c cs =>
    have hoperators : ∀ o ∈ operators, o.2.isConjunction = false := by decide
    unfold cutOperator at hk
    split at hk
    · rename_i hfind
      rw [hoperators _ (List.mem_of_find?_eq_some hfind)] at hk
      cases hk
    · simp only [signKind] at hk
      repeat' split at hk
      all_goals cases hk
  | mark c k cs h =>
    have hmarks : ∀ m ∈ marks, m.2.isConjunction = false := by decide
    rw [hmarks _ h] at hk
    cases hk
  | openSquare cs =>
    rcases squareKind_eq s.last with hkind | hkind <;> rw [hkind] at hk <;> cases hk
  | closeSquare cs =>
    unfold closeSquareKind at hk
    split at hk <;> cases hk
  | _ => cases hk

theorem isAlpha_of_conjunction (h : lower u ∈ conjunctions) :
    u ≠ [] ∧ ∀ c ∈ u, c.isAlpha = true := by
  have hall : ∀ w ∈ conjunctions, w ≠ [] ∧ ∀ c ∈ w, c.isLower = true := by decide
  obtain ⟨hne, hletters⟩ := hall _ h
  refine ⟨fun hnil => hne (by rw [hnil]; rfl), fun c hc => ?_⟩
  exact isAlpha_of_toLower rfl (hletters _ (List.mem_map_of_mem hc))

theorem not_peeks_of_conjunction (h : lower u ∈ conjunctions) {last : Option Kind}
    {q : Char → Bool} : ¬ Peeks last u q := by
  rintro (⟨henum, -⟩ | ⟨rfl, -⟩)
  · rw [henum] at h
    exact absurd h (by decide)
  · exact absurd h (by decide)

/-- Of blanks and comments, one is blank throughout and code goes on behind it, or it starts as a
comment does. -/
theorem blank_or_comment_of_trivia {cut : Cut} (hphp : s.mode = .php) (hu : u ≠ [])
    (hcut : s.cut (u ++ z) = cut) (hlength : cut.length = u.length)
    (hkind : cut.kind.isTrivia = true) :
    (cut.mode = .php ∧ ∀ c ∈ u, c ∈ [' ', '\t', '\r', '\n']) ∨ ∃ c v, u = c :: v ∧ c ∈ ['#', '/'] := by
  obtain ⟨c, v, rfl⟩ := List.exists_cons_of_ne_nil hu
  rw [Lexer.cut, hphp] at hcut
  change s.cutPhp (c :: (v ++ z)) = cut at hcut
  subst hcut
  by_cases hblank : c ∈ [' ', '\t', '\r', '\n']
  · rw [cutPhp_blank s hblank] at hlength ⊢
    have htake : (c :: v ++ z).take (blankLength (c :: v ++ z)) = c :: v := by
      rw [show blankLength (c :: v ++ z) = (c :: v).length from hlength, List.take_left]
    exact .inl ⟨rfl, fun d hd => mem_take_blankLength (by rwa [htake])⟩
  · have hhead := head_of_trivia hkind
    refine .inr ⟨c, v, rfl, ?_⟩
    simp only [List.mem_cons, List.not_mem_nil, or_false, not_or] at hblank hhead ⊢
    tauto

theorem Reads.hard_of_trivia (h : Reads s ls z t) (hphp : s.mode = .php)
    (htrivia : ∀ l ∈ ls, l.1.isTrivia = true) :
    (∀ c ∈ spelled ls, c ∈ [' ', '\t', '\r']) ∨
      ∃ b c v, spelled ls = b ++ c :: v ∧ c ∈ ['\n', '#', '/'] := by
  induction h with
  | nil s z => exact .inl (by simp)
  | cons hu hcut hlength hrest ih =>
    rename_i s t cut u z ls
    obtain ⟨hkind, hothers⟩ := List.forall_mem_cons.1 htrivia
    rcases blank_or_comment_of_trivia hphp hu hcut hlength hkind with
      ⟨hmode, hblanks⟩ | ⟨c, v, rfl, hc⟩
    · by_cases hfeed : '\n' ∈ u
      · obtain ⟨a, b, hab⟩ := List.append_of_mem hfeed
        exact .inr ⟨a, '\n', b ++ spelled ls, by simp [hab], by decide⟩
      · rcases ih hmode hothers with hsoft | ⟨a, d, b, hab, hd⟩
        · refine .inl fun d hd => ?_
          rcases List.mem_append.1 hd with hd | hd
          · have hne : d ≠ '\n' := fun h => hfeed (h ▸ hd)
            simpa [hne] using hblanks d hd
          · exact hsoft d hd
        · exact .inr ⟨u ++ a, d, b, by simp [hab], hd⟩
    · exact .inr ⟨[], c, v ++ spelled ls, by simp, List.mem_cons_of_mem _ hc⟩

/-- A word hides what follows the blanks and comments behind it. -/
theorem Reads.retail_word {ts : List (Kind × List Char)} {t' : Lexer}
    (h : Reads s (ls ++ [p]) (spelled ts ++ y) t) (hts : Reads t ts y t') (hphp : t.mode = .php)
    (htrivia : ∀ l ∈ ts, l.1.isTrivia = true) (hne : ts ≠ []) (hp : lower p.2 ∈ conjunctions)
    (he : isBlank e = false) (hcast : Uncast (spelled ts ++ e :: v)) :
    Reads s (ls ++ [p]) (spelled ts ++ e :: v) t := by
  obtain ⟨hp2, hletters⟩ := isAlpha_of_conjunction hp
  obtain ⟨w, a, hw⟩ := List.eq_nil_or_concat p.2 |>.resolve_left hp2
  have halpha : a.isAlpha = true := hletters a (by simp [hw])
  have hink : ∀ x, trimStart (x ++ p.2) ≠ [] := by
    intro x
    exact List.ne_nil_of_mem (mem_dropWhile (by simp [hw]) (isBlank_of_isAlpha halpha))
  have hlast : ∀ x, (x ++ p.2).getLast? = some a := by
    simp [hw]
  rcases hts.hard_of_trivia hphp htrivia with hsoft | ⟨b, c, r, htext, hc⟩
  · obtain ⟨c, b, htext⟩ : ∃ c b, spelled ts = c :: b := by
      obtain ⟨l, ts, rfl⟩ := List.exists_cons_of_ne_nil hne
      exact List.exists_cons_of_ne_nil (List.append_ne_nil_of_left_ne_nil hts.head.1 _)
    rw [htext] at h hcast hsoft ⊢
    have hb : '\n' ∉ b := fun hmem => absurd (hsoft '\n' (List.mem_cons_of_mem c hmem)) (by decide)
    have hc := hsoft c List.mem_cons_self
    refine h.retail_last hphp (fun r hmode hreads => ?_) fun r u x hu hlength => ?_
    · have hlength := hreads.head.2.2
      rw [Lexer.cut, hmode] at hlength
      refine cutPhp_soft (x := []) hp2 (by simpa using hlength) hc (by simpa using hlast []) halpha
        (fun _ d hd => hletters d (List.mem_of_mem_head? hd))
        (fun q hpeeks => absurd hpeeks (not_peeks_of_conjunction hp)) hb he hcast
    · refine cutPhp_soft hu hlength hc (by rw [← List.append_assoc]; exact hlast _) halpha
        (fun hnil => absurd (List.append_eq_nil_iff.1 hnil).2 hp2) (fun _ _ => hink x) hb he hcast
  · have hwalls : ∀ c ∈ ['\n', '#', '/'], c ∈ walls ∧ c ∉ [' ', '\t', '\r'] ∧ c ≠ '?' := by decide
    obtain ⟨hwall, hhard, hquestion⟩ := hwalls c hc
    have hsplit : ∀ x z, x ++ (spelled ts ++ z) = x ++ b ++ c :: (r ++ z) := by
      simp [htext]
    refine h.retail_last hphp (fun q hmode hreads => ?_) fun q u x hu hlength => ?_
    · have hlength := hreads.head.2.2
      rw [Lexer.cut, hmode, htext] at hlength
      rw [htext, List.append_assoc, List.append_assoc]
      refine cutPhp_wall hp2 (by simpa using hlength) hwall hhard (fun h => absurd h hquestion)
        (fun q hpeeks => absurd hpeeks (not_peeks_of_conjunction hp)) _
    · rw [hsplit] at hlength
      rw [hsplit, hsplit]
      refine cutPhp_wall hu hlength hwall hhard (fun h => absurd h hquestion) (fun _ _ _ => ?_) _
      rw [trimStart_append (hink x)]
      exact List.append_ne_nil_of_left_ne_nil (hink x) b

end Lexer

end PhpStyle
