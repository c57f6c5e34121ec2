import PhpStyle.Proofs.CastSpaces
import PhpStyle.Proofs.TriviaSegments

/-!
# Lexemes of operands before another text

The lexemes of a plain operand are names, variables, literals, arrows and the brackets of an index.
-/

namespace PhpStyle

open Text

/-- The kinds of which a plain operand is made. -/
def Kind.isValuePart : Kind → Bool
  | .variableName | .arrow | .doubleColon | .openSquare | .closeSquare | .name | .kwStatic
  | .blank => true
  | k => k.isLiteral

namespace Lexer

variable {s t : Lexer} {c c' d : Char} {cs u v w y y' z z' : List Char}
  {ls : List (Kind × List Char)}

theorem cutPhp_sign (hc : c ∈ ['=', '!', '*', '>', '&', '|', '-', ':', '+', '%', '^'])
    (cs : List Char) : s.cutPhp (c :: cs) = cutOperator s.last (c :: cs) := by
  simp only [List.mem_cons, List.not_mem_nil, or_false] at hc
  rcases hc with rfl | rfl | rfl | rfl | rfl | rfl | rfl | rfl | rfl | rfl | rfl <;> rfl

theorem cutPhp_question (hcs : cs.head? ≠ some '>') :
    s.cutPhp ('?' :: cs) = cutOperator s.last ('?' :: cs) := by
  match cs with
  | [] => rfl
  | d :: cs =>
    have hd : d ≠ '>' := fun h => hcs (by rw [h]; rfl)
    simp [cutPhp, startsWith, after?, isNameStart, hd]

theorem cutPhp_point (hcs : ¬ cs.head?.any Char.isDigit = true) :
    s.cutPhp ('.' :: cs) = cutOperator s.last ('.' :: cs) := by
  simp [cutPhp, startsWith, after?, isNameStart, hcs]

theorem cutPhp_less (cs : List Char) : s.cutPhp ('<' :: cs) =
    if startsWith "<<<".toList ('<' :: cs) then
      match heredocLength? ('<' :: cs) with
      | some n => ⟨.quoted, n, .php⟩
      | none => cutOperator s.last ('<' :: cs)
    else cutOperator s.last ('<' :: cs) := by
  rfl

/-- The operators within a plain operand. -/
def arrows : List (List Char) :=
  [['-', '>'], ['?', '-', '>'], [':', ':']]

theorem arrow_of_cutOperator {last : Option Kind}
    (h : (cutOperator last (c :: cs)).kind.isValuePart = true) :
    ∃ o ∈ arrows, ∃ rest, c :: cs = o ++ rest ∧
      (cutOperator last (c :: cs)).length = o.length := by
  have hoperators : ∀ o ∈ operators, o.2.isValuePart = true → o.1.toList ∈ arrows := by decide
  unfold cutOperator at h ⊢
  split
  · rename_i text kind hfind
    rw [hfind] at h
    have hs := List.find?_some hfind
    obtain ⟨rest, hrest⟩ := exists_eq_append_of_startsWith hs
    exact ⟨_, hoperators _ (List.mem_of_find?_eq_some hfind) h, rest, hrest,
      String.length_toList.symm⟩
  · rename_i hfind
    rw [hfind] at h
    simp only [signKind] at h
    repeat' split at h
    all_goals cases h

theorem not_value_of_cutOperator {last : Option Kind} (hc : c ∉ ['-', '?', ':'])
    (h : (cutOperator last (c :: cs)).kind.isValuePart = true) : False := by
  obtain ⟨o, ho, rest, heq, -⟩ := arrow_of_cutOperator h
  simp only [arrows, List.mem_cons, List.not_mem_nil, or_false] at ho
  rcases ho with rfl | rfl | rfl <;>
  · obtain ⟨rfl, -⟩ := List.cons.inj heq
    exact absurd hc (by decide)

theorem not_value_of_paren (h : (s.cutPhp ('(' :: cs)).kind.isValuePart = true) : False := by
  rw [cutPhp_paren] at h
  split at h <;> cases h

theorem not_value_of_comment (hc : c = '#' ∨ c = '/')
    (h : (s.cutPhp (c :: cs)).kind.isValuePart = true) : False := by
  rw [cutPhp_eq] at h
  repeat' split at h
  · cases h
  · cases h
  · cases h
  · cases h
  · cases h
  · cases h
  · rename_i hline _ _ _
    rcases hc with rfl | rfl
    · simp [startsWith, after?] at hline
    · exact not_value_of_cutOperator (by decide) h

theorem arrow_of_question (h : (s.cutPhp ('?' :: cs)).kind.isValuePart = true) :
    ∃ rest, cs = '-' :: '>' :: rest ∧ (s.cutPhp ('?' :: cs)).length = 3 := by
  by_cases hcs : cs.head? = some '>'
  · obtain ⟨rest, rfl⟩ := List.head?_eq_some_iff.1 hcs
    cases h
  · rw [cutPhp_question hcs] at h ⊢
    obtain ⟨o, ho, rest, heq, hlength⟩ := arrow_of_cutOperator h
    simp only [arrows, List.mem_cons, List.not_mem_nil, or_false] at ho
    rcases ho with rfl | rfl | rfl
    · cases heq
    · exact ⟨rest, (List.cons.inj heq).2, hlength⟩
    · cases heq

theorem newline_of_heredocLength? {n : Nat} (h : heredocLength? (w ++ y) = some n)
    (hle : n ≤ w.length) : '\n' ∈ w := by
  unfold heredocLength? at h
  simp only at h
  split at h
  · cases h
  rename_i hhead
  simp only [Bool.or_eq_true, decide_eq_true_eq, not_or] at hhead
  by_contra hline
  have hheader := takeWhile_line hline y
  have := congrArg List.length hheader
  rw [List.length_append] at this
  have := Option.some.inj h
  omega

theorem heredoc_of_less (h : (s.cutPhp ('<' :: (w ++ y))).kind.isValuePart = true)
    (hlength : (s.cutPhp ('<' :: (w ++ y))).length ≤ w.length + 1) :
    startsWith "<<<".toList ('<' :: w) = true ∧ '\n' ∈ '<' :: w := by
  rw [cutPhp_less] at h hlength
  split at h
  · rename_i hs
    rw [if_pos hs] at hlength
    cases hn : heredocLength? ('<' :: (w ++ y)) with
    | none =>
      rw [hn] at h
      exact (not_value_of_cutOperator (by decide) h).elim
    | some n =>
      rw [hn] at hlength
      have hline := newline_of_heredocLength? (w := '<' :: w) hn hlength
      refine ⟨?_, hline⟩
      obtain ⟨a, b, hab⟩ := List.append_of_mem hline
      rw [← List.cons_append, hab, List.append_assoc, List.cons_append] at hs
      have hthree := length_le_of_startsWith_stop hs (by decide)
      rw [startsWith_append_of_le hthree] at hs
      rw [hab, startsWith_append_of_le hthree]
      exact hs
  · exact (not_value_of_cutOperator (by decide) h).elim

theorem operators_head : ∀ o ∈ operators, ∀ c ∈ o.1.toList.head?,
    c ∈ ['=', '!', '*', '>', '&', '|', '-', ':', '+', '%', '^'] ∨ c ∈ ['/', '?', '<', '.'] := by
  decide

theorem operators_arrow : ∀ o ∈ operators, (∀ x ∈ arrows, x <+: o.1.toList → x = o.1.toList) ∧
    (o.1.toList.head? = some '.' → ∀ e ∈ o.1.toList[1]?, e.isDigit = false) := by
  decide

/-- No operator comes about that reaches over the end of a plain operand. -/
theorem length_le_of_value (hk : (s.cutPhp (d :: (w ++ y))).kind.isValuePart = true)
    (hlength : (s.cutPhp (d :: (w ++ y))).length ≤ w.length + 1) (hy : Halts y)
    {o : String × Kind} (ho : o ∈ operators)
    (hs : startsWith o.1.toList (d :: (w ++ y')) = true) : o.1.length ≤ w.length + 1 := by
  by_contra hlong
  obtain ⟨rest, hrest⟩ := exists_eq_append_of_startsWith hs
  -- all of the operand is the beginning of an operator
  have hfront : d :: w <+: o.1.toList := by
    have htext : d :: w <+: o.1.toList ++ rest := by
      rw [← hrest, ← List.cons_append]
      exact List.prefix_append _ _
    refine List.prefix_of_prefix_length_le htext (List.prefix_append _ _) ?_
    rw [String.length_toList, List.length_cons]
    omega
  have hproper : d :: w ≠ o.1.toList := by
    intro heq
    have := congrArg List.length heq
    rw [String.length_toList, List.length_cons] at this
    omega
  have hhead : o.1.toList.head? = some d := by
    obtain ⟨r, hr⟩ := hfront
    rw [← hr]
    rfl
  have harrow : ∀ x ∈ arrows, ∀ r, d :: (w ++ y) = x ++ r → x.length ≤ w.length + 1 →
      False := by
    intro x hx r heq hle
    have hx' : x <+: d :: w := by
      have htext : d :: w <+: x ++ r := by
        rw [← heq, ← List.cons_append]
        exact List.prefix_append _ _
      exact List.prefix_of_prefix_length_le (List.prefix_append _ _) htext hle
    have := (operators_arrow o ho).1 x hx (hx'.trans hfront)
    rw [this] at hx'
    exact hproper (hfront.eq_of_length_le hx'.length_le)
  rcases operators_head o ho d hhead with hd | hd
  · rw [cutPhp_sign hd] at hk hlength
    obtain ⟨x, hx, r, heq, hx'⟩ := arrow_of_cutOperator hk
    exact harrow x hx r heq (hx' ▸ hlength)
  · simp only [List.mem_cons, List.not_mem_nil, or_false] at hd
    rcases hd with rfl | rfl | rfl | rfl
    · exact not_value_of_comment (.inr rfl) hk
    · obtain ⟨r, heq, hthree⟩ := arrow_of_question hk
      rw [hthree] at hlength
      exact harrow ['?', '-', '>'] (by decide) r (by rw [heq]; rfl) hlength
    · obtain ⟨hheredoc, hline⟩ := heredoc_of_less hk hlength
      have hmem := hfront.subset hline
      have : ∀ o ∈ operators, '\n' ∉ o.1.toList := by decide
      exact this o ho hmem
    · have hdigit : ¬ (w ++ y).head?.any Char.isDigit = true := by
        rw [head?_any_stop (hy.stop isNameChar_of_isDigit)]
        cases w with
        | nil => simp
        | cons e w =>
          obtain ⟨r, hr⟩ := hfront
          have := (operators_arrow o ho).2 hhead e (by rw [← hr]; rfl)
          simp [this]
      rw [cutPhp_point hdigit] at hk
      exact not_value_of_cutOperator (by decide) hk

/-! ### The text behind an operand -/

theorem startsWith_of_value (hk : (s.cutPhp (d :: (w ++ y))).kind.isValuePart = true)
    (hlength : (s.cutPhp (d :: (w ++ y))).length ≤ w.length + 1) {l : String} (hl : l ∈ leads)
    (y' : List Char) :
    startsWith l.toList (d :: (w ++ y')) = startsWith l.toList (d :: (w ++ y)) := by
  by_cases hhead : l.toList.head? = some d
  · have hleads : ∀ l ∈ leads, ∀ d ∈ l.toList.head?, d = '#' ∨ d = '/' ∨
        d = '?' ∧ l.toList.length = 2 ∨ d = '<' ∧ l.toList.length = 3 := by decide
    have hle : l.toList.length ≤ (d :: w).length := by
      rcases hleads l hl d hhead with rfl | rfl | ⟨rfl, htwo⟩ | ⟨rfl, hthree⟩
      · exact (not_value_of_comment (.inl rfl) hk).elim
      · exact (not_value_of_comment (.inr rfl) hk).elim
      · obtain ⟨-, -, harrow⟩ := arrow_of_question hk
        rw [htwo, List.length_cons]
        omega
      · rw [hthree]
        exact length_le_of_startsWith (heredoc_of_less hk hlength).1
    rw [← List.cons_append, ← List.cons_append, startsWith_append_of_le hle,
      startsWith_append_of_le hle]
  · have hne : ∀ l ∈ leads, l.toList ≠ [] := by decide
    have hno : ∀ x, startsWith l.toList (d :: x) = false := by
      intro x
      refine startsWith_eq_false fun t ht => ?_
      obtain ⟨e, r, hl'⟩ := List.exists_cons_of_ne_nil (hne l hl)
      rw [hl', List.cons_append] at ht
      exact hhead (by rw [hl', (List.cons.inj ht).1]; rfl)
    rw [hno, hno]

theorem not_question_of_value (hk : (s.cutPhp (d :: (w ++ y))).kind.isValuePart = true)
    (hlength : (s.cutPhp (d :: (w ++ y))).length ≤ w.length + 1) {n : Nat}
    (hn : n = (s.cutPhp (d :: (w ++ y))).length) : (d :: w).take n ≠ ['?'] := by
  intro hq
  have hlong := congrArg List.length hq
  obtain ⟨m, rfl⟩ : ∃ m, n = m + 1 := by
    refine Nat.exists_eq_succ_of_ne_zero ?_
    rintro rfl
    cases hq
  obtain ⟨rfl, -⟩ := List.cons.inj hq
  obtain ⟨-, -, hthree⟩ := arrow_of_question hk
  rw [List.length_take, List.length_cons] at hlong
  simp only [List.length_cons, List.length_nil] at hlong
  omega

/-- The marks of string literals. -/
def isStringMark (c : Char) : Bool :=
  c = '\x27' || c = '\x22' || c = '\x60'

theorem cutPhp_string (hd : isStringMark d = true) (cs : List Char) :
    s.cutPhp (d :: cs) = ⟨.quoted, 1 + quotedTail d cs, .php⟩ := by
  simp only [isStringMark, Bool.or_eq_true, decide_eq_true_eq] at hd
  rcases hd with (rfl | rfl) | rfl <;> rfl

theorem kind_of_less (h : (s.cutPhp ('<' :: cs)).kind.isValuePart = true) :
    (s.cutPhp ('<' :: cs)).kind = .quoted := by
  rw [cutPhp_less] at h ⊢
  split
  · rename_i hs
    rw [if_pos hs] at h
    split
    · rfl
    · rename_i hnone
      rw [hnone] at h
      exact (not_value_of_cutOperator (by decide) h).elim
  · rename_i hs
    rw [if_neg hs] at h
    exact (not_value_of_cutOperator (by decide) h).elim

theorem Alike.of_value (hk : (s.cutPhp (d :: (w ++ y))).kind.isValuePart = true)
    (hlength : (s.cutPhp (d :: (w ++ y))).length ≤ w.length + 1)
    (hblank : d ∈ [' ', '\t', '\r', '\n'] → (s.cutPhp (d :: (w ++ y))).length < w.length + 1)
    (hy : Halts y) (hy' : Halts y')
    (hend : y = [] → (s.cutPhp (d :: (w ++ y))).kind = .quoted →
      (s.cutPhp (d :: (w ++ y))).length < w.length + 1)
    (hview : ∀ n, lower ((d :: w).take n) = "enum".toList → namesMember s.last = false →
      n = (s.cutPhp (d :: (w ++ y))).length →
      (trimStart ((d :: w).drop n ++ y')).head?.any isNameStart =
        (trimStart ((d :: w).drop n ++ y)).head?.any isNameStart) :
    Alike s d w y y' where
  lead _ hl := startsWith_of_value hk hlength hl _
  blank hd _ := by
    have hd : d ∈ [' ', '\t', '\r', '\n'] := by simpa [or_assoc] using hd
    have hlt := hblank hd
    rw [cutPhp_blank s hd] at hlt
    exact blankLength_congr_of_lt (w := d :: w) hlt
  name _ := ⟨hy.endsName, hy'.endsName⟩
  number _ := number_of_halts hy hy'
  quoted hd h := by
    rw [cutPhp_string hd] at hend
    cases y with
    | nil =>
      have hlt := hend rfl rfl
      simp only [List.append_nil] at hlt ⊢
      exact quotedTail_congr_of_lt (by omega) _
    | cons c z => exact quotedTail_congr w h _
  line hs := by
    have hd : d = '#' ∨ d = '/' := by
      rcases Bool.or_eq_true_iff.1 hs with hs | hs
      · obtain ⟨t, ht⟩ := exists_eq_append_of_startsWith hs
        exact .inl (List.cons.inj ht).1
      · obtain ⟨t, ht⟩ := exists_eq_append_of_startsWith hs
        exact .inr (List.cons.inj ht).1
    exact (not_value_of_comment hd hk).elim
  block hs := by
    obtain ⟨t, ht⟩ := exists_eq_append_of_startsWith hs
    obtain ⟨rfl, -⟩ := List.cons.inj ht
    exact (not_value_of_comment (.inr rfl) hk).elim
  heredoc hs h := by
    obtain ⟨t, ht⟩ := exists_eq_append_of_startsWith hs
    have hd : d = '<' := (List.cons.inj ht).1
    subst hd
    refine heredocLength?_congr (w := '<' :: w) (fun c hc => (hy c hc).1) (fun c hc => (hy' c hc).1)
      (heredoc_of_less hk hlength).2 fun n hn => ⟨h n hn, fun hnil => ?_⟩
    have hlt := hend hnil (kind_of_less hk)
    rwa [cutPhp_less, if_pos hs, show heredocLength? ('<' :: (w ++ y)) = some n from hn] at hlt
  cast := by
    rintro rfl
    exact (not_value_of_paren hk).elim
  operator _ o ho hs := length_le_of_value hk hlength hy ho hs
  view n p hpeeks hn := by
    rcases hpeeks with ⟨henum, hmember, rfl⟩ | ⟨hq, -, -⟩
    · exact hview n henum hmember hn
    · exact (not_question_of_value hk hlength hn hq).elim

theorem isNameStart_of_isAlpha (hc : c.isAlpha = true) : isNameStart c = true := by
  rw [isNameStart, hc]
  rfl

theorem not_isDigit_of_isNameStart (hc : isNameStart c = true) : c.isDigit = false := by
  rw [← Bool.not_eq_true]
  intro hdigit
  unfold isNameStart at hc
  delta Char.isAlpha Char.isUpper Char.isLower at hc
  delta Char.isDigit at hdigit
  simp only [Bool.or_eq_true, Bool.and_eq_true, decide_eq_true_eq, ge_iff_le, beq_iff_eq,
    UInt32.le_iff_toNat_le] at hc hdigit
  change 48 ≤ c.toNat ∧ c.toNat ≤ 57 at hdigit
  change ((65 ≤ c.toNat ∧ c.toNat ≤ 90 ∨ 97 ≤ c.toNat ∧ c.toNat ≤ 122) ∨ c = '_') ∨ 128 ≤ c.toNat at hc
  rcases hc with (hc | rfl) | hc
  · omega
  · exact absurd hdigit (by decide)
  · omega

theorem cutPhp_word (hc : isNameStart c = true) (cs : List Char) :
    s.cutPhp (c :: cs) = cutWord s.last (c :: cs) := by
  have hne : ∀ d ∈ ['?', '#', '/', ' ', '\t', '\r', '\n', '$', '\x27', '\x22', '\x60', '<', '.',
      '(', ')', '\x7b', '\x7d', '[', ']', ';', ',', '\\'], c ≠ d ∧ d ≠ c := by
    have hmarks : ∀ d ∈ ['?', '#', '/', ' ', '\t', '\r', '\n', '$', '\x27', '\x22', '\x60', '<',
        '.', '(', ')', '\x7b', '\x7d', '[', ']', ';', ',', '\\'], isNameStart d = false := by decide
    intro d hd
    have hdc : c ≠ d := by
      rintro rfl
      rw [hmarks c hd] at hc
      cases hc
    exact ⟨hdc, hdc.symm⟩
  simp only [List.mem_cons, List.not_mem_nil, or_false, forall_eq_or_imp, forall_eq] at hne
  simp [cutPhp_eq, cutCode, startsWith, after?, hne, not_isDigit_of_isNameStart hc, hc]

theorem isAlpha_of_toLower {a : Char} (h : c.toLower = a) (ha : a.isLower = true) :
    c.isAlpha = true := by
  unfold Char.toLower at h
  split at h
  · have hcapital : c.isUpper = true := by
      delta Char.isUpper
      grind
    exact Bool.or_eq_true_iff.mpr (.inl hcapital)
  · exact Bool.or_eq_true_iff.mpr (.inr (h ▸ ha))

/-- `enum` is a name only if no name follows. -/
theorem view_of_enum {n : Nat} (hword : lower ((c :: cs).take n) = "enum".toList)
    (hn : n = (s.cutPhp (c :: cs)).length) (hlast : namesMember s.last = false)
    (hk : (s.cutPhp (c :: cs)).kind ≠ .kwEnum) :
    (trimStart ((c :: cs).drop n)).head?.any isNameStart = false := by
  have hfour : ((c :: cs).take n).length = 4 := by
    have := congrArg List.length hword
    rwa [lower, List.length_map] at this
  obtain ⟨m, rfl⟩ : ∃ m, n = m + 1 := by
    refine Nat.exists_eq_succ_of_ne_zero ?_
    rintro rfl
    cases hfour
  have halpha : c.isAlpha = true := isAlpha_of_toLower (List.cons.inj hword).1 (by decide)
  rw [cutPhp_word (isNameStart_of_isAlpha halpha)] at hn hk
  unfold cutWord at hn hk
  simp only at hn hk
  split at hk
  · rename_i hzero
    rw [if_pos hzero] at hn
    rw [hn, List.take_succ_cons] at hfour
    cases hfour
  rename_i hpos
  rw [if_neg hpos] at hn
  split at hk
  · rename_i hback
    rw [if_pos hback] at hn
    simp only at hn
    rw [← hn, List.contains_iff_mem] at hback
    have hmem : '\\' ∈ lower ((c :: cs).take (m + 1)) := List.mem_map.2 ⟨_, hback, by decide⟩
    rw [hword] at hmem
    exact absurd hmem (by decide)
  · rename_i hback
    rw [if_neg hback] at hn
    simp only at hn
    have hw : String.ofList (lower ((c :: cs).take (m + 1))) = "enum" := by
      rw [hword]
      rfl
    simp only [← hn, wordKind, hlast, hw, Bool.false_eq_true, if_false, if_true] at hk
    split at hk
    · exact absurd rfl hk
    · rename_i hview
      simpa using hview

/-- A string literal or a heredoc with an end of its own. -/
def isSealed : List Char → Bool
  | [] => false
  | d :: u => isStringMark d && quotedTail d (u ++ [';']) = u.length ||
      startsWith "<<<".toList (d :: u) && heredocLength? (d :: u ++ [';']) = some (u.length + 1)

theorem cutPhp_of_isSealed (h : isSealed u = true)
    (hy : ∀ c, y.head? = some c → isNameChar c = false) :
    s.cutPhp (u ++ y) = ⟨.quoted, u.length, .php⟩ := by
  cases u with
  | nil => cases h
  | cons d u =>
    simp only [isSealed, Bool.or_eq_true, Bool.and_eq_true, decide_eq_true_eq] at h
    rcases h with ⟨hd, htail⟩ | ⟨hs, hlength⟩
    · rw [List.cons_append, cutPhp_string hd, quotedTail_congr u (Nat.le_of_eq htail) y, htail,
        List.length_cons, Nat.add_comm]
    · have hline := newline_of_heredocLength? hlength (Nat.le_refl _)
      have hstays := heredocLength?_congr (y := [';']) (by rintro c ⟨⟩; rfl) hy hline
        fun n hn => ⟨by rw [hlength] at hn; exact (Option.some.inj hn).ge,
          fun hnil => absurd hnil (List.cons_ne_nil _ _)⟩
      have hs' : startsWith "<<<".toList (d :: u ++ y) = true := by
        rwa [startsWith_append_of_le (length_le_of_startsWith hs)]
      obtain ⟨r, hr⟩ := exists_eq_append_of_startsWith hs
      have hd : d = '<' := (List.cons.inj hr).1
      subst hd
      rw [List.cons_append] at hstays hs' ⊢
      rw [cutPhp_less, if_pos hs', hstays, ← List.cons_append, hlength, List.length_cons]

/-- If no name is in view over a text, none comes into view with another text behind it. -/
theorem view_retailed (hold : (trimStart (w ++ y)).head?.any isNameStart = false)
    (hview : (trimStart y').head?.any isNameStart = false) :
    (trimStart (w ++ y')).head?.any isNameStart = false := by
  rw [head?_trimStart_append] at hold ⊢
  cases hhead : (trimStart w).head? with
  | none => rwa [Option.none_or]
  | some e =>
    rw [hhead, Option.some_or] at hold
    rwa [Option.some_or]

/-- A lexeme of a plain operand, with the others behind it. At the end of the file, a string literal
has to be closed. -/
theorem Reads.cutPhp_value {l : Kind × List Char} {rest : List (Kind × List Char)}
    (h : Reads s (l :: rest) y t) (hphp : s.mode = .php) (hl : l.1.isValuePart = true)
    (hblank : l.1 = .blank → rest ≠ []) (hy : Halts y) (hy' : Halts y')
    (hend : y = [] → rest = [] → l.1 = .quoted → isSealed l.2 = true)
    (hview : lower l.2 = "enum".toList → namesMember s.last = false →
      (trimStart y').head?.any isNameStart = false) :
    s.cutPhp (l.2 ++ (spelled rest ++ y')) = s.cutPhp (l.2 ++ (spelled rest ++ y)) := by
  by_cases hlast : y = [] ∧ rest = [] ∧ l.1 = .quoted
  · obtain ⟨rfl, rfl, hquoted⟩ := hlast
    have hsealed := hend rfl rfl hquoted
    have hstays : ∀ y, Halts y → s.cutPhp (l.2 ++ y) = ⟨.quoted, l.2.length, .php⟩ :=
      fun y hy => cutPhp_of_isSealed hsealed fun c hc => (hy c hc).1
    rw [spelled_nil, List.nil_append, List.nil_append, hstays _ hy, hstays _ hy']
  have hne : rest ≠ [] → spelled rest ≠ [] := by
    intro hrest
    obtain ⟨m, rest, rfl⟩ := List.exists_cons_of_ne_nil hrest
    obtain - | ⟨-, -, -, hreads⟩ := h
    rw [spelled_cons]
    exact List.append_ne_nil_of_left_ne_nil hreads.head.1 _
  obtain ⟨k, u⟩ := l
  obtain ⟨hu, hkind, hlength⟩ := h.head
  obtain ⟨d, v, rfl⟩ := List.exists_cons_of_ne_nil hu
  rw [Lexer.cut, hphp] at hkind hlength
  simp only [List.cons_append, ← List.append_assoc] at hkind hlength hl hend ⊢
  have hle : (s.cutPhp (d :: (v ++ spelled rest ++ y))).length ≤ (v ++ spelled rest).length + 1 := by
    rw [hlength, List.length_append, List.length_cons]
    omega
  have hlt : rest ≠ [] →
      (s.cutPhp (d :: (v ++ spelled rest ++ y))).length < (v ++ spelled rest).length + 1 := by
    intro hrest
    have hpos := List.length_pos_iff.2 (hne hrest)
    rw [hlength, List.length_append, List.length_cons]
    omega
  refine (Alike.of_value (by rwa [hkind]) hle (fun hd => hlt ?_) hy hy' (fun hnil hk => hlt ?_)
    fun n henum hmember hn => ?_).cutPhp hle
  · exact hblank (by rw [← hkind, cutPhp_blank s hd])
  · exact fun hrest => hlast ⟨hnil, hrest, hkind ▸ hk⟩
  · have hkeyword : (s.cutPhp (d :: (v ++ spelled rest ++ y))).kind ≠ .kwEnum := by
      rw [hkind]
      rintro rfl
      cases hl
    rw [hlength] at hn
    have hname : lower (d :: v) = "enum".toList := by
      rwa [hn, ← List.cons_append, List.take_left] at henum
    have henum' : lower ((d :: (v ++ spelled rest ++ y)).take n) = "enum".toList := by
      rwa [← List.cons_append, List.take_append_of_le_length (by rw [hn]; simp)]
    have hold := view_of_enum henum' (by rw [hn, hlength]) hmember hkeyword
    have hdrop : (d :: (v ++ spelled rest)).drop n = spelled rest := by
      rw [hn, ← List.cons_append, List.drop_left]
    rw [← List.cons_append, List.drop_append_of_le_length (by rw [hn]; simp), hdrop] at hold
    rw [hdrop, hold, view_retailed hold (hview hname hmember)]

/-- A plain operand is read alike before all texts in which neither a name nor a number goes on. -/
theorem Reads.retail_value (h : Reads s ls y t) (hphp : t.mode = .php)
    (hvalue : ∀ l ∈ ls, l.1.isValuePart = true) (hlast : ∀ l, ls.getLast? = some l → l.1 ≠ .blank)
    (hy : Halts y) (hy' : Halts y')
    (hend : y = [] → ∀ l, ls.getLast? = some l → l.1 = .quoted → isSealed l.2 = true)
    (hview : (trimStart y').head?.any isNameStart = false) : Reads s ls y' t := by
  refine h.retail hphp fun r l rest hmode hsuffix hreads => ?_
  have hlast' : rest = [] → ls.getLast? = some l := by
    rintro rfl
    obtain ⟨pre, hpre⟩ := hsuffix
    rw [← hpre, List.getLast?_append]
    rfl
  exact hreads.cutPhp_value hmode (hvalue l (hsuffix.subset List.mem_cons_self))
    (fun hblank hrest => hlast l (hlast' hrest) hblank) hy hy'
    (fun hnil hrest => hend hnil l (hlast' hrest)) fun _ _ => hview

end Lexer

end PhpStyle
