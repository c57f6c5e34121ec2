import PhpStyle.Proofs.PlainOperands
import PhpStyle.Proofs.TouchingWords

/-!
# Constant operands before another text

What an operand may start with is enough to read the lexemes before it (`Starts`). A constant operand,
which is a literal, a name, a constant of a class or an array (`ConstantLexemes`), is read alike
before a mark (`ConstantLexemes.retail`) and before a word that it withstands
(`ConstantLexemes.retail_word`), and so is the comparison between two operands before every text that
starts as an operand does (`Reads.retail_comparison`).
-/

namespace PhpStyle

open Text

/-- The kinds with which an operand may start. -/
def Kind.startsOperand : Kind → Bool
  | .variableName | .name | .kwStatic | .openArray => true
  | k => k.isLiteral

theorem Kind.isEffective_of_startsOperand {k : Kind} (h : k.startsOperand = true) :
    k.isEffective = true := by
  revert h
  cases k <;> decide

namespace Lexer

variable {s t m : Lexer} {c c' : Char} {y y' z z' : List Char} {l p op : Kind × List Char}
  {ls bs cs : List (Kind × List Char)}

theorem Reads.mode_of_single (h : Reads s [p] z t) (hcode : p.1.isCode = true)
    (htag : p.1 ≠ .closeTag) (hdoc : p.1 ≠ .docOpen) : s.mode = .php ∧ t.mode = .php := by
  have hphp : s.mode = .php := mode_of_isCode (by rw [h.head.2.1]; exact hcode)
  refine ⟨hphp, ?_⟩
  obtain - | ⟨hu, hcut, -, hrest⟩ := h
  obtain - | - := hrest
  obtain ⟨c, u, rfl⟩ := List.exists_cons_of_ne_nil hu
  rw [Lexer.cut, hphp] at hcut
  have hform := s.cutPhp_form c (u ++ (spelled [] ++ z))
  rw [show s.cutPhp (c :: (u ++ (spelled [] ++ z))) = _ from hcut] at hform
  exact hform.mode_eq htag hdoc

theorem Reads.last_of_single (h : Reads s [p] z t) (hp : p.1.isEffective = true) :
    t.last = some p.1 := by
  obtain - | ⟨-, -, -, hrest⟩ := h
  obtain - | - := hrest
  simp only at hp
  simp only [advance, hp, if_true]

theorem Reads.last_cases (h : Reads s ls z t) :
    ((∀ l ∈ ls, l.1.isTrivia = true) ∧ t.last = s.last) ∨
      ∃ pre l post, ls = pre ++ l :: post ∧ (∀ l ∈ post, l.1.isTrivia = true) ∧
        l.1.isEffective = true ∧ t.last = some l.1 := by
  induction h with
  | nil s z => exact .inl ⟨by simp, rfl⟩
  | cons hu hcut hlength hrest ih =>
    rename_i s t cut u z ls
    rcases ih with ⟨htrivia, hlast⟩ | ⟨pre, l, post, rfl, hpost, hl, hlast⟩
    · by_cases hk : cut.kind.isEffective = true
      · exact .inr ⟨[], (cut.kind, u), ls, rfl, htrivia, hk, by simp [hlast, advance, hk]⟩
      · have hk' : cut.kind.isTrivia = true := by simpa [Kind.isEffective] using hk
        exact .inl ⟨List.forall_mem_cons.2 ⟨hk', htrivia⟩, by simp [hlast, advance, hk]⟩
    · exact .inr ⟨(cut.kind, u) :: pre, l, post, rfl, hpost, hl, hlast⟩

theorem Reads.head_of_trivia_first (h : Reads s (l :: ls) z t) (hphp : s.mode = .php)
    (hl : l.1.isTrivia = true) :
    ∃ c u, l.2 = c :: u ∧ c ∈ [' ', '\t', '\r', '\n', '#', '/'] := by
  obtain ⟨c, u, hu, hkind, -⟩ := h.head_code hphp
  rw [← hkind] at hl
  exact ⟨c, u, hu, head_of_trivia hl⟩

theorem Reads.head_behind_trivia (h : Reads s ls z t) (hphp : s.mode = .php)
    (htrivia : ∀ l ∈ ls, l.1.isTrivia = true) (hc : (spelled ls ++ z).head? = some c) :
    c ∈ [' ', '\t', '\r', '\n', '#', '/'] ∨ ls = [] ∧ z.head? = some c := by
  cases ls with
  | nil => exact .inr ⟨rfl, hc⟩
  | cons l ls =>
    obtain ⟨d, u, hu, hd⟩ := h.head_of_trivia_first hphp (htrivia l List.mem_cons_self)
    rw [spelled_cons, hu] at hc
    obtain rfl : d = c := Option.some.inj hc
    exact .inl hd

theorem Reads.halts_of_trivia (h : Reads s ls z t) (hphp : s.mode = .php)
    (htrivia : ∀ l ∈ ls, l.1.isTrivia = true) (hz : ls = [] → Halts z) :
    Halts (spelled ls ++ z) := by
  intro c hc
  rcases h.head_behind_trivia hphp htrivia hc with hc | ⟨hnil, hc⟩
  · have hwalls : ∀ c ∈ [' ', '\t', '\r', '\n', '#', '/'], c ∈ walls := by decide
    exact halts_of_wall (hwalls c hc) [] c rfl
  · exact hz hnil c hc

theorem Reads.view_of_trivia (h : Reads s ls z t) (hphp : s.mode = .php)
    (htrivia : ∀ l ∈ ls, l.1.isTrivia = true)
    (hz : (trimStart z).head?.any isNameStart = false) :
    (trimStart (spelled ls ++ z)).head?.any isNameStart = false := by
  have hblank : ∀ c ∈ [' ', '\t', '\r', '\n'], isBlank c = true := by decide
  have hmarks : ∀ c ∈ ['#', '/'], isBlank c = false ∧ isNameStart c = false := by decide
  induction h with
  | nil s z => exact hz
  | cons hu hcut hlength hrest ih =>
    rename_i s t cut u z ls
    obtain ⟨hkind, hothers⟩ := List.forall_mem_cons.1 htrivia
    rw [spelled_cons, List.append_assoc]
    rcases blank_or_comment_of_trivia hphp hu hcut hlength hkind with
      ⟨hmode, hblanks⟩ | ⟨c, v, rfl, hc⟩
    · have htrim : trimStart u = [] :=
        List.dropWhile_eq_nil_iff.2 fun c hc => hblank c (hblanks c hc)
      rw [trimStart_append_of_nil htrim]
      exact ih hmode hothers hz
    · simp [trimStart, hmarks c hc]

theorem not_startsOperand_of_cutOperator (last : Option Kind) (cs : List Char) :
    (cutOperator last cs).kind.startsOperand = false := by
  have hoperators : ∀ o ∈ operators, o.2.startsOperand = false := by decide
  unfold cutOperator
  split
  · rename_i hfind
    exact hoperators _ (List.mem_of_find?_eq_some hfind)
  · split
    · unfold signKind
      repeat' split
      all_goals rfl
    · rfl

theorem not_extension_of_startsOperand {cs : List Char}
    (h : (s.cutPhp (c :: cs)).kind.startsOperand = true) : c ∉ extensions := by
  intro hc
  by_cases hq : c = '?'
  · subst hq
    by_cases htag : cs.head? = some '>'
    · obtain ⟨r, rfl⟩ := List.head?_eq_some_iff.1 htag
      cases h
    · rw [cutPhp_question htag, not_startsOperand_of_cutOperator] at h
      cases h
  · have hsigns : ∀ c ∈ extensions, c ≠ '?' →
        c ∈ ['=', '!', '*', '>', '&', '|', '-', ':', '+', '%', '^'] := by decide
    rw [cutPhp_sign (hsigns c hc hq), not_startsOperand_of_cutOperator] at h
    cases h

/-- An operand starts with a character of its own: neither with a blank or a closing tag nor with
one that an operator might go on with. -/
structure Starts (y : List Char) : Prop where
  solid : Solid y
  next : ∀ c ∈ y.head?, c ∉ extensions
  inside : ∀ c ∈ y.head?, c ≠ ')'

theorem Starts.aloof (h : Starts y) (hy : EndsName y) : Aloof y := by
  obtain ⟨c, z, rfl, hc⟩ := h.solid.head
  refine ⟨hy, c, z, rfl, ?_⟩
  have hnext : c ≠ '?' := fun hq => h.next c rfl (by rw [hq]; decide)
  have hinside := h.inside c rfl
  simp only [List.mem_cons, List.not_mem_nil, or_false, not_or] at hc ⊢
  exact ⟨hc.1, hc.2.1, hc.2.2.1, hc.2.2.2, hinside, hnext⟩

theorem Reads.mode_of_starts (h : Reads s (l :: ls) z t) (hl : l.1.startsOperand = true) :
    s.mode = .php := by
  have hcode : l.1.isCode = true := by
    revert hl
    cases l.1 <;> decide
  exact mode_of_isCode (by rw [h.head.2.1]; exact hcode)

theorem Reads.starts (h : Reads s (l :: ls) z t) (hl : l.1.startsOperand = true) :
    Starts (spelled (l :: ls) ++ z) := by
  obtain ⟨c, u, hu, hkind, -⟩ := h.head_code (h.mode_of_starts hl)
  have htext : spelled (l :: ls) ++ z = c :: (u ++ (spelled ls ++ z)) := by
    simp [hu]
  rw [htext]
  rw [← hkind] at hl
  refine ⟨⟨⟨c, _, rfl, fun hc => ?_⟩, fun htag => ?_⟩, fun d hd => ?_, fun d hd => ?_⟩
  · rw [cutPhp_blank s hc] at hl
    cases hl
  · obtain ⟨r, hr⟩ := exists_eq_append_of_startsWith htag
    rw [hr] at hl
    cases hl
  · obtain rfl : c = d := Option.some.inj hd
    exact not_extension_of_startsOperand hl
  · obtain rfl : c = d := Option.some.inj hd
    rintro rfl
    cases hl

theorem Reads.unseen_of_operand (h : Reads s (l :: ls) z t)
    (hl : l.1.startsOperand = true) {last : Option Kind} (hc : c ∈ l.2.head?)
    (hmember : namesMember s.last = false) (hlast : namesMember last = false)
    (harray : l.1 = .openArray → squareKind last = .openArray) : Unseen s.last last c := by
  obtain ⟨d, u, hu, hkind, -⟩ := h.head_code (h.mode_of_starts hl)
  obtain rfl : d = c := by simpa [hu] using hc
  refine ⟨fun _ => hlast.trans hmember.symm, ?_, ?_⟩
  · rintro rfl
    rw [← hkind] at hl
    exact absurd (by decide) (not_extension_of_startsOperand hl)
  · rintro rfl
    have hsquare : squareKind s.last = l.1 := hkind
    rcases squareKind_eq s.last with hk | hk
    · rw [← hsquare, hk] at hl
      cases hl
    · rw [hk, harray (hsquare.symm.trans hk)]

/-- The lexemes of a constant: a literal or a name, a constant of a class, a short array. -/
inductive ConstantLexemes : List (Kind × List Char) → Prop
  | single (l : Kind × List Char) (h : l.1 = .name ∨ l.1.isLiteral = true) : ConstantLexemes [l]
  | member {a m b : Kind × List Char} {ts ts' : List (Kind × List Char)}
      (ha : a.1 = .name ∨ a.1 = .kwStatic) (hts : ∀ l ∈ ts, l.1.isTrivia = true)
      (hm : m.1 = .doubleColon) (hts' : ∀ l ∈ ts', l.1.isTrivia = true) (hb : b.1 = .name) :
      ConstantLexemes (a :: ts ++ (m :: (ts' ++ [b])))
  | array {o c : Kind × List Char} {inner : List (Kind × List Char)} (ho : o.1 = .openArray)
      (hc : c.1 = .closeArray) : ConstantLexemes (o :: inner ++ [c])

namespace ConstantLexemes

theorem exists_first (h : ConstantLexemes ls) :
    ∃ l rest, ls = l :: rest ∧ l.1.startsOperand = true := by
  cases h with
  | single l h =>
    refine ⟨l, [], rfl, ?_⟩
    rcases h with h | h
    · rw [h]
      rfl
    · revert h
      cases l.1 <;> decide
  | member ha => exact ⟨_, _, rfl, by rcases ha with ha | ha <;> rw [ha] <;> rfl⟩
  | array ho => exact ⟨_, _, rfl, by rw [ho]; rfl⟩

theorem exists_last (h : ConstantLexemes ls) :
    ∃ rest l, ls = rest ++ [l] ∧ (l.1 = .name ∨ l.1.isLiteral = true ∨ l.1 = .closeArray) := by
  cases h with
  | single l h => exact ⟨[], l, rfl, by tauto⟩
  | @member a m b ts ts' _ _ _ _ hb => exact ⟨a :: ts ++ m :: ts', b, by simp, .inl hb⟩
  | array _ hc => exact ⟨_, _, rfl, .inr (.inr hc)⟩

end ConstantLexemes

theorem Reads.spelled_of_wall (h : Reads s [p] z t) (hcode : p.1.isCode = true)
    {u : List Char} (hu : p.1.spellings = [u]) : s.mode = .php ∧ p.2 = u := by
  have hphp : s.mode = .php := mode_of_isCode (by rw [h.head.2.1]; exact hcode)
  exact ⟨hphp, by simpa [hu] using h.spelling hphp (by simp [hu])⟩

theorem Reads.retail_member {m b : Kind × List Char} {ts : List (Kind × List Char)}
    (h : Reads s (m :: (ts ++ [b])) (c :: z) t) (hm : m.1 = .doubleColon)
    (hts : ∀ l ∈ ts, l.1.isTrivia = true) (hb : b.1 = .name) (hy : Halts (c :: z))
    (hy' : Halts y') :
    Reads s (m :: (ts ++ [b])) y' t := by
  have h : Reads s ([m] ++ (ts ++ [b])) (c :: z) t := h
  obtain ⟨m₂, hmark, h⟩ := h.of_append
  obtain ⟨m₃, hgap, hlast⟩ := h.of_append
  obtain ⟨hphp, hcolons⟩ :=
    hmark.spelled_of_wall (by rw [hm]; rfl) (u := [':', ':']) (by rw [hm]; rfl)
  have hphp₃ : m₃.mode = .php := mode_of_isCode (by rw [hlast.head.2.1, hb]; rfl)
  have hmember : namesMember m₃.last = true := by
    rw [(hgap.frame_of_trivia hts).1, hmark.last_of_single (by rw [hm]; rfl), hm]
    rfl
  have hblank : b.1 ≠ .blank := by
    rw [hb]
    decide
  have hlast' : Reads m₃ [b] y' t :=
    hlast.retail_single hphp₃ (hlast.cutPhp_value hphp₃ (by rw [hb]; rfl)
      (fun hk => absurd hk hblank) hy hy' (fun hnil => absurd hnil (List.cons_ne_nil c z))
      fun _ hfalse => by
        rw [hmember] at hfalse
        cases hfalse)
  have hgap' : Reads m₂ ts (spelled [b] ++ y') m₃ :=
    hgap.retail_trivia hts hphp₃ (hlast.starts (by rw [hb]; rfl)).solid
      (hlast'.starts (by rw [hb]; rfl)).solid
  have hmark' : Reads s [m] (spelled (ts ++ [b]) ++ y') m₂ := by
    refine hmark.retail_single hphp ?_
    have hcut : ∀ z, s.cutPhp (':' :: ':' :: z) = ⟨.doubleColon, 2, .php⟩ := fun _ => rfl
    rw [hcolons]
    exact (hcut _).trans (hcut _).symm
  exact hmark'.append (hgap'.append hlast')

/-- A closing square bracket hides what follows it. -/
theorem Reads.retail_bracket (h : Reads s (ls ++ [p]) y t) (hcode : p.1.isCode = true)
    (hp : p.1.spellings = [[']']]) (y' : List Char) : Reads s (ls ++ [p]) y' t := by
  obtain ⟨m, hinner, hclose⟩ := h.of_append
  obtain ⟨hphp, hbracket⟩ := hclose.spelled_of_wall hcode hp
  have hspelled : ∀ z, spelled [p] ++ z = [] ++ ']' :: z := by
    simp [hbracket]
  refine .append ?_ (hclose.retail_single hphp ?_)
  · rw [hspelled] at hinner ⊢
    exact hinner.retail_wall hphp (by decide) (by decide) (fun h => absurd h (by decide)) _
  · obtain ⟨cut, hcut⟩ := cutPhp_mark m (c := ']') (by decide)
    rw [hbracket]
    exact (hcut _).trans (hcut _).symm

namespace ConstantLexemes

theorem php_of_single (hl : p.1 = .name ∨ p.1.isLiteral = true) (h : Reads s [p] y t) :
    s.mode = .php ∧ p.1.isValuePart = true ∧ p.1 ≠ .blank ∧ p.1 ≠ .closeArray := by
  have hkind : p.1.isCode = true ∧ p.1.isValuePart = true ∧ p.1 ≠ .blank ∧ p.1 ≠ .closeArray := by
    rcases hl with hl | hl
    · rw [hl]
      decide
    · revert hl
      cases p.1 <;> decide
  exact ⟨mode_of_isCode (by rw [h.head.2.1]; exact hkind.1), hkind.2⟩

/-- A constant is read alike before all texts in which neither a name nor a number goes on. -/
theorem retail (hls : ConstantLexemes ls) (h : Reads s ls (c :: z) t)
    (hy : Halts (c :: z)) (hy' : Halts y')
    (hview : ∀ l, ls = [l] → lower l.2 = "enum".toList →
      (trimStart y').head?.any isNameStart = false) : Reads s ls y' t := by
  cases hls with
  | single l hl =>
    obtain ⟨hphp, hvalue, hblank, -⟩ := php_of_single hl h
    exact h.retail_single hphp (h.cutPhp_value hphp hvalue (fun hk => absurd hk hblank) hy hy'
      (fun hnil => absurd hnil (List.cons_ne_nil c z)) fun henum _ => hview l rfl henum)
  | @member a m b ts ts' ha hts hm hts' hb =>
    obtain ⟨m₁, hfirst, hrest⟩ := h.of_append
    obtain ⟨m₂, hmark, -⟩ := (show Reads m₁ ([m] ++ (ts' ++ [b])) (c :: z) t from hrest).of_append
    obtain ⟨hphp, hcolons⟩ :=
      hmark.spelled_of_wall (by rw [hm]; rfl) (u := [':', ':']) (by rw [hm]; rfl)
    refine .append ?_ (hrest.retail_member hm hts' hb hy hy')
    have hspelled : ∀ z, spelled (m :: (ts' ++ [b])) ++ z =
        [] ++ ':' :: (':' :: (spelled (ts' ++ [b]) ++ z)) := by
      simp [hcolons]
    rw [hspelled] at hfirst ⊢
    exact hfirst.retail_wall hphp (by decide) (by decide) (fun h => absurd h (by decide)) _
  | @array o k inner ho hk => exact h.retail_bracket (by rw [hk]; rfl) (by rw [hk]; rfl) _

end ConstantLexemes

/-- A constant before a word that touches it. -/
theorem ConstantLexemes.retail_word {w : List Char} (hls : ConstantLexemes ls)
    (h : Reads s ls [';'] t) (hw : EndsDecimal w) (hne : w ≠ [])
    (hlast : ∀ l ∈ ls.getLast?, l.1 = .closeArray ∨ withstands w l.2 = true) (z : List Char) :
    Reads s ls (w ++ z) t := by
  cases hls with
  | single l hl =>
    obtain ⟨hphp, -, -, harray⟩ := php_of_single hl h
    have hstays := (hlast l rfl).resolve_left harray
    have hlength := h.head.2.2
    rw [Lexer.cut, hphp] at hlength
    exact h.retail_single hphp (cutPhp_of_withstands hstays hw hne hlength z)
  | @member a m b ts ts' ha hts hm hts' hb =>
    -- a name does not withstand the word
    have hsplit : a :: ts ++ m :: (ts' ++ [b]) = (a :: ts ++ m :: ts') ++ [b] := by simp
    rw [hsplit] at h hlast
    obtain ⟨r, -, hlastRead⟩ := h.of_append
    have hstays := (hlast b (by rw [List.getLast?_concat]; rfl)).resolve_left (by rw [hb]; decide)
    have hphp : r.mode = .php := mode_of_isCode (by rw [hlastRead.head.2.1, hb]; rfl)
    have hkind := hlastRead.head.2.1
    rw [Lexer.cut, hphp, hb] at hkind
    exact absurd hkind (kind_of_withstands hstays _)
  | @array o k inner ho hk => exact h.retail_bracket (by rw [hk]; rfl) (by rw [hk]; rfl) _

/-! ### Comparisons -/

theorem isEquality_spelled {k : Kind} (h : k.isEquality = true) : k.isCode = true ∧
    k.isTrivia = false ∧ k.isBracket = false ∧ k.spellings ≠ [] ∧ ∀ u ∈ k.spellings, u ∈ signs ∧
      u ≠ ['?'] ∧ ∃ c ∈ u.head?, c ∈ ['=', '!', '<'] := by
  revert h
  cases k <;> decide

/-- The text behind a comparison, with blanks and comments on both sides of the operator. -/
theorem Reads.retail_comparison (h : Reads s (bs ++ op :: cs) y t) (hphp : t.mode = .php)
    (hop : op.1.isEquality = true) (hbs : ∀ l ∈ bs, l.1.isTrivia = true)
    (hcs : ∀ l ∈ cs, l.1.isTrivia = true) (hy : Solid y) (hy' : Starts y') :
    Reads s (bs ++ op :: cs) y' t := by
  obtain ⟨m₁, hbefore, h⟩ := h.of_append
  have h : Reads m₁ ([op] ++ cs) y t := h
  obtain ⟨m₂, hsign, hbehind⟩ := h.of_append
  obtain ⟨hcode, htrivia, -, hspellings, hforms⟩ := isEquality_spelled hop
  obtain ⟨hphp₁, hphp₂⟩ := hsign.mode_of_single hcode (fun h => by rw [h] at hop; cases hop)
    fun h => by rw [h] at hop; cases hop
  obtain ⟨hsigns, hquestion, e, he, hmark⟩ := hforms op.2 (hsign.spelling hphp₁ hspellings)
  obtain ⟨u, hu⟩ := List.head?_eq_some_iff.1 he
  have hbehind' := hbehind.retail_trivia hcs hphp hy hy'.solid
  have hsign' : Reads m₁ [op] (spelled cs ++ y') m₂ := by
    have hlength := hsign.head.2.2
    rw [Lexer.cut, hphp₁] at hlength
    simp only [spelled_nil, List.nil_append] at hlength
    refine hsign.retail_single hphp₁ ?_
    rw [cutPhp_sign_eq hsigns fun h => absurd h hquestion] at hlength ⊢
    rw [cutPhp_sign_eq hsigns fun h => absurd h hquestion]
    refine cutOperator_sign hsigns hlength (fun d hd => ?_) fun h => absurd h hquestion
    rcases hbehind'.head_behind_trivia hphp₂ hcs hd with hd | ⟨-, hd⟩
    · have hheads : ∀ c ∈ [' ', '\t', '\r', '\n', '#', '/'], c ∉ extensions := by decide
      exact hheads d hd
    · exact hy'.next d hd
  have hsolid : ∀ z, Solid (spelled (op :: cs) ++ z) := by
    intro z
    have hmarks : ∀ c ∈ ['=', '!', '<'], c ∉ [' ', '\t', '\r', '\n'] ∧ c ≠ '?' := by decide
    obtain ⟨hblank, hne⟩ := hmarks e hmark
    rw [spelled_cons, hu]
    refine ⟨⟨e, _, rfl, hblank⟩, ?_⟩
    simp [startsWith, after?, hne.symm]
  have hbefore' := hbefore.retail_trivia hbs hphp₁ (hsolid y) (hsolid y')
  exact hbefore'.append (hsign'.append hbehind')

end Lexer

end PhpStyle
