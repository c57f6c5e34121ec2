import PhpStyle.Proofs.LexerStates

/-!
# Blanks and comments before another text

A run of blanks and comments is read alike before any two texts that go on with something else
(`Solid`): a blank ends there, a block comment and a doc comment have an end of their own, and a
comment to the end of the line has met that end among the blanks (`Reads.retail_trivia`).
-/

namespace PhpStyle

open Text

namespace Lexer

variable {s t : Lexer} {c : Char} {cs u v w y z z' : List Char} {l : Kind × List Char}
  {ls : List (Kind × List Char)}

/-- Here a line or the text ends, or a closing tag starts. -/
def EndsComment (y : List Char) : Prop :=
  y = [] ∨ y.head? = some '\n' ∨ startsWith "?>".toList y = true

/-- The text starts neither with a blank nor with a closing tag. -/
structure Solid (y : List Char) : Prop where
  head : ∃ c z, y = c :: z ∧ c ∉ [' ', '\t', '\r', '\n']
  noTag : ¬ startsWith "?>".toList y = true

theorem Solid.not_endsComment (h : Solid y) : ¬ EndsComment y := by
  obtain ⟨c, z, rfl, hc⟩ := h.head
  rintro (hnil | hfeed | htag)
  · cases hnil
  · obtain rfl : c = '\n' := Option.some.inj hfeed
    exact absurd hc (by decide)
  · exact h.noTag htag

theorem endsComment_of_find {u Y y : List Char} (hY : y.takeWhile (· ≠ '\n') = Y)
    (h : (find? "?>".toList (u ++ Y)).getD (u ++ Y).length = u.length) : EndsComment y := by
  cases hfind : find? "?>".toList (u ++ Y) with
  | none =>
    rw [hfind, Option.getD_none, List.length_append] at h
    have hnil : Y = [] := List.length_eq_zero_iff.1 (by omega)
    rw [hnil] at hY
    cases y with
    | nil => exact .inl rfl
    | cons c y =>
      refine .inr (.inl ?_)
      by_cases hc : c = '\n'
      · rw [hc]
        rfl
      · simp [hc] at hY
  | some n =>
    rw [hfind, Option.getD_some] at h
    subst h
    have hs := startsWith_drop_of_find? hfind
    rw [List.drop_left] at hs
    have hle := length_le_of_startsWith hs
    refine .inr (.inr ?_)
    rw [← List.takeWhile_append_dropWhile (p := (· ≠ '\n')) (l := y), hY,
      startsWith_append_of_le hle]
    exact hs

/-- Behind a comment to the end of the line stands that end, perhaps behind a carriage return. -/
theorem endsComment_of_lineCommentLength (h : lineCommentLength (u ++ y) = u.length) :
    EndsComment y ∨ ∃ y', y = '\r' :: y' ∧ EndsComment y' := by
  have hline : '\n' ∉ u := by
    have hle : u.length ≤ ((u ++ y).takeWhile (· ≠ '\n')).length := by
      rw [← h]
      simp only [lineCommentLength]
      split
      all_goals
        simp only [List.length_take]
        omega
    intro hmem
    rw [takeWhile_append_of_mem (p := (· ≠ '\n')) hmem (by simp)] at hle
    have hall : u.takeWhile (· ≠ '\n') = u :=
      (List.takeWhile_prefix _).eq_of_length_le hle
    rw [← hall] at hmem
    simpa using List.mem_takeWhile_imp hmem
  simp only [lineCommentLength, takeWhile_line hline] at h
  generalize hY : y.takeWhile (· ≠ '\n') = Y at h
  generalize hn : (find? "?>".toList (u ++ Y)).getD (u ++ Y).length = n at h
  have hle : n ≤ (u ++ Y).length := by
    cases hfind : find? "?>".toList (u ++ Y) with
    | none =>
      rw [hfind] at hn
      exact Nat.le_of_eq hn.symm
    | some m =>
      have := add_length_le_of_find? hfind
      rw [hfind, Option.getD_some] at hn
      omega
  split at h
  · rename_i hlast
    -- the carriage return at the end of the line is not part of the comment
    have hn1 : n = u.length + 1 := by
      have hpos : 0 < ((u ++ Y).take n).length :=
        List.length_pos_iff.2 (List.ne_nil_of_mem (List.mem_of_getLast? hlast))
      rw [List.length_take] at h hpos
      omega
    subst hn1
    rw [List.take_length_add_append] at hlast
    obtain ⟨d, Y, rfl⟩ : ∃ d Y', Y = d :: Y' := by
      refine List.exists_cons_of_ne_nil ?_
      rintro rfl
      rw [List.length_append, List.length_nil] at hle
      omega
    obtain rfl : d = '\r' := by simpa using hlast
    obtain ⟨e, y, rfl⟩ : ∃ e y', y = e :: y' := by
      refine List.exists_cons_of_ne_nil ?_
      rintro rfl
      cases hY
    have he : e ≠ '\n' := by
      rintro rfl
      simp at hY
    rw [List.takeWhile_cons, if_pos (by simpa using he)] at hY
    obtain ⟨rfl, htail⟩ := List.cons.inj hY
    refine .inr ⟨y, rfl, endsComment_of_find (u := u ++ ['\r']) htail ?_⟩
    rw [List.append_assoc, List.singleton_append, hn, List.length_append]
    rfl
  · refine .inl (endsComment_of_find (u := u) hY ?_)
    rw [List.length_take] at h
    omega

theorem mem_take_blankLength {d : Char} (h : d ∈ cs.take (blankLength cs)) :
    d ∈ [' ', '\t', '\r', '\n'] := by
  induction cs with
  | nil => simp at h
  | cons c cs ih =>
    rw [blankLength] at h
    split at h
    · rename_i hc
      rw [hc] at h
      simp at h
      simp [h]
    · split at h
      · rename_i hc
        rw [List.take_succ_cons] at h
        rcases List.mem_cons.1 h with rfl | h
        · simp only [Bool.or_eq_true, decide_eq_true_eq] at hc
          rcases hc with (rfl | rfl) | rfl <;> decide
        · exact ih h
      · simp at h

theorem blankLength_before (h : blankLength (u ++ z) = u.length)
    (hc : c ∉ [' ', '\t', '\r', '\n']) : blankLength (u ++ c :: z') = u.length := by
  rw [blankLength_append] at h ⊢
  split
  · rw [blankLength_eq_zero hc, Nat.add_zero]
  · rename_i hblank
    rwa [if_neg hblank] at h

/-! ### Segments of blanks and comments -/

theorem last_of_trivia {e : Char} (hu : u ≠ []) (hk : (s.cutPhp (u ++ e :: y)).kind.isTrivia = true)
    (hlength : (s.cutPhp (u ++ e :: y)).length = u.length)
    (hphp : (s.cutPhp (u ++ e :: y)).mode = .php) (hy : Solid (e :: y)) :
    ∃ a, u.getLast? = some a ∧ a ∈ ['/', ' ', '\t', '\r', '\n'] := by
  obtain ⟨c, v, rfl⟩ := List.exists_cons_of_ne_nil hu
  have htrivia := (s.cutPhp_form c (v ++ e :: y)).trivia hk
  rw [List.cons_append] at hlength hphp
  generalize s.cutPhp (c :: (v ++ e :: y)) = cut at htrivia hlength hphp
  rw [← List.cons_append] at htrivia
  generalize c :: v = u at *
  generalize htext : u ++ e :: y = text at htrivia
  cases htrivia with
  | blank d ds hd =>
    rw [← htext] at hlength
    obtain ⟨a, ha⟩ : ∃ a, u.getLast? = some a := ⟨_, List.getLast?_eq_getLast_of_ne_nil hu⟩
    have hmem : a ∈ (u ++ e :: y).take (blankLength (u ++ e :: y)) := by
      rw [show blankLength (u ++ e :: y) = u.length from hlength, List.take_left]
      exact List.mem_of_getLast? ha
    exact ⟨a, ha, List.mem_cons_of_mem _ (mem_take_blankLength hmem)⟩
  | line d ds hd =>
    rw [← htext] at hlength
    rcases endsComment_of_lineCommentLength hlength with hends | ⟨y', heq, -⟩
    · exact absurd hends hy.not_endsComment
    · obtain ⟨c, z, hz, hc⟩ := hy.head
      obtain ⟨rfl, -⟩ := List.cons.inj (hz.symm.trans heq)
      exact absurd hc (by decide)
  | block ds =>
    rw [← htext] at hlength
    exact ⟨'/', slash_of_block hlength, by decide⟩
  | doc ds => cases hphp

/-- A run of blanks and comments ends with a blank or with the slash of a comment. -/
theorem Reads.wall_of_trivia (h : Reads s [l] y t) (hl : l.1.isTrivia = true) (hphp : t.mode = .php)
    (hy : Solid y) : ∃ v a, l.2 = v ++ [a] ∧ a ∈ ['/', ' ', '\t', '\r', '\n'] := by
  obtain - | ⟨hu, hcut, hlength, hrest⟩ := h
  rename_i cut u
  obtain - | - := hrest
  obtain ⟨e, y, rfl, he⟩ := hy.head
  change s.cut (u ++ e :: y) = cut at hcut
  have hphp : cut.mode = .php := hphp
  suffices hlast : ∃ a, u.getLast? = some a ∧ a ∈ ['/', ' ', '\t', '\r', '\n'] by
    obtain ⟨a, ha, hwall⟩ := hlast
    obtain ⟨v, hv⟩ := List.getLast?_eq_some_iff.1 ha
    exact ⟨v, a, hv, hwall⟩
  cases hm : s.mode with
  | html =>
    rw [Lexer.cut, hm] at hcut
    simp only [cutHtml] at hcut
    split at hcut
    all_goals
      subst hcut
      cases hl
  | doc lineStart hasText =>
    -- behind a piece the comment goes on
    obtain ⟨c, v, rfl⟩ := List.exists_cons_of_ne_nil hu
    rw [Lexer.cut, hm, List.cons_append] at hcut
    simp only at hcut
    rcases cutDoc_cases lineStart hasText c (v ++ e :: y) with ⟨rest, hclose, heq⟩ | hpiece
    · rw [hcut] at heq
      subst heq
      obtain ⟨d, rfl⟩ := List.length_eq_one_iff.1 (Nat.succ.inj hlength).symm
      simp only [List.cons_append, List.nil_append, List.cons.injEq] at hclose
      obtain ⟨rfl, rfl, -⟩ := hclose
      exact ⟨'/', rfl, by decide⟩
    · rw [hcut] at hpiece
      have hstays := hpiece.stays
      rw [hphp] at hstays
      cases hstays
  | php =>
    rw [Lexer.cut, hm] at hcut
    simp only at hcut
    subst hcut
    exact last_of_trivia hu hl hlength hphp hy

/-- Of the text behind it a blank or a comment sees little. -/
theorem Alike.of_trivia {d : Char} {y' : List Char} (hd : d ∈ [' ', '\t', '\r', '\n', '#', '/'])
    (hlead : ∀ l ∈ leads,
      startsWith l.toList (d :: (w ++ y')) = startsWith l.toList (d :: (w ++ y)))
    (hblank : d ∈ [' ', '\t', '\r', '\n'] → blankLength (d :: (w ++ y)) ≤ w.length + 1 →
      blankLength (d :: (w ++ y')) = blankLength (d :: (w ++ y)))
    (hline :
      (startsWith "#".toList (d :: (w ++ y)) || startsWith "//".toList (d :: (w ++ y))) = true →
      lineCommentLength (d :: (w ++ y)) ≤ w.length + 1 →
      lineCommentLength (d :: (w ++ y')) = lineCommentLength (d :: (w ++ y)))
    (hblock : startsWith "/*".toList (d :: (w ++ y)) = true →
      blockCommentLength (d :: (w ++ y)) ≤ w.length + 1 →
      blockCommentLength (d :: (w ++ y')) = blockCommentLength (d :: (w ++ y)))
    (hoperator : (Lexer.cutOperator s.last (d :: (w ++ y))).length ≤ w.length + 1 →
      ∀ o ∈ operators, startsWith o.1.toList (d :: (w ++ y')) = true → o.1.length ≤ w.length + 1) :
    Alike s d w y y' := by
  have hheads : ∀ d ∈ [' ', '\t', '\r', '\n', '#', '/'],
      (d = '$' || d = '\\' || isNameStart d) = false ∧ (d = '.' || d.isDigit) = false ∧
      (d = '\x27' || d = '\x22' || d = '\x60') = false ∧ d ≠ '<' ∧ d ≠ '(' ∧ d.toLower ≠ 'e' ∧
      d ≠ '?' := by decide
  obtain ⟨hname, hnumber, hquote, hless, hparen, hletter, hmark⟩ := hheads d hd
  refine ⟨hlead, fun h => hblank (by simpa [or_assoc] using h), fun h => ?_, fun h => ?_,
    fun h => ?_, hline, hblock, fun hs => ?_, fun h => absurd h hparen, hoperator,
    fun n p hpeeks hn => ?_⟩
  · rw [hname] at h
    cases h
  · rw [hnumber] at h
    cases h
  · rw [hquote] at h
    cases h
  · obtain ⟨t, ht⟩ := exists_eq_append_of_startsWith hs
    exact absurd (List.cons.inj ht).1 hless
  · have hpos : 0 < n := by
      rw [hn]
      exact (s.cutPhp_form d (w ++ y)).fits.pos
    obtain ⟨n, rfl⟩ := Nat.exists_eq_succ_of_ne_zero (Nat.pos_iff_ne_zero.1 hpos)
    rw [List.take_succ_cons] at hpeeks
    rcases hpeeks with ⟨henum, -⟩ | ⟨hq, -⟩
    · exact absurd (List.cons.inj henum).1 hletter
    · exact absurd (List.cons.inj hq).1 hmark

/-- The last blank or comment of a run. -/
theorem cutPhp_last_trivia {d : Char} {y' : List Char}
    (hk : (s.cutPhp (d :: (w ++ y))).kind.isTrivia = true)
    (hphp : (s.cutPhp (d :: (w ++ y))).mode = .php)
    (hlength : (s.cutPhp (d :: (w ++ y))).length = w.length + 1) (hy : Solid y) (hy' : Solid y') :
    s.cutPhp (d :: (w ++ y')) = s.cutPhp (d :: (w ++ y)) := by
  obtain ⟨e, x, rfl, he⟩ := hy.head
  obtain ⟨e', x', rfl, he'⟩ := hy'.head
  have hform := (s.cutPhp_form d (w ++ e :: x)).trivia hk
  have hd := head_of_trivia hk
  generalize hcut : s.cutPhp (d :: (w ++ e :: x)) = cut at hform hphp hlength
  generalize htext : d :: (w ++ e :: x) = text at hform
  cases hform with
  | blank c cs hc =>
    obtain ⟨rfl, rfl⟩ := List.cons.inj htext
    have hbefore : blankLength (d :: w ++ e' :: x') = (d :: w).length :=
      blankLength_before (z := e :: x) hlength he'
    rw [cutPhp_blank s hc, ← List.cons_append, hbefore]
    exact congrArg (Cut.mk .blank · .php) hlength.symm
  | line c cs hc =>
    rw [← htext, ← List.cons_append] at hlength
    rcases endsComment_of_lineCommentLength hlength with hends | ⟨y', heq, -⟩
    · exact absurd hends hy.not_endsComment
    · obtain ⟨rfl, -⟩ := List.cons.inj heq
      exact absurd he (by decide)
  | block cs =>
    rw [← htext, ← List.cons_append] at hlength
    have hfour : 4 ≤ (d :: w).length := length_ge_of_block hlength
    have hleads : ∀ l ∈ leads, l.toList.length ≤ 4 := by decide
    rw [← hcut]
    refine (Alike.of_trivia hd (fun l hl => ?_) (fun hblank => ?_) (fun hs => ?_) (fun _ _ => ?_)
      fun _ o ho _ => ?_).cutPhp ?_
    · have hle := Nat.le_trans (hleads l hl) hfour
      rw [← List.cons_append, ← List.cons_append, startsWith_append_of_le hle,
        startsWith_append_of_le hle]
    · obtain ⟨rfl, -⟩ := List.cons.inj htext
      exact absurd hblank (by decide)
    · rw [htext] at hs
      simp [startsWith, after?] at hs
    · exact blockCommentLength_congr (w := d :: w) (by omega) (Nat.le_of_eq hlength) _
    · have := (operators_front o ho).1
      rw [List.length_cons] at hfour
      omega
    · rw [hcut, ← htext]
      exact Nat.le_of_eq hlength
  | doc cs => cases hphp

theorem length_of_line (hk : (s.cutPhp (c :: cs)).kind.isTrivia = true)
    (hs : (startsWith "#".toList (c :: cs) || startsWith "//".toList (c :: cs)) = true) :
    (s.cutPhp (c :: cs)).length = lineCommentLength (c :: cs) := by
  rw [cutPhp_eq] at hk ⊢
  split
  · rename_i htag
    rw [if_pos htag] at hk
    cases hk
  rename_i htag
  rw [if_neg htag] at hk
  split
  · rename_i hattribute
    rw [if_pos hattribute] at hk
    cases hk
  · rfl

theorem cutPhp_trivia_wall {d a : Char} (hk : (s.cutPhp (d :: (w ++ a :: z))).kind.isTrivia = true)
    (hlength : (s.cutPhp (d :: (w ++ a :: z))).length ≤ w.length + 1) (ha : a ∈ walls)
    (hq : a ≠ '?') (hreturn : a = '\r' →
      (s.cutPhp (d :: (w ++ a :: z))).length = lineCommentLength (d :: (w ++ a :: z)) →
      lineCommentLength (d :: (w ++ a :: z)) < w.length + 1) :
    s.cutPhp (d :: (w ++ a :: z')) = s.cutPhp (d :: (w ++ a :: z)) := by
  refine (Alike.of_trivia (head_of_trivia hk)
    (fun l hl => startsWith_stop (w := d :: w) (List.cons_ne_nil d w) (leads_walls l hl a ha))
    (fun _ h => blankLength_congr (w := d :: w) h) (fun hs h => ?_) (fun hs h => ?_)
    (fun h o ho hs => length_le_of_wall (w := d :: w) ha (List.cons_ne_nil d w) h ho hs)).cutPhp
    hlength
  · refine lineCommentLength_congr (w := d :: w) (ne_of_wall ha) (fun h => absurd h hq) (fun hr => ?_) h
    exact hreturn hr (length_of_line hk hs)
  · have htwo : 2 ≤ (d :: w).length := by
      cases w with
      | nil =>
        obtain ⟨t, ht⟩ := exists_eq_append_of_startsWith hs
        obtain ⟨rfl, -⟩ := List.cons.inj (List.cons.inj ht).2
        exact absurd ha (by decide)
      | cons e w => simp
    exact blockCommentLength_congr (w := d :: w) htwo h _

theorem Reads.retail_trivia {y' : List Char} (h : Reads s ls y t)
    (htrivia : ∀ l ∈ ls, l.1.isTrivia = true) (hphp : t.mode = .php) (hy : Solid y)
    (hy' : Solid y') : Reads s ls y' t := by
  refine h.retail hphp fun r l rest hmode hsuffix hreads => ?_
  have hl : l.1.isTrivia = true := htrivia l (hsuffix.subset List.mem_cons_self)
  obtain ⟨k, u⟩ := l
  obtain ⟨hu, hkind, hlength⟩ := hreads.head
  obtain ⟨d, v, rfl⟩ := List.exists_cons_of_ne_nil hu
  rw [Lexer.cut, hmode] at hkind hlength
  simp only [List.cons_append] at hkind hlength hl ⊢
  rw [← hkind] at hl
  rcases List.eq_nil_or_concat rest with rfl | ⟨ms, m, rfl⟩
  · have hstay : (r.cutPhp (d :: (v ++ y))).mode = .php := by
      obtain - | ⟨-, hcut, -, hrest⟩ := hreads
      obtain - | - := hrest
      rw [Lexer.cut, hmode] at hcut
      change r.cutPhp (d :: (v ++ y)) = _ at hcut
      rw [hcut]
      exact hphp
    exact cutPhp_last_trivia hl hstay hlength hy hy'
  · have hsplit : Reads r ((k, d :: v) :: ms ++ [m]) y t := by simpa using hreads
    obtain ⟨q, -, hm⟩ := hsplit.of_append
    have hmem : m ∈ (k, d :: v) :: ms.concat m := by simp
    obtain ⟨x, a, hx, ha⟩ := hm.wall_of_trivia (htrivia m (hsuffix.subset hmem)) hphp hy
    have hwalls : ∀ a ∈ ['/', ' ', '\t', '\r', '\n'], a ∈ walls ∧ a ≠ '?' := by decide
    have htext : ∀ y, v ++ (spelled (ms.concat m) ++ y) = v ++ (spelled ms ++ x) ++ a :: y := by
      intro y
      simp [List.concat_eq_append, spelled_append, hx]
    rw [htext] at hl hlength ⊢
    rw [htext]
    refine cutPhp_trivia_wall hl ?_ (hwalls a ha).1 (hwalls a ha).2 fun hr hline => ?_
    · rw [hlength]
      simp
    · -- a carriage return right behind the comment would be part of it
      rw [← hline, hlength, List.length_append, List.length_cons, Nat.add_lt_add_iff_right,
        Nat.lt_add_right_iff_pos, List.length_pos_iff]
      intro hnil
      rw [hnil, List.append_nil, hr, ← List.cons_append] at hline hlength
      have hends := endsComment_of_lineCommentLength (hline.symm.trans hlength)
      rcases hends with (hnil | hfeed | htag) | ⟨y', heq, hends⟩
      · cases hnil
      · cases hfeed
      · simp [startsWith, after?] at htag
      · obtain ⟨-, rfl⟩ := List.cons.inj heq
        exact hy.not_endsComment hends

end Lexer

end PhpStyle
