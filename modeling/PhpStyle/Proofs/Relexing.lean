import PhpStyle.Proofs.DocRelexing

/-!
# Lexing a changed text again

`Reads s ls z s'` says that the lexemes `ls` are read one after the other where the text goes on with
`z`, and that they take the lexer from `s` to `s'`. Runs are put together from such segments
(`Reads.run`, `Reads.append`). If the text behind a segment changes, the segment is read as before
provided that its lexemes of code are (`Reads.retail`): up to a lexeme of code HTML has met its tag
and a doc comment its end, and neither looks further.
-/

namespace PhpStyle

open Text

namespace Lexer

inductive Reads : Lexer → List (Kind × List Char) → List Char → Lexer → Prop
  | nil (s : Lexer) (z : List Char) : Reads s [] z s
  | cons {s s' : Lexer} {cut : Cut} {u z : List Char} {ls : List (Kind × List Char)} (hu : u ≠ [])
      (hcut : s.cut (u ++ (spelled ls ++ z)) = cut) (hlength : cut.length = u.length)
      (h : Reads (s.advance cut) ls z s') : Reads s ((cut.kind, u) :: ls) z s'

namespace Reads

variable {s s' s'' : Lexer} {ls ls' : List (Kind × List Char)} {z z' : List Char}

theorem run (h : Reads s ls z s') : s.run (spelled ls ++ z) = ls ++ s'.run z := by
  induction h with
  | nil s z => rfl
  | cons hu hcut hlength h ih =>
    rw [spelled_cons, List.append_assoc, run_of_cut hu hcut hlength, ih, List.cons_append]

theorem append (h : Reads s ls (spelled ls' ++ z) s') (h' : Reads s' ls' z s'') :
    Reads s (ls ++ ls') z s'' := by
  generalize hy : spelled ls' ++ z = y at h
  induction h with
  | nil s y => exact h'
  | cons hu hcut hlength h ih =>
    subst hy
    rw [List.cons_append]
    refine .cons hu ?_ hlength (ih h' rfl)
    rwa [spelled_append, List.append_assoc]

theorem head {l : Kind × List Char} (h : Reads s (l :: ls) z s') : l.2 ≠ [] ∧
    (s.cut (l.2 ++ (spelled ls ++ z))).kind = l.1 ∧
    (s.cut (l.2 ++ (spelled ls ++ z))).length = l.2.length := by
  obtain - | ⟨hu, hcut, hlength, -⟩ := h
  rw [hcut]
  exact ⟨hu, rfl, hlength⟩

end Reads

theorem exists_reads {ls ls' : List (Kind × List Char)} {s : Lexer} {cs : List Char}
    (h : s.run cs = ls ++ ls') : ∃ s', Reads s ls (spelled ls') s' ∧ s'.run (spelled ls') = ls' := by
  induction ls generalizing s cs with
  | nil =>
    refine ⟨s, .nil s _, ?_⟩
    rw [List.nil_append] at h
    rw [← h, spelled_run]
  | cons l ls ih =>
    have hne : cs ≠ [] := by
      rintro rfl
      rw [Lexer.run, if_pos rfl] at h
      cases h
    have hcs := spelled_run s cs
    rw [h, List.cons_append, spelled_cons, spelled_append] at hcs
    rw [run_of_ne_nil s hne, List.cons_append] at h
    obtain ⟨rfl, hrest⟩ := List.cons.inj h
    obtain ⟨s', hreads, hrun⟩ := ih hrest
    refine ⟨s', .cons ?_ ?_ (s.length_take_cut hne).symm hreads, hrun⟩
    · refine List.ne_nil_of_length_pos ?_
      rw [s.length_take_cut hne]
      exact (s.cut_fits hne).pos
    · rw [hcs]

theorem drop_eq_cons {ls : List (Kind × List Char)} {n : Nat} {l : Kind × List Char}
    (h : ls[n]? = some l) : ls.drop n = l :: ls.drop (n + 1) := by
  obtain ⟨hn, rfl⟩ := List.getElem?_eq_some_iff.1 h
  exact List.drop_eq_getElem_cons hn

theorem exists_run_drop {ls : List (Kind × List Char)} {s : Lexer} {cs : List Char}
    (h : s.run cs = ls) (n : Nat) : ∃ s' : Lexer, s'.run (spelled (ls.drop n)) = ls.drop n := by
  rw [← List.take_append_drop n ls] at h
  obtain ⟨s', -, hrun⟩ := exists_reads h
  exact ⟨s', hrun⟩

theorem openTagLength?_congr_of_le {x : List Char} (h : 5 ≤ x.length) (v v' : List Char) :
    openTagLength? (x ++ v') = openTagLength? (x ++ v) := by
  have hthree : "<?=".toList.length ≤ x.length := by
    change 3 ≤ x.length
    omega
  simp only [openTagLength?, List.take_append_of_le_length h, startsWith_append_of_le hthree]

/-- The text is one of the two opening tags. -/
def IsOpenTag (t : List Char) : Prop :=
  lower t = "<?php".toList ∨ t = "<?=".toList

theorem isOpenTag_of_length {t v : List Char} (h : openTagLength? (t ++ v) = some t.length) :
    IsOpenTag t := by
  unfold openTagLength? at h
  split at h
  · rename_i hphp
    left
    have hlength := Option.some.inj h
    rwa [hlength, List.take_left] at hphp
  · split at h
    · rename_i hecho
      right
      obtain ⟨r, hr⟩ := exists_eq_append_of_startsWith hecho
      have hlength : t.length = "<?=".toList.length := (Option.some.inj h).symm
      exact (List.append_inj hr hlength).1
    · cases h

/-- An opening tag ends before a character that none has. -/
theorem openTagLength?_le {c : Char} {u v : List Char} {n : Nat} (hphp : c.toLower ∉ "<?php".toList)
    (hecho : c ∉ "<?=".toList) (h : openTagLength? (u ++ c :: v) = some n) : n ≤ u.length := by
  refine Nat.le_of_not_lt fun hlt => ?_
  have hmem : c ∈ (u ++ c :: v).take n := mem_take_of_length_lt hlt
  have htag := isOpenTag_of_length (t := (u ++ c :: v).take n) (v := (u ++ c :: v).drop n)
    (by rw [List.take_append_drop, h, List.length_take, Nat.min_eq_left (openTagLength?_bounds h).2])
  rcases htag with htag | htag
  · have hlower : c.toLower ∈ lower ((u ++ c :: v).take n) := List.mem_map_of_mem hmem
    rw [htag] at hlower
    exact hphp hlower
  · rw [htag] at hmem
    exact hecho hmem

theorem IsOpenTag.length {t : List Char} (h : IsOpenTag t) (v : List Char) :
    openTagLength? (t ++ v) = some t.length := by
  rcases h with h | rfl
  · have hlength : t.length = 5 := by
      have := congrArg List.length h
      simpa [lower] using this
    rw [openTagLength?, ← hlength, List.take_left, if_pos h, hlength]
  · rcases v with - | ⟨a, - | ⟨b, v⟩⟩ <;> rfl

theorem htmlLength_of_openTag {t : List Char} (h : IsOpenTag t) (v : List Char) :
    htmlLength (t ++ v) = 0 := by
  have hopen := h.length v
  obtain ⟨c, t, rfl⟩ : ∃ c u, t = c :: u := by
    refine List.exists_cons_of_ne_nil ?_
    rintro rfl
    rcases h with h | h <;> cases h
  rw [List.cons_append] at hopen ⊢
  rw [htmlLength, hopen]
  rfl

/-- HTML ends at a tag, whatever stands behind the tag. -/
theorem htmlLength_congr_of_openTag {u t v : List Char} (ht : IsOpenTag t)
    (h : htmlLength (u ++ (t ++ v)) = u.length) (v' : List Char) :
    htmlLength (u ++ (t ++ v')) = u.length := by
  induction u with
  | nil => exact htmlLength_of_openTag ht v'
  | cons c u ih =>
    rw [List.cons_append, htmlLength] at h
    split at h
    · cases h
    rename_i hnone
    have hopen : openTagLength? (c :: (u ++ (t ++ v'))) = openTagLength? (c :: (u ++ (t ++ v))) := by
      by_cases hlong : 5 ≤ (c :: u ++ t).length
      · simpa using openTagLength?_congr_of_le hlong v v'
      · -- no tag starts right before the mark with which a tag starts
        rcases ht with ht | rfl
        · have := congrArg List.length ht
          simp only [lower, List.length_map] at this
          change t.length = 5 at this
          simp only [List.length_append, List.length_cons] at hlong
          omega
        · obtain rfl : u = [] := by
            refine List.length_eq_zero_iff.1 ?_
            simp only [List.length_append, List.length_cons] at hlong
            change ¬ 5 ≤ u.length + 1 + 3 at hlong
            omega
          have hmark : ∀ v, openTagLength? (c :: '<' :: '?' :: '=' :: v) = none := by
            intro v
            simp [openTagLength?, lower, startsWith, after?]
          exact (hmark v').trans (hmark v).symm
    rw [List.cons_append, htmlLength, hopen, if_neg hnone, ih (Nat.succ.inj h), List.length_cons]

theorem openTag_behind_html (cs : List Char) :
    cs.drop (htmlLength cs) = [] ∨ (openTagLength? (cs.drop (htmlLength cs))).isSome = true := by
  induction cs with
  | nil => exact .inl rfl
  | cons c cs ih =>
    rw [htmlLength]
    split
    · rename_i h
      exact .inr h
    · exact ih

/-! ### Comments before their end -/

theorem docLine_congr_of_close (a v v' : List Char) :
    docLine (a ++ '*' :: '/' :: v') = docLine (a ++ '*' :: '/' :: v) := by
  induction a with
  | nil => rfl
  | cons c a ih =>
    have hclose : startsWith "*/".toList (c :: (a ++ '*' :: '/' :: v')) =
        startsWith "*/".toList (c :: (a ++ '*' :: '/' :: v)) := by
      rw [Bool.eq_iff_iff, startsWith_close, startsWith_close]
      cases a with
      | nil => simp
      | cons d a => simp
    rw [List.cons_append, List.cons_append, docLine, docLine, hclose, ih]

theorem cutDoc_congr_of_close (lineStart hasText : Bool) (a v v' : List Char) :
    cutDoc lineStart hasText (a ++ '*' :: '/' :: v') =
      cutDoc lineStart hasText (a ++ '*' :: '/' :: v) := by
  cases a with
  | nil => rfl
  | cons c a =>
    have hhead : (a ++ '*' :: '/' :: v').head? = (a ++ '*' :: '/' :: v).head? := by
      cases a <;> rfl
    have hstop : ∀ {p : Char → Bool}, p '*' = false → ∀ (w v : List Char),
        (w ++ '*' :: v).takeWhile p = w.takeWhile p := fun hp w v =>
      takeWhile_stop (fun d hd => by cases hd; exact hp) w
    have hblanks : ∀ v, ((c :: (a ++ '*' :: v)).takeWhile fun d => d = ' ' || d = '\t') =
        (c :: a).takeWhile fun d => d = ' ' || d = '\t' := fun v => hstop rfl (c :: a) v
    have htag : ∀ v, (a ++ '*' :: v).takeWhile isTagChar = a.takeWhile isTagChar :=
      fun v => hstop rfl a v
    have htext := docLine_congr_of_close (c :: a) v v'
    simp only [List.cons_append] at htext ⊢
    simp only [cutDoc_cons, hhead, hblanks, htag, docTextLength, htext]

theorem Reads.exists_close {s s' : Lexer} {ls : List (Kind × List Char)} {z : List Char}
    (h : Reads s ls z s') (hdoc : s.mode.isDoc = true) (hphp : s'.mode.isDoc = false) :
    ∃ a b, spelled ls = a ++ '*' :: '/' :: b := by
  induction h with
  | nil s z =>
    rw [hdoc] at hphp
    cases hphp
  | cons hu hcut hlength h ih =>
    rename_i s s' cut u z ls
    obtain ⟨lineStart, hasText, hm⟩ := exists_of_isDoc hdoc
    obtain ⟨c, u, rfl⟩ := List.exists_cons_of_ne_nil hu
    rw [List.cons_append, Lexer.cut, hm] at hcut
    simp only at hcut
    rcases cutDoc_cases lineStart hasText c (u ++ (spelled ls ++ z)) with ⟨rest, hclose, heq⟩ | hpiece
    · rw [← hcut, heq] at hlength
      obtain ⟨d, rfl⟩ := List.length_eq_one_iff.1 (Nat.succ.inj hlength).symm
      simp only [List.cons_append, List.nil_append, List.cons.injEq] at hclose
      obtain ⟨rfl, rfl, -⟩ := hclose
      exact ⟨[], spelled ls, rfl⟩
    · rw [hcut] at hpiece
      obtain ⟨a, b, hab⟩ := ih (by rw [advance]; exact hpiece.stays) hphp
      exact ⟨c :: u ++ a, b, by rw [spelled_cons, hab, List.append_assoc]⟩

theorem cutHtml_eq {cs : List Char} (hne : cs ≠ []) : cutHtml cs =
    if htmlLength cs = 0 then ⟨.openTag, (openTagLength? cs).getD 0, .php⟩
    else ⟨.html, htmlLength cs, .html⟩ := by
  obtain ⟨c, cs, rfl⟩ := List.exists_cons_of_ne_nil hne
  unfold cutHtml
  cases h : openTagLength? (c :: cs) with
  | some n => simp [htmlLength, h]
  | none => rw [if_neg (Nat.pos_iff_ne_zero.1 (htmlLength_pos h))]

theorem cutHtml_of_openTag {t : List Char} (h : IsOpenTag t) (v : List Char) :
    cutHtml (t ++ v) = ⟨.openTag, t.length, .php⟩ := by
  rw [cutHtml, h.length v]

theorem openTag_of_cutHtml {t v : List Char} (hmark : htmlLength (t ++ v) = 0) (hne : t ≠ [])
    (h : (cutHtml (t ++ v)).length = t.length) : IsOpenTag t := by
  refine isOpenTag_of_length (v := v) ?_
  cases hopen : openTagLength? (t ++ v) with
  | some n =>
    rw [cutHtml, hopen] at h
    rw [← h]
  | none =>
    obtain ⟨c, t, rfl⟩ := List.exists_cons_of_ne_nil hne
    exact absurd hmark (Nat.pos_iff_ne_zero.1 (htmlLength_pos hopen))

/-- HTML that is left is read as before: it has met its tag. -/
theorem Reads.cut_of_html {s s' : Lexer} {ls : List (Kind × List Char)} {l : Kind × List Char}
    {z : List Char} (h : Reads s (l :: ls) z s') (hm : s.mode = .html) (hphp : s'.mode = .php)
    (z' : List Char) : s.cut (l.2 ++ (spelled ls ++ z')) = s.cut (l.2 ++ (spelled ls ++ z)) := by
  obtain - | ⟨hu, hcut, hlength, hrest⟩ := h
  rename_i cut u
  simp only [Lexer.cut, hm] at hcut ⊢
  by_cases hzero : htmlLength (u ++ (spelled ls ++ z)) = 0
  · have htag := openTag_of_cutHtml hzero hu (by rw [hcut, hlength])
    rw [cutHtml_of_openTag htag, cutHtml_of_openTag htag]
  · rw [cutHtml_eq (by simp [hu]), if_neg hzero] at hcut
    subst hcut
    have hmode : (s.advance ⟨.html, htmlLength (u ++ (spelled ls ++ z)), .html⟩).mode = .html := rfl
    obtain - | ⟨ht, hcut', hlength', -⟩ := hrest
    · rw [hphp] at hmode
      cases hmode
    rename_i cut' t ls
    -- what follows the text outside of tags starts with a tag
    have hdrop : (u ++ (spelled ((cut'.kind, t) :: ls) ++ z)).drop u.length =
        t ++ (spelled ls ++ z) := by
      rw [List.drop_left, spelled_cons, List.append_assoc]
    have hopen := openTag_behind_html (u ++ (spelled ((cut'.kind, t) :: ls) ++ z))
    simp only at hlength
    rw [hlength, hdrop] at hopen
    have htag : htmlLength (t ++ (spelled ls ++ z)) = 0 := by
      obtain ⟨c, v, rfl⟩ := List.exists_cons_of_ne_nil ht
      rcases hopen with hopen | hopen
      · cases hopen
      · rw [List.cons_append] at hopen ⊢
        rw [htmlLength, if_pos hopen]
    simp only [Lexer.cut, hmode] at hcut'
    have htag := openTag_of_cutHtml htag ht (by rw [hcut', hlength'])
    simp only [spelled_cons, List.append_assoc] at hlength hzero ⊢
    have hlength' := htmlLength_congr_of_openTag htag hlength (spelled ls ++ z')
    have hpos : u.length ≠ 0 := by simp [hu]
    rw [cutHtml_eq (by simp [hu]), cutHtml_eq (by simp [hu]), hlength, hlength', if_neg hpos,
      if_neg hpos]

/-- A segment up to a lexeme of code is read as before if its lexemes of code are. -/
theorem Reads.retail {s s' : Lexer} {ls : List (Kind × List Char)} {z z' : List Char}
    (h : Reads s ls z s') (hphp : s'.mode = .php)
    (hcode : ∀ (t : Lexer) (l : Kind × List Char) (ls' : List (Kind × List Char)), t.mode = .php →
      (l :: ls') <:+ ls → Reads t (l :: ls') z s' →
      t.cutPhp (l.2 ++ (spelled ls' ++ z')) = t.cutPhp (l.2 ++ (spelled ls' ++ z))) :
    Reads s ls z' s' := by
  induction h with
  | nil s z => exact .nil s z'
  | cons hu hcut hlength h ih =>
    rename_i s s' cut u z ls
    have hrest := ih hphp fun t l ls' hmode hsuffix => hcode t l ls' hmode
      (hsuffix.trans (List.suffix_cons _ _))
    refine .cons hu ?_ hlength hrest
    rw [← hcut]
    cases hm : s.mode with
    | html => exact (Reads.cons hu hcut hlength h).cut_of_html hm hphp z'
    | doc lineStart hasText =>
      have hdoc : s.mode.isDoc = true := by rw [hm]; rfl
      obtain ⟨a, b, hab⟩ := (Reads.cons hu hcut hlength h).exists_close hdoc (by rw [hphp]; rfl)
      rw [spelled_cons] at hab
      simp only [Lexer.cut, hm]
      simp only [← List.append_assoc, hab]
      simp only [List.append_assoc, List.cons_append]
      exact cutDoc_congr_of_close ..
    | php =>
      have hcode := hcode s (cut.kind, u) ls hm (List.suffix_refl _) (.cons hu hcut hlength h)
      simpa only [Lexer.cut, hm] using hcode

end Lexer

end PhpStyle
