import PhpStyle.Proofs.LexemeEnds

/-!
# Lexemes with an end of their own

A run of blanks ends with its line, a string with its quote, a comment with its line or its mark, a
heredoc with its label. Where such a lexeme ends before the text that follows, it is the same before
every other text, as far as that leaves the end alone (`blankLength_congr`, `quotedTail_congr`,
`lineCommentLength_congr`, `blockCommentLength_congr`, `heredocLength?_congr`).
-/

namespace PhpStyle

open Text

namespace Lexer

variable {w y y' z z' : List Char} {c : Char}

/-- A run of blanks goes on into the next text if no line ends before that. -/
theorem blankLength_append (w y : List Char) : blankLength (w ++ y) =
    if ∀ c ∈ w, c ∈ [' ', '\t', '\r'] then w.length + blankLength y else blankLength w := by
  induction w with
  | nil => simp
  | cons d w ih =>
    rw [List.cons_append, blankLength, blankLength, ih]
    simp only [List.forall_mem_cons]
    by_cases hd : d ∈ [' ', '\t', '\r']
    · have hfeed : d ≠ '\n' := (by decide : ∀ d ∈ [' ', '\t', '\r'], d ≠ '\n') d hd
      have hblank : (d = ' ' || d = '\t' || d = '\r') = true := by simpa [or_assoc] using hd
      rw [if_neg hfeed, if_neg hfeed, if_pos hblank, if_pos hblank]
      simp only [hd, true_and, List.length_cons]
      split <;> omega
    · have hblank : ¬ (d = ' ' || d = '\t' || d = '\r') = true := by simpa [or_assoc] using hd
      simp only [hblank, hd, Bool.false_eq_true, false_and, if_false]

theorem blankLength_eq_zero (hc : c ∉ [' ', '\t', '\r', '\n']) (cs : List Char) :
    blankLength (c :: cs) = 0 := by
  simp only [List.mem_cons, List.not_mem_nil, or_false, not_or] at hc
  simp [blankLength, hc]

theorem blankLength_pos (hc : c ∈ [' ', '\t', '\r', '\n']) (cs : List Char) :
    0 < blankLength (c :: cs) := by
  simp only [List.mem_cons, List.not_mem_nil, or_false] at hc
  rcases hc with rfl | rfl | rfl | rfl <;> exact Nat.succ_pos _

theorem blankLength_congr {d : Char} (h : blankLength (w ++ d :: z) ≤ w.length) :
    blankLength (w ++ d :: z') = blankLength (w ++ d :: z) := by
  rw [blankLength_append] at h ⊢
  rw [blankLength_append]
  split
  · rename_i hblank
    rw [if_pos hblank] at h
    have hd : d ∉ [' ', '\t', '\r', '\n'] := fun hd => by
      have := blankLength_pos hd z
      omega
    rw [blankLength_eq_zero hd, blankLength_eq_zero hd]
  · rfl

theorem blankLength_congr_of_lt (h : blankLength (w ++ y) < w.length) :
    blankLength (w ++ y') = blankLength (w ++ y) := by
  rw [blankLength_append] at h ⊢
  rw [blankLength_append]
  split
  · rename_i hblank
    rw [if_pos hblank] at h
    omega
  · rfl

theorem quotedTail_cons {quote c : Char} (hc : c ≠ '\\') (cs : List Char) :
    quotedTail quote (c :: cs) = if c = quote then 1 else quotedTail quote cs + 1 := by
  rw [quotedTail]
  rintro _ _ rfl
  exact absurd rfl hc

theorem quotedTail_pos (quote c : Char) (z : List Char) : 0 < quotedTail quote (c :: z) := by
  unfold quotedTail
  split
  · rename_i heq
    cases heq
  · exact Nat.succ_pos _
  · split
    · exact Nat.succ_pos _
    · exact Nat.succ_pos _

theorem quotedTail_congr {quote : Char} (w : List Char)
    (h : quotedTail quote (w ++ c :: z) ≤ w.length) (y' : List Char) :
    quotedTail quote (w ++ y') = quotedTail quote (w ++ c :: z) := by
  match w with
  | [] => exact absurd (quotedTail_pos quote c z) (Nat.not_lt.2 h)
  | d :: w =>
    by_cases hback : d = '\\'
    · subst hback
      cases w with
      | nil => simp [quotedTail] at h
      | cons e w =>
        simp only [List.cons_append, quotedTail, List.length_cons] at h ⊢
        rw [quotedTail_congr w (by omega)]
    · rw [List.cons_append, quotedTail_cons hback] at h
      rw [List.cons_append, List.cons_append, quotedTail_cons hback, quotedTail_cons hback]
      split
      · rfl
      · rename_i hquote
        rw [if_neg hquote, List.length_cons] at h
        rw [quotedTail_congr w (by omega)]

theorem quotedTail_congr_of_lt {quote : Char} (h : quotedTail quote w < w.length)
    (y' : List Char) : quotedTail quote (w ++ y') = quotedTail quote w := by
  obtain ⟨c, z, hz⟩ := List.exists_cons_of_ne_nil (l := w.drop (quotedTail quote w)) (by simpa using h)
  have hsplit : w.take (quotedTail quote w) ++ c :: z = w := by rw [← hz, List.take_append_drop]
  have hle : quotedTail quote (w.take (quotedTail quote w) ++ c :: z) ≤
      (w.take (quotedTail quote w)).length := by
    rw [hsplit, List.length_take]
    omega
  have hstays := quotedTail_congr (w.take (quotedTail quote w)) hle (c :: z ++ y')
  rwa [← List.append_assoc, hsplit] at hstays

theorem mem_take_of_length_lt {n : Nat} (h : w.length < n) : c ∈ (w ++ c :: z).take n := by
  obtain ⟨k, rfl⟩ := Nat.exists_eq_add_of_lt h
  rw [Nat.add_assoc, List.take_length_add_append, List.take_succ_cons]
  exact List.mem_append_right _ List.mem_cons_self

theorem takeWhile_append_of_mem {p : Char → Bool} {d : Char} (hd : d ∈ w) (hp : p d = false)
    (z : List Char) : (w ++ z).takeWhile p = w.takeWhile p := by
  obtain ⟨u, v, rfl⟩ := List.append_of_mem hd
  clear hd
  rw [List.append_assoc, List.cons_append]
  induction u with
  | nil => simp [hp]
  | cons e u ih => simp only [List.cons_append, List.takeWhile_cons, ih]

theorem takeWhile_line (hline : '\n' ∉ w) (y : List Char) :
    (w ++ y).takeWhile (· ≠ '\n') = w ++ y.takeWhile (· ≠ '\n') := by
  rw [List.takeWhile_append_of_pos]
  intro d hd
  simpa using fun h : d = '\n' => hline (h ▸ hd)

theorem find?_closeTag_le {n : Nat} (hc : c ≠ '>') (htag : c = '?' → z.head? ≠ some '>')
    (h : find? "?>".toList (w ++ c :: z) = some n) (hle : n ≤ w.length) : n + 2 ≤ w.length := by
  have hs := startsWith_drop_of_find? h
  rw [List.drop_append_of_le_length hle] at hs
  have hlength := List.length_drop (l := w) (i := n)
  match hw : w.drop n with
  | [] =>
    rw [hw] at hs
    obtain ⟨t, ht⟩ := exists_eq_append_of_startsWith hs
    obtain ⟨hc, hz⟩ := List.cons.inj ht
    exact absurd (by rw [hz]; rfl) (htag hc)
  | [d] =>
    rw [hw] at hs
    obtain ⟨t, ht⟩ := exists_eq_append_of_startsWith hs
    obtain ⟨-, ht⟩ := List.cons.inj ht
    exact absurd (List.cons.inj ht).1 hc
  | d :: e :: v =>
    rw [hw] at hlength
    simp only [List.length_cons] at hlength
    omega

theorem lineCommentLength_congr (hc : c ≠ '>') (htag : c = '?' → z.head? ≠ some '>')
    (hreturn : c = '\r' → lineCommentLength (w ++ c :: z) < w.length)
    (h : lineCommentLength (w ++ c :: z) ≤ w.length) :
    lineCommentLength (w ++ c :: z') = lineCommentLength (w ++ c :: z) := by
  by_cases hline : '\n' ∈ w
  · simp only [lineCommentLength, takeWhile_append_of_mem (p := (· ≠ '\n')) hline (by simp)]
  by_cases hfeed : c = '\n'
  · subst hfeed
    simp only [lineCommentLength, takeWhile_line hline]
    simp
  have hall : ∀ z, (w ++ c :: z).takeWhile (· ≠ '\n') = w ++ c :: z.takeWhile (· ≠ '\n') := by
    intro z
    rw [takeWhile_line hline]
    simp [hfeed]
  have htag' : c = '?' → (z.takeWhile (· ≠ '\n')).head? ≠ some '>' := by
    intro hq hhead
    refine htag hq ?_
    cases z with
    | nil => cases hhead
    | cons d z =>
      by_cases hd : d = '\n'
      · simp [hd] at hhead
      · simpa [hd] using hhead
  simp only [lineCommentLength, hall] at h hreturn ⊢
  generalize z.takeWhile (· ≠ '\n') = y at h hreturn htag' ⊢
  generalize z'.takeWhile (· ≠ '\n') = y'
  -- a comment that ends within `w` has met a closing tag there
  have hend : (find? "?>".toList (w ++ c :: y)).getD (w ++ c :: y).length ≤ w.length := by
    refine Nat.le_of_not_lt fun hgt => ?_
    obtain ⟨k, hk⟩ := Nat.exists_eq_add_of_lt hgt
    rw [hk, Nat.add_assoc, List.take_length_add_append, List.take_succ_cons] at h hreturn
    split at h
    · rename_i hlast
      rw [if_pos hlast] at hreturn
      cases hy : y.take k with
      | nil =>
        rw [hy] at hlast hreturn
        have hlt := hreturn (by simpa using hlast)
        simp only [List.length_append, List.length_cons, List.length_nil] at hlt
        omega
      | cons d v =>
        rw [hy] at h
        simp only [List.length_append, List.length_cons] at h
        omega
    · simp only [List.length_append, List.length_cons] at h
      omega
  obtain ⟨n, hfind, hle⟩ : ∃ n, find? "?>".toList (w ++ c :: y) = some n ∧ n ≤ w.length := by
    cases hfind : find? "?>".toList (w ++ c :: y) with
    | none =>
      rw [hfind] at hend
      simp only [Option.getD_none, List.length_append, List.length_cons] at hend
      omega
    | some n =>
      rw [hfind] at hend
      exact ⟨n, rfl, hend⟩
  have hle := find?_closeTag_le hc htag' hfind hle
  rw [hfind, find?_append_of_le hfind hle, Option.getD_some, Option.getD_some,
    List.take_append_of_le_length (by omega), List.take_append_of_le_length (by omega)]

theorem blockCommentLength_congr (hlength : 2 ≤ w.length)
    (h : blockCommentLength (w ++ c :: z) ≤ w.length) (y' : List Char) :
    blockCommentLength (w ++ y') = blockCommentLength (w ++ c :: z) := by
  have hdrop : ∀ y, (w ++ y).drop 2 = w.drop 2 ++ y := fun y => List.drop_append_of_le_length hlength
  unfold blockCommentLength at h ⊢
  rw [hdrop] at h ⊢
  rw [hdrop]
  cases hfind : find? "*/".toList (w.drop 2 ++ c :: z) with
  | none =>
    rw [hfind] at h
    simp only [List.length_append, List.length_cons] at h
    omega
  | some n =>
    rw [hfind] at h
    have hle : n + "*/".toList.length ≤ (w.drop 2).length := by
      rw [List.length_drop]
      change n + 2 ≤ w.length - 2
      simp only at h
      omega
    rw [find?_append_of_le hfind hle]

theorem lineCommentLength_le_line (w z : List Char) :
    lineCommentLength (w ++ '\n' :: z) ≤ w.length := by
  have hstop := takeWhile_stop (y := '\n' :: z) (p := (· ≠ '\n')) (fun c hc => by cases hc; rfl) w
  have hle := length_takeWhile_le (· ≠ '\n') w
  simp only [lineCommentLength, hstop]
  split
  all_goals
    simp only [List.length_take]
    omega

theorem length_ge_of_block (h : blockCommentLength (w ++ c :: z) = w.length) : 4 ≤ w.length := by
  unfold blockCommentLength at h
  split at h
  · omega
  · simp only [List.length_append, List.length_cons] at h
    omega

/-- A block comment that something follows ends with its slash. -/
theorem slash_of_block (h : blockCommentLength (w ++ c :: z) = w.length) :
    w.getLast? = some '/' := by
  have hlength := length_ge_of_block h
  unfold blockCommentLength at h
  split at h
  · rename_i n hfind
    have hs := startsWith_drop_of_find? hfind
    rw [List.drop_drop, List.drop_append_of_le_length (by omega)] at hs
    have htwo : (w.drop (2 + n)).length = 2 := by
      rw [List.length_drop]
      omega
    rw [startsWith_append_of_le (by rw [htwo]; decide)] at hs
    obtain ⟨r, hr⟩ := exists_eq_append_of_startsWith hs
    have hnil : r = [] := by
      rw [hr, List.length_append] at htwo
      exact List.length_eq_zero_iff.1 (by change 2 + r.length = 2 at htwo; omega)
    rw [← List.take_append_drop (2 + n) w, hr, hnil, List.append_nil, List.getLast?_append]
    rfl
  · simp only [List.length_append, List.length_cons] at h
    omega

theorem linesKeeping_append {w : List Char} (hw : '\n' ∉ w) {cs l : List Char} {ls : List (List Char)}
    (h : linesKeeping cs = l :: ls) : linesKeeping (w ++ cs) = (w ++ l) :: ls := by
  induction w with
  | nil => exact h
  | cons c w ih =>
    obtain ⟨hc, hw⟩ := not_or.1 (mt List.mem_cons.2 hw)
    rw [List.cons_append, linesKeeping, if_neg (Ne.symm hc), ih hw]
    rfl

theorem linesKeeping_cons (c : Char) (z : List Char) :
    ∃ l ls, linesKeeping (c :: z) = (c :: l) :: ls := by
  rw [linesKeeping]
  split
  · exact ⟨[], _, rfl⟩
  · split
    · exact ⟨[], [], rfl⟩
    · exact ⟨_, _, rfl⟩

theorem exists_line (hw : '\n' ∉ w) (hne : w ≠ []) (y : List Char) : ∃ l ls,
    linesKeeping (w ++ y) = (w ++ l) :: ls ∧ (∀ c, l.head? = some c → y.head? = some c) ∧
      (l = [] → y = []) := by
  cases y with
  | nil =>
    rcases List.eq_nil_or_concat w with rfl | ⟨v, c, rfl⟩
    · exact absurd rfl hne
    · rw [List.concat_eq_append, List.mem_append, List.mem_singleton, not_or] at hw
      have hlast : linesKeeping [c] = [[c]] := by simp [linesKeeping]
      refine ⟨[], [], ?_, by simp, fun _ => rfl⟩
      rw [List.append_nil, List.concat_eq_append, linesKeeping_append hw.1 hlast]
  | cons c y =>
    obtain ⟨l, ls, hl⟩ := linesKeeping_cons c y
    exact ⟨c :: l, ls, linesKeeping_append hw hl, fun _ h => h, fun h => absurd h (List.cons_ne_nil c l)⟩

theorem ne_nil_of_heredocTail_le {label : List Char} (hne : label ≠ [])
    (h : heredocTail label (linesKeeping (w ++ y)) ≤ w.length)
    (hend : y = [] → heredocTail label (linesKeeping (w ++ y)) < w.length) : w ≠ [] := by
  have hpos := List.length_pos_iff.2 hne
  rintro rfl
  cases y with
  | nil => cases hend rfl
  | cons c y =>
    obtain ⟨l, ls, hl⟩ := linesKeeping_cons c y
    simp only [List.nil_append, hl, heredocTail, List.length_cons, List.length_nil] at h
    split at h
    · split at h <;> omega
    · omega

/-- The label that ends a heredoc stands in a line behind blanks. -/
theorem heredocTail_of_blank {label l : List Char} {ls : List (List Char)} (hw : trimStart w = [])
    (hne : label ≠ []) (h : heredocTail label ((w ++ l) :: ls) ≤ w.length) :
    (w ++ l).length ≤ heredocTail label ((w ++ l) :: ls) := by
  have hpos := List.length_pos_iff.2 hne
  have hle := length_trimStart_le l
  simp only [heredocTail, trimStart_append_of_nil hw, List.length_append] at h ⊢
  split at h
  · split at h
    · rename_i hname
      rw [if_pos hname]
      exact Nat.le_add_right _ _
    · omega
  · exact Nat.le_add_right _ _

/-- In the line in which `y` starts the label stands before it, or it is not found there. -/
theorem heredocTail_congr_line {label : List Char} (hname : label.all isNameChar = true)
    (hne : label ≠ []) (hy : ∀ c, y.head? = some c → isNameChar c = false)
    (hy' : ∀ c, y'.head? = some c → isNameChar c = false) (hline : '\n' ∉ w)
    (h : heredocTail label (linesKeeping (w ++ y)) ≤ w.length)
    (hend : y = [] → heredocTail label (linesKeeping (w ++ y)) < w.length) :
    heredocTail label (linesKeeping (w ++ y')) = heredocTail label (linesKeeping (w ++ y)) := by
  have hw := ne_nil_of_heredocTail_le hne h hend
  obtain ⟨l, ls, hl, hhead, hnil⟩ := exists_line hline hw y
  obtain ⟨l', ls', hl', hhead', -⟩ := exists_line hline hw y'
  rw [hl] at h hend ⊢
  rw [hl']
  have hstop : ∀ e, l.head? = some e → isNameChar e = false := fun e he => hy e (hhead e he)
  have hstop' : ∀ e, l'.head? = some e → isNameChar e = false := fun e he => hy' e (hhead' e he)
  have hshort : heredocTail label ((w ++ l) :: ls) < (w ++ l).length := by
    rw [List.length_append]
    cases l with
    | nil => exact hend (hnil rfl)
    | cons c l =>
      rw [List.length_cons]
      omega
  have hlabel : ∀ {v : List Char}, (∀ e, v.head? = some e → isNameChar e = false) →
      ∀ e, v.head? = some e → e ∉ label := by
    intro v hv e he hmem
    have := List.all_eq_true.1 hname e hmem
    rw [hv e he] at this
    cases this
  have hblank : trimStart w ≠ [] := fun hblank =>
    absurd (heredocTail_of_blank hblank hne h) (Nat.not_le.2 hshort)
  simp only [heredocTail, trimStart_append hblank, after?_stop (hlabel hstop),
    after?_stop (hlabel hstop')] at hshort ⊢
  cases hafter : after? label (trimStart w) with
  | none =>
    rw [hafter] at hshort
    simp only [Option.map_none] at hshort
    omega
  | some rest =>
    rw [hafter] at hshort
    simp only [Option.map_some, head?_any_stop hstop, head?_any_stop hstop'] at hshort ⊢
    split
    · rename_i hname
      rw [if_pos hname] at hshort
      omega
    · have htrim := length_trimStart_le w
      simp only [List.length_append]
      omega

theorem heredocTail_congr {label : List Char} (hname : label.all isNameChar = true) (hne : label ≠ [])
    (hy : ∀ c, y.head? = some c → isNameChar c = false)
    (hy' : ∀ c, y'.head? = some c → isNameChar c = false) (w : List Char)
    (h : heredocTail label (linesKeeping (w ++ y)) ≤ w.length)
    (hend : y = [] → heredocTail label (linesKeeping (w ++ y)) < w.length) :
    heredocTail label (linesKeeping (w ++ y')) = heredocTail label (linesKeeping (w ++ y)) := by
  induction hn : w.length using Nat.strongRecOn generalizing w with | _ n ih
  by_cases hline : '\n' ∈ w
  · obtain ⟨u, v, rfl, hu⟩ := List.eq_append_cons_of_mem hline
    have hlines : ∀ cs, linesKeeping (u ++ '\n' :: cs) = (u ++ ['\n']) :: linesKeeping cs :=
      fun cs => linesKeeping_append hu (by rw [linesKeeping, if_pos rfl])
    have hrest := ih v.length (by simp at hn; omega) v
    simp only [List.append_assoc, List.cons_append, hlines, heredocTail, List.length_append,
      List.length_cons, List.length_nil] at h hend ⊢
    split
    · rename_i rest hafter
      rw [hafter] at h hend
      split
      · rename_i hname
        simp only [hname, if_true] at h hend
        rw [hrest (by omega) (fun hnil => by have := hend hnil; omega) rfl]
      · rfl
    · rename_i hafter
      rw [hafter] at h hend
      simp only at h hend
      rw [hrest (by omega) (fun hnil => by have := hend hnil; omega) rfl]
  · exact heredocTail_congr_line hname hne hy hy' hline h hend

theorem mem_dropTail {p : Char → Bool} {c : Char} {cs : List Char} (hc : c ∈ cs) (hp : p c = false) :
    c ∈ dropTail p cs := by
  have hsplit := dropTail_append_tail p cs
  rw [← hsplit] at hc
  rcases List.mem_append.1 hc with hc | hc
  · exact hc
  · rw [List.mem_takeWhile_imp (List.mem_reverse.1 hc)] at hp
    cases hp

theorem mem_dropWhile {p : Char → Bool} {c : Char} {cs : List Char} (hc : c ∈ cs) (hp : p c = false) :
    c ∈ cs.dropWhile p := by
  rw [← List.takeWhile_append_dropWhile (p := p) (l := cs)] at hc
  rcases List.mem_append.1 hc with hc | hc
  · rw [List.mem_takeWhile_imp hc] at hp
    cases hp
  · exact hc

theorem mem_trim {c : Char} {cs : List Char} (hc : c ∈ cs) (hp : isBlank c = false) : c ∈ trim cs :=
  mem_dropTail (mem_dropWhile hc hp) hp

theorem mem_trimBoth {p : Char → Bool} {c : Char} {cs : List Char} (hc : c ∈ cs) (hp : p c = false) :
    c ∈ trimBoth p cs :=
  mem_dropTail (mem_dropWhile hc hp) hp

theorem heredocLength?_eq_none {cs : List Char} (hc : isNameChar c = false)
    (h : c ∈ trimBoth isQuoteMark (trim ((cs.takeWhile (· ≠ '\n')).drop 3))) :
    heredocLength? cs = none := by
  have hname : (trimBoth isQuoteMark (trim ((cs.takeWhile (· ≠ '\n')).drop 3))).all isNameChar =
      false :=
    List.all_eq_false.2 ⟨c, h, by simp [hc]⟩
  simp only [heredocLength?, hname, Bool.not_false, Bool.or_true, if_true]

theorem heredocLength?_line {u : List Char} (hu : '\n' ∉ u) (cs : List Char) :
    heredocLength? (u ++ '\n' :: cs) =
      let label := trimBoth isQuoteMark (trim (u.drop 3))
      if label.isEmpty || !label.all isNameChar then none
      else some (u.length + 1 + heredocTail label (linesKeeping cs)) := by
  have hheader : (u ++ '\n' :: cs).takeWhile (· ≠ '\n') = u := by
    rw [List.takeWhile_append_of_pos]
    · simp
    · intro c hc
      simpa using fun h : c = '\n' => hu (h ▸ hc)
  have hlength : ¬ u.length = (u ++ '\n' :: cs).length := by
    simp
  have hdrop : (u ++ '\n' :: cs).drop (u.length + 1) = cs := by
    simp
  simp only [heredocLength?, hheader, hlength, decide_false, Bool.false_or, hdrop]

/-- A heredoc that ends in a later line, before the end of the text, does not depend on what stands
behind it. -/
theorem heredocLength?_congr (hy : ∀ c, y.head? = some c → isNameChar c = false)
    (hy' : ∀ c, y'.head? = some c → isNameChar c = false) (hline : '\n' ∈ w)
    (h : ∀ n, heredocLength? (w ++ y) = some n → n ≤ w.length ∧ (y = [] → n < w.length)) :
    heredocLength? (w ++ y') = heredocLength? (w ++ y) := by
  obtain ⟨u, v, rfl, hu⟩ := List.eq_append_cons_of_mem hline
  simp only [List.append_assoc, List.cons_append, heredocLength?_line hu] at h ⊢
  split
  · rfl
  · rename_i hlabel
    rw [if_neg hlabel] at h
    obtain ⟨hle, hlt⟩ := h _ rfl
    simp only [List.length_append, List.length_cons] at hle hlt
    simp only [Bool.or_eq_true, Bool.not_eq_true', not_or, Bool.not_eq_false] at hlabel
    have hne : trimBoth isQuoteMark (trim (u.drop 3)) ≠ [] := by simpa using hlabel.1
    rw [heredocTail_congr hlabel.2 hne hy hy' v (by omega) fun hnil => by have := hlt hnil; omega]

end Lexer

end PhpStyle
