import PhpStyle.Proofs.Relexing

/-!
# Blank lines taken out of a text

Blanks are cut up to the end of their line, and of all other lexemes of code none ends in a line feed
(`kind_of_line_end`). So of two blanks in a row the first ends its line, and the second may be taken
out of the text: what stands before it is read as before, because no lexeme looks behind a line feed
but for the first mark after blanks, and what stands behind it is read in the same state
(`run_without_blank`). `Thins ls ls'` takes out any number of such blanks; lexing the text of `ls'`
gives `ls'` (`Thins.run`), with the same text before every other lexeme on its line (`Thins.inked`).
-/

namespace PhpStyle

open Text

theorem Text.length_le_of_startsWith_stop {lead w z : List Char} {c : Char}
    (h : startsWith lead (w ++ c :: z) = true) (hc : c ∉ lead) : lead.length ≤ w.length := by
  refine length_le_of_startsWith ?_
  rwa [startsWith, after?_stop (by rintro d ⟨⟩; exact hc), Option.isSome_map] at h

namespace Lexer

variable {w z : List Char} {c : Char}

theorem eq_quote_of_quotedTail {quote : Char} (h : quotedTail quote (w ++ c :: z) = w.length + 1)
    (hz : z ≠ []) : c = quote := by
  obtain ⟨e, z, rfl⟩ := List.exists_cons_of_ne_nil hz
  fun_induction quotedTail quote w with
  | case1 =>
    by_cases hback : c = '\\'
    · subst hback
      simp [quotedTail] at h
    · rw [List.nil_append, quotedTail_cons hback] at h
      split at h
      · assumption
      · have := quotedTail_pos quote e z
        simp only [List.length_nil] at h
        omega
  | case2 d w ih =>
    refine ih ?_
    simp only [List.cons_append, quotedTail, List.length_cons] at h
    omega
  | case3 w hback =>
    by_cases hslash : quote = '\\'
    · subst hslash
      cases w with
      | nil =>
        simp only [List.cons_append, List.nil_append, quotedTail, List.length_cons,
          List.length_nil] at h
        have := quotedTail_pos '\\' e z
        omega
      | cons d w => exact (hback d w rfl rfl).elim
    · rw [List.cons_append, quotedTail_cons hslash, if_pos rfl, List.length_cons] at h
      omega
  | case4 d w hback hquote ih =>
    by_cases hslash : d = '\\'
    · subst hslash
      cases w with
      | nil =>
        simp only [List.cons_append, List.nil_append, quotedTail, List.length_cons,
          List.length_nil] at h
        have := quotedTail_pos quote e z
        omega
      | cons d w => exact (hback d w rfl rfl).elim
    · rw [List.cons_append, quotedTail_cons hslash, if_neg hquote, List.length_cons] at h
      exact ih (by omega)

theorem heredocTail_ends {label : List Char} (hlabel : label ≠ []) (lines : List (List Char)) :
    heredocTail label lines = lines.flatten.length ∨
      (lines.flatten.take (heredocTail label lines)).getLast? = label.getLast? := by
  induction lines with
  | nil => exact .inl rfl
  | cons line lines ih =>
    have hlater : line.length + heredocTail label lines = (line ++ lines.flatten).length ∨
        ((line ++ lines.flatten).take (line.length + heredocTail label lines)).getLast? =
          label.getLast? := by
      rcases ih with ih | ih
      · exact .inl (by rw [List.length_append, ih])
      · refine .inr ?_
        obtain ⟨c, hc⟩ : ∃ c, label.getLast? = some c :=
          ⟨_, List.getLast?_eq_getLast_of_ne_nil hlabel⟩
        rw [List.take_length_add_append, List.getLast?_append, ih, hc]
        rfl
    simp only [heredocTail, List.flatten_cons]
    split
    · rename_i rest h
      split
      · exact hlater
      · right
        obtain ⟨lead, hlead⟩ : ∃ lead, line = lead ++ trimStart line :=
          ⟨line.takeWhile isBlank, List.takeWhile_append_dropWhile.symm⟩
        have hline : line = lead ++ (label ++ rest) := by rwa [eq_append_of_after? h] at hlead
        have hlength : line.length - (trimStart line).length = lead.length := by
          have := congrArg List.length hlead
          rw [List.length_append] at this
          omega
        rw [hlength, hline, List.append_assoc, List.take_length_add_append, List.append_assoc,
          List.take_left, List.getLast?_append_of_ne_nil _ hlabel]
    · exact hlater

theorem heredocLength?_ends {cs : List Char} {n : Nat} (h : heredocLength? cs = some n) :
    n = cs.length ∨ ∃ c, (cs.take n).getLast? = some c ∧ isNameChar c = true := by
  unfold heredocLength? at h
  simp only at h
  split at h
  · cases h
  rename_i hhead
  cases h
  simp only [Bool.or_eq_true, decide_eq_true_eq, not_or, Bool.not_eq_true, Bool.not_eq_false',
    List.isEmpty_eq_false_iff] at hhead
  obtain ⟨⟨hline, hlabel⟩, hname⟩ := hhead
  generalize trimBoth isQuoteMark (trim ((cs.takeWhile (· ≠ '\n')).drop 3)) = label at hlabel hname ⊢
  have hle := length_takeWhile_le (· ≠ '\n') cs
  generalize (cs.takeWhile (· ≠ '\n')).length = m at hline hle ⊢
  obtain ⟨c, hc⟩ : ∃ c, label.getLast? = some c := ⟨_, List.getLast?_eq_getLast_of_ne_nil hlabel⟩
  have hends := heredocTail_ends hlabel (linesKeeping (cs.drop (m + 1)))
  rw [linesKeeping_flatten, List.length_drop] at hends
  rcases hends with hends | hends
  · left
    omega
  · right
    refine ⟨c, ?_, List.all_eq_true.1 hname c (List.mem_of_getLast? hc)⟩
    rw [List.take_add, List.getLast?_append, hends, hc]
    rfl

theorem length_cutOperator_le (last : Option Kind) (hne : w ≠ []) (z : List Char) :
    (cutOperator last (w ++ '\n' :: z)).length ≤ w.length := by
  have hline : ∀ o ∈ operators, '\n' ∉ o.1.toList := by decide
  unfold cutOperator
  split
  · rename_i text kind hfind
    have hs := List.find?_some hfind
    have hle := length_le_of_startsWith_stop hs (hline _ (List.mem_of_find?_eq_some hfind))
    rwa [String.length_toList] at hle
  · obtain ⟨d, w, rfl⟩ := List.exists_cons_of_ne_nil hne
    simp

theorem stops_line (z : List Char) : Stops ('\n' :: z) where
  halts := halts_of_wall (by decide) z
  head c hc := by
    obtain rfl : '\n' = c := Option.some.inj hc
    decide

/-- A lexeme of code that takes a line feed as its last character, and not as that of the text, is a
blank. -/
theorem kind_of_line_end (s : Lexer) (hz : z ≠ [])
    (h : (s.cutPhp (w ++ '\n' :: z)).length = w.length + 1) :
    (s.cutPhp (w ++ '\n' :: z)).kind = .blank := by
  rcases w with - | ⟨d, w⟩
  · rfl
  by_cases hd : d = '\n'
  · rw [hd]
    rfl
  have hne : d :: w ≠ [] := List.cons_ne_nil d w
  have hcross := (s.cutPhp_form d (w ++ '\n' :: z)).crosses (w := d :: w) hne (stops_line z) (by
    rw [List.cons_append] at h
    rw [h]
    exact Nat.lt_succ_self _)
  rw [List.cons_append] at h hcross ⊢
  have hfeed : (d :: (w ++ '\n' :: z))[(d :: w).length]? = some '\n' := by simp
  generalize s.cutPhp (d :: (w ++ '\n' :: z)) = cut at h hcross ⊢
  generalize htext : d :: (w ++ '\n' :: z) = text at hcross hfeed
  cases hcross with
  | blank => rfl
  | lineComment c cs =>
    have hle := lineCommentLength_le_line (d :: w) z
    rw [List.cons_append, htext] at hle
    exact absurd (h.symm.le.trans hle) (Nat.not_succ_le_self _)
  | emptyComment cs =>
    rw [← Nat.succ.inj h] at hfeed
    cases hfeed
  | docOpen cs =>
    rw [← Nat.succ.inj h] at hfeed
    cases hfeed
  | blockComment cs =>
    -- such a comment ends with a slash
    obtain ⟨e, z, rfl⟩ := List.exists_cons_of_ne_nil hz
    have hslash := slash_of_block (w := d :: (w ++ ['\n'])) (c := e) (z := z) (by
      rw [List.cons_append, List.append_assoc, List.singleton_append, htext]
      rw [List.length_cons, List.length_append]
      exact h)
    rw [← List.cons_append, List.getLast?_append] at hslash
    cases hslash
  | quoted c cs =>
    obtain ⟨rfl, rfl⟩ := List.cons.inj htext
    have htail : quotedTail d (w ++ '\n' :: z) = w.length + 1 := by
      simp only [List.length_cons] at h
      omega
    exact absurd (eq_quote_of_quotedTail htail hz).symm hd
  | heredoc _ n hhead =>
    obtain rfl : n = (d :: w).length + 1 := h
    rw [← htext] at hhead
    rcases heredocLength?_ends hhead with hall | ⟨c, hc, hname⟩
    · refine absurd (List.length_eq_zero_iff.1 ?_) hz
      simp only [List.length_cons, List.length_append] at hall
      omega
    · rw [← List.cons_append, List.take_length_add_append, List.getLast?_append] at hc
      cases hc
      cases hname
  | operator c cs =>
    have hle := length_cutOperator_le s.last hne z
    rw [List.cons_append, htext, h] at hle
    exact absurd hle (Nat.not_succ_le_self _)

theorem cutPhp_blank (s : Lexer) (hc : c ∈ [' ', '\t', '\r', '\n']) (cs : List Char) :
    s.cutPhp (c :: cs) = ⟨.blank, blankLength (c :: cs), .php⟩ := by
  simp only [List.mem_cons, List.not_mem_nil, or_false] at hc
  rcases hc with rfl | rfl | rfl | rfl <;> rfl

theorem blank_of_cutPhp {s : Lexer} {cs : List Char} (h : (s.cutPhp (c :: cs)).kind = .blank) :
    c ∈ [' ', '\t', '\r', '\n'] := by
  have hblank : (s.cutPhp (c :: cs)).kind.isBlank = true := by
    rw [h]
    rfl
  have hform := s.cutPhp_form c cs
  generalize hcut : s.cutPhp (c :: cs) = cut at h hblank hform
  generalize hcs : c :: cs = text at hform
  cases hform with
  | blank d ds hd =>
    cases hcs
    simpa using hd
  | number d ds => exact absurd hblank (Kind.not_isBlank_of_isPlain (cutNumber_isPlain _))
  | word d ds => exact absurd hblank (Kind.not_isBlank_of_isPlain (cutWord_isPlain _ _))
  | operator d ds => exact absurd hblank (Kind.not_isBlank_of_isPlain (cutOperator_isPlain _ _))
  | mark d k ds hk =>
    have hmarks : ∀ m ∈ marks, m.2.isBlank = false := by decide
    rw [hmarks _ hk] at hblank
    cases hblank
  | openSquare ds =>
    rcases squareKind_eq s.last with hkind | hkind <;> rw [hkind] at h <;> cases h
  | closeSquare ds =>
    unfold closeSquareKind at h
    split at h <;> cases h
  | _ => cases h

theorem blankLength_line (h : blankLength (w ++ '\n' :: z) = w.length + 1) (z' : List Char) :
    blankLength (w ++ '\n' :: z') = w.length + 1 := by
  rw [blankLength_append] at h ⊢
  split
  · rfl
  · rename_i hblank
    rwa [if_neg hblank] at h

theorem trimStart_take_blankLength (cs : List Char) : trimStart (cs.take (blankLength cs)) = [] := by
  rw [trimStart, List.dropWhile_eq_nil_iff]
  induction cs with
  | nil => simp
  | cons c cs ih =>
    rw [blankLength]
    split
    · rename_i hc
      subst hc
      simp
      rfl
    split
    · rename_i hc
      simp only [Bool.or_eq_true, decide_eq_true_eq] at hc
      rw [List.take_succ_cons]
      refine List.forall_mem_cons.2 ⟨?_, ih⟩
      rcases hc with (rfl | rfl) | rfl <;> rfl
    · simp

/-- Blanks and brackets are lexemes of code. -/
theorem mode_of_cut {s : Lexer} {cs : List Char}
    (h : (s.cut cs).kind = .blank ∨ (s.cut cs).kind.isBracket = true) : s.mode = .php := by
  unfold cut at h
  cases hm : s.mode with
  | php => rfl
  | html =>
    rw [hm] at h
    simp only [cutHtml] at h
    split at h
    all_goals
      rcases h with h | h <;> cases h
  | doc lineStart hasText =>
    rw [hm] at h
    simp only [cutDoc_not_bracket, Bool.false_eq_true, or_false] at h
    unfold cutDoc at h
    split at h
    case h_5 =>
      repeat' split at h
      all_goals cases h
    all_goals cases h

/-! ### Lines of a run -/

variable {s : Lexer} {l m : Kind × List Char} {ls ls' : List (Kind × List Char)}

theorem cut_of_run {cs : List Char} (h : s.run cs = l :: ls) :
    ∃ cut, s.cut (l.2 ++ spelled ls) = cut ∧ l.1 = cut.kind ∧ cut.length = l.2.length ∧ l.2 ≠ [] ∧
      (s.advance cut).run (spelled ls) = ls := by
  have hsplit : s.run cs = [l] ++ ls := h
  obtain ⟨s', hreads, hrun⟩ := exists_reads hsplit
  obtain - | ⟨hu, hcut, hlength, hrest⟩ := hreads
  obtain - | - := hrest
  exact ⟨_, hcut, rfl, hlength, hu, hrun⟩

/-- What stands before a blank or a bracket does not end in a line feed unless it is a blank. -/
theorem line_end_of_run {cs : List Char} (h : s.run cs = l :: m :: ls)
    (hm : m.1 = .blank ∨ m.1.isBracket = true) (hl : l.2.getLast? = some '\n') : l.1 = .blank := by
  obtain ⟨k, u⟩ := l
  obtain ⟨cut, hcut, hkind, hlength, -, hrest⟩ := cut_of_run h
  obtain ⟨cut', hcut', hkind', hlength', hne, -⟩ := cut_of_run hrest
  have hphp : cut.mode = .php := by
    rw [hkind', ← hcut'] at hm
    exact mode_of_cut hm
  obtain ⟨w, rfl⟩ : ∃ w, u = w ++ ['\n'] := List.getLast?_eq_some_iff.1 hl
  have hz : spelled (m :: ls) ≠ [] := by
    rw [spelled_cons]
    exact List.append_ne_nil_of_left_ne_nil hne _
  simp only at hkind hcut hlength
  rw [List.append_assoc, List.singleton_append] at hcut
  rw [List.length_append, List.length_singleton] at hlength
  rw [hkind]
  generalize spelled (m :: ls) = z at hz hcut
  cases hmode : s.mode with
  | php =>
    simp only [Lexer.cut, hmode] at hcut
    rw [← hcut] at hlength ⊢
    exact kind_of_line_end s hz hlength
  | html =>
    simp only [Lexer.cut, hmode, cutHtml] at hcut
    split at hcut
    · rename_i n hopen
      subst hcut
      simp only at hlength
      have hle := openTagLength?_le (by decide) (by decide) hopen
      omega
    · subst hcut
      cases hphp
  | doc lineStart hasText =>
    obtain ⟨c, v, hcv⟩ := List.exists_cons_of_ne_nil (l := w ++ '\n' :: z) (by simp)
    simp only [Lexer.cut, hmode, hcv] at hcut
    rcases cutDoc_cases lineStart hasText c v with ⟨rest, hclose, heq⟩ | hpiece
    · rw [← hcv] at hclose
      rw [← hcut, heq] at hlength
      obtain ⟨d, rfl⟩ : ∃ d, w = [d] := by
        refine List.length_eq_one_iff.1 ?_
        simpa using hlength.symm
      simp only [List.cons_append, List.nil_append, List.cons.injEq] at hclose
      exact absurd hclose.2.1 (by decide)
    · have hstays := hpiece.stays
      rw [hcut, hphp] at hstays
      cases hstays

/-- A blank at the start of a run: the lexer is left as it was. -/
structure BlankAhead (s : Lexer) (w : List Char) (ls : List (Kind × List Char)) : Prop where
  mode : s.mode = .php
  head : ∃ c u, w = c :: u ∧ c ∈ [' ', '\t', '\r', '\n']
  length : blankLength (w ++ spelled ls) = w.length
  rest : s.run (spelled ls) = ls

theorem blankAhead_of_run {cs : List Char} (h : s.run cs = (.blank, w) :: ls) : s.BlankAhead w ls := by
  obtain ⟨cut, hcut, hkind, hlength, hne, hrest⟩ := cut_of_run h
  simp only at hcut hkind hlength hne
  have hmode : s.mode = .php := by
    have hblank : (s.cut (w ++ spelled ls)).kind = .blank := by rw [hcut, ← hkind]
    exact mode_of_cut (.inl hblank)
  obtain ⟨c, u, rfl⟩ := List.exists_cons_of_ne_nil hne
  simp only [Lexer.cut, hmode, List.cons_append] at hcut
  have hc : c ∈ [' ', '\t', '\r', '\n'] := by
    have hblank : (s.cutPhp (c :: (u ++ spelled ls))).kind = .blank := by rw [hcut, ← hkind]
    exact blank_of_cutPhp hblank
  rw [cutPhp_blank s hc] at hcut
  subst hcut
  have hsame : s.advance ⟨.blank, blankLength (c :: (u ++ spelled ls)), .php⟩ = s := by
    rw [advance_of_trivia s rfl]
    show { s with mode := .php } = s
    rw [← hmode]
  rw [hsame] at hrest
  exact ⟨hmode, ⟨c, u, rfl, hc⟩, hlength, hrest⟩

theorem BlankAhead.run (h : s.BlankAhead w ls) : s.run (w ++ spelled ls) = (.blank, w) :: ls := by
  obtain ⟨c, u, rfl, hc⟩ := h.head
  have hcut : s.cut (c :: u ++ spelled ls) = ⟨.blank, (c :: u).length, .php⟩ := by
    rw [← h.length, Lexer.cut, h.mode]
    exact cutPhp_blank s hc _
  have hsame : s.advance ⟨.blank, (c :: u).length, .php⟩ = s := by
    rw [advance_of_trivia s rfl]
    show { s with mode := .php } = s
    rw [← h.mode]
  rw [run_of_cut (List.cons_ne_nil c u) hcut rfl, hsame, h.rest]

theorem getLast?_of_blankLength (hne : w ≠ []) (h : blankLength (w ++ c :: z) = w.length)
    (hc : c ∈ [' ', '\t', '\r', '\n']) : w.getLast? = some '\n' := by
  have hpos := blankLength_pos hc z
  induction w with
  | nil => exact absurd rfl hne
  | cons d w ih =>
    rw [List.cons_append, blankLength] at h
    split at h
    · rename_i hd
      rw [List.length_eq_zero_iff.1 (Nat.succ.inj h).symm, hd]
      rfl
    split at h
    · cases w with
      | nil =>
        rw [List.nil_append] at h
        simp only [List.length_singleton] at h
        omega
      | cons e w =>
        rw [List.getLast?_cons_cons]
        exact ih (List.cons_ne_nil e w) (Nat.succ.inj h)
    · cases h

theorem line_end_of_blanks {cs : List Char} (h : s.run cs = (.blank, w) :: (.blank, z) :: ls) :
    w.getLast? = some '\n' := by
  have hfirst := blankAhead_of_run h
  obtain ⟨c, v, rfl, hc⟩ := (blankAhead_of_run hfirst.rest).head
  obtain ⟨d, u, rfl, -⟩ := hfirst.head
  exact getLast?_of_blankLength (List.cons_ne_nil d u) hfirst.length hc

/-- Of two blanks in a row, the first of which ends its line, the second may go. -/
theorem run_without_blank {cs b b' : List Char} {pre post : List (Kind × List Char)}
    (h : s.run cs = pre ++ (.blank, b ++ ['\n']) :: (.blank, b') :: post) :
    s.run (spelled (pre ++ (.blank, b ++ ['\n']) :: post)) =
      pre ++ (.blank, b ++ ['\n']) :: post := by
  obtain ⟨s', hreads, hrun⟩ := exists_reads h
  have hfirst := blankAhead_of_run hrun
  have hsecond := blankAhead_of_run hfirst.rest
  have hlength : blankLength (b ++ '\n' :: (b' ++ spelled post)) = b.length + 1 := by
    have := hfirst.length
    rwa [List.append_assoc, List.singleton_append, List.length_append, List.length_singleton] at this
  have hlater : s'.BlankAhead (b ++ ['\n']) post := by
    refine ⟨hfirst.mode, hfirst.head, ?_, hsecond.rest⟩
    rw [List.append_assoc, List.singleton_append, blankLength_line hlength, List.length_append,
      List.length_singleton]
  have hblanks : trimStart b' = [] := by
    have := trimStart_take_blankLength (b' ++ spelled post)
    rwa [hsecond.length, List.take_left] at this
  have hview : (trimStart ('\n' :: spelled post)).head? =
      (trimStart ('\n' :: (b' ++ spelled post))).head? := by
    show (trimStart (['\n'] ++ spelled post)).head? =
      (trimStart (['\n'] ++ (b' ++ spelled post))).head?
    rw [trimStart_append_of_nil rfl, trimStart_append_of_nil rfl, trimStart_append_of_nil hblanks]
  -- what stands before the line feed is read as before
  have hretail : Reads s pre (spelled ((.blank, b ++ ['\n']) :: post)) s' := by
    refine hreads.retail hfirst.mode fun t l rest hmode _ hrest => ?_
    obtain ⟨hu, -, hcut⟩ := hrest.head
    rw [Lexer.cut, hmode] at hcut
    have hne : l.2 ++ (spelled rest ++ b) ≠ [] := List.append_ne_nil_of_left_ne_nil hu _
    have hcongr : t.cutPhp (l.2 ++ (spelled rest ++ b) ++ '\n' :: spelled post) =
        t.cutPhp (l.2 ++ (spelled rest ++ b) ++ '\n' :: (b' ++ spelled post)) := by
      refine t.cutPhp_hard (by decide) (by decide) hne (fun h => absurd h (by decide))
        (fun n _ _ _ => ?_) ?_
      · rw [head?_trimStart_append, head?_trimStart_append, hview]
      · simp only [spelled_cons, List.append_assoc, List.singleton_append, List.length_append] at hcut ⊢
        omega
    simpa only [spelled_cons, List.append_assoc, List.singleton_append] using hcongr
  have hall := hretail.run
  rw [spelled_cons, hlater.run] at hall
  rw [spelled_append, spelled_cons]
  exact hall

/-- `ls'` is `ls` without some blanks that follow, and end, a line. -/
inductive Thins : List (Kind × List Char) → List (Kind × List Char) → Prop
  | nil : Thins [] []
  | keep (l : Kind × List Char) {ls ls' : List (Kind × List Char)} (h : Thins ls ls') :
      Thins (l :: ls) (l :: ls')
  | drop (b b' : List Char) {ls ls' : List (Kind × List Char)}
      (h : Thins ((.blank, b ++ ['\n']) :: ls) ls') :
      Thins ((.blank, b ++ ['\n']) :: (.blank, b' ++ ['\n']) :: ls) ls'

/-- The text on the last line, after `line`, of a text. -/
def lineAfter (line cs : List Char) : List Char :=
  cs.foldl (fun line c => if c = '\n' then [] else line ++ [c]) line

/-- The lexemes other than blanks, each with the text before it on its line; `line` is that before
the first. -/
def inked (line : List Char) : List (Kind × List Char) → List (Kind × List Char × List Char)
  | [] => []
  | l :: ls =>
    if l.1 = .blank then inked (lineAfter line l.2) ls
    else (l.1, l.2, line) :: inked (lineAfter line l.2) ls

theorem lineAfter_line_end (line b : List Char) : lineAfter line (b ++ ['\n']) = [] := by
  rw [lineAfter, List.foldl_append]
  rfl

namespace Thins

/-- Lexing what is left gives what is left. -/
theorem run (h : Thins ls ls') (pre : List (Kind × List Char))
    (hrun : s.run (spelled (pre ++ ls)) = pre ++ ls) : s.run (spelled (pre ++ ls')) = pre ++ ls' := by
  induction h generalizing pre with
  | nil => exact hrun
  | keep l h ih =>
    have := ih (pre ++ [l])
    simp only [List.append_assoc, List.singleton_append] at this
    exact this hrun
  | drop b b' h ih => exact ih pre (run_without_blank hrun)

theorem inked (h : Thins ls ls') (line : List Char) : inked line ls' = inked line ls := by
  induction h generalizing line with
  | nil => rfl
  | keep l h ih => rw [Lexer.inked, Lexer.inked, ih]
  | drop b b' h ih =>
    rw [ih]
    simp only [Lexer.inked, if_true, lineAfter_line_end]

end Thins

/-- The lexemes that are not at one of the places `gone`, each with its place. -/
def left (gone : Nat → Bool) (ls : List (Kind × List Char)) : List ((Kind × List Char) × Nat) :=
  ls.zipIdx.filter fun p => !gone p.2

def without (gone : Nat → Bool) (ls : List (Kind × List Char)) : List (Kind × List Char) :=
  (left gone ls).map (·.1)

/-- The lexeme is a blank that ends a line. -/
def EndsLine (l : Option (Kind × List Char)) : Prop :=
  ∃ b, l = some (.blank, b ++ ['\n'])

theorem thins_from {gone : Nat → Bool} (l : Kind × List Char) (ls : List (Kind × List Char)) (n : Nat)
    (h : ∀ j, gone (n + j) = true → EndsLine (l :: ls)[j]? ∧ EndsLine ls[j]?) :
    Thins (l :: ls) (l :: ((ls.zipIdx n).filter fun p => !gone p.2).map (·.1)) := by
  induction ls generalizing l n with
  | nil => exact .keep l .nil
  | cons m ls ih =>
    rw [List.zipIdx_cons, List.filter_cons]
    cases hgone : gone n with
    | true =>
      obtain ⟨⟨b, hb⟩, b', hb'⟩ := h 0 hgone
      cases hb
      cases hb'
      refine .drop b b' (ih _ (n + 1) fun j hj => ?_)
      obtain ⟨hline, hline'⟩ := h (j + 1) (by rwa [Nat.add_assoc, Nat.add_comm 1] at hj)
      cases j with
      | zero => exact ⟨⟨b, rfl⟩, hline'⟩
      | succ j => exact ⟨hline, hline'⟩
    | false =>
      refine .keep l (ih m (n + 1) fun j hj => ?_)
      exact h (j + 1) (by rwa [Nat.add_assoc, Nat.add_comm 1] at hj)

theorem thins_without {gone : Nat → Bool} (hfirst : gone 0 = false)
    (h : ∀ j, gone (j + 1) = true → EndsLine ls[j]? ∧ EndsLine ls[j + 1]?) :
    Thins ls (without gone ls) := by
  cases ls with
  | nil => exact .nil
  | cons l ls =>
    have hthins := thins_from l ls 1 fun j hj => h j (by rwa [Nat.add_comm] at hj)
    rwa [without, left, List.zipIdx_cons, List.filter_cons, hfirst]

end Lexer

end PhpStyle
