import Mathlib.Order.Bounds.Basic
import PhpStyle.Proofs.DocLines
import PhpStyle.Proofs.DocRelexing
import PhpStyle.Proofs.Spans

/-!
# The indentation of a line

A blank of code that does not end its line takes all blanks ahead (`Lexer.take_blankLength`), and apart
from HTML and the blanks of doc comments no other lexeme starts with one (`Lexer.gaps_of_run`). So the
indentation of a token is what blanks its line holds from the place on where the first token starts
there (`Tokens.exists_indented`). This is the start of the line, unless a token from an earlier line
reaches into it: behind such a token the blanks are none that indent (`Tokens.indentation_behind_text`).
-/

namespace PhpStyle

open Text Lexer DocLine

/-- The end of a text from its last line feed on. -/
def lastLine (cs : List Char) : List Char :=
  (cs.reverse.takeWhile (· ≠ '\n')).reverse

theorem lastLine_cons {c : Char} {cs : List Char} (h : c = '\n' ∨ '\n' ∈ cs) :
    lastLine (c :: cs) = lastLine cs := by
  rw [lastLine, lastLine, SourceFile.takeWhile_reverse_cons h]

theorem lastLine_self {cs : List Char} (h : '\n' ∉ cs) : lastLine cs = cs := by
  rw [lastLine, SourceFile.takeWhile_reverse_self h, List.reverse_reverse]

theorem getElem?_splitAt (before rest : List Char) :
    (splitAt '\n' (before ++ rest))[before.count '\n']? = some (lastLine before ++ lineOf rest) := by
  induction before with
  | nil =>
    obtain ⟨ls, hls, -⟩ := exists_splitAt rest
    rw [List.nil_append, hls]
    rfl
  | cons c before ih =>
    rw [splitAt] at ih
    rw [List.cons_append, splitAt, List.splitOnP_cons_eq_if_modifyHead]
    by_cases hc : c = '\n'
    · rw [if_pos (by simpa using hc), hc, List.count_cons_self, List.getElem?_cons_succ, ih,
        lastLine_cons (.inl rfl)]
    · rw [if_neg (by simpa using hc), List.count_cons_of_ne hc, List.getElem?_modifyHead]
      by_cases hmem : '\n' ∈ before
      · rw [if_neg (List.count_pos_iff.2 hmem).ne', ih, lastLine_cons (.inr hmem)]
      · have hline : '\n' ∉ c :: before := by
          rw [List.mem_cons, not_or]
          exact ⟨Ne.symm hc, hmem⟩
        rw [if_pos (List.count_eq_zero.2 hmem), ih, lastLine_self hmem, lastLine_self hline]
        rfl

/-- The blanks that indent code. -/
def isIndent (c : Char) : Bool :=
  c = ' ' || c = '\t'

theorem takeWhile_lineOf (cs : List Char) : (lineOf cs).takeWhile isGap = cs.takeWhile isGap := by
  have hgap : ∀ c, (isGap c = true ∧ c ≠ '\n') = (isGap c = true) := by
    intro c
    simp only [eq_iff_iff, and_iff_left_iff_imp]
    rintro h rfl
    cases h
  simp only [lineOf, List.takeWhile_takeWhile, decide_eq_true_eq, hgap, Bool.decide_eq_true]

theorem takeWhile_isIndent {cs : List Char} (h : '\r' ∉ cs.takeWhile isGap) :
    cs.takeWhile isGap = cs.takeWhile isIndent := by
  induction cs with
  | nil => rfl
  | cons c cs ih =>
    by_cases hc : isGap c = true
    · rw [List.takeWhile_cons_of_pos hc, List.mem_cons, not_or] at h
      have hindent : isIndent c = true := by
        simp only [isGap, isIndent, Bool.or_eq_true, decide_eq_true_eq] at hc ⊢
        exact hc.resolve_right (Ne.symm h.1)
      rw [List.takeWhile_cons_of_pos hc, List.takeWhile_cons_of_pos hindent, ih h.2]
    · have hindent : ¬ isIndent c = true := fun hi => hc (by rw [isGap, ← isIndent, hi]; rfl)
      rw [List.takeWhile_cons_of_neg hc, List.takeWhile_cons_of_neg hindent]

namespace Lexer

variable {s : Lexer} {l : Kind × List Char} {ls : List (Kind × List Char)} {c : Char} {cs : List Char}

/-- A blank that does not end its line takes all blanks ahead. -/
theorem take_blankLength (h : '\n' ∉ cs.take (blankLength cs)) :
    cs.take (blankLength cs) = cs.takeWhile isGap := by
  induction cs with
  | nil => rfl
  | cons c cs ih =>
    rw [blankLength] at h ⊢
    split_ifs at h ⊢ with hline hblank
    · simp [hline] at h
    · have hgap : isGap c = true := hblank
      rw [List.take_succ_cons, List.mem_cons, not_or] at h
      rw [List.take_succ_cons, ih h.2, List.takeWhile_cons_of_pos hgap]
    · have hgap : ¬ isGap c = true := hblank
      rw [List.take_zero, List.takeWhile_cons_of_neg hgap]

theorem kind_of_gap (s : Lexer) (hc : isGap c = true) (cs : List Char) :
    (s.cut (c :: cs)).kind = .blank ∨ (s.cut (c :: cs)).kind = .html ∨
      (s.cut (c :: cs)).kind = .docBlank := by
  have hmarks : c = ' ' ∨ c = '\t' ∨ c = '\r' := by simpa [isGap, or_assoc] using hc
  unfold cut
  split
  · have htag : openTagLength? (c :: cs) = none := by
      rcases hmarks with rfl | rfl | rfl <;> rfl
    rw [cutHtml, htag]
    exact .inr (.inl rfl)
  · have hmem : c ∈ [' ', '\t', '\r', '\n'] := by
      rcases hmarks with rfl | rfl | rfl <;> decide
    rw [cutPhp_blank s hmem]
    exact .inl rfl
  · rw [cutDoc_cons]
    rcases hmarks with rfl | rfl | rfl
    · simp
    · simp
    · simp only [Char.reduceEq, false_and, if_false, if_true]
      split <;> simp

/-- What blanks of a line stand where a lexeme starts: all of a blank of code, and none where another
lexeme of code or of a comment starts. -/
theorem gaps_of_run (h : s.run cs = l :: ls) (hhtml : l.1 ≠ .html) (hdoc : l.1 ≠ .docBlank)
    (hline : l.1 = .blank → '\n' ∉ l.2) :
    (l.2 ++ spelled ls).takeWhile isGap = if l.1 = .blank then l.2 else [] := by
  obtain ⟨k, u⟩ := l
  obtain ⟨cut, hcut, hkind, hlength, hne, -⟩ := cut_of_run h
  simp only at hhtml hdoc hline hkind hcut hlength hne ⊢
  split
  · rename_i hblank
    have hmode : s.mode = .php := mode_of_cut (.inl (by rw [hcut, ← hkind, hblank]))
    obtain ⟨c, w, rfl⟩ := List.exists_cons_of_ne_nil hne
    have hphp : s.cutPhp (c :: (w ++ spelled ls)) = cut := by
      rw [← hcut, Lexer.cut, hmode]
      rfl
    have hc := blank_of_cutPhp (by rw [hphp, ← hkind, hblank])
    rw [cutPhp_blank s hc] at hphp
    have htake : (c :: w ++ spelled ls).take (blankLength (c :: w ++ spelled ls)) = c :: w := by
      rw [List.cons_append, show blankLength (c :: (w ++ spelled ls)) = (c :: w).length by
        rw [← hlength, ← hphp], ← List.cons_append, List.take_left]
    rw [← take_blankLength (by rw [htake]; exact hline hblank), htake]
  · rename_i hblank
    obtain ⟨c, w, rfl⟩ := List.exists_cons_of_ne_nil hne
    rw [List.cons_append] at hcut ⊢
    refine List.takeWhile_cons_of_neg fun hc => ?_
    have hgap := s.kind_of_gap hc (w ++ spelled ls)
    rw [hcut, ← hkind] at hgap
    rcases hgap with hgap | hgap | hgap
    · exact hblank hgap
    · exact hhtml hgap
    · exact hdoc hgap

end Lexer

namespace Tokens

variable {ts : Tokens} {source : String} {line i j k : Nat} {t u : Token}

def StartsOn (ts : Tokens) (line j : Nat) : Prop :=
  ∃ t, ts.get? j = some t ∧ t.line = line

theorem startsOn_iff : ts.StartsOn line j ↔ (ts.get? j).any (·.line == line) = true := by
  simp only [StartsOn, Option.any_eq_true, beq_iff_eq]

theorem lineStart_le (ts : Tokens) (line k : Nat) : ts.lineStart line k ≤ k := by
  induction k with
  | zero => exact Nat.le_refl 0
  | succ k ih =>
    rw [lineStart]
    split
    · exact Nat.le_succ_of_le ih
    · exact Nat.le_refl _

theorem startsOn_of_lineStart_le (hj : ts.lineStart line k ≤ j) (hjk : j < k) : ts.StartsOn line j := by
  induction k with
  | zero => exact absurd hjk (Nat.not_lt_zero j)
  | succ k ih =>
    rw [lineStart] at hj
    split at hj
    · rename_i hline
      rcases Nat.lt_succ_iff_lt_or_eq.1 hjk with hlt | rfl
      · exact ih hj hlt
      · exact startsOn_iff.2 hline
    · omega

theorem not_startsOn_before_lineStart (h : ts.lineStart line k = j + 1) : ¬ ts.StartsOn line j := by
  induction k with
  | zero => cases h
  | succ k ih =>
    rw [lineStart] at h
    split at h
    · exact ih h
    · rename_i hline
      rwa [← Nat.succ.inj h, startsOn_iff]

theorem exists_textBefore_eq (ts : Tokens) (hij : i ≤ j) : ∃ r, ts.textBefore j = ts.textBefore i ++ r := by
  obtain ⟨l, hl⟩ := List.take_prefix_take_left (l := ts.items.toList) hij
  refine ⟨String.join (l.map (·.content)), ?_⟩
  rw [textBefore, textBefore, ← hl, List.map_append, String.join_append]

theorem line_le (hparts : ts.Partitions source) (hij : i ≤ j) (ht : ts.get? i = some t)
    (hu : ts.get? j = some u) : t.line ≤ u.line := by
  obtain ⟨r, hr⟩ := ts.exists_textBefore_eq hij
  rw [hparts.line_eq i t ht, hparts.line_eq j u hu, hr, String.toList_append, List.count_append]
  omega

theorem exists_get? (ht : ts.get? i = some t) (hji : j ≤ i) : ∃ u, ts.get? j = some u :=
  ⟨_, Array.getElem?_eq_getElem (Nat.lt_of_le_of_lt hji (Array.getElem?_eq_some_iff.1 ht).1)⟩

theorem firstOnLine_isLeast (hparts : ts.Partitions source) (ht : ts.get? i = some t) :
    IsLeast {j | ts.StartsOn t.line j} (ts.firstOnLine i) := by
  have hle := ts.lineStart_le t.line i
  have hfirst : ts.firstOnLine i = ts.lineStart t.line i := by rw [firstOnLine, ht]
  rw [hfirst]
  constructor
  · rcases Nat.lt_or_eq_of_le hle with hlt | heq
    · exact startsOn_of_lineStart_le (Nat.le_refl _) hlt
    · exact ⟨t, by rw [heq, ht], rfl⟩
  · rintro j ⟨u, hu, hline⟩
    by_contra hlt
    obtain ⟨m, hm⟩ : ∃ m, ts.lineStart t.line i = m + 1 := ⟨ts.lineStart t.line i - 1, by omega⟩
    obtain ⟨v, hv⟩ := exists_get? ht (show m ≤ i by omega)
    -- the token in between would be on the same line
    have huv := line_le hparts (by omega) hu hv
    have hvt := line_le hparts (by omega) hv ht
    exact not_startsOn_before_lineStart hm ⟨v, hv, by omega⟩

/-! ### The text of a line -/

/-- The line on which a token starts, from the token on. -/
theorem exists_line (ht : (ofSource source).get? i = some t) :
    ∃ line, (splitAt '\n' source.toList)[t.line - 1]? = some line ∧
      line.drop (t.column - 1) =
        lineOf (spelled ((({} : Lexer).run source.toList).drop i)) := by
  have hparts := (ofSource_partitions source).2
  have hbefore : ((ofSource source).textBefore i).toList =
      spelled ((({} : Lexer).run source.toList).take i) := by
    rw [← textBefore_unlinked, ofSource_unlinked, textBefore_lex]
    rfl
  have hsource := Lexer.spelled_run {} source.toList
  rw [← List.take_append_drop i (({} : Lexer).run source.toList), spelled_append, ← hbefore] at hsource
  refine ⟨lastLine ((ofSource source).textBefore i).toList ++
    lineOf (spelled ((({} : Lexer).run source.toList).drop i)), ?_, ?_⟩
  · rw [hparts.line_eq i t ht, Nat.add_sub_cancel_left, ← getElem?_splitAt, hsource]
  · rw [hparts.column_eq i t ht, Nat.add_sub_cancel_left, lastLine, ← List.length_reverse,
      List.drop_left]

theorem textBefore_succ (ht : ts.get? i = some t) : ts.textBefore (i + 1) = ts.textBefore i ++ t.content := by
  rw [get?, ← Array.getElem?_toList] at ht
  rw [textBefore, textBefore, List.take_add_one, ht, List.map_append, String.join_append]
  exact congrArg _ (by simp [String.join])

theorem line_succ (hparts : ts.Partitions source) (ht : ts.get? i = some t) (hu : ts.get? (i + 1) = some u) :
    u.line = t.line + t.content.toList.count '\n' := by
  rw [hparts.line_eq i t ht, hparts.line_eq (i + 1) u hu, textBefore_succ ht, String.toList_append,
    List.count_append, Nat.add_assoc]

theorem column_succ (hparts : ts.Partitions source) (ht : ts.get? i = some t)
    (hu : ts.get? (i + 1) = some u) (hend : t.content.toList.getLast? = some '\n') : u.column = 1 := by
  obtain ⟨w, hw⟩ := List.getLast?_eq_some_iff.1 hend
  rw [hparts.column_eq (i + 1) u hu, textBefore_succ ht, String.toList_append, hw]
  simp

theorem newline_not_mem_of_line (hparts : ts.Partitions source) (hij : i < j) (ht : ts.get? i = some t)
    (hu : ts.get? j = some u) (hline : t.line = u.line) : '\n' ∉ t.content.toList := by
  obtain ⟨v, hv⟩ := exists_get? hu hij
  have hle := line_le hparts hij hv hu
  rw [line_succ hparts ht hv] at hle
  exact List.count_eq_zero.1 (by omega)

/-- The indentation at `i`, where `t` is, by the text `line` of its line and the first token that
starts there. -/
structure Indented (source : String) (i : Nat) (t first : Token) (line : List Char) : Prop where
  line_eq : (splitAt '\n' source.toList)[t.line - 1]? = some line
  first_eq : (ofSource source).get? ((ofSource source).firstOnLine i) = some first
  least : IsLeast {j | (ofSource source).StartsOn t.line j} ((ofSource source).firstOnLine i)
  /-- HTML and the blanks of a doc comment do not indent. -/
  gaps : (ofSource source).indentation i =
    if first.kind = .html ∨ first.kind = .docBlank then ""
    else String.ofList ((line.drop (first.column - 1)).takeWhile isGap)
  whole : first.column = 1 → first.kind ≠ .html → first.kind ≠ .docBlank →
    '\r' ∉ line.takeWhile isGap →
      (ofSource source).indentation i = String.ofList (line.takeWhile isIndent)
  /-- What stands on the line before the first token ends one that started on an earlier line. -/
  reaches : first.column ≠ 1 → ∃ j before, (ofSource source).firstOnLine i = j + 1 ∧
    (ofSource source).get? j = some before ∧ before.line < t.line ∧
      '\n' ∈ before.content.toList ∧ before.content.toList.getLast? ≠ some '\n'

theorem gaps_of_first {first : Token} (ht : (ofSource source).get? i = some t)
    (heffective : t.kind.isEffective = true)
    (hfirst : (ofSource source).get? ((ofSource source).firstOnLine i) = some first)
    (hline : first.line = t.line) (hle : (ofSource source).firstOnLine i ≤ i)
    (hhtml : first.kind ≠ .html) (hdoc : first.kind ≠ .docBlank) :
    (ofSource source).indentation i = String.ofList
      ((spelled ((({} : Lexer).run source.toList).drop ((ofSource source).firstOnLine i))).takeWhile
        isGap) := by
  have hparts := (ofSource_partitions source).2
  rw [indentation, hfirst]
  generalize (ofSource source).firstOnLine i = f at hfirst hle
  have hbreak : first.kind = .blank → '\n' ∉ first.content.toList := by
    intro hblank
    rcases Nat.lt_or_eq_of_le hle with hlt | rfl
    · exact newline_not_mem_of_line hparts hlt hfirst ht hline
    · rw [hfirst] at ht
      cases ht
      rw [hblank] at heffective
      cases heffective
  obtain ⟨s, hrun⟩ := Lexer.exists_run_drop (rfl : ({} : Lexer).run source.toList = _) f
  have hlexeme := getElem?_lexemes source f
  rw [hfirst, Option.map_some] at hlexeme
  rw [Lexer.drop_eq_cons hlexeme] at hrun ⊢
  rw [spelled_cons, Lexer.gaps_of_run hrun hhtml hdoc hbreak]
  by_cases hblank : first.kind = .blank
  · have hnewline : first.hasNewline = false := by
      simpa [Token.hasNewline] using hbreak hblank
    simp [hblank, hnewline]
  · simp [hblank]

/-- The indentation of a token is what blanks stand where the first token on its line starts. -/
theorem exists_indented (ht : (ofSource source).get? i = some t)
    (heffective : t.kind.isEffective = true) : ∃ first line, Indented source i t first line := by
  have hparts := (ofSource_partitions source).2
  have hleast := firstOnLine_isLeast hparts ht
  obtain ⟨first, hfirst, hline⟩ := hleast.1
  obtain ⟨line, hlines, hdrop⟩ := exists_line hfirst
  have hgaps : first.kind ≠ .html → first.kind ≠ .docBlank → (ofSource source).indentation i =
      String.ofList ((line.drop (first.column - 1)).takeWhile isGap) := by
    intro hhtml hdoc
    rw [hdrop, takeWhile_lineOf]
    exact gaps_of_first ht heffective hfirst hline (hleast.2 ⟨t, ht, rfl⟩) hhtml hdoc
  refine ⟨first, line, hline ▸ hlines, hfirst, hleast, ?_, ?_, ?_⟩
  · split
    · rename_i hkind
      rw [indentation, hfirst]
      rcases hkind with hkind | hkind <;> simp [hkind]
    · rename_i hkind
      rw [not_or] at hkind
      exact hgaps hkind.1 hkind.2
  · intro hcolumn hhtml hdoc hreturn
    rw [hgaps hhtml hdoc, hcolumn, List.drop_zero, takeWhile_isIndent hreturn]
  · intro hcolumn
    generalize hf : (ofSource source).firstOnLine i = f at hfirst hleast
    obtain - | j := f
    · -- nothing comes before the first of all tokens
      refine absurd ?_ hcolumn
      rw [hparts.column_eq 0 first hfirst]
      rfl
    · obtain ⟨before, hbefore⟩ := exists_get? hfirst (Nat.le_succ j)
      have hlt : before.line < first.line := by
        refine Nat.lt_of_le_of_ne (line_le hparts (Nat.le_succ j) hbefore hfirst) fun heq => ?_
        exact absurd (hleast.2 ⟨before, hbefore, heq.trans hline⟩) (Nat.not_succ_le_self j)
      refine ⟨j, before, rfl, hbefore, hline ▸ hlt, ?_, ?_⟩
      · rw [line_succ hparts hbefore hfirst] at hlt
        exact List.count_pos_iff.1 (by omega)
      · exact fun hend => hcolumn (column_succ hparts hbefore hfirst hend)

/-- A statement in braces, behind the blanks of its line. -/
theorem exists_indented_in_braces :
    let source := "<?php\nif ($a) \x7b\n    $b = 1;\n\x7d\n"
    ∃ t, (ofSource source).get? 11 = some t ∧ t.kind.isEffective = true ∧
      (∃ first line, Indented source 11 t first line) ∧ (ofSource source).indentation 11 = "    " := by
  intro source
  have hany : ((ofSource source).get? 11).any (·.kind.isEffective) = true := by decide +kernel
  obtain ⟨t, ht, heffective⟩ := (Option.any_eq_true _ _).1 hany
  exact ⟨t, ht, heffective, exists_indented ht heffective, by decide +kernel⟩

/-- The point in the second line stands behind a text from the first line. The blank between them
does not indent the line, and is its indentation. -/
theorem indentation_behind_text :
    let source := "<?php $a = \"x\ny\" . 1;"
    ∃ t line, (ofSource source).get? 8 = some t ∧ t.kind = .operator ∧
      (splitAt '\n' source.toList)[t.line - 1]? = some line ∧
      (ofSource source).indentation 8 = " " ∧ String.ofList (line.takeWhile isIndent) = "" := by
  intro source
  have hany : ((ofSource source).get? 8).any (fun t => t.kind == .operator && t.line == 2) = true := by
    decide +kernel
  obtain ⟨t, ht, hkind⟩ := (Option.any_eq_true _ _).1 hany
  obtain ⟨hoperator, hline⟩ : t.kind = .operator ∧ t.line = 2 := by simpa using hkind
  refine ⟨t, "y\" . 1;".toList, ht, hoperator, ?_, by decide +kernel, by decide +kernel⟩
  rw [hline]
  decide +kernel

end Tokens

end PhpStyle
