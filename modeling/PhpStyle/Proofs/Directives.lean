import PhpStyle.Allowance
import PhpStyle.Proofs.CommentMarks
import PhpStyle.Proofs.RewordedDocs

/-!
# Directives and comments

A directive is looked for on lines of text, where it is taken to stand in a comment if a mark of one
comes before it on its line (`LineMark`). Such a mark is told apart by the tokens: from a mark in a
comment the directive is in that comment as well, unless the comment ends before it, and a mark
elsewhere is a decoy (`Decoy`). So what a directive allows is allowed by a comment, or every mark
before the directive on its line is a decoy (`Allowance.find?_in_comment`).
-/

namespace PhpStyle

open Text

namespace Text

/-- How many characters stand before line `m`, lines counted from zero. -/
def lineOffset (cs : List Char) (m : Nat) : Nat :=
  ((linesKeeping cs).take m).flatten.length

theorem eq_append_of_line {cs line : List Char} {m : Nat} (h : (lines cs)[m]? = some line) :
    ∃ before rest, cs = before ++ (line ++ rest) ∧ before.length = lineOffset cs m := by
  rw [lines, List.getElem?_map] at h
  obtain ⟨kept, hkept, rfl⟩ := Option.map_eq_some_iff.1 h
  obtain ⟨rest, hrest⟩ := prefix_bareLine kept
  refine ⟨((linesKeeping cs).take m).flatten,
    rest ++ ((linesKeeping cs).drop (m + 1)).flatten, ?_, rfl⟩
  conv_lhs => rw [← linesKeeping_flatten cs, ← List.take_append_drop m (linesKeeping cs)]
  have hdrop : (linesKeeping cs).drop m = kept :: (linesKeeping cs).drop (m + 1) := by
    rw [List.drop_eq_getElem?_toList_append, hkept]
    rfl
  rw [List.flatten_append, hdrop, List.flatten_cons, ← List.append_assoc (bareLine kept), hrest]

theorem eq_append_of_cut? {piece cs before after : List Char} (h : cut? piece cs = some (before, after)) :
    cs = before ++ (piece ++ after) := by
  obtain ⟨n, hn, heq⟩ := Option.map_eq_some_iff.1 h
  obtain ⟨rfl, rfl⟩ := Prod.mk.inj heq
  obtain ⟨rest, hrest⟩ := exists_eq_append_of_startsWith (startsWith_drop_of_find? hn)
  rw [← List.drop_drop, hrest, List.drop_left, ← hrest, List.take_append_drop]

end Text

namespace Allowance

/-- At `q`, the text before a marker has a mark that shows a comment. -/
inductive LineMark (before : List Char) (q : Nat) : Prop
  | slashes (h : startsWith "//".toList (before.drop q) = true)
  | hash (h : startsWith "#".toList (before.drop q) = true)
  | block (h : startsWith "/*".toList (before.drop q) = true)
  | star (h : (before.drop q).head? = some '*') (hblank : ∀ c ∈ before.take q, isBlank c = true)

theorem exists_lineMark {before : List Char} (h : inComment before = true) : ∃ q, LineMark before q := by
  simp only [inComment, Bool.or_eq_true, occurs, beq_iff_eq] at h
  rcases h with ((h | h) | h) | h
  · obtain ⟨q, hq⟩ := Option.isSome_iff_exists.1 h
    exact ⟨q, .slashes (startsWith_drop_of_find? hq)⟩
  · obtain ⟨q, hq⟩ := Option.isSome_iff_exists.1 h
    exact ⟨q, .hash (startsWith_drop_of_find? hq)⟩
  · obtain ⟨q, hq⟩ := Option.isSome_iff_exists.1 h
    exact ⟨q, .block (startsWith_drop_of_find? hq)⟩
  · obtain ⟨blanks, hblanks, hsplit⟩ : ∃ blanks, (∀ c ∈ blanks, isBlank c = true) ∧
        before = blanks ++ trimStart before :=
      ⟨before.takeWhile isBlank, fun _ => List.mem_takeWhile_imp, List.takeWhile_append_dropWhile.symm⟩
    rw [hsplit]
    refine ⟨blanks.length, .star ?_ ?_⟩
    · rwa [List.drop_left]
    · rwa [List.take_left]

variable {before : List Char} {q : Nat}

theorem LineMark.markAhead (h : LineMark before q) (z : List Char) :
    q < before.length ∧ Lexer.MarkAhead (before.drop q ++ z) := by
  have hlt : ∀ {c t}, before.drop q = c :: t → q < before.length := by
    intro c t heq
    have hlength := congrArg List.length heq
    simp only [List.length_drop, List.length_cons] at hlength
    omega
  cases h with
  | slashes h =>
    obtain ⟨rest, hrest⟩ := exists_eq_append_of_startsWith h
    exact ⟨hlt hrest, hrest ▸ .slashes _⟩
  | hash h =>
    obtain ⟨rest, hrest⟩ := exists_eq_append_of_startsWith h
    exact ⟨hlt hrest, hrest ▸ .hash _⟩
  | block h =>
    obtain ⟨rest, hrest⟩ := exists_eq_append_of_startsWith h
    exact ⟨hlt hrest, hrest ▸ .block _⟩
  | star h _ =>
    obtain ⟨rest, hrest⟩ := List.head?_eq_some_iff.1 h
    exact ⟨hlt hrest, hrest ▸ .star _⟩

theorem LineMark.blank_of_star (h : LineMark before q) (hstar : (before.drop q).head? = some '*') :
    ∀ c ∈ before.take q, isBlank c = true := by
  have hne : ∀ {lead : List Char}, startsWith lead (before.drop q) = true → lead.head? = some '*' ∨ lead = [] := by
    intro lead hlead
    obtain ⟨rest, hrest⟩ := exists_eq_append_of_startsWith hlead
    cases lead with
    | nil => exact .inr rfl
    | cons c lead =>
      rw [hrest] at hstar
      exact .inl hstar
  cases h with
  | slashes h => exact absurd (hne h) (by decide)
  | hash h => exact absurd (hne h) (by decide)
  | block h => exact absurd (hne h) (by decide)
  | star _ hblank => exact hblank

end Allowance

namespace Tokens

/-- How many characters stand before the token at `i`. -/
def offset (ts : Tokens) (i : Nat) : Nat :=
  (ts.textBefore i).toList.length

/-- The `n` characters from `a` on stand in a comment. -/
def Comments (ts : Tokens) (a n : Nat) : Prop :=
  ∃ i t, ts.get? i = some t ∧ t.kind.isComment = true ∧ ts.offset i ≤ a ∧ a + n ≤ ts.offset (i + 1)

end Tokens

/-- The mark at `q` looks like the start of a comment around a marker, though the marker is in none: on
a line that starts at `start`, with `before` before the marker. -/
inductive Decoy (ts : Tokens) (start : Nat) (before : List Char) (q : Nat) : Prop
  | text {i : Nat} {t : Token} (ht : ts.get? i = some t) (hfrom : ts.offset i ≤ start + q)
      (hto : start + q < ts.offset (i + 1)) (hkind : t.kind ∈ [.html, .quoted, .openAttribute])
  | operator {i : Nat} {t : Token} (ht : ts.get? i = some t) (hfrom : ts.offset i ≤ start + q)
      (hto : start + q < ts.offset (i + 1)) (hkind : t.kind = .operator)
      (hstar : (before.drop q).head? = some '*') (hblank : ∀ c ∈ before.take q, isBlank c = true)
  | ended {i : Nat} {t : Token} (ht : ts.get? i = some t)
      (hkind : t.kind = .comment ∨ t.kind = .docClose) (hbehind : start + q < ts.offset (i + 1))
      (hends : ts.offset (i + 1) ≤ start + before.length)

namespace Tokens

open Lexer

variable {source : String}

theorem offset_ofSource (source : String) (i : Nat) :
    (ofSource source).offset i = (spelled ((({} : Lexer).run source.toList).take i)).length := by
  rw [offset, ← textBefore_unlinked, ofSource_unlinked, textBefore_lex, spelled]

theorem exists_token {pre post : List (Kind × List Char)} {l : Kind × List Char}
    (h : ({} : Lexer).run source.toList = pre ++ l :: post) :
    ∃ t, (ofSource source).get? pre.length = some t ∧ t.kind = l.1 ∧
      (ofSource source).offset pre.length = (spelled pre).length ∧
        (ofSource source).offset (pre.length + 1) = (spelled pre).length + l.2.length := by
  obtain ⟨t, ht, hkind, -, -⟩ := get?_of_run h
  refine ⟨t, ht, hkind, ?_, ?_⟩
  · rw [offset_ofSource, h, List.take_left]
  · have hlength : pre.length + 1 = (pre ++ [l]).length := by simp
    rw [offset_ofSource, h, List.append_cons, hlength, List.take_left, spelled_append, List.length_append]
    simp [spelled]

end Tokens

theorem Lexer.exists_covering (s : Lexer) (cs : List Char) {q : Nat} (hq : q < cs.length) :
    ∃ (pre : List (Kind × List Char)) (l : Kind × List Char) (post : List (Kind × List Char))
      (s' : Lexer), s.run cs = pre ++ l :: post ∧ s'.run (l.2 ++ spelled post) = l :: post ∧
        (spelled pre).length ≤ q ∧ q < (spelled pre).length + l.2.length := by
  fun_induction run s cs generalizing q with
  | case1 => cases hq
  | case2 s cs hne c =>
    rename_i ih
    have hle := (s.cut_fits hne).le
    have htake : (cs.take c.length).length = c.length := by rw [List.length_take, Nat.min_eq_left hle]
    rcases Nat.lt_or_ge q c.length with hlt | hge
    · refine ⟨[], _, _, s, rfl, ?_, Nat.zero_le _, by simpa [htake] using hlt⟩
      rw [spelled_run, List.take_append_drop, run, if_neg hne]
    · obtain ⟨pre, l, post, s', hrun, hs', hfrom, hto⟩ := ih (q := q - c.length) (by
        rw [List.length_drop]
        omega)
      refine ⟨(c.kind, cs.take c.length) :: pre, l, post, s', by rw [hrun]; rfl, hs', ?_, ?_⟩
      all_goals
        rw [spelled_cons, List.length_append]
        simp only [htake]
        omega

namespace Tokens

open Lexer

variable {source : String}

/-- From a mark on its line, a marker is in a comment, or the mark is a decoy. -/
theorem comments_or_decoy {start before rest : List Char} {q : Nat} (hmark : Allowance.LineMark before q)
    (htext : source.toList = start ++ (before ++ (Allowance.marker ++ rest))) :
    (ofSource source).Comments (start.length + before.length) Allowance.marker.length ∨
      Decoy (ofSource source) start.length before q := by
  have hmarker : Allowance.marker ≠ [] ∧ ∀ c ∈ Allowance.marker, isTagChar c = true := by decide
  obtain ⟨hlt, hahead⟩ := hmark.markAhead (Allowance.marker ++ rest)
  obtain ⟨pre, l, post, s, hrun, hs, hfrom, hto⟩ :=
    Lexer.exists_covering {} source.toList (q := start.length + q) (by
      rw [htext, List.length_append, List.length_append]
      omega)
  -- what stands in the lexeme before the mark
  obtain ⟨w, hw, hwlength⟩ : ∃ w, l.2 ++ spelled post = w ++ (before.drop q ++ (Allowance.marker ++ rest)) ∧
      (spelled pre).length + w.length = start.length + q := by
    have hsplit : spelled pre ++ (l.2 ++ spelled post) =
        (start ++ before.take q) ++ (before.drop q ++ (Allowance.marker ++ rest)) := by
      rw [← spelled_cons, ← spelled_append, ← hrun, spelled_run, htext, List.append_assoc,
        ← List.append_assoc (before.take q), List.take_append_drop]
    have hstart : (start ++ before.take q).length = start.length + q := by
      rw [List.length_append, List.length_take, Nat.min_eq_left (Nat.le_of_lt hlt)]
    obtain ⟨w, hw⟩ := List.prefix_of_prefix_length_le (List.prefix_append _ (l.2 ++ spelled post))
      (hsplit.symm ▸ List.prefix_append _ _) (hstart ▸ hfrom)
    rw [← hw, List.append_assoc, List.append_cancel_left_eq] at hsplit
    exact ⟨w, hsplit, by rw [← hstart, ← hw, List.length_append]⟩
  obtain ⟨cut, hcut, hkind, hlength, -, -⟩ := cut_of_run hs
  have hkinds := kind_of_mark (s := s) hahead (w := w) (by rw [← hw, hcut, hlength]; omega)
  rw [← hw, hcut, ← hkind] at hkinds
  obtain ⟨t, ht, htkind, htfrom, htto⟩ := exists_token hrun
  rw [← htkind] at hkinds
  rcases hkinds with hkinds | hkinds | ⟨hkinds, hstar⟩
  · exact .inr (.text ht (by omega) (by omega) hkinds)
  · have hw' : l.2 ++ spelled post = (w ++ before.drop q) ++ (Allowance.marker ++ rest) := by
      rw [hw, List.append_assoc]
    have hend : (w ++ before.drop q).length + (spelled pre).length = start.length + before.length := by
      rw [List.length_append, List.length_drop]
      omega
    rcases commented_or_ends hmarker.1 hmarker.2 hs (htkind ▸ hkinds) (q := w.length) (by omega) hw' with
      ⟨pre', l', post', heq, hl', hin, hout⟩ | ⟨pre', l', post', heq, hl', hbehind, hends⟩
    all_goals
      rw [heq, ← List.append_assoc] at hrun
      obtain ⟨t', ht', htkind', htfrom', htto'⟩ := exists_token hrun
      have hspelled : (spelled (pre ++ pre')).length = (spelled pre).length + (spelled pre').length := by
        rw [spelled_append, List.length_append]
    · exact .inl ⟨_, t', ht', htkind' ▸ hl', by omega, by omega⟩
    · exact .inr (.ended ht' (htkind' ▸ hl') (by omega) (by omega))
  · have hstar' : (before.drop q).head? = some '*' := by
      obtain ⟨c, d, hcd⟩ := List.exists_cons_of_ne_nil (l := before.drop q) (by
        rw [ne_eq, List.drop_eq_nil_iff]
        omega)
      rw [hcd] at hstar ⊢
      exact hstar
    exact .inr (.operator ht (by omega) (by omega) hkinds hstar' (hmark.blank_of_star hstar'))

end Tokens

namespace Allowance

theorem exists_line {source : String} {names : List String} {n : Nat} {a : Allowance}
    (h : find? source n names = some a) :
    ∃ m line, (m + 1 = n ∨ m + 2 = n) ∧ (lines source.toList)[m]? = some line ∧ ofLine? line = some a := by
  have honLine : ∀ {k}, onLine? (lines source.toList) names k = some a →
      ∃ m line, m + 1 = k ∧ (lines source.toList)[m]? = some line ∧ ofLine? line = some a := by
    intro k hk
    rw [onLine?] at hk
    split at hk
    · cases hk
    · rename_i hpos
      obtain ⟨hbind, -⟩ := Option.filter_eq_some_iff.1 hk
      obtain ⟨line, hline, ha⟩ := Option.bind_eq_some_iff.1 hbind
      exact ⟨k - 1, line, by omega, hline, ha⟩
  rw [find?] at h
  split at h
  · rcases Option.or_eq_some_iff.1 h with habove | ⟨-, hhere⟩
    · obtain ⟨m, line, hm, hline, ha⟩ := honLine habove
      exact ⟨m, line, .inr (by omega), hline, ha⟩
    · obtain ⟨m, line, hm, hline, ha⟩ := honLine hhere
      exact ⟨m, line, .inl hm, hline, ha⟩
  · cases h

/-- What a directive allows on a line is allowed by a comment on this line or on the one above, or
every mark by which the text before the directive looks like a comment is a decoy. -/
theorem find?_in_comment {source : String} {names : List String} {n : Nat} {a : Allowance}
    (h : find? source n names = some a) :
    ∃ m before after, (m + 1 = n ∨ m + 2 = n) ∧
      (lines source.toList)[m]? = some (before ++ (marker ++ after)) ∧
        (∃ q, LineMark before q) ∧
          ((Tokens.ofSource source).Comments (lineOffset source.toList m + before.length) marker.length ∨
            ∀ q, LineMark before q → Decoy (.ofSource source) (lineOffset source.toList m) before q) := by
  obtain ⟨m, line, hm, hline, ha⟩ := exists_line h
  rw [ofLine?, Option.bind_eq_bind, Option.bind_eq_some_iff] at ha
  obtain ⟨⟨before, after⟩, hcut, ha⟩ := ha
  obtain ⟨u, hguard, -⟩ := Option.bind_eq_some_iff.1 ha
  have hcomment : inComment before = true := (Option.guard_eq_some' u).1 hguard
  obtain rfl := eq_append_of_cut? hcut
  obtain ⟨start, rest, htext, hstart⟩ := eq_append_of_line hline
  refine ⟨m, before, after, hm, hline, exists_lineMark hcomment, ?_⟩
  rw [← hstart, or_iff_not_imp_left]
  intro hout q hmark
  have hmarked : source.toList = start ++ (before ++ (marker ++ (after ++ rest))) := by
    rw [htext]
    simp only [List.append_assoc]
  exact (Tokens.comments_or_decoy hmark hmarked).resolve_left hout

/-- A directive at the end of the line above, behind code. -/
theorem trailing_directive_in_comment :
    let source := "<?php\n$a = '#'; // sniffkit: allow(SK001)\n$b = (int)$a;\n"
    find? source 3 ["cast-spacing", "SK001"] = some ⟨["SK001"], none⟩ ∧
      ∃ m before after, (m + 1 = 3 ∨ m + 2 = 3) ∧
        (lines source.toList)[m]? = some (before ++ (marker ++ after)) ∧
          (∃ q, LineMark before q) ∧
            ((Tokens.ofSource source).Comments (lineOffset source.toList m + before.length) marker.length ∨
              ∀ q, LineMark before q → Decoy (.ofSource source) (lineOffset source.toList m) before q) := by
  intro source
  have hfound : find? source 3 ["cast-spacing", "SK001"] = some ⟨["SK001"], none⟩ := by decide +kernel
  exact ⟨hfound, find?_in_comment hfound⟩

/-- An address in a string is taken for a comment: here a directive is found in a source that has
none. -/
theorem address_taken_for_comment :
    let source := "<?php $u = \"http://x sniffkit: allow(all)\";"
    find? source 1 ["cast-spacing"] = some ⟨["all"], none⟩ ∧
      ∀ t ∈ (Tokens.ofSource source).items, t.kind.isComment = false := by
  decide +kernel

end Allowance

end PhpStyle
