import Mathlib.Algebra.GroupWithZero.Nat
import Mathlib.Data.List.TakeWhile
import PhpStyle.Proofs.Partition
import PhpStyle.SourceFile

/-!
# Spans of tokens

A location finds its byte offset from the line and the column of its token. Going down the lines of
a text to where some part of it ends comes out at the byte length of that part (`offsetIn_position`),
so the offset of a token is the number of bytes before it, and its span holds its own text.
-/

namespace PhpStyle

open Text

theorem Text.utf8ByteSize_ofList (cs : List Char) : (String.ofList cs).utf8ByteSize = byteLength cs := by
  induction cs with
  | nil => rfl
  | cons c cs ih =>
    have hcons : String.ofList (c :: cs) = String.singleton c ++ String.ofList cs := by
      rw [← String.toList_inj]
      simp
    rw [hcons, String.utf8ByteSize_append, ih, byteLength]
    simp

theorem Text.byteLength_toList (s : String) : byteLength s.toList = s.utf8ByteSize := by
  rw [← utf8ByteSize_ofList, String.ofList_toList]

namespace SourceFile

theorem linesKeeping_ne_nil {cs : List Char} (h : cs ≠ []) : linesKeeping cs ≠ [] := by
  intro hnil
  have hflat := linesKeeping_flatten cs
  rw [hnil] at hflat
  exact h hflat.symm

/-- A column that starts behind a line feed does not see what is before that. -/
theorem takeWhile_reverse_cons {c : Char} {cs : List Char} (h : c = '\n' ∨ '\n' ∈ cs) :
    (c :: cs).reverse.takeWhile (· ≠ '\n') = cs.reverse.takeWhile (· ≠ '\n') := by
  rw [List.reverse_cons, List.takeWhile_append]
  split
  · rename_i hall
    have hself := (List.takeWhile_prefix (· ≠ '\n') (l := cs.reverse)).eq_of_length hall
    rcases h with rfl | h
    · simpa using hself.symm
    · rw [← List.mem_reverse, ← hself] at h
      exact absurd (List.mem_takeWhile_imp h) (by decide)
  · rfl

theorem takeWhile_reverse_self {cs : List Char} (h : '\n' ∉ cs) :
    cs.reverse.takeWhile (· ≠ '\n') = cs.reverse := by
  rw [List.takeWhile_eq_self_iff]
  intro c hc
  have hne : c ≠ '\n' := by
    rintro rfl
    exact h (List.mem_reverse.1 hc)
  simpa using hne

/-- The offset of the line and column at which `before` ends, if the text goes on there. -/
theorem offsetIn_position (before : List Char) {rest : List Char} (hrest : rest ≠ []) :
    offsetIn (linesKeeping (before ++ rest)) (1 + before.count '\n')
      (1 + (before.reverse.takeWhile (· ≠ '\n')).length) = byteLength before := by
  induction before with
  | nil =>
    obtain ⟨l, ls, hl⟩ := List.exists_cons_of_ne_nil (linesKeeping_ne_nil hrest)
    rw [List.nil_append, hl]
    simp [offsetIn, byteLength]
  | cons c before ih =>
    rw [List.cons_append, linesKeeping]
    by_cases hc : c = '\n'
    · have hline : 1 + (c :: before).count '\n' = (1 + before.count '\n') + 1 := by
        rw [hc, List.count_cons_self, Nat.add_assoc]
      rw [takeWhile_reverse_cons (.inl hc), if_pos hc, hline, offsetIn, ih]
      · simp [byteLength]
      · omega
    · have hne : before ++ rest ≠ [] := by simp [hrest]
      obtain ⟨l, ls, hl⟩ := List.exists_cons_of_ne_nil (linesKeeping_ne_nil hne)
      rw [hl] at ih
      simp only [hc, if_false, hl, List.count_cons_of_ne hc]
      by_cases hmem : '\n' ∈ before
      · -- the line goes on behind this one, which is only longer by `c`
        obtain ⟨n, hn⟩ : ∃ n, 1 + before.count '\n' = n + 2 := by
          have hpos := List.count_pos_iff.2 hmem
          exact ⟨before.count '\n' - 1, by omega⟩
        rw [takeWhile_reverse_cons (.inr hmem), hn, offsetIn, byteLength, byteLength, Nat.add_assoc, ← ih, hn,
          offsetIn]
        all_goals omega
      · have hcount : before.count '\n' = 0 := List.count_eq_zero.2 hmem
        have hmem' : '\n' ∉ c :: before := by
          rw [List.mem_cons, not_or]
          exact ⟨Ne.symm hc, hmem⟩
        rw [takeWhile_reverse_self hmem, hcount] at ih
        rw [takeWhile_reverse_self hmem', hcount]
        simp only [offsetIn, Nat.add_zero, Nat.add_sub_cancel_left, List.length_reverse,
          List.length_cons, List.take_succ_cons, byteLength] at ih ⊢
        rw [ih]

end SourceFile

namespace Tokens

theorem utf8ByteSize_textBefore (ts : Tokens) (i : Nat) :
    (ts.textBefore i).utf8ByteSize = ((ts.items.toList.take i).map (·.content.utf8ByteSize)).sum := by
  have hjoin : ∀ ss : List String, (String.join ss).utf8ByteSize = (ss.map (·.utf8ByteSize)).sum := by
    intro ss
    induction ss with
    | nil => rfl
    | cons s ss ih => rw [String.join_cons, String.utf8ByteSize_append, ih, List.map_cons, List.sum_cons]
  rw [textBefore, hjoin, List.map_map]
  rfl

theorem exists_source_eq {ts : Tokens} {i : Nat} {t : Token} (h : ts.get? i = some t) :
    ∃ rest, ts.source = ts.textBefore i ++ (t.content ++ rest) := by
  refine ⟨String.join ((ts.items.toList.drop (i + 1)).map (·.content)), ?_⟩
  have hdrop : ts.items.toList.drop i = t :: ts.items.toList.drop (i + 1) := by
    rw [get?, ← Array.getElem?_toList] at h
    exact List.drop_eq_getElem?_toList_append.trans (by rw [h]; rfl)
  rw [source_eq_append ts i, hdrop, List.map_cons, String.join_cons]

end Tokens

namespace SourceFile

theorem offset_location (f : SourceFile) {i : Nat} {t : Token}
    (ht : (Tokens.ofSource f.content).get? i = some t) :
    (f.location (.ofSource f.content) i).offset =
      ((Tokens.ofSource f.content).textBefore i).utf8ByteSize := by
  have hparts := (Tokens.ofSource_partitions f.content).2
  obtain ⟨rest, hsource⟩ := Tokens.exists_source_eq ht
  rw [hparts.source_eq] at hsource
  have hne : t.content.toList ++ rest.toList ≠ [] := by
    have hcontent := hparts.content_ne t (Array.mem_of_getElem? ht)
    simp only [ne_eq, List.append_eq_nil_iff, String.toList_eq_nil_iff, hcontent, false_and,
      not_false_eq_true]
  have hoffset := offsetIn_position ((Tokens.ofSource f.content).textBefore i).toList hne
  rw [← String.toList_append, ← String.toList_append, ← hsource] at hoffset
  rw [location, ht]
  simp only [offsetOf, hparts.line_eq i t ht, hparts.column_eq i t ht]
  rw [hoffset, byteLength_toList]

theorem length_location (f : SourceFile) {ts : Tokens} {i : Nat} {t : Token} (ht : ts.get? i = some t) :
    (f.location ts i).length = (String.ofList (trimEnd t.content.toList)).utf8ByteSize := by
  rw [location, ht, utf8ByteSize_ofList]

/-- The span of a token's location starts behind the bytes of the tokens before it, ends within the
file, and holds the token's text without the blanks at its end. -/
theorem location_spans (f : SourceFile) {i : Nat} {t : Token}
    (ht : (Tokens.ofSource f.content).get? i = some t) :
    let l := f.location (.ofSource f.content) i
    l.offset = (((Tokens.ofSource f.content).items.toList.take i).map (·.content.utf8ByteSize)).sum ∧
      l.offset + l.length ≤ f.content.utf8ByteSize ∧
      f.content.toByteArray.extract l.offset (l.offset + l.length) =
        (String.ofList (trimEnd t.content.toList)).toByteArray := by
  dsimp only
  have hoffset := offset_location f ht
  have hlength := length_location f ht
  obtain ⟨rest, hsource⟩ := Tokens.exists_source_eq ht
  rw [(Tokens.ofSource_partitions f.content).2.source_eq] at hsource
  generalize hbefore : (Tokens.ofSource f.content).textBefore i = before at hoffset hsource
  -- the blanks at the end belong to what follows
  obtain ⟨blanks, hcontent⟩ : ∃ blanks,
      t.content = String.ofList (trimEnd t.content.toList) ++ blanks := by
    refine ⟨String.ofList (t.content.toList.reverse.takeWhile isBlank).reverse, ?_⟩
    rw [← String.ofList_append, trimEnd, dropTail_append_tail, String.ofList_toList]
  generalize String.ofList (trimEnd t.content.toList) = text at hcontent hlength
  have hfile : f.content = before ++ (text ++ (blanks ++ rest)) := by
    rw [hsource, hcontent, String.append_assoc]
  rw [hoffset, hlength]
  refine ⟨?_, ?_, ?_⟩
  · rw [← hbefore, Tokens.utf8ByteSize_textBefore]
  · rw [hfile, String.utf8ByteSize_append, String.utf8ByteSize_append]
    omega
  · rw [hfile, String.toByteArray_append, String.toByteArray_append, ← String.size_toByteArray,
      ← String.size_toByteArray]
    have hextract := ByteArray.extract_append_size_add (a := before.toByteArray)
      (b := text.toByteArray ++ (blanks ++ rest).toByteArray) (i := 0) (j := text.toByteArray.size)
    rw [Nat.add_zero] at hextract
    rw [hextract, ByteArray.extract_append_eq_left rfl]

/-- A token behind a letter of two bytes, a carriage return and a line feed inside of a text. -/
theorem span_behind_wide_letters :
    let f : SourceFile := ⟨⟨"a.php"⟩, "<?php\r\n$a = 'é\nü'; $b;", ⟨"/"⟩⟩
    let l := f.location (.ofSource f.content) 9
    (l.line, l.column, l.offset, l.length) = (3, 5, 21, 2) ∧
      f.content.toByteArray.extract l.offset (l.offset + l.length) = "$b".toByteArray := by
  intro f l
  have ht : (Tokens.ofSource f.content).get? 9 = some ⟨.variableName, "$b", 3, 5, {}⟩ := by
    decide +kernel
  have htext : String.ofList (trimEnd "$b".toList) = "$b" := by decide +kernel
  have hbytes := (location_spans f ht).2.2
  rw [htext] at hbytes
  exact ⟨by decide +kernel, hbytes⟩

end SourceFile

end PhpStyle
