import PhpStyle.Proofs.Lexemes
import PhpStyle.Proofs.Relinking

/-!
# Tokens partition their source

`Tokens.Partitions ts source`: the texts of `ts`, one after the other, are `source`, none of them
empty; every token stands at the line and column that the text before it gives, and begins and ends
between two characters; blanks end with their first line feed. `ofSource_partitions` shows this of
the tokens of every source. The places come from `Position.after`, which is counting
(`Position.after_default`); the rest is `Lexer.flatten_run` and what single cuts look like.
-/

namespace PhpStyle

namespace Position

theorem after_append (p : Position) (cs ds : List Char) : p.after (cs ++ ds) = (p.after cs).after ds :=
  List.foldl_append

/-- Going through a text counts its line feeds, and the characters since the last of them. -/
theorem after_default (cs : List Char) :
    ({} : Position).after cs =
      ⟨1 + cs.count '\n', 1 + (cs.reverse.takeWhile (· ≠ '\n')).length⟩ := by
  induction h : cs.reverse generalizing cs with
  | nil => rw [List.reverse_eq_nil_iff.1 h]; rfl
  | cons c rs ih =>
    obtain rfl : cs = rs.reverse ++ [c] := by rw [← List.reverse_cons, ← h, List.reverse_reverse]
    have hrs := ih rs.reverse (List.reverse_reverse rs)
    rw [after_append, hrs]
    by_cases hc : c = '\n'
    · simp [after, step, hc, Nat.add_assoc]
    · simp [after, step, hc, Nat.add_comm]

end Position

namespace Token

variable (p : Position) (ls : List (Kind × List Char))

theorem content_place : (place p ls).map (·.content) = ls.map fun l => String.ofList l.2 := by
  induction ls generalizing p with
  | nil => rfl
  | cons l ls ih => rw [place, List.map_cons, ih, List.map_cons]

theorem kind_place : (place p ls).map (·.kind) = ls.map (·.1) := by
  induction ls generalizing p with
  | nil => rfl
  | cons l ls ih => rw [place, List.map_cons, ih, List.map_cons]

theorem getElem?_place (i : Nat) : (place p ls)[i]? = ls[i]?.map fun l =>
    let q := p.after ((ls.take i).map (·.2)).flatten
    { kind := l.1, content := String.ofList l.2, line := q.line, column := q.column } := by
  induction ls generalizing p i with
  | nil => simp [place]
  | cons l ls ih =>
    cases i with
    | zero => rfl
    | succ i => simp [place, ih, Position.after_append]

end Token

namespace Tokens

/-- The text of the tokens before the one at `i`. -/
def textBefore (ts : Tokens) (i : Nat) : String :=
  String.join ((ts.items.toList.take i).map (·.content))

structure Partitions (ts : Tokens) (source : String) : Prop where
  content_ne : ∀ t ∈ ts.items, t.content ≠ ""
  source_eq : ts.source = source
  /-- Tokens begin and end between two characters. -/
  boundary : ∀ i ≤ ts.size, (ts.textBefore i).rawEndPos.IsValid source
  line_eq : ∀ i t, ts.get? i = some t → t.line = 1 + (ts.textBefore i).toList.count '\n'
  column_eq : ∀ i t, ts.get? i = some t →
    t.column = 1 + ((ts.textBefore i).toList.reverse.takeWhile (· ≠ '\n')).length
  /-- The only line feed of a blank is its last character. -/
  blank : ∀ t ∈ ts.items, t.kind.isBlank = true → '\n' ∉ t.content.toList.dropLast

theorem contents_unlinked (ts : Tokens) :
    ts.unlinked.items.toList.map (·.content) = ts.items.toList.map (·.content) := by
  simp [unlinked]

theorem textBefore_unlinked (ts : Tokens) (i : Nat) : ts.unlinked.textBefore i = ts.textBefore i := by
  simp only [textBefore, List.map_take, contents_unlinked]

theorem get?_unlinked {ts : Tokens} {i : Nat} {t : Token} (h : ts.get? i = some t) :
    ts.unlinked.get? i = some t.unlinked := by
  simp only [get?, unlinked, Array.getElem?_map] at *
  rw [h]
  rfl

theorem mem_unlinked {ts : Tokens} {t : Token} (h : t ∈ ts.items) : t.unlinked ∈ ts.unlinked.items :=
  Array.mem_map_of_mem h

theorem Partitions.of_unlinked {ts : Tokens} {source : String} (h : ts.unlinked.Partitions source) :
    ts.Partitions source where
  content_ne t ht := h.content_ne t.unlinked (mem_unlinked ht)
  source_eq := by rw [← h.source_eq, Tokens.source, Tokens.source, contents_unlinked]
  boundary i hi := by
    rw [← textBefore_unlinked]
    exact h.boundary i (by rwa [size_unlinked])
  line_eq i t ht := by
    rw [← textBefore_unlinked]
    exact h.line_eq i t.unlinked (get?_unlinked ht)
  column_eq i t ht := by
    rw [← textBefore_unlinked]
    exact h.column_eq i t.unlinked (get?_unlinked ht)
  blank t ht := h.blank t.unlinked (mem_unlinked ht)

theorem source_eq_append (ts : Tokens) (i : Nat) :
    ts.source = ts.textBefore i ++ String.join ((ts.items.toList.drop i).map (·.content)) := by
  rw [textBefore, ← String.join_append, ← List.map_append, List.take_append_drop, source]

theorem isValid_textBefore (ts : Tokens) (i : Nat) : (ts.textBefore i).rawEndPos.IsValid ts.source := by
  rw [source_eq_append ts i]
  exact String.Pos.Raw.isValid_rawEndPos.append_right _

theorem textBefore_lex (source : String) (i : Nat) :
    ((lex source).textBefore i).toList =
      (((({} : Lexer).run source.toList).take i).map (·.2)).flatten := by
  simp only [textBefore, lex, List.map_take, Token.content_place]
  simp [List.flatMap, ← List.map_take, Function.comp_def]

theorem source_lex (source : String) : (lex source).source = source := by
  rw [← String.toList_inj, Tokens.source, String.toList_join]
  simp only [lex, Token.content_place, List.flatMap, List.map_map, Function.comp_def,
    String.toList_ofList]
  exact Lexer.flatten_run _ _

theorem exists_lexeme {source : String} {i : Nat} {t : Token} (h : (lex source).get? i = some t) :
    ∃ l ∈ ({} : Lexer).run source.toList, t.kind = l.1 ∧ t.content.toList = l.2 ∧
      ({} : Position).after ((lex source).textBefore i).toList = ⟨t.line, t.column⟩ := by
  simp only [get?, lex, List.getElem?_toArray] at h
  rw [Token.getElem?_place] at h
  obtain ⟨l, hl, rfl⟩ := Option.map_eq_some_iff.1 h
  exact ⟨l, List.mem_of_getElem? hl, rfl, String.toList_ofList, by rw [textBefore_lex]⟩

theorem lex_partitions (source : String) : (lex source).Partitions source where
  content_ne t ht hnil := by
    obtain ⟨i, hi⟩ := Array.getElem?_of_mem ht
    obtain ⟨l, hl, -, hcontent, -⟩ := exists_lexeme hi
    refine Lexer.ne_nil_of_mem_run hl ?_
    rw [← hcontent, hnil]
    rfl
  source_eq := source_lex source
  boundary i _ := by
    have := isValid_textBefore (lex source) i
    rwa [source_lex] at this
  line_eq i t ht := by
    obtain ⟨l, -, -, -, hplace⟩ := exists_lexeme ht
    rw [Position.after_default] at hplace
    exact (congrArg Position.line hplace).symm
  column_eq i t ht := by
    obtain ⟨l, -, -, -, hplace⟩ := exists_lexeme ht
    rw [Position.after_default] at hplace
    exact (congrArg Position.column hplace).symm
  blank t ht hb := by
    obtain ⟨i, hi⟩ := Array.getElem?_of_mem ht
    obtain ⟨l, hl, hkind, hcontent, -⟩ := exists_lexeme hi
    rw [hkind] at hb
    rw [hcontent]
    exact Lexer.forall_mem_run (Q := fun k cs => k.isBlank = true → '\n' ∉ cs.dropLast)
      (fun s cs hne hb => s.newline_not_mem_cut hne hb) _ _ l hl hb

/-- Whatever the lexer has read so far, each lexeme takes at least one character and none that is
not there, and the tokens of a source partition it. -/
theorem ofSource_partitions (source : String) :
    (∀ (s : Lexer) (cs : List Char), cs ≠ [] → (s.cut cs).Fits cs) ∧
      (ofSource source).Partitions source := by
  refine ⟨fun s cs h => s.cut_fits h, Partitions.of_unlinked ?_⟩
  rw [ofSource_unlinked]
  exact lex_partitions source

end Tokens

end PhpStyle
