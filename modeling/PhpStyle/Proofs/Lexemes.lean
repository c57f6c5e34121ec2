import PhpStyle.Token.Lexer

/-!
# What the lexemes of each kind look like

A run of the lexer is one cut after the other, so what holds of every cut of every text holds of
every lexeme (`Lexer.forall_mem_run`), and cuts that fit their text lose nothing of it
(`Lexer.flatten_run`). Of single cuts this module shows that blanks hold a line feed at most at
their end, and that each kind of bracket is written in one way only.
-/

namespace PhpStyle

namespace Kind

def isBracket (k : Kind) : Bool :=
  k.isOpener || k.isCloser

/-- How a bracket is written; nothing for other kinds. -/
def bracketText : Kind → List Char
  | .openParen => ['(']
  | .closeParen => [')']
  | .openBrace => ['\x7b']
  | .closeBrace => ['\x7d']
  | .openSquare | .openArray => ['[']
  | .openAttribute => ['#', '[']
  | .closeSquare | .closeArray | .closeAttribute => [']']
  | _ => []

/-- Neither a blank nor a comment nor a bracket. -/
def isPlain (k : Kind) : Bool :=
  k.isEffective && !k.isBracket

theorem not_isBlank_of_isPlain {k : Kind} (h : k.isPlain = true) : ¬ k.isBlank = true := by
  cases k <;> revert h <;> decide

theorem not_isBracket_of_isPlain {k : Kind} (h : k.isPlain = true) : ¬ k.isBracket = true := by
  simp only [isPlain, Bool.and_eq_true, Bool.not_eq_true'] at h
  simp [h.2]

end Kind

namespace Lexer

open Text

theorem keywords_isPlain : ∀ p ∈ keywords, p.2.isPlain = true := by
  decide

theorem operators_isPlain : ∀ p ∈ operators, p.2.isPlain = true := by
  decide

theorem wordKind_isPlain (last : Option Kind) (word rest : List Char) :
    (wordKind last word rest).isPlain = true := by
  unfold wordKind
  simp only
  split
  · rfl
  split
  · split <;> rfl
  · cases h : keywords.lookup (String.ofList (lower word)) with
    | none => rfl
    | some k =>
      obtain ⟨l₁, l₂, hl, -⟩ := List.lookup_eq_some_iff.1 h
      have hmem : (String.ofList (lower word), k) ∈ keywords := by rw [hl]; simp
      exact keywords_isPlain _ hmem

theorem cutWord_isPlain (last : Option Kind) (cs : List Char) :
    (cutWord last cs).kind.isPlain = true := by
  unfold cutWord
  simp only
  split
  · rfl
  split
  · rfl
  · exact wordKind_isPlain _ _ _

theorem signKind_isPlain (last : Option Kind) (c : Char) (rest : List Char) :
    (signKind last c rest).isPlain = true := by
  unfold signKind
  repeat' split
  all_goals rfl

theorem cutOperator_isPlain (last : Option Kind) (cs : List Char) :
    (cutOperator last cs).kind.isPlain = true := by
  unfold cutOperator
  split
  · rename_i h
    exact operators_isPlain _ (List.mem_of_find?_eq_some h)
  · split
    · exact signKind_isPlain _ _ _
    · rfl

theorem cutNumber_isPlain (cs : List Char) : (cutNumber cs).kind.isPlain = true := by
  unfold cutNumber cutDecimal
  simp only
  repeat' split
  all_goals rfl

theorem newline_not_mem_take_blankLength (cs : List Char) :
    '\n' ∉ (cs.take (blankLength cs)).dropLast := by
  induction cs with
  | nil => simp
  | cons c cs ih =>
    rw [blankLength]
    split
    · simp
    · rename_i hc
      split
      · rw [List.take_succ_cons]
        by_cases hnil : cs.take (blankLength cs) = []
        · simp [hnil]
        · rw [List.dropLast_cons_of_ne_nil hnil]
          exact fun h => (List.mem_cons.1 h).elim (fun h => hc h.symm) ih
      · simp

theorem newline_not_mem_cutDoc {lineStart hasText : Bool} {cs : List Char}
    (h : (cutDoc lineStart hasText cs).kind.isBlank = true) :
    '\n' ∉ (cs.take (cutDoc lineStart hasText cs).length).dropLast := by
  unfold cutDoc at h ⊢
  split
  case h_1 | h_6 => cases h
  case h_5 c cs _ _ _ _ =>
    simp only at h ⊢
    split
    · rw [← List.prefix_iff_eq_take.1 (List.takeWhile_prefix _)]
      intro hmem
      have := List.all_eq_true.1 List.all_takeWhile _ ((List.dropLast_sublist _).subset hmem)
      simp at this
    · rename_i hb
      rw [if_neg hb] at h
      repeat' split at h
      all_goals cases h
  all_goals simp

theorem PhpCut.newline_not_mem {s : Lexer} {cs : List Char} {cut : Cut} (h : PhpCut s cs cut)
    (hb : cut.kind.isBlank = true) : '\n' ∉ (cs.take cut.length).dropLast := by
  cases h with
  | blank c cs => exact newline_not_mem_take_blankLength _
  | number c cs => exact absurd hb (Kind.not_isBlank_of_isPlain (cutNumber_isPlain _))
  | word c cs => exact absurd hb (Kind.not_isBlank_of_isPlain (cutWord_isPlain _ _))
  | operator c cs => exact absurd hb (Kind.not_isBlank_of_isPlain (cutOperator_isPlain _ _))
  | mark c k cs => simp
  | openSquare | closeSquare => simp
  | _ => cases hb

theorem newline_not_mem_cut (s : Lexer) {cs : List Char} (hne : cs ≠ [])
    (hb : (s.cut cs).kind.isBlank = true) : '\n' ∉ (cs.take (s.cut cs).length).dropLast := by
  obtain ⟨c, cs, rfl⟩ := List.exists_cons_of_ne_nil hne
  unfold cut at hb ⊢
  split at hb
  · unfold cutHtml at hb
    split at hb <;> cases hb
  · exact (s.cutPhp_form c cs).newline_not_mem hb
  · exact newline_not_mem_cutDoc hb

theorem squareKind_eq (last : Option Kind) : squareKind last = .openSquare ∨ squareKind last = .openArray := by
  unfold squareKind
  split <;> simp

theorem bracketText_squareKind (last : Option Kind) : (squareKind last).bracketText = ['['] := by
  rcases squareKind_eq last with h | h <;> rw [h] <;> rfl

theorem bracketText_closeSquareKind (k : Option Kind) : (closeSquareKind k).bracketText = [']'] := by
  unfold closeSquareKind
  split <;> rfl

theorem PhpCut.bracketText {s : Lexer} {cs : List Char} {cut : Cut} (h : PhpCut s cs cut)
    (hb : cut.kind.isBracket = true) : cs.take cut.length = cut.kind.bracketText := by
  cases h with
  | openAttribute => rfl
  | openSquare cs => exact (bracketText_squareKind _).symm
  | closeSquare cs => exact (bracketText_closeSquareKind _).symm
  | mark c k cs h =>
    simp only [marks, List.mem_cons, List.not_mem_nil, Prod.mk.injEq, or_false] at h
    rcases h with ⟨rfl, rfl⟩ | ⟨rfl, rfl⟩ | ⟨rfl, rfl⟩ | ⟨rfl, rfl⟩ | ⟨rfl, rfl⟩ | ⟨rfl, rfl⟩
    all_goals first | rfl | cases hb
  | number c cs => exact absurd hb (Kind.not_isBracket_of_isPlain (cutNumber_isPlain _))
  | word c cs => exact absurd hb (Kind.not_isBracket_of_isPlain (cutWord_isPlain _ _))
  | operator c cs => exact absurd hb (Kind.not_isBracket_of_isPlain (cutOperator_isPlain _ _))
  | _ => cases hb

theorem cutDoc_not_bracket (lineStart hasText : Bool) (cs : List Char) :
    (cutDoc lineStart hasText cs).kind.isBracket = false := by
  unfold cutDoc
  split
  case h_5 =>
    repeat' split
    all_goals rfl
  all_goals rfl

/-- Each kind of bracket is written in one way. -/
theorem bracketText_cut (s : Lexer) {cs : List Char} (hne : cs ≠ [])
    (hb : (s.cut cs).kind.isBracket = true) :
    cs.take (s.cut cs).length = (s.cut cs).kind.bracketText := by
  obtain ⟨c, cs, rfl⟩ := List.exists_cons_of_ne_nil hne
  unfold cut at hb ⊢
  split at hb
  · unfold cutHtml at hb
    split at hb <;> cases hb
  · exact (s.cutPhp_form c cs).bracketText hb
  · rw [cutDoc_not_bracket] at hb
    cases hb

theorem squaresAfter_of_not_isBracket {k : Kind} (h : ¬ k.isBracket = true) (squares : List Kind) :
    squaresAfter squares k = squares := by
  cases k <;> first | rfl | exact absurd rfl h

/-- What holds of every cut holds of every lexeme. -/
theorem forall_mem_run {Q : Kind → List Char → Prop}
    (h : ∀ (s : Lexer) (cs : List Char), cs ≠ [] → Q (s.cut cs).kind (cs.take (s.cut cs).length))
    (s : Lexer) (cs : List Char) : ∀ l ∈ s.run cs, Q l.1 l.2 := by
  fun_induction run s cs with
  | case1 => simp
  | case2 s cs hne c ih =>
    intro l hl
    rcases List.mem_cons.1 hl with rfl | hl
    · exact h s cs hne
    · exact ih l hl

theorem flatten_run (s : Lexer) (cs : List Char) : ((s.run cs).map (·.2)).flatten = cs := by
  fun_induction run s cs with
  | case1 => rfl
  | case2 s cs hne c ih => rw [List.map_cons, List.flatten_cons, ih, List.take_append_drop]

theorem ne_nil_of_mem_run {s : Lexer} {cs : List Char} {l : Kind × List Char} (h : l ∈ s.run cs) :
    l.2 ≠ [] := by
  refine forall_mem_run (Q := fun _ t => t ≠ []) (fun s cs hne hnil => ?_) s cs l h
  have hlen := congrArg List.length hnil
  have := (s.cut_fits hne).pos
  have := List.length_pos_iff.2 hne
  simp only [List.length_take, List.length_nil] at hlen
  omega

end Lexer

end PhpStyle
