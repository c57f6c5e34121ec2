import PhpStyle.Proofs.BracketPairs
import PhpStyle.Proofs.Partition

/-!
# Balanced brackets

The lexer gives a closing square bracket the kind that fits the square bracket opened last, and
`bracketPairs` gives it the innermost open bracket of its kind. These are two stacks, and they agree
where the brackets are balanced: over a list of kinds whose bracket texts form a balanced word, the
lexer's stack comes back to what it was, and the pairs found are those of the word
(`Balanced.pairing`). So brackets with matching texts and balanced brackets between them are tied to
each other in every source (`Tokens.mem_pairs_of_partners`), and in a source that is balanced as a
whole every bracket has such a partner.
-/

namespace PhpStyle

/-- The texts of brackets, each with the one that closes it. -/
def bracketShapes : List (String × String) :=
  [("(", ")"), ("\x7b", "\x7d"), ("[", "]"), ("#[", "]")]

/-- Words of brackets in which each closes the last one that is open. -/
inductive Balanced : List String → Prop
  | nil : Balanced []
  | enclose {o c : String} {u v : List String} (shape : (o, c) ∈ bracketShapes)
      (inner : Balanced u) (rest : Balanced v) : Balanced (o :: (u ++ c :: v))

namespace Kind

theorem bracketText_of_not_isBracket {k : Kind} (h : ¬ k.isBracket = true) : k.bracketText = [] := by
  cases k <;> first | rfl | exact absurd rfl h

theorem isCloser_of_closer? {o c : Kind} (h : o.closer? = some c) :
    ¬ c.isOpener = true ∧ c.isCloser = true := by
  cases o <;> first | (cases h; decide) | cases h

/-- How brackets of a kind are written, as a text. -/
def bracketString (k : Kind) : String :=
  String.ofList k.bracketText

/-- The kinds of bracket. -/
def brackets : List Kind :=
  [.openParen, .closeParen, .openBrace, .closeBrace, .openSquare, .closeSquare, .openArray,
   .closeArray, .openAttribute, .closeAttribute]

theorem mem_brackets_of_isBracket {k : Kind} (h : k.isBracket = true) : k ∈ brackets := by
  cases k <;> first | decide | exact absurd h Bool.false_ne_true

theorem closer?_of_shape : ∀ o ∈ brackets, ∀ c ∈ brackets,
    (o.bracketString, c.bracketString) ∈ bracketShapes →
      o.closer? = some c ∨ o ∈ [openSquare, openArray, openAttribute] ∧ c.bracketText = [']'] := by
  decide +kernel

end Kind

namespace Lexer

/-- Every closing square bracket has the kind that fits the square bracket opened last. -/
inductive ClosesSquares : List Kind → List Kind → Prop
  | nil (squares : List Kind) : ClosesSquares squares []
  | cons {squares : List Kind} {k : Kind} {ks : List Kind}
      (head : k.bracketText = [']'] → k = closeSquareKind squares.head?)
      (tail : ClosesSquares (squaresAfter squares k) ks) : ClosesSquares squares (k :: ks)

theorem closesSquares_cons {squares ks : List Kind} {k : Kind} : ClosesSquares squares (k :: ks) ↔
    (k.bracketText = [']'] → k = closeSquareKind squares.head?) ∧
      ClosesSquares (squaresAfter squares k) ks := by
  constructor
  · intro h
    cases h with
    | cons head tail => exact ⟨head, tail⟩
  · rintro ⟨head, tail⟩
    exact .cons head tail

theorem closesSquares_append {squares ks ls : List Kind} : ClosesSquares squares (ks ++ ls) ↔
    ClosesSquares squares ks ∧ ClosesSquares (ks.foldl squaresAfter squares) ls := by
  induction ks generalizing squares with
  | nil => simp [ClosesSquares.nil]
  | cons k ks ih => simp [closesSquares_cons, ih, and_assoc]

theorem foldl_squaresAfter_of_not_isBracket {ks : List Kind} (h : ∀ k ∈ ks, ¬ k.isBracket = true)
    (squares : List Kind) : ks.foldl squaresAfter squares = squares := by
  induction ks generalizing squares with
  | nil => rfl
  | cons k ks ih =>
    obtain ⟨hk, hks⟩ := List.forall_mem_cons.1 h
    rw [List.foldl_cons, squaresAfter_of_not_isBracket hk, ih hks]

theorem PhpCut.closeSquareKind_eq {s : Lexer} {cs : List Char} {cut : Cut} (h : PhpCut s cs cut)
    (htext : cut.kind.bracketText = [']']) : cut.kind = closeSquareKind s.squares.head? := by
  have plain : ∀ {k : Kind}, k.isPlain = true → k.bracketText ≠ [']'] := by
    intro k hk
    rw [Kind.bracketText_of_not_isBracket (Kind.not_isBracket_of_isPlain hk)]
    exact nofun
  cases h with
  | closeSquare cs => rfl
  | openSquare cs =>
    rw [bracketText_squareKind] at htext
    cases htext
  | mark c k cs h =>
    simp only [marks, List.mem_cons, List.not_mem_nil, Prod.mk.injEq, or_false] at h
    rcases h with ⟨rfl, rfl⟩ | ⟨rfl, rfl⟩ | ⟨rfl, rfl⟩ | ⟨rfl, rfl⟩ | ⟨rfl, rfl⟩ | ⟨rfl, rfl⟩
    all_goals cases htext
  | number c cs => exact absurd htext (plain (cutNumber_isPlain _))
  | word c cs => exact absurd htext (plain (cutWord_isPlain _ _))
  | operator c cs => exact absurd htext (plain (cutOperator_isPlain _ _))
  | _ => cases htext

theorem closeSquareKind_cut (s : Lexer) {cs : List Char} (hne : cs ≠ [])
    (htext : (s.cut cs).kind.bracketText = [']']) :
    (s.cut cs).kind = closeSquareKind s.squares.head? := by
  obtain ⟨c, cs, rfl⟩ := List.exists_cons_of_ne_nil hne
  unfold cut at htext ⊢
  split at htext
  · unfold cutHtml at htext
    split at htext <;> cases htext
  · exact (s.cutPhp_form c cs).closeSquareKind_eq htext
  · rename_i lineStart hasText _
    have hb := cutDoc_not_bracket lineStart hasText (c :: cs)
    rw [Kind.bracketText_of_not_isBracket (by rw [hb]; exact Bool.false_ne_true)] at htext
    cases htext

theorem closesSquares_run (s : Lexer) (cs : List Char) :
    ClosesSquares s.squares ((s.run cs).map (·.1)) := by
  fun_induction run s cs with
  | case1 s => exact .nil s.squares
  | case2 s cs hne c ih => exact .cons (s.closeSquareKind_cut hne) ih

theorem squaresAfter_closer? {o c : Kind} (h : o.closer? = some c) (squares : List Kind) :
    squaresAfter (squaresAfter squares o) c = squares := by
  cases o <;> first | (cases h; rfl) | cases h

theorem closer?_of_closesSquares {o c : Kind} (ho : o.isBracket = true) (hc : c.isBracket = true)
    (hshape : (o.bracketString, c.bracketString) ∈ bracketShapes) {squares : List Kind}
    (hclose : c.bracketText = [']'] → c = closeSquareKind (squaresAfter squares o).head?) :
    o.closer? = some c := by
  rcases Kind.closer?_of_shape o (Kind.mem_brackets_of_isBracket ho) c
    (Kind.mem_brackets_of_isBracket hc) hshape with h | ⟨hsquare, htext⟩
  · exact h
  · rw [hclose htext]
    simp only [List.mem_cons, List.not_mem_nil, or_false] at hsquare
    rcases hsquare with rfl | rfl | rfl <;> rfl

end Lexer

/-- The texts of the brackets in a list of kinds. -/
def kindWord (ks : List Kind) : List String :=
  (ks.filter Kind.isBracket).map Kind.bracketString

theorem kindWord_append (ks ls : List Kind) : kindWord (ks ++ ls) = kindWord ks ++ kindWord ls := by
  simp [kindWord]

theorem kindWord_eq_nil_iff {ks : List Kind} : kindWord ks = [] ↔ ∀ k ∈ ks, ¬ k.isBracket = true := by
  simp [kindWord]

theorem exists_of_kindWord_eq_append {ks : List Kind} {u v : List String} (h : kindWord ks = u ++ v) :
    ∃ ls ms, ks = ls ++ ms ∧ kindWord ls = u ∧ kindWord ms = v := by
  obtain ⟨l, m, hlm, hl, hm⟩ := List.map_eq_append_iff.1 h
  obtain ⟨ls, ms, rfl, rfl, rfl⟩ := List.filter_eq_append_iff.1 hlm
  exact ⟨ls, ms, rfl, hl, hm⟩

theorem exists_of_kindWord_eq_cons {ks : List Kind} {o : String} {w : List String}
    (h : kindWord ks = o :: w) : ∃ ls k ms, ks = ls ++ k :: ms ∧ kindWord ls = [] ∧
      k.isBracket = true ∧ k.bracketString = o ∧ kindWord ms = w := by
  obtain ⟨k, m, hkm, hk, hm⟩ := List.map_eq_cons_iff.1 h
  obtain ⟨ls, ms, rfl, hls, hbracket, rfl⟩ := List.filter_eq_cons_iff.1 hkm
  exact ⟨ls, k, ms, rfl, kindWord_eq_nil_iff.2 hls, hbracket, hk, hm⟩

theorem exists_of_kindWord_eq_enclose {ks : List Kind} {o c : String} {u v : List String}
    (h : kindWord ks = o :: (u ++ c :: v)) : ∃ before k inner k' rest,
      ks = before ++ (k :: (inner ++ [k']) ++ rest) ∧ (∀ l ∈ before, ¬ l.isBracket = true) ∧
      (k.isBracket = true ∧ k.bracketString = o) ∧ kindWord inner = u ∧
      (k'.isBracket = true ∧ k'.bracketString = c) ∧ kindWord rest = v := by
  obtain ⟨before, k, tail, rfl, hbefore, hk, ho, htail⟩ := exists_of_kindWord_eq_cons h
  obtain ⟨inner, tail, rfl, hinner, htail⟩ := exists_of_kindWord_eq_append htail
  obtain ⟨gap, k', rest, rfl, hgap, hk', hc, hrest⟩ := exists_of_kindWord_eq_cons htail
  refine ⟨before, k, inner ++ gap, k', rest, by simp, kindWord_eq_nil_iff.1 hbefore, ⟨hk, ho⟩, ?_,
    ⟨hk', hc⟩, hrest⟩
  rw [kindWord_append, hinner, hgap, List.append_nil]

/-! ### The pairs of a balanced word -/

/-- `p` runs from one bracket of `ks` to another, in which `ks` starts at index `i`: their texts
match, and the brackets between them are balanced. -/
def Encloses (i : Nat) (ks : List Kind) (p : Nat × Nat) : Prop :=
  ∃ before o between c after, ks = before ++ o :: (between ++ c :: after) ∧
    p = (i + before.length, i + before.length + 1 + between.length) ∧
    o.isBracket = true ∧ c.isBracket = true ∧
    (o.bracketString, c.bracketString) ∈ bracketShapes ∧ Balanced (kindWord between)

namespace Encloses

variable {i : Nat} {ks : List Kind} {p : Nat × Nat}

theorem append_right (h : Encloses i ks p) (ls : List Kind) : Encloses i (ks ++ ls) p := by
  obtain ⟨before, o, between, c, after, rfl, hp, h⟩ := h
  exact ⟨before, o, between, c, after ++ ls, by simp, hp, h⟩

theorem append_left (ls : List Kind) (h : Encloses (i + ls.length) ks p) :
    Encloses i (ls ++ ks) p := by
  obtain ⟨before, o, between, c, after, rfl, rfl, h⟩ := h
  exact ⟨ls ++ before, o, between, c, after, by simp, by simp [Nat.add_assoc], h⟩

end Encloses

/-- `ps` are the pairs that `bracketPairs` finds in `ks`, whatever surrounds it; they cover all its
brackets. -/
structure Pairing (i : Nat) (ks : List Kind) (ps : List (Nat × Nat)) : Prop where
  pairs : ∀ stack rest,
    bracketPairs i stack (ks ++ rest) = ps ++ bracketPairs (i + ks.length) stack rest
  covers : ∀ j k, ks[j]? = some k → k.isBracket = true → ∃ p ∈ ps, i + j = p.1 ∨ i + j = p.2
  encloses : ∀ p ∈ ps, Encloses i ks p

namespace Pairing

variable {i : Nat} {ks ls : List Kind} {ps qs : List (Nat × Nat)}

theorem of_not_isBracket (h : ∀ k ∈ ks, ¬ k.isBracket = true) : Pairing i ks [] where
  pairs stack rest := by
    induction ks generalizing i with
    | nil => rfl
    | cons k ks ih =>
      obtain ⟨hk, hks⟩ := List.forall_mem_cons.1 h
      simp only [Kind.isBracket, Bool.or_eq_true, not_or] at hk
      rw [List.cons_append, bracketPairs, if_neg hk.1, if_neg hk.2, ih hks, List.length_cons,
        Nat.add_right_comm, Nat.add_assoc]
  covers j k hk hb := absurd hb (h k (List.mem_of_getElem? hk))
  encloses _ hp := absurd hp List.not_mem_nil

theorem append (h : Pairing i ks ps) (h' : Pairing (i + ks.length) ls qs) :
    Pairing i (ks ++ ls) (ps ++ qs) where
  pairs stack rest := by
    rw [List.append_assoc, h.pairs, h'.pairs, List.length_append, List.append_assoc, Nat.add_assoc]
  covers j k hk hb := by
    by_cases hj : j < ks.length
    · rw [List.getElem?_append_left hj] at hk
      obtain ⟨p, hp, hend⟩ := h.covers j k hk hb
      exact ⟨p, List.mem_append_left qs hp, hend⟩
    · have hle : ks.length ≤ j := Nat.le_of_not_lt hj
      rw [List.getElem?_append_right hle] at hk
      obtain ⟨p, hp, hend⟩ := h'.covers _ k hk hb
      exact ⟨p, List.mem_append_right ps hp, by omega⟩
  encloses p hp := by
    rcases List.mem_append.1 hp with hp | hp
    · exact (h.encloses p hp).append_right ls
    · exact (h'.encloses p hp).append_left ks

/-- A bracket, what it encloses, and the bracket that closes it. -/
theorem enclose {o c : Kind} (h : Pairing (i + 1) ks ps) (ho : o.isBracket = true)
    (hc : c.isBracket = true) (hcloser : o.closer? = some c)
    (hshape : (o.bracketString, c.bracketString) ∈ bracketShapes) (hks : Balanced (kindWord ks)) :
    Pairing i (o :: (ks ++ [c])) (ps ++ [(i, i + 1 + ks.length)]) where
  pairs stack rest := by
    have hopener : o.isOpener = true := by rw [Kind.isOpener, hcloser]; rfl
    obtain ⟨hnot, hc⟩ := Kind.isCloser_of_closer? hcloser
    have hdrop : ((i, o) :: stack).dropWhile (fun a => a.2.closer? != some c) = (i, o) :: stack :=
      List.dropWhile_cons_of_neg (by simp [hcloser])
    rw [List.cons_append, bracketPairs, if_pos hopener, List.append_assoc, h.pairs,
      List.singleton_append, bracketPairs, if_neg hnot, if_pos hc]
    have hlength : i + (o :: (ks ++ [c])).length = i + 1 + ks.length + 1 := by
      simp only [List.length_cons, List.length_append, List.length_nil]
      omega
    simp only [hdrop, hlength, List.append_assoc, List.singleton_append]
  covers j k hk hb := by
    cases j with
    | zero => exact ⟨_, List.mem_append_right ps List.mem_cons_self, .inl rfl⟩
    | succ j =>
      rw [List.getElem?_cons_succ] at hk
      by_cases hj : j < ks.length
      · rw [List.getElem?_append_left hj] at hk
        obtain ⟨p, hp, hend⟩ := h.covers j k hk hb
        exact ⟨p, List.mem_append_left _ hp, by omega⟩
      · have hlen := (List.getElem?_eq_some_iff.1 hk).1
        rw [List.length_append, List.length_singleton] at hlen
        exact ⟨_, List.mem_append_right ps List.mem_cons_self, .inr (by simp only; omega)⟩
  encloses p hp := by
    rcases List.mem_append.1 hp with hp | hp
    · exact ((h.encloses p hp).append_right [c]).append_left [o]
    · rw [List.mem_singleton.1 hp]
      exact ⟨[], o, ks, c, [], rfl, rfl, ho, hc, hshape, hks⟩

open Lexer in
theorem enclose_of_closesSquares {o c : Kind} (ho : o.isBracket = true) (hc : c.isBracket = true)
    (hshape : (o.bracketString, c.bracketString) ∈ bracketShapes) (hks : Balanced (kindWord ks))
    {squares : List Kind} (hsquares : ClosesSquares squares (o :: (ks ++ [c])))
    (hinner : ∀ {outer : List Kind}, ClosesSquares outer ks →
      ks.foldl squaresAfter outer = outer ∧ ∃ ps, Pairing (i + 1) ks ps) :
    (o :: (ks ++ [c])).foldl squaresAfter squares = squares ∧
      ∃ ps, Pairing i (o :: (ks ++ [c])) ps ∧ (i, i + 1 + ks.length) ∈ ps := by
  obtain ⟨hks', hclose⟩ := closesSquares_append.1 (closesSquares_cons.1 hsquares).2
  obtain ⟨hback, ps, hps⟩ := hinner hks'
  rw [hback] at hclose
  have hcloser := closer?_of_closesSquares ho hc hshape (closesSquares_cons.1 hclose).1
  refine ⟨?_, _, hps.enclose ho hc hcloser hshape hks, List.mem_append_right ps List.mem_cons_self⟩
  rw [List.foldl_cons, List.foldl_append, hback]
  exact squaresAfter_closer? hcloser squares

end Pairing

open Lexer in
/-- Over kinds whose brackets form a balanced word, the lexer's open square brackets come back to
what they were, and `bracketPairs` finds the pairs of the word. -/
theorem Balanced.pairing {w : List String} (hw : Balanced w) (ks : List Kind) (hks : kindWord ks = w)
    {squares : List Kind} (hsquares : ClosesSquares squares ks) (i : Nat) :
    ks.foldl squaresAfter squares = squares ∧ ∃ ps, Pairing i ks ps := by
  induction hw generalizing ks squares i with
  | nil =>
    rw [kindWord_eq_nil_iff] at hks
    exact ⟨foldl_squaresAfter_of_not_isBracket hks squares, [], .of_not_isBracket hks⟩
  | enclose hshape hu hv ihu ihv =>
    obtain ⟨before, o, inner, c, rest, rfl, hbefore, ⟨ho, rfl⟩, rfl, ⟨hc, rfl⟩, rfl⟩ :=
      exists_of_kindWord_eq_enclose hks
    have hskip := foldl_squaresAfter_of_not_isBracket hbefore squares
    rw [closesSquares_append, closesSquares_append, hskip] at hsquares
    obtain ⟨-, henclosed, hrest⟩ := hsquares
    obtain ⟨hround, ps, hps, -⟩ := Pairing.enclose_of_closesSquares (i := i + before.length) ho hc
      hshape hu henclosed fun h => ihu inner rfl h _
    rw [hround] at hrest
    obtain ⟨hback, qs, hqs⟩ := ihv rest rfl hrest (i + before.length + (o :: (inner ++ [c])).length)
    refine ⟨?_, _, (Pairing.of_not_isBracket hbefore).append (hps.append hqs)⟩
    rw [List.foldl_append, List.foldl_append, hskip, hround, hback]

namespace Tokens

/-- The texts of the brackets among tokens. -/
def bracketWord (l : List Token) : List String :=
  (l.filter (·.kind.isBracket)).map (·.content)

/-- At `o` and `c` stand brackets with matching texts, and those between them are balanced. -/
def Partners (ts : Tokens) (o c : Nat) : Prop :=
  ∃ before s between t after, ts.items.toList = before ++ s :: (between ++ [t]) ++ after ∧
    o = before.length ∧ c = before.length + 1 + between.length ∧
    s.kind.isBracket = true ∧ t.kind.isBracket = true ∧
    (s.content, t.content) ∈ bracketShapes ∧ Balanced (bracketWord between)

/-- How tokens are tied into bracket pairs. -/
structure Bracketed (ts : Tokens) : Prop where
  isSome_iff : ∀ i,
    (ts.links i).bracketOpener.isSome = true ↔ (ts.links i).bracketCloser.isSome = true
  lt : ∀ i o c, ts.CarriesPair i o c → o < c
  kinds : ∀ i o c, ts.CarriesPair i o c →
    ∃ k k', ts.kind? o = some k ∧ ts.kind? c = some k' ∧ k.closer? = some k'
  /-- Both ends of a pair carry it, and no other token does. -/
  carriers : ∀ i o c, ts.CarriesPair i o c → ∀ j, ts.CarriesPair j o c ↔ j = o ∨ j = c
  /-- Two pairs lie one after the other or one inside the other. -/
  nested : ∀ i o c i' o' c', ts.CarriesPair i o c → ts.CarriesPair i' o' c' → (o, c) ≠ (o', c') →
    (c < o' ∨ c' < o) ∨ (o < o' ∧ c' < c ∨ o' < o ∧ c < c')
  /-- Partners are tied to each other. -/
  partners : ∀ o c, ts.Partners o c → ts.CarriesPair o o c ∧ ts.CarriesPair c o c
  /-- If the brackets are balanced, each is tied to its partner. -/
  balanced : Balanced (bracketWord ts.items.toList) → ∀ i t, ts.get? i = some t →
    t.kind.isBracket = true → ∃ o c, (i = o ∨ i = c) ∧ ts.CarriesPair i o c ∧ ts.Partners o c

theorem content_of_isBracket {source : String} {t : Token} (ht : t ∈ (ofSource source).items)
    (hb : t.kind.isBracket = true) : t.content = t.kind.bracketString := by
  have hmem := mem_unlinked ht
  rw [ofSource_unlinked] at hmem
  obtain ⟨i, hi⟩ := Array.getElem?_of_mem hmem
  obtain ⟨l, hl, hkind, hcontent, -⟩ := exists_lexeme hi
  have htext := Lexer.forall_mem_run (Q := fun k cs => k.isBracket = true → cs = k.bracketText)
    (fun s cs hne hb => s.bracketText_cut hne hb) _ _ l hl (by rwa [← hkind])
  rw [Token.unlinked_kind] at hkind
  rw [Kind.bracketString, hkind, ← htext, ← hcontent, String.ofList_toList]
  rfl

theorem bracketWord_eq {source : String} {l : List Token}
    (hl : ∀ t ∈ l, t ∈ (ofSource source).items) :
    bracketWord l = kindWord (l.map (·.kind)) := by
  rw [bracketWord, kindWord, List.filter_map, List.map_map]
  refine List.map_congr_left fun t ht => ?_
  obtain ⟨ht, hb⟩ := List.mem_filter.1 ht
  exact content_of_isBracket (hl t ht) hb

theorem closesSquares_ofSource (source : String) : Lexer.ClosesSquares [] (ofSource source).kinds := by
  rw [kinds_ofSource, kinds, lex, List.toList_toArray, Token.kind_place]
  exact Lexer.closesSquares_run {} source.toList

theorem partners_of_encloses {source : String} {p : Nat × Nat}
    (h : Encloses 0 (ofSource source).kinds p) : (ofSource source).Partners p.1 p.2 := by
  obtain ⟨before, o, between, c, after, hkinds, rfl, ho, hc, hshape, hbetween⟩ := h
  obtain ⟨before, l, hitems, rfl, hl⟩ := List.map_eq_append_iff.1 hkinds
  obtain ⟨s, m, rfl, rfl, hm⟩ := List.map_eq_cons_iff.1 hl
  obtain ⟨between, n, rfl, rfl, hn⟩ := List.map_eq_append_iff.1 hm
  obtain ⟨t, after, rfl, rfl, rfl⟩ := List.map_eq_cons_iff.1 hn
  have hmem : ∀ u ∈ before ++ s :: (between ++ t :: after), u ∈ (ofSource source).items := by
    intro u hu
    rwa [← Array.mem_toList_iff, hitems]
  refine ⟨before, s, between, t, after, by simp [hitems], by simp, by simp, ho, hc, ?_, ?_⟩
  · rwa [content_of_isBracket (hmem s (by simp)) ho, content_of_isBracket (hmem t (by simp)) hc]
  · rwa [bracketWord_eq fun u hu => hmem u (by simp [hu])]

/-- Partners form a pair, whatever surrounds them. -/
theorem mem_pairs_of_partners {source : String} {o c : Nat} (h : (ofSource source).Partners o c) :
    (o, c) ∈ (ofSource source).pairs := by
  obtain ⟨before, s, between, t, after, hitems, rfl, rfl, hs, ht, hshape, hbetween⟩ := h
  have hmem : ∀ u ∈ before ++ s :: (between ++ [t]) ++ after, u ∈ (ofSource source).items := by
    intro u hu
    rwa [← Array.mem_toList_iff, hitems]
  rw [bracketWord_eq fun u hu => hmem u (by simp [hu])] at hbetween
  rw [content_of_isBracket (hmem s (by simp)) hs, content_of_isBracket (hmem t (by simp)) ht] at hshape
  have hsquares := closesSquares_ofSource source
  have hkinds : (ofSource source).kinds = before.map (·.kind) ++
      (s.kind :: (between.map (·.kind) ++ [t.kind]) ++ after.map (·.kind)) := by
    simp [kinds, hitems]
  rw [hkinds, Lexer.closesSquares_append, Lexer.closesSquares_append] at hsquares
  obtain ⟨-, ps, hps, hp⟩ := Pairing.enclose_of_closesSquares (i := before.length) hs ht hshape
    hbetween hsquares.2.1 fun h => hbetween.pairing _ rfl h _
  obtain ⟨qs, stack, hqs⟩ := exists_bracketPairs_append 0 [] (before.map (·.kind))
    (s.kind :: (between.map (·.kind) ++ [t.kind]) ++ after.map (·.kind))
  rw [List.length_map, Nat.zero_add, hps.pairs] at hqs
  rw [pairs, hkinds, hqs]
  rw [List.length_map] at hp
  exact List.mem_append_right qs (List.mem_append_left _ hp)

theorem carriesPair_of_balanced {source : String}
    (h : Balanced (bracketWord (ofSource source).items.toList)) {i : Nat} {t : Token}
    (ht : (ofSource source).get? i = some t) (hb : t.kind.isBracket = true) :
    ∃ o c, (i = o ∨ i = c) ∧ (ofSource source).CarriesPair i o c ∧ (ofSource source).Partners o c := by
  have hword : bracketWord (ofSource source).items.toList = kindWord (ofSource source).kinds :=
    bracketWord_eq fun u hu => Array.mem_toList_iff.1 hu
  rw [hword] at h
  obtain ⟨-, ps, hps⟩ := h.pairing (ofSource source).kinds rfl (closesSquares_ofSource source) 0
  have hpairs : (ofSource source).pairs = ps := by
    have := hps.pairs [] []
    rwa [List.append_nil, bracketPairs, List.append_nil] at this
  have hkind : (ofSource source).kinds[i]? = some t.kind := by rw [getElem?_kinds, kind?, ht]; rfl
  obtain ⟨p, hp, hend⟩ := hps.covers i t.kind hkind hb
  rw [Nat.zero_add] at hend
  refine ⟨p.1, p.2, hend, ?_, partners_of_encloses (hps.encloses p hp)⟩
  exact carriesPair_of_mem (by rwa [hpairs]) hend

/-- The tokens of every source are tied into pairs that do not cross, and into those of the word
that its brackets form if it is balanced. -/
theorem ofSource_bracketed (source : String) : (ofSource source).Bracketed where
  isSome_iff i := by
    rcases bracketLinks_cases source i with ⟨p, -, -, h⟩ | h
    · simp only [CarriesPair, bracketLinks, Links.brackets, Prod.mk.injEq] at h
      rw [h.1, h.2]
      rfl
    · simp only [bracketLinks, Links.brackets, Prod.mk.injEq] at h
      rw [h.1, h.2]
  lt i o c h := ((ofSource source).pairs_spec.isPair _ (carriesPair_iff.1 h).1).lt
  kinds i o c h := by
    obtain ⟨k, k', ho, hc, hcloser⟩ :=
      ((ofSource source).pairs_spec.isPair _ (carriesPair_iff.1 h).1).kinds
    rw [getElem?_kinds] at ho hc
    exact ⟨k, k', ho, hc, hcloser⟩
  carriers i o c h j := by
    rw [carriesPair_iff]
    exact and_iff_right (carriesPair_iff.1 h).1
  nested i o c i' o' c' h h' hne := by
    have hlt := ((ofSource source).pairs_spec.isPair _ (carriesPair_iff.1 h).1).lt
    have hlt' := ((ofSource source).pairs_spec.isPair _ (carriesPair_iff.1 h').1).lt
    have := (ofSource source).pairs_spec.closesBefore_or (carriesPair_iff.1 h).1
      (carriesPair_iff.1 h').1 hne
    simp only [ClosesBefore] at this hlt hlt'
    omega
  partners o c h :=
    ⟨carriesPair_of_mem (mem_pairs_of_partners h) (.inl rfl),
      carriesPair_of_mem (mem_pairs_of_partners h) (.inr rfl)⟩
  balanced h i t ht hb := carriesPair_of_balanced h ht hb

/-- The square brackets around a call are partners. -/
theorem bracketed_index_of_call :
    (ofSource "<?php $a[f()];").CarriesPair 7 3 7 ∧ (ofSource "<?php $a[f()];").Partners 3 7 := by
  have hword : bracketWord (ofSource "<?php $a[f()];").items.toList = ["[", "(", ")", "]"] := by
    decide +kernel
  have hbalanced : Balanced ["[", "(", ")", "]"] :=
    .enclose (u := ["(", ")"]) (by decide) (.enclose (u := []) (by decide) .nil .nil) .nil
  have hbracket : ((ofSource "<?php $a[f()];").get? 7).any (·.kind.isBracket) = true := by
    decide +kernel
  have hcarries : (ofSource "<?php $a[f()];").bracketLinks 7 = (some 3, some 7) := by decide +kernel
  obtain ⟨t, ht, hb⟩ := (Option.any_eq_true _ _).1 hbracket
  obtain ⟨o, c, -, h, hpartners⟩ := (ofSource_bracketed _).balanced (hword ▸ hbalanced) 7 t ht hb
  obtain ⟨rfl, rfl⟩ : 3 = o ∧ 7 = c := by simpa using hcarries.symm.trans h
  exact ⟨hcarries, hpartners⟩

end Tokens

end PhpStyle
