import PhpStyle.DocType.Parser

/-!
# Texts with nested brackets

`Nested top cs`: the brackets of `cs` close in order, there are no quotes, and every character
outside of brackets satisfies `top`. Each scan of the type reader passes over such a text as over a
single character: it comes out at the bracket depth at which it went in, and has met no separator
(`splitTop_append`), no closer of an outer bracket (`closeIndex?_append`) and no blank that ends a
type (`typeLength_append`).
-/

namespace PhpStyle.DocType

open Text

/-- Neither a bracket nor a quote. -/
def isInert (c : Char) : Bool :=
  !opens c && !closes c && !isQuote c

inductive Nested : (Char → Bool) → List Char → Prop
  | nil {top : Char → Bool} : Nested top []
  | char {top : Char → Bool} {c : Char} {cs : List Char} (inert : isInert c = true)
      (htop : top c = true) (tail : Nested top cs) : Nested top (c :: cs)
  | bracket {top : Char → Bool} {o c : Char} {inner cs : List Char} (ho : opens o = true)
      (hc : closes c = true) (hinner : Nested (fun _ => true) inner) (tail : Nested top cs) :
      Nested top (o :: (inner ++ c :: cs))

theorem isInert_iff {c : Char} :
    isInert c = true ↔ opens c = false ∧ closes c = false ∧ isQuote c = false := by
  simp [isInert, and_assoc]

theorem of_opens {c : Char} (h : opens c = true) : closes c = false ∧ isQuote c = false := by
  simp only [opens, Bool.or_eq_true, beq_iff_eq] at h
  rcases h with ((rfl | rfl) | rfl) | rfl <;> decide

theorem of_closes {c : Char} (h : closes c = true) : opens c = false ∧ isQuote c = false := by
  simp only [closes, Bool.or_eq_true, beq_iff_eq] at h
  rcases h with ((rfl | rfl) | rfl) | rfl <;> decide

namespace Nested

variable {top : Char → Bool} {cs : List Char}

theorem append (h : Nested top cs) {ds : List Char} (hds : Nested top ds) : Nested top (cs ++ ds) := by
  induction h with
  | nil => exact hds
  | char inert htop _ ih => exact .char inert htop (ih hds)
  | bracket ho hc hinner _ _ ih =>
    rw [List.cons_append, List.append_assoc, List.cons_append]
    exact .bracket ho hc hinner (ih hds)

theorem mono (h : Nested top cs) {top' : Char → Bool} (htop : ∀ c, top c = true → top' c = true) :
    Nested top' cs := by
  induction h with
  | nil => exact .nil
  | char inert hc _ ih => exact .char inert (htop _ hc) (ih htop)
  | bracket ho hc hinner _ _ ih => exact .bracket ho hc hinner (ih htop)

theorem of_forall (h : ∀ c ∈ cs, isInert c = true ∧ top c = true) : Nested top cs := by
  induction cs with
  | nil => exact .nil
  | cons c cs ih =>
    obtain ⟨hc, hcs⟩ := List.forall_mem_cons.1 h
    exact .char hc.1 hc.2 (ih hcs)

theorem enclosed (h : Nested top cs) {o c : Char} (ho : opens o = true) (hc : closes c = true)
    (top' : Char → Bool) : Nested top' (o :: (cs ++ [c])) :=
  .bracket ho hc (h.mono fun _ _ => rfl) .nil

/-- The last character closes a bracket or stands outside of all. -/
theorem getLast (h : Nested top cs) {c : Char} (hlast : cs.getLast? = some c) :
    closes c = true ∨ top c = true := by
  have hcons : ∀ (d : Char) (ds : List Char), (d :: ds).getLast? = some c →
      ds = [] ∧ d = c ∨ ds.getLast? = some c := by
    intro d ds hds
    cases ds with
    | nil => exact .inl ⟨rfl, Option.some.inj hds⟩
    | cons e es => exact .inr (by rwa [List.getLast?_cons_cons] at hds)
  induction h with
  | nil => cases hlast
  | @char top d ds inert htop _ ih =>
    rcases hcons d ds hlast with ⟨-, rfl⟩ | hlast
    · exact .inr htop
    · exact ih hlast
  | @bracket top o d inner ds ho hd _ _ _ ih =>
    rw [← List.cons_append, List.getLast?_append, Option.or_of_isSome (by simp)] at hlast
    rcases hcons d ds hlast with ⟨-, rfl⟩ | hlast
    · exact .inl hd
    · exact ih hlast

end Nested

theorem foldr_prepend (cs p : List Char) (ps : List (List Char)) :
    cs.foldr prepend (p :: ps) = (cs ++ p) :: ps := by
  induction cs with
  | nil => rfl
  | cons c cs ih => rw [List.foldr_cons, ih]; rfl

theorem splitTop_append {top : Char → Bool} {cs : List Char} (h : Nested top cs) {sep : Char}
    {depth : Int} (hdepth : 0 ≤ depth) (hsep : depth = 0 → top sep = false) (rest : List Char) :
    splitTop sep depth none (cs ++ rest) = cs.foldr prepend (splitTop sep depth none rest) := by
  induction h generalizing depth rest with
  | nil => rfl
  | @char top c cs inert htop _ ih =>
    obtain ⟨hopens, hcloses, hquote⟩ := isInert_iff.1 inert
    have hc : (decide (c = sep) && decide (depth = 0)) = false := by
      by_cases h0 : depth = 0
      · have hne : c ≠ sep := by
          rintro rfl
          rw [hsep h0] at htop
          cases htop
        simp [hne]
      · simp [h0]
    rw [List.cons_append, splitTop]
    simp only [hopens, hcloses, hquote, hc, Bool.false_eq_true, if_false]
    rw [ih hdepth hsep rest, List.foldr_cons]
  | @bracket top o c inner cs ho hc _ _ ihinner ih =>
    obtain ⟨-, hquote⟩ := of_opens ho
    obtain ⟨hopens, hquote'⟩ := of_closes hc
    rw [List.cons_append, List.append_assoc, List.cons_append, splitTop]
    simp only [ho, hquote, Bool.false_eq_true, if_false, if_true]
    rw [ihinner (by omega) (by omega), splitTop]
    simp only [hc, hopens, hquote', Bool.false_eq_true, if_false, if_true]
    rw [Int.add_sub_cancel, ih hdepth hsep rest]
    simp only [List.foldr_cons, List.foldr_append]

/-- Pieces that hold no separator outside of brackets come apart where they were joined. -/
theorem splitTop_pieces {sep : Char} (hsep : isInert sep = true) {p : List Char}
    {ps : List (List Char)} (h : ∀ q ∈ p :: ps, ∃ top, Nested top q ∧ top sep = false) :
    splitTop sep 0 none (p ++ ps.flatMap (sep :: ·)) = p :: ps := by
  induction ps generalizing p with
  | nil =>
    obtain ⟨top, hp, htop⟩ := h p List.mem_cons_self
    rw [List.flatMap_nil, splitTop_append hp (Int.le_refl 0) (fun _ => htop), splitTop, foldr_prepend,
      List.append_nil]
  | cons q qs ih =>
    obtain ⟨⟨top, hp, htop⟩, hqs⟩ := List.forall_mem_cons.1 h
    obtain ⟨hopens, hcloses, hquote⟩ := isInert_iff.1 hsep
    rw [splitTop_append hp (Int.le_refl 0) (fun _ => htop), List.flatMap_cons, List.cons_append, splitTop]
    simp only [hopens, hcloses, hquote, Bool.false_eq_true, if_false, decide_true, Bool.and_self, if_true]
    rw [ih hqs, foldr_prepend, List.append_nil]

theorem balanced_append {top : Char → Bool} {cs : List Char} (h : Nested top cs) (depth : Nat)
    (rest : List Char) : balanced depth (cs ++ rest) = balanced depth rest := by
  induction h generalizing depth rest with
  | nil => rfl
  | char inert _ _ ih =>
    obtain ⟨hopens, hcloses, -⟩ := isInert_iff.1 inert
    rw [List.cons_append, balanced]
    simp only [hopens, hcloses, Bool.false_eq_true, if_false]
    exact ih depth rest
  | bracket ho hc _ _ ihinner ih =>
    obtain ⟨hopens, -⟩ := of_closes hc
    rw [List.cons_append, List.append_assoc, List.cons_append, balanced, if_pos ho, ihinner, balanced]
    simp only [hopens, hc, Bool.false_eq_true, if_false, if_true, Nat.zero_lt_succ, decide_true,
      Bool.true_and, Nat.add_sub_cancel]
    exact ih depth rest

theorem balanced_of_nested {top : Char → Bool} {cs : List Char} (h : Nested top cs) :
    balanced 0 cs = true := by
  have := balanced_append h 0 []
  rwa [List.append_nil] at this

theorem closeIndex?_append {top : Char → Bool} {cs : List Char} (h : Nested top cs) {depth : Nat}
    (hdepth : 0 < depth) (rest : List Char) :
    closeIndex? depth (cs ++ rest) = (closeIndex? depth rest).map (· + cs.length) := by
  induction h generalizing depth rest with
  | nil => simp
  | char inert _ _ ih =>
    obtain ⟨hopens, hcloses, -⟩ := isInert_iff.1 inert
    rw [List.cons_append, closeIndex?]
    simp only [hopens, hcloses, Bool.false_eq_true, if_false]
    rw [ih hdepth rest, Option.map_map]
    rfl
  | @bracket top o c inner cs ho hc _ _ ihinner ih =>
    obtain ⟨hopens, -⟩ := of_closes hc
    rw [List.cons_append, List.append_assoc, List.cons_append, closeIndex?, if_pos ho,
      ihinner (Nat.succ_pos depth), closeIndex?]
    simp only [hopens, hc, Bool.false_eq_true, if_false, if_true]
    rw [if_neg (by omega), Nat.succ_sub_one, ih hdepth rest, Option.map_map, Option.map_map,
      Option.map_map]
    refine congrArg (Option.map · _) (funext fun k => ?_)
    simp only [Function.comp_apply, List.length_cons, List.length_append]
    omega

theorem encloses_of_nested {top : Char → Bool} {cs : List Char} (h : Nested top cs) {o c : Char}
    (ho : opens o = true) (hc : closes c = true) : encloses (o :: (cs ++ [c])) = true := by
  obtain ⟨hopens, -⟩ := of_closes hc
  have hclose : closeIndex? 1 [c] = some 0 := by
    simp [closeIndex?, hopens, hc]
  rw [encloses, closeIndex?, if_pos ho, closeIndex?_append h (Nat.succ_pos 0), hclose]
  simp

/-- A text without blanks outside of brackets is passed over as a whole. -/
theorem typeLength_append {top : Char → Bool} {cs : List Char} (h : Nested top cs) {depth : Int}
    (hdepth : 0 ≤ depth) (hblank : depth = 0 → ∀ c, top c = true → isBlank c = false)
    (before rest : List Char) :
    typeLength depth none before (cs ++ rest) =
      ((typeLength depth none (cs.reverse ++ before) rest).1 + cs.length,
        (typeLength depth none (cs.reverse ++ before) rest).2) := by
  induction h generalizing depth before rest with
  | nil => simp
  | @char top c cs inert htop _ ih =>
    obtain ⟨hopens, hcloses, hquote⟩ := isInert_iff.1 inert
    have hc : (isBlank c && decide (depth = 0)) = false := by
      by_cases h0 : depth = 0
      · simp [hblank h0 c htop]
      · simp [h0]
    rw [List.cons_append, typeLength]
    simp only [hopens, hcloses, hquote, hc, Bool.false_eq_true, if_false]
    rw [ih hdepth hblank]
    simp [Nat.add_assoc]
  | @bracket top o c inner cs ho hc _ _ ihinner ih =>
    obtain ⟨-, hquote⟩ := of_opens ho
    obtain ⟨hopens, hquote'⟩ := of_closes hc
    have hpos : ¬ depth + 1 ≤ 0 := by omega
    rw [List.cons_append, List.append_assoc, List.cons_append, typeLength]
    simp only [ho, hquote, Bool.false_eq_true, if_false, if_true]
    rw [ihinner (by omega) (by omega), typeLength]
    simp only [hc, hopens, hquote', hpos, Bool.false_eq_true, if_false, if_true]
    rw [Int.add_sub_cancel, ih hdepth hblank]
    simp only [List.reverse_cons, List.reverse_append, List.append_assoc,
      List.cons_append, List.nil_append, List.length_cons, List.length_append, Prod.mk.injEq, and_true]
    omega

end PhpStyle.DocType
