import Mathlib.Data.List.TakeWhile
import PhpStyle.Token.Lexer

/-!
# Where lexemes end

Names and words end where no name goes on (`EndsName`), and numbers too where a text halts
(`Halts`), whatever follows there: they are what they would be at the end of the text. An operator
stays if no longer one comes about (`cutOperator_congr`).
-/

namespace PhpStyle

open Text

namespace Text

/-- Statements about the characters of a text are decided by going through it, not through all
characters there are. -/
instance (priority := high) decidableForallMem (p : Char → Prop) [DecidablePred p] (cs : List Char) :
    Decidable (∀ c ∈ cs, p c) :=
  List.decidableBAll p cs

instance (priority := high) decidableExistsMem (p : Char → Prop) [DecidablePred p] (cs : List Char) :
    Decidable (∃ c ∈ cs, p c) :=
  List.decidableBEx p cs

instance (priority := high) decidableForallMemOption (p : Char → Prop) [DecidablePred p]
    (o : Option Char) : Decidable (∀ c ∈ o, p c) :=
  decidable_of_iff (∀ c ∈ o.toList, p c) (by simp)

instance (priority := high) decidableExistsMemOption (p : Char → Prop) [DecidablePred p]
    (o : Option Char) : Decidable (∃ c ∈ o, p c) :=
  decidable_of_iff (∃ c ∈ o.toList, p c) (by simp)

variable {lead w y y' z z' : List Char} {c : Char}

theorem takeWhile_stop {p : Char → Bool} (hy : ∀ c, y.head? = some c → p c = false) (w : List Char) :
    (w ++ y).takeWhile p = w.takeWhile p := by
  induction w with
  | nil =>
    cases y with
    | nil => rfl
    | cons c y => simp [hy c rfl]
  | cons c w ih => simp only [List.cons_append, List.takeWhile_cons, ih]

theorem head?_any_stop {p : Char → Bool} (hy : ∀ c, y.head? = some c → p c = false) (w : List Char) :
    (w ++ y).head?.any p = w.head?.any p := by
  cases w with
  | nil =>
    cases y with
    | nil => rfl
    | cons c y => exact hy c rfl
  | cons c w => rfl

/-- A text that starts with a character other than a blank stays when blanks before it are dropped. -/
theorem trimStart_append (h : trimStart w ≠ []) (y : List Char) :
    trimStart (w ++ y) = trimStart w ++ y := by
  induction w with
  | nil => exact absurd rfl h
  | cons c w ih =>
    simp only [trimStart, List.cons_append, List.dropWhile_cons] at h ih ⊢
    split
    · rename_i hc
      rw [if_pos hc] at h
      exact ih h
    · rfl

theorem trimStart_append_of_nil (h : trimStart w = []) (y : List Char) :
    trimStart (w ++ y) = trimStart y := by
  rw [trimStart, List.dropWhile_append_of_pos]
  · rfl
  · exact List.dropWhile_eq_nil_iff.1 h

theorem head?_trimStart_append (w y : List Char) :
    (trimStart (w ++ y)).head? = (trimStart w).head?.or (trimStart y).head? := by
  by_cases h : trimStart w = []
  · rw [trimStart_append_of_nil h, h]
    rfl
  · obtain ⟨c, v, hv⟩ := List.exists_cons_of_ne_nil h
    rw [trimStart_append h, hv]
    rfl

theorem after?_stop (hy : ∀ c, y.head? = some c → c ∉ lead) (w : List Char) :
    after? lead (w ++ y) = (after? lead w).map (· ++ y) := by
  induction lead generalizing w with
  | nil => rfl
  | cons l lead ih =>
    cases w with
    | nil =>
      cases y with
      | nil => rfl
      | cons c y =>
        have hl : l ≠ c := fun h => hy c rfl (h ▸ List.mem_cons_self)
        simp [after?, hl]
    | cons d w =>
      simp only [List.cons_append, after?, ih fun c hc h => hy c hc (List.mem_cons_of_mem l h)]
      split
      · rfl
      · rfl

/-- A lead with `c` at most in its last place, or in its first, is found or not without a look
behind `c`. -/
theorem startsWith_stop (hne : w ≠ []) (hlead : c ∉ lead.tail.dropLast) :
    startsWith lead (w ++ c :: z') = startsWith lead (w ++ c :: z) := by
  obtain ⟨d, w, rfl⟩ := List.exists_cons_of_ne_nil hne
  cases lead with
  | nil => rfl
  | cons l lead =>
    simp only [startsWith, List.cons_append, after?]
    split
    · clear hne
      rw [List.tail_cons] at hlead
      induction lead generalizing w with
      | nil => rfl
      | cons l lead ih =>
        cases w with
        | nil =>
          simp only [List.nil_append, after?]
          cases lead with
          | nil => split <;> rfl
          | cons m lead =>
            have hl : l ≠ c := by
              rintro rfl
              exact hlead List.mem_cons_self
            rw [if_neg hl, if_neg hl]
        | cons e w =>
          simp only [List.cons_append, after?]
          split
          · refine ih w fun h => hlead ?_
            cases lead with
            | nil => cases h
            | cons m lead => exact List.mem_cons_of_mem l h
          · rfl
    · rfl

theorem startsWith_append_of_le (h : lead.length ≤ w.length) (z : List Char) :
    startsWith lead (w ++ z) = startsWith lead w := by
  induction lead generalizing w with
  | nil => rfl
  | cons l lead ih =>
    cases w with
    | nil => cases h
    | cons c w =>
      simp only [startsWith, List.cons_append, after?] at ih ⊢
      split
      · exact ih (Nat.le_of_succ_le_succ h)
      · rfl

theorem startsWith_eq_false {cs : List Char} (h : ∀ t, cs ≠ lead ++ t) : startsWith lead cs = false := by
  refine Bool.eq_false_iff.2 fun hs => ?_
  obtain ⟨t, ht⟩ := exists_eq_append_of_startsWith hs
  exact h t ht

theorem find?_append_of_le {piece : List Char} {n : Nat} (h : find? piece (w ++ z) = some n)
    (hle : n + piece.length ≤ w.length) (z' : List Char) : find? piece (w ++ z') = some n := by
  induction w generalizing n with
  | nil =>
    have hpiece : piece = [] := List.length_eq_zero_iff.1 (by simp only [List.length_nil] at hle; omega)
    have hn : n = 0 := by simp only [List.length_nil] at hle; omega
    subst hpiece hn
    cases z' <;> rfl
  | cons c w ih =>
    rw [List.cons_append, find?, ← List.cons_append] at h ⊢
    have hshort : piece.length ≤ (c :: w).length := by omega
    rw [startsWith_append_of_le hshort] at h ⊢
    split at h
    · rename_i hs
      rw [if_pos hs]
      exact h
    · rename_i hs
      obtain ⟨m, hm, rfl⟩ := Option.map_eq_some_iff.1 h
      rw [if_neg hs, ih hm (by simp only [List.length_cons] at hle; omega)]
      rfl

theorem startsWith_drop_of_find? {piece cs : List Char} {n : Nat} (h : find? piece cs = some n) :
    startsWith piece (cs.drop n) = true := by
  induction cs generalizing n with
  | nil =>
    rw [find?] at h
    split at h
    · rename_i hp
      subst hp
      rfl
    · cases h
  | cons c cs ih =>
    rw [find?] at h
    split at h
    · rename_i hs
      cases h
      exact hs
    · obtain ⟨m, hm, rfl⟩ := Option.map_eq_some_iff.1 h
      exact ih hm

theorem prefix_bareLine (line : List Char) : bareLine line <+: line := by
  unfold bareLine
  split
  · rename_i r h
    refine ⟨['\r', '\n'], ?_⟩
    rw [← List.reverse_inj, h]
    simp
  · rename_i r _ h
    refine ⟨['\n'], ?_⟩
    rw [← List.reverse_inj, h]
    simp
  · exact List.prefix_rfl

end Text

namespace Lexer

variable {w y y' z z' : List Char} {c c' : Char}

/-- Neither a name nor a number goes on in the text. -/
def Halts (y : List Char) : Prop :=
  ∀ c, y.head? = some c → isNameChar c = false ∧ c ∉ ['\\', '.', '+', '-']

theorem isNameChar_of_isDigit (c : Char) (h : c.isDigit = true) : isNameChar c = true := by
  simp [isNameChar, Char.isAlphanum, h]

theorem isNameChar_of_isAlpha (c : Char) (h : c.isAlpha = true) : isNameChar c = true := by
  simp [isNameChar, Char.isAlphanum, h]

theorem isNameChar_of_isNameStart (c : Char) (h : isNameStart c = true) : isNameChar c = true := by
  grind [isNameStart, isNameChar, Char.isAlphanum]

theorem isNameChar_of_isDigitOrBar (c : Char) (h : isDigitOrBar c = true) : isNameChar c = true := by
  grind [isDigitOrBar, isNameChar, Char.isAlphanum]

theorem isNameChar_of_isHexOrBar (c : Char) (h : isHexOrBar c = true) : isNameChar c = true := by
  simp only [isHexOrBar, isNameChar, Char.isAlphanum] at h ⊢
  delta Char.isAlpha Char.isUpper Char.isLower
  simp only [Bool.or_eq_true, Bool.and_eq_true, decide_eq_true_eq, Char.le_def,
    UInt32.le_iff_toNat_le, ge_iff_le] at h ⊢
  grind

/-- No name goes on in the text. -/
def EndsName (y : List Char) : Prop :=
  nameLength y = 0

theorem EndsName.of_head (hy : ∀ c, y.head? = some c → isNameChar c = false ∧ c ≠ '\\') :
    EndsName y := by
  cases y with
  | nil => rfl
  | cons c y => simp [EndsName, nameLength, hy c rfl]

theorem Halts.endsName (hy : Halts y) : EndsName y :=
  .of_head fun c hc => ⟨(hy c hc).1, fun h => (hy c hc).2 (by simp [h])⟩

theorem EndsName.stop (hy : EndsName y) {p : Char → Bool}
    (hp : ∀ c, p c = true → isNameChar c = true) : ∀ c, y.head? = some c → p c = false := by
  intro c hc
  obtain ⟨z, rfl⟩ := List.head?_eq_some_iff.1 hc
  by_contra hpc
  have hname := hp c (Bool.not_eq_false _ ▸ hpc)
  have hback : c ≠ '\\' := by
    rintro rfl
    cases hname
  simp [EndsName, nameLength, hback, hname] at hy

theorem Halts.stop (hy : Halts y) {p : Char → Bool} (hp : ∀ c, p c = true → isNameChar c = true) :
    ∀ c, y.head? = some c → p c = false :=
  hy.endsName.stop hp

theorem drop_takeWhile_append (p : Char → Bool) (w z : List Char) :
    (w ++ z).drop (w.takeWhile p).length = w.drop (w.takeWhile p).length ++ z :=
  List.drop_append_of_le_length (length_takeWhile_le p w)

/-- No decimal number goes on in the text. -/
def EndsDecimal (y : List Char) : Prop :=
  ∀ c, y.head? = some c → isDigitOrBar c = false ∧ c ∉ ['.', '+', '-', 'e', 'E']

theorem Halts.endsDecimal (hy : Halts y) : EndsDecimal y := by
  intro c hc
  obtain ⟨hname, hmarks⟩ := hy c hc
  have hletters : c ≠ 'e' ∧ c ≠ 'E' := by
    constructor <;>
    · rintro rfl
      cases hname
  simp only [List.mem_cons, List.not_mem_nil, or_false, not_or] at hmarks ⊢
  exact ⟨hy.stop isNameChar_of_isDigitOrBar c hc, hmarks.2.1, hmarks.2.2.1, hmarks.2.2.2, hletters⟩

theorem EndsDecimal.not_isDigit (hy : EndsDecimal y) : ∀ c, y.head? = some c → c.isDigit = false :=
  fun c hc => (Bool.or_eq_false_iff.1 (hy c hc).1).1

theorem fractionLength_stop (hy : EndsDecimal y) (w : List Char) :
    fractionLength (w ++ y) = fractionLength w := by
  match w with
  | [] =>
    cases y with
    | nil => rfl
    | cons c y =>
      have hc : c ≠ '.' := fun h => absurd (hy c rfl).2 (by simp [h])
      simp [fractionLength, hc]
  | [c] =>
    by_cases hc : c = '.'
    · subst hc
      cases y with
      | nil => rfl
      | cons d y => simp [fractionLength, hy.not_isDigit d rfl]
    · simp [fractionLength, hc]
  | c :: d :: w =>
    by_cases hc : c = '.'
    · subst hc
      simp only [List.cons_append, fractionLength, takeWhile_stop fun c hc => (hy c hc).1]
    · simp [fractionLength, hc]

theorem exponentLength_stop (hy : EndsDecimal y) (w : List Char) :
    exponentLength (w ++ y) = exponentLength w := by
  match w with
  | [] =>
    cases y with
    | nil => rfl
    | cons c y =>
      have hc : ¬ (c = 'e' ∨ c = 'E') := fun h =>
        absurd (hy c rfl).2 (by rcases h with rfl | rfl <;> decide)
      simp [exponentLength, hc]
  | [e] =>
    cases y with
    | nil => rfl
    | cons c y =>
      have hc : ¬ (c = '+' ∨ c = '-') := fun h => absurd (hy c rfl).2 (by rcases h with rfl | rfl <;> decide)
      simp [exponentLength, hc, hy.not_isDigit c rfl]
  | e :: c :: w =>
    have hdigits := hy.not_isDigit
    by_cases hsign : c = '+' ∨ c = '-'
    · simp [exponentLength, hsign, takeWhile_stop hdigits]
    · simp [exponentLength, hsign, List.takeWhile_cons, takeWhile_stop hdigits]

theorem cutDecimal_stop (hy : EndsDecimal y) (w : List Char) : cutDecimal (w ++ y) = cutDecimal w := by
  have hwhole := length_takeWhile_le isDigitOrBar w
  have hfraction := fractionLength_le (w.drop (w.takeWhile isDigitOrBar).length)
  rw [List.length_drop] at hfraction
  simp only [cutDecimal, takeWhile_stop fun c hc => (hy c hc).1, drop_takeWhile_append,
    fractionLength_stop hy]
  rw [List.drop_append_of_le_length (by omega), exponentLength_stop hy]

theorem isNameChar_of_isRadixMark (c : Char) (h : isRadixMark c = true) : isNameChar c = true := by
  simp only [isRadixMark, Bool.or_eq_true, beq_iff_eq] at h
  rcases h with ((((rfl | rfl) | rfl) | rfl) | rfl) | rfl <;> rfl

theorem cutNumber_stop (hy : Halts y) (hne : w ≠ []) : cutNumber (w ++ y) = cutNumber w := by
  match w, hne with
  | [c], _ =>
    by_cases hc : c = '0'
    · subst hc
      have hdecimal := cutDecimal_stop hy.endsDecimal ['0']
      cases y with
      | nil => rfl
      | cons d y =>
        have hmark := hy.stop isNameChar_of_isRadixMark d rfl
        simpa [cutNumber, hmark] using hdecimal
    · simpa [cutNumber, hc] using cutDecimal_stop hy.endsDecimal [c]
  | c :: m :: w, _ =>
    by_cases hc : c = '0'
    · subst hc
      simp only [List.cons_append, cutNumber, takeWhile_stop (hy.stop isNameChar_of_isHexOrBar)]
      rw [← List.cons_append, ← List.cons_append, cutDecimal_stop hy.endsDecimal]
    · simpa [cutNumber, hc] using cutDecimal_stop hy.endsDecimal (c :: m :: w)

/-- A number that ends before a text ends before all texts that start like it. -/
theorem cutNumber_of_length (hy : EndsDecimal (c :: z)) (hne : w ≠ [])
    (h : (cutNumber (w ++ c :: z)).length = w.length) (z' : List Char) :
    cutNumber (w ++ c :: z') = cutNumber w := by
  have hy' : EndsDecimal (c :: z') := hy
  match w, hne with
  | [d], _ =>
    by_cases hd : d = '0'
    · subst hd
      have hmark : isRadixMark c = false := by
        by_contra hmark
        rw [Bool.not_eq_false] at hmark
        simp only [List.singleton_append, cutNumber, hmark, if_true, List.length_singleton] at h
        omega
      simpa [cutNumber, hmark] using cutDecimal_stop hy' ['0']
    · simpa [cutNumber, hd] using cutDecimal_stop hy' [d]
  | d :: m :: w, _ =>
    by_cases hd : d = '0'
    · subst hd
      simp only [List.cons_append, cutNumber] at h ⊢
      by_cases hmark : isRadixMark m = true
      · rw [if_pos hmark] at h
        have hhex : isHexOrBar c = false := by
          by_contra hhex
          rw [Bool.not_eq_false] at hhex
          have hlength : ((w ++ c :: z).takeWhile isHexOrBar).length = w.length := by
            simp only [List.length_cons] at h
            omega
          rw [List.takeWhile_append] at hlength
          split at hlength
          · simp [hhex] at hlength
          · rename_i hshort
            exact hshort hlength
        rw [if_pos hmark, if_pos hmark, takeWhile_stop]
        rintro e he
        obtain rfl : c = e := Option.some.inj he
        exact hhex
      · rw [if_neg hmark, if_neg hmark, ← List.cons_append, ← List.cons_append, cutDecimal_stop hy']
    · simpa [cutNumber, hd] using cutDecimal_stop hy' (d :: m :: w)

/-- With a letter at its end that neither starts an exponent nor tells a radix, a number does not
see what stands behind the letter. -/
theorem cutNumber_letter (hletter : EndsDecimal [c]) (hmark : isRadixMark c = false)
    (hy : EndsName y) (hy' : EndsName y') (w : List Char) :
    cutNumber (w ++ c :: y') = cutNumber (w ++ c :: y) := by
  have hdecimal : ∀ u, cutDecimal (u ++ c :: y') = cutDecimal (u ++ c :: y) := by
    have hstop : ∀ z, EndsDecimal (c :: z) := fun z => hletter
    intro u
    rw [cutDecimal_stop (hstop y'), cutDecimal_stop (hstop y)]
  match w with
  | [] =>
    have hc : c ≠ '0' := by
      rintro rfl
      exact absurd (hletter '0' rfl).1 (by decide)
    simpa [cutNumber, hc] using hdecimal []
  | [d] =>
    by_cases hd : d = '0'
    · subst hd
      simpa [cutNumber, hmark] using hdecimal ['0']
    · simpa [cutNumber, hd] using hdecimal [d]
  | d :: m :: w =>
    by_cases hd : d = '0'
    · subst hd
      have hhex := fun {y} (hy : EndsName y) =>
        takeWhile_stop (hy.stop isNameChar_of_isHexOrBar) (w ++ [c])
      simp only [List.append_assoc, List.singleton_append] at hhex
      simp only [List.cons_append, cutNumber, hhex hy, hhex hy']
      rw [← List.cons_append, ← List.cons_append, hdecimal]
      rfl
    · simpa [cutNumber, hd] using hdecimal (d :: m :: w)

theorem nameLength_append {u : List Char} (hu : ∀ c ∈ u, isNameChar c = true) (v : List Char) :
    nameLength (u ++ v) = u.length + nameLength v := by
  induction u with
  | nil => simp
  | cons c u ih =>
    obtain ⟨hc, hu⟩ := List.forall_mem_cons.1 hu
    have hback : c ≠ '\\' := by
      rintro rfl
      cases hc
    rw [List.cons_append, nameLength, if_pos hc, ih hu, List.length_cons]
    · omega
    · rintro _ _ rfl
      exact absurd rfl hback

theorem nameLength_stop (hy : EndsName y) (w : List Char) : nameLength (w ++ y) = nameLength w := by
  fun_induction nameLength w with
  | case1 => exact hy
  | case2 c w hc ih =>
    rw [List.cons_append] at ih ⊢
    simp only [List.cons_append, nameLength, hc, if_true, ih]
  | case3 c w hc => simp [nameLength, hc]
  | case4 c w hslash hc ih =>
    have hback : c ≠ '\\' := by
      rintro rfl
      cases hc
    simp [nameLength, hback, hc, ih]
  | case5 c w hslash hc =>
    by_cases hback : c = '\\'
    · subst hback
      cases w with
      | nil =>
        cases y with
        | nil => rfl
        | cons d y => simp [nameLength, hy.stop isNameChar_of_isNameStart d rfl]
      | cons d w => exact (hslash d w rfl rfl).elim
    · simp [nameLength, hback, hc]

theorem wordLength_stop (hy : EndsName y) (hne : w ≠ []) : wordLength (w ++ y) = wordLength w := by
  obtain ⟨c, w, rfl⟩ := List.exists_cons_of_ne_nil hne
  by_cases hback : c = '\\'
  · subst hback
    simp only [List.cons_append, wordLength, nameLength_stop hy]
  · have hname := nameLength_stop hy (c :: w)
    rw [List.cons_append] at hname ⊢
    simpa [wordLength, hback] using hname

theorem wordKind_congr {last : Option Kind} {word v v' : List Char}
    (hview : lower word = "enum".toList → namesMember last = false →
      (trimStart v').head?.any isNameStart = (trimStart v).head?.any isNameStart) :
    wordKind last word v' = wordKind last word v := by
  unfold wordKind
  simp only
  split
  · rfl
  rename_i hlast
  split
  · rename_i hword
    rw [hview (by rw [← hword, String.toList_ofList]) (Bool.not_eq_true _ ▸ hlast)]
  · rfl

theorem cutWord_congr (last : Option Kind) (hy : EndsName y) (hy' : EndsName y') (hne : w ≠ [])
    (hview : lower (w.take (cutWord last (w ++ y)).length) = "enum".toList → namesMember last = false →
      (trimStart (w.drop (cutWord last (w ++ y)).length ++ y')).head?.any isNameStart =
        (trimStart (w.drop (cutWord last (w ++ y)).length ++ y)).head?.any isNameStart) :
    cutWord last (w ++ y') = cutWord last (w ++ y) := by
  have hle := wordLength_le w
  simp only [cutWord, wordLength_stop hy hne, wordLength_stop hy' hne,
    List.take_append_of_le_length hle, List.drop_append_of_le_length hle] at hview ⊢
  split
  · rfl
  rename_i hpos
  rw [if_neg hpos] at hview
  split
  · rfl
  · rename_i hback
    rw [if_neg hback] at hview
    rw [wordKind_congr hview]

/-! ### Operators -/

/-- Whether a type may start with the character. -/
def isTypeStart (c : Char) : Bool :=
  c == '\\' || isNameStart c

theorem signKind_congr {last : Option Kind} {v v' : List Char} (d : Char)
    (hview : d = '?' → precedesType last = true →
      (trimStart v').head?.any isTypeStart = (trimStart v).head?.any isTypeStart) :
    signKind last d v' = signKind last d v := by
  unfold signKind
  cases hlast : precedesType last with
  | false => rfl
  | true =>
    by_cases hd : d = '?'
    · have hview := hview hd hlast
      unfold isTypeStart at hview
      rw [hview]
    · simp only [if_neg hd]

theorem operators_sorted : operators.Pairwise fun o o' => o'.1.length ≤ o.1.length := by
  decide

theorem length_le_cutOperator {last : Option Kind} {cs : List Char} {o : String × Kind}
    (ho : o ∈ operators) (hs : startsWith o.1.toList cs = true) :
    o.1.length ≤ (cutOperator last cs).length := by
  unfold cutOperator
  split
  · rename_i text kind hfind
    obtain ⟨-, as, bs, hsplit, has⟩ := List.find?_eq_some_iff_append.1 hfind
    have hsorted := operators_sorted
    rw [hsplit] at hsorted ho
    rcases List.mem_append.1 ho with ho | ho
    · simpa [hs] using has o ho
    · rcases List.mem_cons.1 ho with rfl | ho
      · exact Nat.le_refl _
      · exact (List.pairwise_cons.1 (List.pairwise_append.1 hsorted).2.1).1 o ho
  · rename_i hnone
    exact absurd hs (by simpa using List.find?_eq_none.1 hnone o ho)

/-- An operator stays if no longer one comes about with what follows. -/
theorem cutOperator_congr (last : Option Kind) (hne : w ≠ [])
    (h : (cutOperator last (w ++ y)).length ≤ w.length)
    (hlong : ∀ o ∈ operators, startsWith o.1.toList (w ++ y') = true → o.1.length ≤ w.length)
    (hview : w.take (cutOperator last (w ++ y)).length = ['?'] → precedesType last = true →
      (trimStart (w.drop (cutOperator last (w ++ y)).length ++ y')).head?.any isTypeStart =
        (trimStart (w.drop (cutOperator last (w ++ y)).length ++ y)).head?.any isTypeStart) :
    cutOperator last (w ++ y') = cutOperator last (w ++ y) := by
  have hfind : (operators.find? fun o => startsWith o.1.toList (w ++ y')) =
      operators.find? fun o => startsWith o.1.toList (w ++ y) := by
    rw [← List.head?_filter, ← List.head?_filter]
    congr 1
    refine List.filter_congr fun o ho => ?_
    have hshort : o.1.length ≤ w.length →
        startsWith o.1.toList (w ++ y') = startsWith o.1.toList (w ++ y) := by
      intro hle
      rw [startsWith_append_of_le (by rwa [String.length_toList]),
        startsWith_append_of_le (by rwa [String.length_toList])]
    cases hs' : startsWith o.1.toList (w ++ y') with
    | true => rw [← hshort (hlong o ho hs'), hs']
    | false =>
      cases hs : startsWith o.1.toList (w ++ y) with
      | false => rfl
      | true => rw [← hshort (Nat.le_trans (length_le_cutOperator ho hs) h), hs'] at hs; cases hs
  obtain ⟨d, w, rfl⟩ := List.exists_cons_of_ne_nil hne
  rw [List.cons_append] at hfind ⊢
  simp only [List.cons_append] at hfind
  simp only [cutOperator, hfind, List.cons_append] at hview ⊢
  split
  · rfl
  · rename_i hnone
    simp only [hnone, List.drop_succ_cons, List.drop_zero, List.take_succ_cons, List.take_zero] at hview
    rw [signKind_congr d fun hd => hview (by rw [hd])]

def walls : List Char :=
  ['/', '#', '\n', '\r', '\t', ' ', '(', ')', '[', ']', '\x7b', '\x7d', ',', ';', '=', '&', '|', '?',
   ':']

theorem halts_of_wall (hc : c ∈ walls) (z : List Char) : Halts (c :: z) := by
  intro d hd
  obtain rfl : c = d := Option.some.inj hd
  exact (by decide : ∀ c ∈ walls, isNameChar c = false ∧ c ∉ ['\\', '.', '+', '-']) c hc

theorem ne_of_wall (hc : c ∈ walls) : c ≠ '>' := by
  rintro rfl
  exact absurd hc (by decide)

theorem operators_front : ∀ o ∈ operators, o.1.length ≤ 3 ∧ (o.1.length = 3 →
    (∃ o' ∈ operators, o'.1.toList = o.1.toList.take 2) ∨ ∀ c ∈ o.1.toList[1]?, c ∉ walls) := by
  decide

/-- No operator comes about that reaches over a wall. -/
theorem length_le_of_wall {last : Option Kind} (hc : c ∈ walls) (hne : w ≠ [])
    (h : (cutOperator last (w ++ c :: z)).length ≤ w.length) {o : String × Kind} (ho : o ∈ operators)
    (hs : startsWith o.1.toList (w ++ c :: z') = true) : o.1.length ≤ w.length := by
  by_contra hlong
  -- a text that reaches up to the wall at most is there whatever follows the wall
  have hreach : ∀ o' ∈ operators, o'.1.length = w.length + 1 →
      ¬ startsWith o'.1.toList (w ++ c :: z') = true := by
    intro o' ho' hlength hs'
    have hs'' : startsWith o'.1.toList (w ++ c :: z) = true := by
      have hle : o'.1.toList.length ≤ (w ++ [c]).length := by
        rw [String.length_toList, hlength, List.length_append]
        rfl
      rw [List.append_cons, startsWith_append_of_le hle] at hs' ⊢
      exact hs'
    have : o'.1.length ≤ (cutOperator last (w ++ c :: z)).length := length_le_cutOperator ho' hs''
    omega
  obtain ⟨hthree, hfront⟩ := operators_front o ho
  have hpos := List.length_pos_iff.2 hne
  by_cases hone : o.1.length = w.length + 1
  · exact hreach o ho hone hs
  · -- one mark stands before the wall and one behind it
    have hw : w.length = 1 := by omega
    obtain ⟨rest, hrest⟩ := exists_eq_append_of_startsWith hs
    obtain ⟨d, rfl⟩ := List.length_eq_one_iff.1 hw
    have hlen : o.1.toList.length = 3 := by
      rw [String.length_toList]
      omega
    obtain ⟨e, htext⟩ : ∃ e, o.1.toList = [d, c, e] := by
      match htext : o.1.toList, hlen with
      | [a, b, e], _ =>
        rw [htext] at hrest
        simp only [List.cons_append, List.nil_append, List.cons.injEq] at hrest
        exact ⟨e, by rw [hrest.1, hrest.2.1]⟩
    rw [htext] at hfront
    rcases hfront (by omega) with ⟨o', ho', htake⟩ | hwall
    · refine hreach o' ho' ?_ ?_
      · rw [← String.length_toList, htake]
        rfl
      · rw [htake]
        simp [startsWith, after?]
    · exact hwall c rfl hc

end Lexer

end PhpStyle
