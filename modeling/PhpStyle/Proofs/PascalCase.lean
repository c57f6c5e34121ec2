import PhpStyle.Rules.EnumCase

/-!
# Suggested names for the cases of an enumeration

A name in capitals gets small letters behind its first character, and a name that starts with a small
letter gets a capital there (`Suggests`). The first kind of suggestion is always accepted. The second
is not if the letter was the only small one and others follow it: then the suggestion is a word of
capitals, and a second suggestion is needed (`suggestion_judged`).
-/

namespace PhpStyle.Rules.EnumCase

open Text

/-- Several letters, all of them capitals. -/
def isShouted (name : List Char) : Bool :=
  !name.any Char.isLower && 1 < name.countP Char.isAlpha

/-- A small letter and then capitals only. -/
def isHalfShouted : List Char → Bool
  | [] => false
  | first :: rest => first.isLower && !rest.any Char.isLower && rest.any Char.isUpper

/-- How a better name comes about. -/
inductive Suggests : List Char → List Char → Prop
  | quieter {first : Char} {rest : List Char} (hbar : '_' ∉ first :: rest)
      (h : isShouted (first :: rest) = true) : Suggests (first :: rest) (first.toUpper :: lower rest)
  | capital {first : Char} {rest : List Char} (hbar : '_' ∉ first :: rest)
      (h : first.isLower = true) : Suggests (first :: rest) (first.toUpper :: rest)

theorem suggests_of_judge {name better : List Char} (h : judge name = .fixable better) :
    Suggests name better := by
  cases name with
  | nil => cases h
  | cons first rest =>
    simp only [judge] at h
    split at h
    · cases h
    rename_i hbar
    have hbar : '_' ∉ first :: rest := by simpa using hbar
    split at h
    · rename_i hshout
      cases h
      exact .quieter hbar hshout
    split at h
    · rename_i hsmall
      cases h
      exact .capital hbar hsmall
    · cases h

theorem judge_eq_valid {first : Char} {rest : List Char} (hbar : '_' ∉ first :: rest)
    (hshout : isShouted (first :: rest) = false) (hfirst : first.isLower = false) :
    judge (first :: rest) = .valid := by
  rw [isShouted] at hshout
  have hbar : ¬ (first :: rest).contains '_' = true := by simpa using hbar
  simp only [judge, if_neg hbar, hshout, hfirst, Bool.false_eq_true, if_false]

theorem judge_of_isShouted {first : Char} {rest : List Char} (hbar : '_' ∉ first :: rest)
    (h : isShouted (first :: rest) = true) :
    judge (first :: rest) = .fixable (first.toUpper :: lower rest) := by
  rw [isShouted] at h
  have hbar : ¬ (first :: rest).contains '_' = true := by simpa using hbar
  simp only [judge, if_neg hbar, h, if_true]

section

variable {c : Char}

theorem isUpper_iff : c.isUpper = true ↔ 65 ≤ c.toNat ∧ c.toNat ≤ 90 := by
  delta Char.isUpper
  simp [UInt32.le_iff_toNat_le]

theorem isLower_iff : c.isLower = true ↔ 97 ≤ c.toNat ∧ c.toNat ≤ 122 := by
  delta Char.isLower
  simp [UInt32.le_iff_toNat_le]

theorem isAlpha_eq (c : Char) : c.isAlpha = (c.isUpper || c.isLower) :=
  rfl

theorem toNat_toLower (c : Char) : c.toLower.toNat = if c.isUpper then c.toNat + 32 else c.toNat := by
  have hval : c.isUpper = true ↔ c.val ≥ 'A'.val ∧ c.val ≤ 'Z'.val := by
    delta Char.isUpper
    simp
  unfold Char.toLower
  split
  · rename_i h
    rw [if_pos (hval.2 h), ← Char.toNat_val, UInt32.toNat_add]
    obtain ⟨-, hle⟩ := isUpper_iff.1 (hval.2 h)
    exact Nat.mod_eq_of_lt (Nat.lt_of_le_of_lt (Nat.add_le_add_right hle 32) (by decide))
  · rename_i h
    rw [if_neg (mt hval.1 h)]

theorem toNat_toUpper (c : Char) : c.toUpper.toNat = if c.isLower then c.toNat - 32 else c.toNat := by
  have hval : c.isLower = true ↔ 'a'.val ≤ c.val ∧ c.val ≤ 'z'.val := by
    delta Char.isLower
    simp
  unfold Char.toUpper
  split
  · rename_i h
    rw [if_pos (hval.2 h), ← Char.toNat_val, UInt32.toNat_add]
    obtain ⟨hge, hle⟩ := isLower_iff.1 (hval.2 h)
    -- the distance of the letters is below zero, and so it wraps
    change (c.toNat + 4294967264) % 4294967296 = _
    omega
  · rename_i h
    rw [if_neg (mt hval.1 h)]

theorem eq_bar_of_toLower (h : c.toLower = '_') : c = '_' := by
  have hnat := toNat_toLower c
  rw [h] at hnat
  rw [← Char.toNat_inj]
  grind [isUpper_iff]

theorem eq_bar_of_toUpper (h : c.toUpper = '_') : c = '_' := by
  have hnat := toNat_toUpper c
  rw [h] at hnat
  rw [← Char.toNat_inj]
  grind [isLower_iff]

theorem isLower_toUpper (c : Char) : c.toUpper.isLower = false := by
  grind [toNat_toUpper, isLower_iff]

theorem isUpper_toUpper (h : c.isLower = true) : c.toUpper.isUpper = true := by
  grind [toNat_toUpper, isLower_iff, isUpper_iff]

theorem isUpper_toLower (c : Char) : c.toLower.isUpper = false := by
  grind [toNat_toLower, isUpper_iff]

theorem isLower_toLower (h : c.isUpper = true) : c.toLower.isLower = true := by
  grind [toNat_toLower, isLower_iff, isUpper_iff]

theorem toLower_toUpper (c : Char) : c.toUpper.toLower = c.toLower := by
  rw [← Char.toNat_inj]
  grind [toNat_toUpper, toNat_toLower, isUpper_iff, isLower_iff]

theorem toLower_toLower (c : Char) : c.toLower.toLower = c.toLower := by
  rw [← Char.toNat_inj]
  grind [toNat_toLower, isUpper_iff]

end

theorem bar_not_mem_lower {cs : List Char} (h : '_' ∉ cs) : '_' ∉ lower cs := by
  intro hmem
  obtain ⟨c, hc, hlower⟩ := List.mem_map.1 hmem
  exact h (eq_bar_of_toLower hlower ▸ hc)

theorem bar_not_mem_capital {first : Char} {rest : List Char} (h : '_' ∉ first :: rest) :
    '_' ∉ first.toUpper :: rest := by
  obtain ⟨hfirst, hrest⟩ := not_or.1 (mt List.mem_cons.2 h)
  refine mt List.mem_cons.1 (not_or.2 ⟨fun heq => ?_, hrest⟩)
  exact hfirst (eq_bar_of_toUpper heq.symm).symm

theorem any_isUpper_iff {cs : List Char} (h : cs.any Char.isLower = false) :
    cs.any Char.isUpper = true ↔ 0 < cs.countP Char.isAlpha := by
  have hletter : ∀ c ∈ cs, c.isUpper = c.isAlpha := by
    intro c hc
    rw [isAlpha_eq, Bool.eq_false_iff.2 (List.any_eq_false.1 h c hc), Bool.or_false]
  rw [List.countP_pos_iff, List.any_eq_true]
  refine exists_congr fun c => and_congr_right fun hc => ?_
  rw [hletter c hc]

theorem any_isUpper_of_isShouted {first : Char} {rest : List Char}
    (h : isShouted (first :: rest) = true) : rest.any Char.isUpper = true := by
  simp only [isShouted, Bool.and_eq_true, Bool.not_eq_true', decide_eq_true_eq, List.any_cons,
    Bool.or_eq_false_iff, List.countP_cons] at h
  obtain ⟨⟨-, hsmall⟩, hcount⟩ := h
  refine (any_isUpper_iff hsmall).2 ?_
  split at hcount <;> omega

theorem isShouted_capital {first : Char} (rest : List Char) (h : first.isLower = true) :
    isShouted (first.toUpper :: rest) = isHalfShouted (first :: rest) := by
  have hletter : first.toUpper.isAlpha = true := by
    rw [isAlpha_eq, isUpper_toUpper h, Bool.true_or]
  simp only [isShouted, isHalfShouted, List.any_cons, isLower_toUpper, Bool.false_or,
    List.countP_cons, hletter, if_true, h, Bool.true_and]
  cases hsmall : rest.any Char.isLower with
  | true => rfl
  | false =>
    rw [Bool.eq_iff_iff, Bool.and_eq_true, Bool.and_eq_true, any_isUpper_iff hsmall]
    simp

theorem judge_quieter {first : Char} {rest : List Char} (hbar : '_' ∉ first :: rest)
    (h : isShouted (first :: rest) = true) : judge (first.toUpper :: lower rest) = .valid := by
  obtain ⟨hfirst, hrest⟩ := not_or.1 (mt List.mem_cons.2 hbar)
  refine judge_eq_valid (bar_not_mem_capital ?_) ?_ (isLower_toUpper first)
  · exact mt List.mem_cons.1 (not_or.2 ⟨hfirst, bar_not_mem_lower hrest⟩)
  · -- the capitals of the rest are small letters now
    obtain ⟨c, hc, hcapital⟩ := List.any_eq_true.1 (any_isUpper_of_isShouted h)
    have hsmall : (lower rest).any Char.isLower = true :=
      List.any_eq_true.2 ⟨c.toLower, List.mem_map_of_mem hc, isLower_toLower hcapital⟩
    simp [isShouted, hsmall]

/-- A suggestion differs from the name in the case of letters, and it is accepted unless the name
is a small letter before capitals; then what is suggested in its place is accepted. -/
theorem suggestion_judged {name better : List Char} (h : judge name = .fixable better) :
    lower better = lower name ∧ better ≠ name ∧
      (judge better = .valid ↔ isHalfShouted name = false) ∧
      (isHalfShouted name = true →
        ∃ best, judge better = .fixable best ∧ lower best = lower name ∧ judge best = .valid) := by
  cases suggests_of_judge h with
  | @quieter first rest hbar hshout =>
    have hvalid := judge_quieter hbar hshout
    have hhalf : isHalfShouted (first :: rest) = false := by
      simp only [isShouted, List.any_cons, Bool.and_eq_true, Bool.not_eq_true',
        Bool.or_eq_false_iff] at hshout
      rw [isHalfShouted, hshout.1.1, Bool.false_and, Bool.false_and]
    refine ⟨?_, ?_, iff_of_true hvalid hhalf, ?_⟩
    · simp only [lower, List.map_cons, List.map_map, Function.comp_def, toLower_toUpper,
        toLower_toLower]
    · intro heq
      obtain ⟨c, hc, hcapital⟩ := List.any_eq_true.1 (any_isUpper_of_isShouted hshout)
      rw [← (List.cons.inj heq).2] at hc
      obtain ⟨d, -, rfl⟩ := List.mem_map.1 hc
      rw [isUpper_toLower] at hcapital
      cases hcapital
    · rw [hhalf]
      intro h
      cases h
  | @capital first rest hbar hsmall =>
    have hbar' := bar_not_mem_capital hbar
    have hshout := isShouted_capital rest hsmall
    refine ⟨by simp only [lower, List.map_cons, toLower_toUpper], ?_, ?_, fun hhalf => ?_⟩
    · intro heq
      have := isLower_toUpper first
      rw [(List.cons.inj heq).1, hsmall] at this
      cases this
    · cases hhalf : isHalfShouted (first :: rest) with
      | true =>
        rw [judge_of_isShouted hbar' (hshout.trans hhalf)]
        exact iff_of_false (by simp) (by decide)
      | false =>
        have hvalid := judge_eq_valid hbar' (hshout.trans hhalf) (isLower_toUpper first)
        exact iff_of_true hvalid rfl
    · rw [hhalf] at hshout
      refine ⟨_, judge_of_isShouted hbar' hshout, ?_, judge_quieter hbar' hshout⟩
      simp only [lower, List.map_cons, List.map_map, Function.comp_def, toLower_toUpper,
        toLower_toLower]

/-- A digit in front of a word of capitals. -/
theorem digit_before_capitals_judged :
    judge "2FA".toList = .fixable "2fa".toList ∧
      lower "2fa".toList = lower "2FA".toList ∧ "2fa".toList ≠ "2FA".toList ∧
        (judge "2fa".toList = .valid ↔ isHalfShouted "2FA".toList = false) ∧
        (isHalfShouted "2FA".toList = true → ∃ best, judge "2fa".toList = .fixable best ∧
          lower best = lower "2FA".toList ∧ judge best = .valid) :=
  ⟨by decide, suggestion_judged (by decide)⟩

/-- A small letter before a capital: the suggestion is no name in PascalCase itself. -/
theorem small_before_capital_suggested :
    judge "aB".toList = .fixable "AB".toList ∧ judge "AB".toList = .fixable "Ab".toList := by
  decide

end PhpStyle.Rules.EnumCase
