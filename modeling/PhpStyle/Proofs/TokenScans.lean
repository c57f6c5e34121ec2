import PhpStyle.Token.Search

/-!
# Scans over tokens

`Tokens.scanUp` and `Tokens.scanDown` look at a number of tokens one after the other. What they find is
the first match on their way (`scanUp_eq_some`, `scanDown_eq_some`), the first match on their way is
what they find (`scanUp_eq_of`, `scanDown_eq_of`), and where they find nothing there is no match
(`scanUp_eq_none`, `scanDown_eq_none`).
-/

namespace PhpStyle.Tokens

variable {ts : Tokens} {p : Token → Bool} {i n j : Nat}

theorem lt_size_of_get? {t : Token} (h : ts.get? i = some t) : i < ts.size := by
  obtain ⟨hlt, -⟩ := Array.getElem?_eq_some_iff.1 h
  exact hlt

theorem links_of_get? {t : Token} (h : ts.get? i = some t) : t.links = ts.links i := by
  rw [links, h]
  rfl

theorem content_of_get? {t : Token} (h : ts.get? i = some t) : t.content = ts.content i := by
  rw [content, h]
  rfl

theorem lt_size_of_any (h : (ts.get? i).any p = true) : i < ts.size := by
  obtain ⟨t, ht, -⟩ := (Option.any_eq_true _ _).1 h
  exact lt_size_of_get? ht

theorem scanUp_eq_some (h : ts.scanUp p i n = some j) :
    i ≤ j ∧ (ts.get? j).any p = true ∧ ∀ k, i ≤ k → k < j → ¬ (ts.get? k).any p = true := by
  induction n generalizing i with
  | zero => cases h
  | succ n ih =>
    rw [scanUp] at h
    split at h
    · rename_i hp
      cases h
      exact ⟨Nat.le_refl _, hp, fun k hle hlt => absurd hlt (Nat.not_lt.2 hle)⟩
    · rename_i hp
      obtain ⟨hle, hj, hnone⟩ := ih h
      refine ⟨by omega, hj, fun k hk hlt => ?_⟩
      rcases Nat.lt_or_eq_of_le hk with hk | rfl
      · exact hnone k hk hlt
      · exact hp

theorem scanUp_lt (h : ts.scanUp p i n = some j) : j < i + n := by
  induction n generalizing i with
  | zero => cases h
  | succ n ih =>
    rw [scanUp] at h
    split at h
    · cases h
      omega
    · have := ih h
      omega

theorem scanUp_eq_of (hij : i ≤ j) (hjn : j < i + n) (hj : (ts.get? j).any p = true)
    (hno : ∀ k, i ≤ k → k < j → ¬ (ts.get? k).any p = true) : ts.scanUp p i n = some j := by
  induction n generalizing i with
  | zero => omega
  | succ n ih =>
    rw [scanUp]
    rcases Nat.lt_or_eq_of_le hij with hlt | rfl
    · rw [if_neg (hno i (Nat.le_refl i) hlt)]
      exact ih hlt (by omega) fun k hk hkj => hno k (by omega) hkj
    · rw [if_pos hj]

theorem scanUp_eq_none (h : ts.scanUp p i n = none) (j : Nat) (hij : i ≤ j) (hjn : j < i + n) :
    ¬ (ts.get? j).any p = true := by
  induction n generalizing i with
  | zero => omega
  | succ n ih =>
    rw [scanUp] at h
    split at h
    · cases h
    · rename_i hnot
      rcases Nat.lt_or_eq_of_le hij with hlt | rfl
      · exact ih h hlt (by omega)
      · exact hnot

theorem scanDown_eq_some (h : ts.scanDown p i n = some j) :
    j ≤ i ∧ (ts.get? j).any p = true ∧ ∀ k, j < k → k ≤ i → ¬ (ts.get? k).any p = true := by
  induction n generalizing i with
  | zero => cases h
  | succ n ih =>
    rw [scanDown] at h
    split at h
    · rename_i hp
      cases h
      exact ⟨Nat.le_refl _, hp, fun k hlt hle => absurd hlt (Nat.not_lt.2 hle)⟩
    · rename_i hp
      obtain ⟨hle, hj, hnone⟩ := ih h
      refine ⟨by omega, hj, fun k hlt hk => ?_⟩
      rcases Nat.lt_or_eq_of_le hk with hk | rfl
      · exact hnone k hlt (by omega)
      · exact hp

theorem lt_of_scanDown (h : ts.scanDown p i n = some j) : i < j + n := by
  induction n generalizing i with
  | zero => cases h
  | succ n ih =>
    rw [scanDown] at h
    split at h
    · cases h
      omega
    · have := ih h
      omega

theorem scanDown_eq_of (hji : j ≤ i) (hin : i < j + n) (hj : (ts.get? j).any p = true)
    (hno : ∀ k, j < k → k ≤ i → ¬ (ts.get? k).any p = true) : ts.scanDown p i n = some j := by
  induction n generalizing i with
  | zero => omega
  | succ n ih =>
    rw [scanDown]
    rcases Nat.lt_or_eq_of_le hji with hlt | rfl
    · rw [if_neg (hno i hlt (Nat.le_refl i))]
      exact ih (by omega) (by omega) fun k hk hki => hno k hk (by omega)
    · rw [if_pos hj]

theorem scanDown_eq_none (h : ts.scanDown p i n = none) (j : Nat) (hji : j ≤ i) (hin : i < j + n) :
    ¬ (ts.get? j).any p = true := by
  induction n generalizing i with
  | zero => omega
  | succ n ih =>
    rw [scanDown] at h
    split at h
    · cases h
    · rename_i hnot
      rcases Nat.lt_or_eq_of_le hji with hlt | rfl
      · exact ih h (by omega) (by omega)
      · exact hnot

end PhpStyle.Tokens
