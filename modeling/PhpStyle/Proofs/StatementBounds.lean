import Mathlib.Data.Finset.Card
import PhpStyle.Proofs.ScopeOwners
import PhpStyle.Token.Structure

/-!
# Where statements begin and end

Both scans for the bounds of a statement count brackets. Where every bracket has a partner, the
count is the number of pairs that lie over the gap the scan has come to, with both ends on its side
of the token it started from (`pairsOver`). A count of zero therefore means that the scan is back
at the level where it started, and there only does it stop.
-/

namespace PhpStyle.Tokens

variable {ts : Tokens} {i j lo hi depth : Nat} {p q : Nat × Nat} {k : Kind}

/-- The pairs from `lo` on and before `hi` that lie over the gap before token `j`. -/
def pairsOver (ts : Tokens) (lo j hi : Nat) : Finset (Nat × Nat) :=
  ts.pairs.toFinset.filter fun p => (lo ≤ p.1 ∧ p.1 < j) ∧ j ≤ p.2 ∧ p.2 < hi

theorem mem_pairsOver : p ∈ ts.pairsOver lo j hi ↔
    p ∈ ts.pairs ∧ (lo ≤ p.1 ∧ p.1 < j) ∧ j ≤ p.2 ∧ p.2 < hi := by
  simp [pairsOver]

theorem card_pairsOver_eq_zero (h : j ≤ lo ∨ hi ≤ j) : (ts.pairsOver lo j hi).card = 0 := by
  rw [Finset.card_eq_zero, Finset.eq_empty_iff_forall_notMem]
  intro p hp
  have hbounds := (mem_pairsOver.1 hp).2
  omega

theorem lt_of_mem_pairs (hp : p ∈ ts.pairs) : p.1 < p.2 :=
  (ts.pairs_spec.isPair p hp).lt

theorem apart_of_mem_pairs (hp : p ∈ ts.pairs) (hq : q ∈ ts.pairs) :
    p = q ∨ p.2 < q.1 ∨ q.2 < p.1 ∨ (p.1 < q.1 ∧ q.2 < p.2) ∨ (q.1 < p.1 ∧ p.2 < q.2) := by
  by_cases heq : p = q
  · exact .inl heq
  · have hclose := ts.pairs_spec.closesBefore_or hp hq heq
    simp only [ClosesBefore] at hclose
    omega

theorem not_end_of_not_isBracket (hk : ts.kind? j = some k) (hbracket : k.isBracket = false)
    (hp : p ∈ ts.pairs) : p.1 ≠ j ∧ p.2 ≠ j := by
  obtain ⟨o, c, ho, hc, hcloser⟩ := (ts.pairs_spec.isPair p hp).kinds
  rw [getElem?_kinds] at ho hc
  constructor
  · rintro rfl
    cases ho.symm.trans hk
    cases k <;> cases hcloser <;> cases hbracket
  · rintro rfl
    cases hc.symm.trans hk
    cases o <;> cases hcloser <;> cases hbracket

theorem pairsOver_succ (hk : ts.kind? j = some k) (hbracket : k.isBracket = false) :
    ts.pairsOver lo (j + 1) hi = ts.pairsOver lo j hi := by
  ext p
  rw [mem_pairsOver, mem_pairsOver]
  refine and_congr_right fun hp => ?_
  have hne := not_end_of_not_isBracket hk hbracket hp
  omega

theorem card_pairsOver_insert {m n : Nat} (hp : p ∈ ts.pairsOver lo m hi)
    (hnot : p ∉ ts.pairsOver lo n hi)
    (hrest : ∀ q ∈ ts.pairs, q ≠ p → (q ∈ ts.pairsOver lo m hi ↔ q ∈ ts.pairsOver lo n hi)) :
    (ts.pairsOver lo m hi).card = (ts.pairsOver lo n hi).card + 1 := by
  rw [← Finset.card_insert_of_notMem hnot]
  congr 1
  ext q
  rw [Finset.mem_insert]
  by_cases heq : q = p
  · simp [heq, hp]
  · constructor
    · intro hq
      exact .inr ((hrest q (mem_pairsOver.1 hq).1 heq).1 hq)
    · rintro (h | hq)
      · exact absurd h heq
      · exact (hrest q (mem_pairsOver.1 hq).1 heq).2 hq

theorem mem_pairsOver_succ_of_ne (hp : p ∈ ts.pairs) (hend : j = p.1 ∨ j = p.2) (hq : q ∈ ts.pairs)
    (hne : q ≠ p) : q ∈ ts.pairsOver lo (j + 1) hi ↔ q ∈ ts.pairsOver lo j hi := by
  have hlt := lt_of_mem_pairs hp
  rcases apart_of_mem_pairs hq hp with heq | hapart
  · exact absurd heq hne
  · rw [mem_pairsOver, mem_pairsOver]
    refine and_congr_right fun _ => ?_
    omega

theorem card_pairsOver_of_opener {c : Nat} (hp : (j, c) ∈ ts.pairs) (hlo : lo ≤ j) (hhi : c < hi) :
    (ts.pairsOver lo (j + 1) hi).card = (ts.pairsOver lo j hi).card + 1 := by
  have hlt : j < c := lt_of_mem_pairs hp
  refine card_pairsOver_insert (mem_pairsOver.2 ⟨hp, by simp only; omega, by simp only; omega⟩)
    (by simp [mem_pairsOver]) fun q hq hne => ?_
  exact mem_pairsOver_succ_of_ne hp (.inl rfl) hq hne

theorem card_pairsOver_of_closer {o : Nat} (hp : (o, j) ∈ ts.pairs) (hlo : lo ≤ o) (hhi : j < hi) :
    (ts.pairsOver lo j hi).card = (ts.pairsOver lo (j + 1) hi).card + 1 := by
  have hlt : o < j := lt_of_mem_pairs hp
  refine card_pairsOver_insert (mem_pairsOver.2 ⟨hp, by simp only; omega, by simp only; omega⟩)
    (by simp [mem_pairsOver]) fun q hq hne => ?_
  exact (mem_pairsOver_succ_of_ne hp (.inr rfl) hq hne).symm

/-- Every bracket is an end of a pair. -/
def AllPaired (ts : Tokens) : Prop :=
  ∀ j k, ts.kind? j = some k → k.isBracket = true → ∃ p ∈ ts.pairs, j = p.1 ∨ j = p.2

namespace AllPaired

theorem opener (h : ts.AllPaired) (hk : ts.kind? j = some k) (hopen : k.isOpener = true) :
    ∃ c, (j, c) ∈ ts.pairs := by
  obtain ⟨p, hp, rfl | rfl⟩ := h j k hk (by cases k <;> cases hopen <;> rfl)
  · exact ⟨p.2, hp⟩
  · obtain ⟨o, c, -, hc, hcloser⟩ := (ts.pairs_spec.isPair p hp).kinds
    rw [getElem?_kinds] at hc
    cases hc.symm.trans hk
    cases o <;> cases hcloser <;> cases hopen

theorem closer (h : ts.AllPaired) (hk : ts.kind? j = some k) (hclose : k.isCloser = true) :
    ∃ o, (o, j) ∈ ts.pairs := by
  obtain ⟨p, hp, rfl | rfl⟩ := h j k hk (by cases k <;> cases hclose <;> rfl)
  · obtain ⟨o, c, ho, -, hcloser⟩ := (ts.pairs_spec.isPair p hp).kinds
    rw [getElem?_kinds] at ho
    cases ho.symm.trans hk
    cases k <;> cases hcloser <;> cases hclose
  · exact ⟨p.1, hp⟩

end AllPaired

/-- Some pair is open at `j` and not at `i`. -/
def Deeper (ts : Tokens) (i j : Nat) : Prop :=
  ∃ p ∈ ts.pairs, (p.1 < j ∧ j < p.2) ∧ ¬ (p.1 < i ∧ i < p.2)

/-- The tokens from `i` through `e` hold whole pairs, and no semicolon before `e` at the level
of `i`. -/
structure EndsAt (ts : Tokens) (i e : Nat) : Prop where
  le : i ≤ e
  around : ∀ p ∈ ts.pairs, p.1 < i → i ≤ p.2 → e < p.2
  within : ∀ p ∈ ts.pairs, i ≤ p.1 → p.1 ≤ e → p.2 ≤ e
  deeper : ∀ m, i ≤ m → m < e → ts.kind? m = some .semicolon → ts.Deeper i m

/-- From `i` to before `j` the search for the end has passed no closer of a pair around `i`, has
left `depth` pairs open, and has seen its last effective token at `last`. -/
structure EndScan (ts : Tokens) (i j depth last : Nat) : Prop where
  le : i ≤ j
  le_last : i ≤ last
  last_lt : last < max j (i + 1)
  depth_eq : (ts.pairsOver i j ts.size).card = depth
  around : ∀ p ∈ ts.pairs, p.1 < i → i ≤ p.2 → j ≤ p.2
  bare : ∀ p ∈ ts.pairs, last < p.2 → j ≤ p.2
  deeper : ∀ m, i ≤ m → m < j → ts.kind? m = some .semicolon → ts.Deeper i m

namespace EndScan

variable {last : Nat}

theorem start (ts : Tokens) (i : Nat) : EndScan ts i i 0 i where
  le := le_rfl
  le_last := le_rfl
  last_lt := by omega
  depth_eq := card_pairsOver_eq_zero (.inl le_rfl)
  around p hp _ h := h
  bare p hp h := h.le
  deeper m h₁ h₂ := by omega

theorem closer_lt (h : EndScan ts i j 0 last) (hp : p ∈ ts.pairs) (h₁ : i ≤ p.1) (h₂ : p.1 < j) :
    p.2 < j := by
  by_contra hle
  have hmem : p ∈ ts.pairsOver i j ts.size :=
    mem_pairsOver.2 ⟨hp, ⟨h₁, h₂⟩, by omega, isPair_bounds (ts.pairs_spec.isPair p hp)⟩
  rw [Finset.card_eq_zero.1 h.depth_eq] at hmem
  exact absurd hmem (Finset.notMem_empty p)

theorem stop (h : EndScan ts i j 0 last) (hij : i < j) : EndsAt ts i last where
  le := h.le_last
  around p hp h₁ h₂ := by
    have hlast := h.last_lt
    have hle := h.around p hp h₁ h₂
    omega
  within p hp h₁ h₂ := by
    have hlast := h.last_lt
    have hclosed := h.closer_lt hp h₁ (by omega)
    have hbare := h.bare p hp
    omega
  deeper m h₁ h₂ := by
    have hlast := h.last_lt
    exact h.deeper m h₁ (by omega)

theorem stop_at_terminator (h : EndScan ts i j 0 last) (hk : ts.kind? j = some k)
    (hbracket : k.isBracket = false) : EndsAt ts i j where
  le := h.le
  around p hp h₁ h₂ := by
    have hne := not_end_of_not_isBracket hk hbracket hp
    have hle := h.around p hp h₁ h₂
    omega
  within p hp h₁ h₂ := by
    have hne := not_end_of_not_isBracket hk hbracket hp
    exact (h.closer_lt hp h₁ (by omega)).le
  deeper := h.deeper

/-- One token further. -/
theorem next (h : EndScan ts i j depth last) {depth' last' : Nat}
    (hdepth : (ts.pairsOver i (j + 1) ts.size).card = depth')
    (haround : ∀ p ∈ ts.pairs, p.1 < i → p.2 ≠ j)
    (hlast : last' = j ∨ last' = last ∧ ∀ p ∈ ts.pairs, p.2 ≠ j)
    (hdeeper : ts.kind? j = some .semicolon → ts.Deeper i j) :
    EndScan ts i (j + 1) depth' last' where
  le := h.le.trans (Nat.le_succ j)
  le_last := by
    have hle := h.le
    have hle_last := h.le_last
    omega
  last_lt := by
    have hlt := h.last_lt
    omega
  depth_eq := hdepth
  around p hp h₁ h₂ := by
    have hne := haround p hp h₁
    have hle := h.around p hp h₁ h₂
    omega
  bare p hp hlt := by
    rcases hlast with rfl | ⟨rfl, hne⟩
    · exact hlt
    · have hle := h.bare p hp hlt
      have hne := hne p hp
      omega
  deeper m h₁ h₂ hm := by
    rcases Nat.lt_succ_iff_lt_or_eq.1 h₂ with h₂ | rfl
    · exact h.deeper m h₁ h₂ hm
    · exact hdeeper hm

/-- A closer that the search passes belongs to an opener it has passed. -/
theorem le_opener (h : EndScan ts i j (depth + 1) last) {o : Nat} (hp : (o, j) ∈ ts.pairs) :
    i ≤ o := by
  have hne : (ts.pairsOver i j ts.size).Nonempty := by
    rw [← Finset.card_pos, h.depth_eq]
    exact Nat.succ_pos depth
  obtain ⟨q, hq⟩ := hne
  obtain ⟨hq, ⟨hi, hlt⟩, hle, -⟩ := mem_pairsOver.1 hq
  rcases apart_of_mem_pairs hq hp with rfl | hapart
  · exact hi
  · simp only at hapart
    omega

theorem next_opener (h : EndScan ts i j depth last) {c : Nat} (hp : (j, c) ∈ ts.pairs) :
    EndScan ts i (j + 1) (depth + 1) j := by
  have hbounds := isPair_bounds (ts.pairs_spec.isPair _ hp)
  refine h.next ?_ ?_ (.inl rfl) fun hsemi => absurd rfl (not_end_of_not_isBracket hsemi rfl hp).1
  · rw [card_pairsOver_of_opener hp h.le hbounds, h.depth_eq]
  · intro q hq hi hj
    have hlt : j < c := lt_of_mem_pairs hp
    have hle := h.le
    rcases apart_of_mem_pairs hp hq with rfl | hapart
    · exact absurd hj hlt.ne'
    · simp only at hapart
      omega

theorem next_closer (h : EndScan ts i j (depth + 1) last) {o : Nat} (hp : (o, j) ∈ ts.pairs) :
    EndScan ts i (j + 1) depth j := by
  have hbounds := isPair_bounds (ts.pairs_spec.isPair _ hp)
  refine h.next ?_ ?_ (.inl rfl) fun hsemi => absurd rfl (not_end_of_not_isBracket hsemi rfl hp).2
  · have hcard := card_pairsOver_of_closer hp (h.le_opener hp) hbounds
    rw [h.depth_eq] at hcard
    omega
  · intro q hq hi hj
    have ho := h.le_opener hp
    have hlt : o < j := lt_of_mem_pairs hp
    rcases apart_of_mem_pairs hp hq with rfl | hapart
    · simp only at hi
      omega
    · simp only at hapart
      omega

theorem next_plain (h : EndScan ts i j depth last) (hk : ts.kind? j = some k)
    (hbracket : k.isBracket = false) (hstop : k = .semicolon → depth ≠ 0) :
    EndScan ts i (j + 1) depth (if k.isEffective then j else last) := by
  have hne := fun p hp => not_end_of_not_isBracket (p := p) hk hbracket hp
  refine h.next ?_ (fun p hp _ => (hne p hp).2) ?_ ?_
  · rw [pairsOver_succ hk hbracket, h.depth_eq]
  · split
    · exact .inl rfl
    · exact .inr ⟨rfl, fun p hp => (hne p hp).2⟩
  · -- below the level of `i` some pair that opens after `i` lies over the semicolon
    intro hsemi
    have hdepth := hstop (Option.some.inj (hk.symm.trans hsemi))
    rw [← h.depth_eq, Finset.card_ne_zero] at hdepth
    obtain ⟨p, hp⟩ := hdepth
    obtain ⟨hp, ⟨h₁, h₂⟩, h₃, -⟩ := mem_pairsOver.1 hp
    have hend := hne p hp
    exact ⟨p, hp, by omega, by omega⟩

end EndScan

theorem isBracket_eq_false (hopen : ¬ k.isOpener = true) (hclose : ¬ k.isCloser = true) :
    k.isBracket = false := by
  simp [Kind.isBracket, hopen, hclose]

theorem exists_kind? (hj : j < ts.size) : ∃ k, ts.kind? j = some k := by
  rw [kind?, get?]
  exact ⟨_, by rw [Array.getElem?_eq_getElem hj]; rfl⟩

/-- The search for the end stops at the level of `i`. -/
theorem statementEndFrom_spec (hpaired : ts.AllPaired) (hi : ts.kindIs Kind.isCloser i = false)
    (hsize : i < ts.size) {last : Nat} (n : Nat) (hn : j + n = ts.size)
    (h : EndScan ts i j depth last) : EndsAt ts i (ts.statementEndFrom j depth last n) := by
  induction n generalizing j depth last with
  | zero =>
    -- at the end of the source no pair is open
    obtain rfl : depth = 0 := h.depth_eq.symm.trans (card_pairsOver_eq_zero (.inr (by omega)))
    exact h.stop (by omega)
  | succ n ih =>
    obtain ⟨k, hk⟩ := exists_kind? (show j < ts.size by omega)
    rw [statementEndFrom, hk]
    simp only
    split
    · rename_i hopen
      obtain ⟨c, hp⟩ := hpaired.opener hk hopen
      rw [show k.isEffective = true by cases k <;> cases hopen <;> rfl]
      exact ih (by omega) (h.next_opener hp)
    · rename_i hopen
      split
      · rename_i hclose
        obtain ⟨o, hp⟩ := hpaired.closer hk hclose
        cases depth with
        | zero =>
          have hne : i ≠ j := by
            rintro rfl
            rw [kindIs, hk] at hi
            exact absurd hclose (by simpa using hi)
          rw [if_pos rfl]
          exact h.stop (lt_of_le_of_ne h.le hne)
        | succ depth =>
          rw [if_neg (Nat.succ_ne_zero depth),
            show k.isEffective = true by cases k <;> cases hclose <;> rfl]
          exact ih (by omega) (h.next_closer hp)
      · rename_i hclose
        have hbracket := isBracket_eq_false hopen hclose
        split
        · rename_i hterminator
          simp only [Bool.and_eq_true, decide_eq_true_eq] at hterminator
          obtain ⟨rfl, -⟩ := hterminator
          exact h.stop_at_terminator hk hbracket
        · rename_i hterminator
          refine ih (by omega) (h.next_plain hk hbracket ?_)
          rintro rfl rfl
          exact hterminator rfl

/-! ### The start of a statement -/

/-- The tokens from `s` to before `i` hold whole pairs, and no semicolon at the level of `i`. -/
structure StartsAt (ts : Tokens) (s i : Nat) : Prop where
  le : s ≤ i
  around : ∀ p ∈ ts.pairs, s ≤ p.1 → p.1 < i → p.2 < i
  within : ∀ p ∈ ts.pairs, s ≤ p.2 → p.2 < i → s ≤ p.1
  deeper : ∀ m, s ≤ m → m < i → ts.kind? m = some .semicolon → ts.Deeper i m

/-- From `i` down to `j` the search for the start has passed no opener of a pair around `i`, has
left `depth` pairs open, and would begin the statement at `first`. -/
structure StartScan (ts : Tokens) (i j depth first : Nat) : Prop where
  le : j ≤ first
  first_le : first ≤ i
  depth_eq : (ts.pairsOver 0 j i).card = depth
  around : ∀ p ∈ ts.pairs, j ≤ p.1 → p.1 < i → p.2 < i
  /-- Inside a pair the search does not note its start: it does so at the pair's opener. -/
  bare : depth = 0 → ∀ p ∈ ts.pairs, j ≤ p.1 → first ≤ p.1
  deeper : ∀ m, j ≤ m → m < i → ts.kind? m = some .semicolon → ts.Deeper i m

namespace StartScan

variable {first : Nat}

theorem start (ts : Tokens) (i : Nat) : StartScan ts i i 0 i where
  le := le_rfl
  first_le := le_rfl
  depth_eq := card_pairsOver_eq_zero (.inr le_rfl)
  around p hp h₁ h₂ := by omega
  bare _ p hp h := h
  deeper m h₁ h₂ := by omega

theorem stop (h : StartScan ts i j 0 first) : StartsAt ts first i where
  le := h.first_le
  around p hp h₁ h₂ := h.around p hp (h.le.trans h₁) h₂
  within p hp h₁ h₂ := by
    by_contra hlt
    have hle := h.le
    have hbare := h.bare rfl p hp
    have hmem : p ∈ ts.pairsOver 0 j i := mem_pairsOver.2 ⟨hp, by omega, by omega⟩
    rw [Finset.card_eq_zero.1 h.depth_eq] at hmem
    exact absurd hmem (Finset.notMem_empty p)
  deeper m h₁ h₂ := h.deeper m (h.le.trans h₁) h₂

/-- One token further down. -/
theorem next (h : StartScan ts i (j + 1) depth first) {depth' first' : Nat}
    (hdepth : (ts.pairsOver 0 j i).card = depth')
    (haround : ∀ p ∈ ts.pairs, p.1 = j → p.2 < i)
    (hfirst : first' = j ∨ first' = first ∧ (depth' = 0 → depth = 0 ∧ ∀ p ∈ ts.pairs, p.1 ≠ j))
    (hdeeper : ts.kind? j = some .semicolon → ts.Deeper i j) : StartScan ts i j depth' first' where
  le := by
    have hle := h.le
    omega
  first_le := by
    have hle := h.le
    have hle_first := h.first_le
    omega
  depth_eq := hdepth
  around p hp h₁ h₂ := by
    rcases Nat.eq_or_lt_of_le h₁ with hj | h₁
    · exact haround p hp hj.symm
    · exact h.around p hp h₁ h₂
  bare hzero p hp hle := by
    rcases hfirst with rfl | ⟨rfl, hlevel⟩
    · exact hle
    · obtain ⟨hzero, hne⟩ := hlevel hzero
      have hne := hne p hp
      exact h.bare hzero p hp (by omega)
  deeper m h₁ h₂ hm := by
    rcases Nat.eq_or_lt_of_le h₁ with rfl | h₁
    · exact hdeeper hm
    · exact h.deeper m h₁ h₂ hm

theorem closer_lt (h : StartScan ts i (j + 1) (depth + 1) first) {c : Nat}
    (hp : (j, c) ∈ ts.pairs) : c < i := by
  have hne : (ts.pairsOver 0 (j + 1) i).Nonempty := by
    rw [← Finset.card_pos, h.depth_eq]
    exact Nat.succ_pos depth
  obtain ⟨q, hq⟩ := hne
  obtain ⟨hq, ⟨-, hlt⟩, hle, hi⟩ := mem_pairsOver.1 hq
  have hlt' : j < c := lt_of_mem_pairs hp
  rcases apart_of_mem_pairs hq hp with rfl | hapart
  · exact hi
  · simp only at hapart
    omega

theorem next_closer (h : StartScan ts i (j + 1) depth first) {o : Nat} (hp : (o, j) ∈ ts.pairs) :
    StartScan ts i j (depth + 1) first := by
  have hlt : o < j := lt_of_mem_pairs hp
  have hji : j < i := h.le.trans h.first_le
  refine h.next ?_ ?_ (.inr ⟨rfl, by simp⟩) fun hsemi =>
    absurd rfl (not_end_of_not_isBracket hsemi rfl hp).2
  · rw [card_pairsOver_of_closer hp (Nat.zero_le o) hji, h.depth_eq]
  · intro q hq hj
    rcases apart_of_mem_pairs hp hq with rfl | hapart
    · exact absurd hj hlt.ne
    · have hlt' := lt_of_mem_pairs hq
      simp only at hapart
      omega

theorem next_opener (h : StartScan ts i (j + 1) (depth + 1) first) {c : Nat}
    (hp : (j, c) ∈ ts.pairs) : StartScan ts i j depth (if depth + 1 = 1 then j else first) := by
  have hc := h.closer_lt hp
  refine h.next ?_ ?_ ?_ fun hsemi => absurd rfl (not_end_of_not_isBracket hsemi rfl hp).1
  · have hcard := card_pairsOver_of_opener hp (Nat.zero_le j) hc
    rw [h.depth_eq] at hcard
    omega
  · intro q hq hj
    rcases apart_of_mem_pairs hp hq with rfl | hapart
    · exact hc
    · have hlt' := lt_of_mem_pairs hq
      have hlt : j < c := lt_of_mem_pairs hp
      simp only at hapart
      omega
  · split
    · exact .inl rfl
    · exact .inr ⟨rfl, by omega⟩

theorem next_plain (h : StartScan ts i (j + 1) depth first) (hk : ts.kind? j = some k)
    (hbracket : k.isBracket = false) (hstop : k = .semicolon → depth ≠ 0) {first' : Nat}
    (hfirst : first' = j ∨ first' = first) : StartScan ts i j depth first' := by
  have hne := fun p hp => not_end_of_not_isBracket (p := p) hk hbracket hp
  refine h.next ?_ (fun p hp hj => absurd hj (hne p hp).1) ?_ ?_
  · rw [← pairsOver_succ hk hbracket, h.depth_eq]
  · exact hfirst.imp id fun heq => ⟨heq, fun hzero => ⟨hzero, fun p hp => (hne p hp).1⟩⟩
  · intro hsemi
    have hdepth := hstop (Option.some.inj (hk.symm.trans hsemi))
    rw [← h.depth_eq, Finset.card_ne_zero] at hdepth
    obtain ⟨p, hp⟩ := hdepth
    obtain ⟨hp, ⟨-, h₁⟩, h₂, h₃⟩ := mem_pairsOver.1 hp
    have hend := hne p hp
    exact ⟨p, hp, by omega, by omega⟩

end StartScan

/-- The search for the start stops at the level of `i`. -/
theorem statementStartFrom_spec (hpaired : ts.AllPaired) (hsize : i ≤ ts.size) {first : Nat}
    (h : StartScan ts i j depth first) : StartsAt ts (ts.statementStartFrom depth first j) i := by
  induction j generalizing depth first with
  | zero =>
    obtain rfl : depth = 0 := h.depth_eq.symm.trans (card_pairsOver_eq_zero (.inl le_rfl))
    exact h.stop
  | succ j ih =>
    have hji : j < i := h.le.trans h.first_le
    obtain ⟨k, hk⟩ := exists_kind? (show j < ts.size by omega)
    rw [statementStartFrom, hk]
    simp only
    split
    · rename_i hblock
      simp only [Bool.and_eq_true, decide_eq_true_eq] at hblock
      obtain ⟨⟨-, rfl⟩, -⟩ := hblock
      exact h.stop
    · split
      · rename_i hclose
        obtain ⟨o, hp⟩ := hpaired.closer hk hclose
        exact ih (h.next_closer hp)
      · rename_i hclose
        split
        · rename_i hopen
          obtain ⟨c, hp⟩ := hpaired.opener hk hopen
          cases depth with
          | zero =>
            rw [if_pos rfl]
            exact h.stop
          | succ depth =>
            rw [if_neg (Nat.succ_ne_zero depth)]
            exact ih (h.next_opener hp)
        · rename_i hopen
          have hbracket := isBracket_eq_false hopen hclose
          split
          · rename_i hzero
            subst hzero
            split
            · exact h.stop
            · rename_i hprecedes
              refine ih (h.next_plain hk hbracket ?_ ?_)
              · rintro rfl
                exact absurd rfl hprecedes
              · split
                · exact .inl rfl
                · exact .inr rfl
          · rename_i hdepth
            exact ih (h.next_plain hk hbracket (fun _ => hdepth) (.inr rfl))

/-- Every bracket is tied to a partner. -/
def BracketsTied (ts : Tokens) : Prop :=
  ∀ j < ts.size, ts.kindIs Kind.isBracket j = true →
    (ts.links j).bracketOpener.isSome = true ∧ (ts.links j).bracketCloser.isSome = true

instance (ts : Tokens) : Decidable ts.BracketsTied :=
  inferInstanceAs (Decidable (∀ j < ts.size, _ → _ ∧ _))

/-- What the bounds of the statement at `i` are: they lie around `i`, they cut no bracket pair, and
before the last token no semicolon stands inside the same bracket pairs as `i`. -/
structure Statement.Bounds (s : Statement) (ts : Tokens) (i : Nat) : Prop where
  first_le : s.first ≤ i
  le_last : i ≤ s.last
  uncut : ∀ o c, ts.CarriesPair o o c → (s.first ≤ o ∧ o ≤ s.last ↔ s.first ≤ c ∧ c ≤ s.last)
  single : ∀ j, s.first ≤ j → j < s.last → ts.kind? j = some .semicolon →
    ¬ ∀ o c, ts.Surrounds o c j ↔ ts.Surrounds o c i

variable {source : String}

theorem BracketsTied.allPaired (h : (ofSource source).BracketsTied) :
    (ofSource source).AllPaired := by
  intro j k hk hbracket
  have hj : j < (ofSource source).size := lt_size_of_kinds ((getElem?_kinds _ j).trans hk)
  obtain ⟨hopener, hcloser⟩ := h j hj (by rw [kindIs, hk]; exact hbracket)
  obtain ⟨o, ho⟩ := Option.isSome_iff_exists.1 hopener
  obtain ⟨c, hc⟩ := Option.isSome_iff_exists.1 hcloser
  have hcarries : (ofSource source).CarriesPair j o c := by
    rw [CarriesPair, bracketLinks, Links.brackets, ho, hc]
  obtain ⟨hpair, hend⟩ := carriesPair_iff.1 hcarries
  exact ⟨(o, c), hpair, hend⟩

theorem Deeper.not_same_level (h : (ofSource source).Deeper i j) :
    ¬ ∀ o c, (ofSource source).Surrounds o c j ↔ (ofSource source).Surrounds o c i := by
  obtain ⟨p, hp, hj, hi⟩ := h
  intro hsame
  exact hi (surrounds_iff.1 ((hsame p.1 p.2).1 (surrounds_iff.2 ⟨hp, hj⟩))).2

theorem StartsAt.uncut {s e : Nat} (hstart : StartsAt ts s i) (hend : EndsAt ts i e)
    (hp : p ∈ ts.pairs) : s ≤ p.1 ∧ p.1 ≤ e ↔ s ≤ p.2 ∧ p.2 ≤ e := by
  have hlt := lt_of_mem_pairs hp
  have hle := hstart.le
  have hle' := hend.le
  constructor
  · rintro ⟨h₁, h₂⟩
    have hleft := hstart.around p hp h₁
    have hright := hend.within p hp
    omega
  · rintro ⟨h₁, h₂⟩
    have hleft := hstart.within p hp h₁
    have hright := hend.around p hp
    omega

/-- Where all brackets are tied, the statement at a token other than a closer is cut out of the
source at no bracket and at no semicolon of its own level. -/
theorem statementAt_bounds (htied : (ofSource source).BracketsTied)
    (hsize : i < (ofSource source).size) (hi : (ofSource source).kindIs Kind.isCloser i = false) :
    ((ofSource source).statementAt i).Bounds (ofSource source) i := by
  have hpaired := htied.allPaired
  have hstart := statementStartFrom_spec hpaired hsize.le (.start _ i)
  have hend := statementEndFrom_spec hpaired hi hsize ((ofSource source).size - i) (by omega)
    (.start _ i)
  refine ⟨hstart.le, hend.le, ?_, ?_⟩
  · intro o c hcarries
    exact hstart.uncut hend (carriesPair_iff.1 hcarries).1
  · intro j h₁ h₂ hj
    rcases Nat.lt_or_ge j i with hji | hij
    · exact (hstart.deeper j h₁ hji hj).not_same_level
    · exact (hend.deeper j hij h₂ hj).not_same_level

/-- A statement with a closure in it, seen from its assignment. -/
theorem assigned_call_bounds :
    (ofSource "<?php $a = f(function () { g(); }); $b;").BracketsTied ∧
    (ofSource "<?php $a = f(function () { g(); }); $b;").statementAt 4 = ⟨2, 22⟩ ∧
    (⟨2, 22⟩ : Statement).Bounds (ofSource "<?php $a = f(function () { g(); }); $b;") 4 := by
  have htied : (ofSource "<?php $a = f(function () { g(); }); $b;").BracketsTied := by
    decide +kernel
  have hbounds := statementAt_bounds (i := 4) htied (by decide +kernel) (by decide +kernel)
  have heq : (ofSource "<?php $a = f(function () { g(); }); $b;").statementAt 4 = ⟨2, 22⟩ := by
    decide +kernel
  rw [heq] at hbounds
  exact ⟨htied, heq, hbounds⟩

end PhpStyle.Tokens
