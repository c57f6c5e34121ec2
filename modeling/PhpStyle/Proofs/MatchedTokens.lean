import Mathlib.Data.List.Forall2
import PhpStyle.Proofs.DocFixes
import PhpStyle.Proofs.ParenOwners

/-!
# Two sources with the same code

Two token sequences that differ in blanks and comments only are compared through their effective
tokens: those at `i` and `j` are matched when as many effective tokens stand before the one as before
the other (`Matched`). Places between tokens are compared by the same count (`rank`), so that a
search started at two places of one rank stops at matched tokens (`Matched.findNextEffective`,
`SameCode.lastBefore`).
-/

namespace PhpStyle

/-- How many effective tokens stand before `i`. -/
def rank (ks : List Kind) (i : Nat) : Nat :=
  (ks.take i).countP Kind.isEffective

section Rank

variable {ks : List Kind} {i j s : Nat}

instance : Decidable (EffectiveAt ks i) :=
  decidable_of_iff ((ks[i]?).any Kind.isEffective = true) (by simp [EffectiveAt, Option.any_eq_true])

theorem rank_mono (h : i ≤ j) : rank ks i ≤ rank ks j :=
  (List.take_prefix_take_left h).sublist.countP_le

theorem rank_max (ks : List Kind) (i j : Nat) : rank ks (max i j) = max (rank ks i) (rank ks j) := by
  rcases Nat.le_total i j with h | h
  · rw [Nat.max_eq_right h, Nat.max_eq_right (rank_mono h)]
  · rw [Nat.max_eq_left h, Nat.max_eq_left (rank_mono h)]

theorem rank_succ (h : EffectiveAt ks i) : rank ks (i + 1) = rank ks i + 1 := by
  obtain ⟨k, hk, heff⟩ := h
  rw [rank, rank, List.take_add_one, hk, List.countP_append]
  simp [heff]

theorem rank_succ_of_trivia (h : ¬ EffectiveAt ks i) : rank ks (i + 1) = rank ks i := by
  rw [rank, rank, List.take_add_one, List.countP_append]
  cases hk : ks[i]? with
  | none => simp
  | some k =>
    have heff : k.isEffective = false := by
      rw [← Bool.not_eq_true]
      exact fun heff => h ⟨k, hk, heff⟩
    simp [heff]

theorem rank_lt_iff (h : EffectiveAt ks i) : rank ks i < rank ks s ↔ i < s := by
  refine ⟨fun hlt => Nat.lt_of_not_le fun hle => ?_, fun hlt => ?_⟩
  · exact absurd (rank_mono hle) (Nat.not_le.2 hlt)
  · rw [Nat.lt_iff_add_one_le, ← rank_succ h]
    exact rank_mono hlt

theorem eq_of_rank_eq (hi : EffectiveAt ks i) (hj : EffectiveAt ks j) (h : rank ks i = rank ks j) :
    i = j := by
  rcases Nat.lt_trichotomy i j with hlt | heq | hlt
  · exact absurd h ((rank_lt_iff hi).2 hlt).ne
  · exact heq
  · exact absurd h ((rank_lt_iff hj).2 hlt).ne'

theorem exists_rank_eq {r : Nat} (h : r < rank ks s) : ∃ e, e < s ∧ EffectiveAt ks e ∧ rank ks e = r := by
  induction s with
  | zero => cases h
  | succ s ih =>
    by_cases heff : EffectiveAt ks s
    · rw [rank_succ heff] at h
      rcases Nat.lt_or_eq_of_le (Nat.le_of_lt_succ h) with hlt | heq
      · obtain ⟨e, hes, he⟩ := ih hlt
        exact ⟨e, Nat.lt_succ_of_lt hes, he⟩
      · exact ⟨s, Nat.lt_succ_self s, heff, heq.symm⟩
    · rw [rank_succ_of_trivia heff] at h
      obtain ⟨e, hes, he⟩ := ih h
      exact ⟨e, Nat.lt_succ_of_lt hes, he⟩

theorem getElem?_filter_rank {l : List Token} {t : Token} (h : l[i]? = some t)
    (heff : Tokens.isEffective t = true) :
    (l.filter Tokens.isEffective)[rank (l.map (·.kind)) i]? = some t := by
  induction l generalizing i with
  | nil => cases h
  | cons u l ih =>
    cases i with
    | zero =>
      obtain rfl : u = t := by simpa using h
      simp [rank, heff]
    | succ i =>
      have hi := ih (by simpa using h)
      unfold Tokens.isEffective at hi ⊢
      simp only [List.filter_cons, rank, List.map_cons, List.take_succ_cons, List.countP_cons] at hi ⊢
      split <;> simpa using hi

end Rank

/-- The tokens at `i` and `j` are effective, and as many effective ones stand before them. -/
structure Matched (ts us : Tokens) (i j : Nat) : Prop where
  left : EffectiveAt ts.kinds i
  right : EffectiveAt us.kinds j
  rank_eq : rank ts.kinds i = rank us.kinds j

/-- The ties of two tokens of code are the same up to `R`. -/
structure Links.Correspond (R : Nat → Nat → Prop) (l l' : Links) : Prop where
  bracketOpener : Option.Rel R l.bracketOpener l'.bracketOpener
  bracketCloser : Option.Rel R l.bracketCloser l'.bracketCloser
  parenOpener : Option.Rel R l.parenOpener l'.parenOpener
  parenCloser : Option.Rel R l.parenCloser l'.parenCloser
  parenOwner : Option.Rel R l.parenOwner l'.parenOwner
  scopeOpener : Option.Rel R l.scopeOpener l'.scopeOpener
  scopeCloser : Option.Rel R l.scopeCloser l'.scopeCloser
  scopeOwner : Option.Rel R l.scopeOwner l'.scopeOwner

/-- Sequences with the same effective tokens, tied to each other in the same way. -/
structure SameCode (ts us : Tokens) : Prop where
  code_eq : ts.code = us.code
  links : ∀ i j, Matched ts us i j → (ts.links i).Correspond (Matched ts us) (us.links j)

section Decidable

variable {ts us : Tokens} {i j : Nat} {R : Nat → Nat → Prop} [DecidableRel R]

instance : Decidable (Matched ts us i j) :=
  decidable_of_iff (EffectiveAt ts.kinds i ∧ EffectiveAt us.kinds j ∧ rank ts.kinds i = rank us.kinds j)
    ⟨fun h => ⟨h.1, h.2.1, h.2.2⟩, fun h => ⟨h.left, h.right, h.rank_eq⟩⟩

instance decidableOptionRel : (a b : Option Nat) → Decidable (Option.Rel R a b)
  | none, none => isTrue .none
  | none, some _ => isFalse (by rintro ⟨⟩)
  | some _, none => isFalse (by rintro ⟨⟩)
  | some a, some b => decidable_of_iff (R a b) ⟨.some, by rintro ⟨h⟩; exact h⟩

instance (l l' : Links) : Decidable (l.Correspond R l') :=
  decidable_of_iff (Option.Rel R l.bracketOpener l'.bracketOpener ∧
      Option.Rel R l.bracketCloser l'.bracketCloser ∧ Option.Rel R l.parenOpener l'.parenOpener ∧
      Option.Rel R l.parenCloser l'.parenCloser ∧ Option.Rel R l.parenOwner l'.parenOwner ∧
      Option.Rel R l.scopeOpener l'.scopeOpener ∧ Option.Rel R l.scopeCloser l'.scopeCloser ∧
      Option.Rel R l.scopeOwner l'.scopeOwner) <| by
    constructor
    · rintro ⟨h₁, h₂, h₃, h₄, h₅, h₆, h₇, h₈⟩
      exact ⟨h₁, h₂, h₃, h₄, h₅, h₆, h₇, h₈⟩
    · rintro ⟨h₁, h₂, h₃, h₄, h₅, h₆, h₇, h₈⟩
      exact ⟨h₁, h₂, h₃, h₄, h₅, h₆, h₇, h₈⟩

end Decidable

theorem lt_size_of_effectiveAt {ts : Tokens} {i : Nat} (h : EffectiveAt ts.kinds i) : i < ts.size := by
  obtain ⟨k, hk, -⟩ := h
  exact Tokens.lt_size_of_kinds hk

theorem SameCode.of_bounded {ts us : Tokens} (hcode : ts.code = us.code)
    (hlinks : ∀ i < ts.size, ∀ j < us.size, Matched ts us i j →
      (ts.links i).Correspond (Matched ts us) (us.links j)) : SameCode ts us :=
  ⟨hcode, fun i j h => hlinks i (lt_size_of_effectiveAt h.left) j (lt_size_of_effectiveAt h.right) h⟩

theorem rel_bind {α β γ δ : Type} {R : α → β → Prop} {S : γ → δ → Prop} {a : Option α} {b : Option β}
    {f : α → Option γ} {g : β → Option δ} (h : Option.Rel R a b)
    (hfg : ∀ x y, R x y → Option.Rel S (f x) (g y)) : Option.Rel S (a.bind f) (b.bind g) := by
  cases h with
  | none => exact .none
  | some h => exact hfg _ _ h

theorem exists_of_rel {α β : Type} {R : α → β → Prop} {a : Option α} {b : Option β} {x : α}
    (h : Option.Rel R a b) (ha : a = some x) : ∃ y, b = some y ∧ R x y := by
  subst ha
  cases h with
  | some h => exact ⟨_, rfl, h⟩

theorem eq_none_of_rel {α β : Type} {R : α → β → Prop} {a : Option α} {b : Option β}
    (h : Option.Rel R a b) (ha : a = none) : b = none := by
  subst ha
  cases h
  rfl

theorem rel_guard {α β : Type} {S : α → β → Prop} {p q : Prop} [Decidable p] [Decidable q]
    {f : Option α} {g : Option β} (hpq : p ↔ q) (h : p → q → Option.Rel S f g) :
    Option.Rel S ((guard p : Option Unit).bind fun _ => f) ((guard q : Option Unit).bind fun _ => g) := by
  by_cases hp : p
  · have hq := hpq.1 hp
    simpa only [guard, hp, hq, if_true, Option.pure_def, Option.bind_some] using h hp hq
  · have hq := mt hpq.2 hp
    simp only [guard, hp, hq, if_false]
    exact .none

namespace SameCode

variable {ts us : Tokens} {i j s s' : Nat}

/-- Matched tokens have the same kind and content. -/
theorem get? (h : SameCode ts us) (hij : Matched ts us i j) :
    ∃ t u, ts.get? i = some t ∧ us.get? j = some u ∧ t.kind = u.kind ∧ t.content = u.content ∧
      t.kind.isEffective = true ∧ t.links.Correspond (Matched ts us) u.links := by
  obtain ⟨t, ht, htrue⟩ := (Option.any_eq_true _ _).1 (Tokens.any_isEffective_iff.2 hij.left)
  obtain ⟨u, hu, hutrue⟩ := (Option.any_eq_true _ _).1 (Tokens.any_isEffective_iff.2 hij.right)
  have hlinks := h.links i j hij
  rw [Tokens.links, ht, Tokens.links, hu] at hlinks
  have hcode : ∀ {vs : Tokens} {k : Nat} {v : Token}, vs.get? k = some v → Tokens.isEffective v = true →
      vs.code[rank vs.kinds k]? = some (v.kind, v.content) := by
    intro vs k v hv heff
    rw [Tokens.get?, ← Array.getElem?_toList] at hv
    rw [Tokens.code, List.getElem?_map, Tokens.kinds, getElem?_filter_rank hv heff]
    rfl
  have hleft := hcode ht htrue
  rw [hij.rank_eq, h.code_eq, hcode hu hutrue] at hleft
  obtain ⟨hkind, hcontent⟩ := Prod.mk.inj (Option.some.inj hleft)
  exact ⟨t, u, ht, hu, hkind.symm, hcontent.symm, htrue, hlinks⟩

theorem kindIs (h : SameCode ts us) (hij : Matched ts us i j) (p : Kind → Bool) :
    ts.kindIs p i = us.kindIs p j := by
  obtain ⟨t, u, ht, hu, hkind, -⟩ := h.get? hij
  simp [Tokens.kindIs, Tokens.kind?, ht, hu, hkind]

theorem content (h : SameCode ts us) (hij : Matched ts us i j) : ts.content i = us.content j := by
  obtain ⟨t, u, ht, hu, -, hcontent, -⟩ := h.get? hij
  simp [Tokens.content, ht, hu, hcontent]

theorem rank_size (h : SameCode ts us) : rank ts.kinds ts.size = rank us.kinds us.size := by
  have hcount : ∀ vs : Tokens, rank vs.kinds vs.size = vs.code.length := by
    intro vs
    have hsize : vs.size = vs.kinds.length := by simp [Tokens.size, Tokens.kinds]
    rw [rank, hsize, List.take_length, Tokens.kinds, List.countP_map, List.countP_eq_length_filter,
      Tokens.code, List.length_map]
    rfl
  rw [hcount, hcount, h.code_eq]

theorem exists_right (h : SameCode ts us) (hi : EffectiveAt ts.kinds i) : ∃ j, Matched ts us i j := by
  have hlt := (rank_lt_iff hi).2 (lt_size_of_effectiveAt hi)
  rw [h.rank_size] at hlt
  obtain ⟨j, -, hj, hrank⟩ := exists_rank_eq hlt
  exact ⟨j, hi, hj, hrank.symm⟩

theorem exists_left (h : SameCode ts us) (hj : EffectiveAt us.kinds j) : ∃ i, Matched ts us i j := by
  have hlt := (rank_lt_iff hj).2 (lt_size_of_effectiveAt hj)
  rw [← h.rank_size] at hlt
  obtain ⟨i, -, hi, hrank⟩ := exists_rank_eq hlt
  exact ⟨i, hi, hj, hrank⟩

end SameCode

namespace Matched

variable {ts us : Tokens} {i j s s' : Nat}

theorem rank_succ_eq (h : Matched ts us i j) : rank ts.kinds (i + 1) = rank us.kinds (j + 1) := by
  rw [rank_succ h.left, rank_succ h.right, h.rank_eq]

theorem lt_iff (h : Matched ts us i j) (hs : rank ts.kinds s = rank us.kinds s') : i < s ↔ j < s' := by
  rw [← rank_lt_iff h.left, ← rank_lt_iff h.right, h.rank_eq, hs]

end Matched

/-! ### Searches -/

namespace Tokens

variable {ts : Tokens} {p : Token → Bool} {i k s e : Nat}

theorem findNextEffective_none (ts : Tokens) (i : Nat) :
    ts.findNextEffective i none = ts.findNextEffective i (some ts.size) := by
  simp [findNextEffective, findNext]

theorem rank_of_findNextEffective (h : ts.findNextEffective i (some s) = some e) :
    EffectiveAt ts.kinds e ∧ e < s ∧ rank ts.kinds e = rank ts.kinds i := by
  have hlt := scanUp_lt h
  obtain ⟨hie, he, hno⟩ := scanUp_eq_some h
  refine ⟨any_isEffective_iff.1 he, ?_, Nat.le_antisymm (Nat.not_lt.1 fun hgt => ?_) (rank_mono hie)⟩
  · simp only [Option.getD_some] at hlt
    omega
  · obtain ⟨k, hke, hk, hrank⟩ := exists_rank_eq hgt
    refine hno k (Nat.not_lt.1 fun hki => ?_) hke (any_isEffective_iff.2 hk)
    exact absurd hrank ((rank_lt_iff hk).2 hki).ne

theorem exists_findNextEffective (h : rank ts.kinds i < rank ts.kinds s) :
    ∃ e, ts.findNextEffective i (some s) = some e := by
  obtain ⟨e, hes, he, hrank⟩ := exists_rank_eq h
  have hie : i ≤ e := Nat.not_lt.1 fun hei => absurd hrank ((rank_lt_iff he).2 hei).ne
  have hsize := lt_size_of_effectiveAt he
  refine ⟨e, scanUp_eq_of hie (by simp only [Option.getD_some]; omega) (any_isEffective_iff.2 he) ?_⟩
  intro k hik hke hk
  have hlt := (rank_lt_iff (any_isEffective_iff.1 hk)).2 hke
  have hle : rank ts.kinds i ≤ rank ts.kinds k := rank_mono hik
  omega

/-- The last token before `i` that satisfies `p`. -/
def lastBefore (ts : Tokens) (p : Token → Bool) (i : Nat) : Option Nat :=
  if i = 0 then none else ts.findPrevious p (i - 1) none

theorem previousEffective_eq (ts : Tokens) (i : Nat) :
    ts.previousEffective i = ts.lastBefore isEffective i :=
  rfl

theorem lastBefore_eq_some (h : ts.lastBefore p i = some k) :
    k < i ∧ (ts.get? k).any p = true ∧ ∀ m, k < m → m < i → ¬ (ts.get? m).any p = true := by
  rw [lastBefore] at h
  split at h
  · cases h
  · obtain ⟨hle, hk, hno⟩ := scanDown_eq_some h
    refine ⟨by omega, hk, fun m hkm hmi hm => ?_⟩
    have hsize := lt_size_of_any hm
    exact hno m hkm (by omega) hm

theorem exists_lastBefore (hki : k < i) (hk : (ts.get? k).any p = true) :
    ∃ m, ts.lastBefore p i = some m ∧ k ≤ m := by
  cases hm : ts.lastBefore p i with
  | some m =>
    refine ⟨m, rfl, Nat.not_lt.1 fun hmk => ?_⟩
    exact (lastBefore_eq_some hm).2.2 k hmk hki hk
  | none =>
    rw [lastBefore, if_neg (by omega)] at hm
    have hsize := lt_size_of_any hk
    refine absurd hk (scanDown_eq_none hm k ?_ ?_)
    · omega
    · simp only [Option.getD_none]
      omega

end Tokens

theorem Matched.findNextEffective {ts us : Tokens} {i j s s' : Nat} (hij : rank ts.kinds i = rank us.kinds j)
    (hs : rank ts.kinds s = rank us.kinds s') :
    Option.Rel (Matched ts us) (ts.findNextEffective i (some s)) (us.findNextEffective j (some s')) := by
  cases hl : ts.findNextEffective i (some s) with
  | some e =>
    obtain ⟨he, hes, hrank⟩ := Tokens.rank_of_findNextEffective hl
    have hlt := (rank_lt_iff he).2 hes
    rw [hrank, hij, hs] at hlt
    obtain ⟨e', hr⟩ := Tokens.exists_findNextEffective hlt
    obtain ⟨he', -, hrank'⟩ := Tokens.rank_of_findNextEffective hr
    rw [hr]
    exact .some ⟨he, he', by rw [hrank, hrank', hij]⟩
  | none =>
    cases hr : us.findNextEffective j (some s') with
    | none => exact .none
    | some e' =>
      obtain ⟨he', hes', hrank'⟩ := Tokens.rank_of_findNextEffective hr
      have hlt := (rank_lt_iff he').2 hes'
      rw [hrank', ← hij, ← hs] at hlt
      obtain ⟨e, he⟩ := Tokens.exists_findNextEffective hlt
      cases hl.symm.trans he

namespace SameCode

variable {ts us : Tokens} {i j : Nat}

theorem nextEffective (h : SameCode ts us) (hij : Matched ts us i j) :
    Option.Rel (Matched ts us) (ts.nextEffective i) (us.nextEffective j) := by
  rw [Tokens.nextEffective, Tokens.nextEffective, Tokens.findNextEffective_none,
    Tokens.findNextEffective_none]
  exact Matched.findNextEffective hij.rank_succ_eq h.rank_size

/-- Searches backwards, for effective tokens of a kind that matched tokens have in common. -/
theorem lastBefore (h : SameCode ts us) (hij : Matched ts us i j) {p q : Token → Bool}
    (hp : ∀ t, p t = true → t.kind.isEffective = true) (hq : ∀ t, q t = true → t.kind.isEffective = true)
    (hpq : ∀ k l, Matched ts us k l → (ts.get? k).any p = (us.get? l).any q) :
    Option.Rel (Matched ts us) (ts.lastBefore p i) (us.lastBefore q j) := by
  have heff : ∀ {vs : Tokens} {r : Token → Bool} {k : Nat}, (∀ t, r t = true → t.kind.isEffective = true) →
      (vs.get? k).any r = true → EffectiveAt vs.kinds k := by
    intro vs r k hr hk
    obtain ⟨t, ht, htrue⟩ := (Option.any_eq_true _ _).1 hk
    refine Tokens.any_isEffective_iff.1 ?_
    rw [ht]
    exact hr t htrue
  cases hl : ts.lastBefore p i with
  | some k =>
    obtain ⟨hki, hk, hno⟩ := Tokens.lastBefore_eq_some hl
    obtain ⟨l, hkl⟩ := h.exists_right (heff hp hk)
    obtain ⟨m, hm, hlm⟩ := Tokens.exists_lastBefore ((hkl.lt_iff hij.rank_eq).1 hki) (hpq k l hkl ▸ hk)
    obtain ⟨hmj, hmq, -⟩ := Tokens.lastBefore_eq_some hm
    obtain ⟨n, hnm⟩ := h.exists_left (heff hq hmq)
    rw [hm]
    -- no token behind `k` is found on the left, so none behind `l` on the right
    rcases Nat.lt_or_eq_of_le hlm with hlm | rfl
    · exact absurd (hpq n m hnm ▸ hmq)
        (hno n ((hkl.lt_iff hnm.rank_eq).2 hlm) ((hnm.lt_iff hij.rank_eq).2 hmj))
    · exact .some hkl
  | none =>
    cases hr : us.lastBefore q j with
    | none => exact .none
    | some m =>
      obtain ⟨hmj, hm, -⟩ := Tokens.lastBefore_eq_some hr
      obtain ⟨n, hnm⟩ := h.exists_left (heff hq hm)
      obtain ⟨k, hk, -⟩ := Tokens.exists_lastBefore ((hnm.lt_iff hij.rank_eq).2 hmj) (hpq n m hnm ▸ hm)
      cases hl.symm.trans hk

theorem previousEffective (h : SameCode ts us) (hij : Matched ts us i j) :
    Option.Rel (Matched ts us) (ts.previousEffective i) (us.previousEffective j) := by
  rw [Tokens.previousEffective_eq, Tokens.previousEffective_eq]
  refine h.lastBefore hij (fun _ ht => ht) (fun _ ht => ht) fun k l hkl => ?_
  obtain ⟨t, u, ht, hu, hkind, -⟩ := h.get? hkl
  simp [ht, hu, Tokens.isEffective, hkind]

end SameCode

end PhpStyle
