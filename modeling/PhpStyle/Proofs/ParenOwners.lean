import Mathlib.Data.Option.Basic
import PhpStyle.Proofs.BracketPairs
import PhpStyle.Proofs.Lexemes
import PhpStyle.Proofs.TokenScans

/-!
# Keywords and their parentheses

The owner of a pair of parentheses is found by walking back from the opener over the effective
tokens next before it, so from the keyword the same walk leads forward to one opener only
(`OwnerPath.unique`). Each link is written by at most one owned pair, and a token is left with what
the last step that writes it wrote (`last_write`): a keyword carries a pair exactly if both
parentheses name it as their owner (`parens_iff_owner`).
-/

namespace PhpStyle

def EffectiveAt (ks : List Kind) (i : Nat) : Prop :=
  ∃ k, ks[i]? = some k ∧ k.isEffective = true

/-- `a` stands before `b`, with nothing but blanks and comments in between. -/
structure Gap (ks : List Kind) (a b : Nat) : Prop where
  lt : a < b
  trivia : ∀ i, a < i → i < b → ¬ EffectiveAt ks i

theorem Gap.unique {ks : List Kind} {a b c : Nat} (hb : Gap ks a b) (hc : Gap ks a c)
    (heb : EffectiveAt ks b) (hec : EffectiveAt ks c) : b = c := by
  rcases Nat.lt_trichotomy b c with h | h | h
  · exact absurd heb (hc.trivia b hb.lt h)
  · exact h
  · exact absurd hec (hb.trivia c hc.lt h)

namespace Tokens

variable {ts : Tokens}

theorem any_isEffective_iff {i : Nat} :
    (ts.get? i).any isEffective = true ↔ EffectiveAt ts.kinds i := by
  simp only [EffectiveAt, getElem?_kinds, kind?, isEffective, Option.any_eq_true]
  cases ts.get? i <;> simp

theorem kindIs_iff {p : Kind → Bool} {i : Nat} :
    ts.kindIs p i = true ↔ ∃ k, ts.kinds[i]? = some k ∧ p k = true := by
  simp [kindIs, getElem?_kinds, Option.any_eq_true]

theorem kindIs_beq {k : Kind} {i : Nat} :
    ts.kindIs (· == k) i = true ↔ ts.kinds[i]? = some k := by
  simp [kindIs_iff]

theorem gap_of_previousEffective {i p : Nat} (h : ts.previousEffective i = some p) :
    EffectiveAt ts.kinds p ∧ Gap ts.kinds p i := by
  rw [previousEffective] at h
  split at h
  · cases h
  · rename_i hi
    obtain ⟨hle, hp, hnone⟩ := scanDown_eq_some h
    refine ⟨any_isEffective_iff.1 hp, by omega, fun k hlt hk heff => ?_⟩
    -- the search starts at the last token when `i` lies past the end
    have hsize : k < ts.size := by
      obtain ⟨_, hk, -⟩ := heff
      obtain ⟨hk, -⟩ := List.getElem?_eq_some_iff.1 hk
      simpa [kinds, size] using hk
    exact hnone k hlt (by omega) (any_isEffective_iff.2 heff)

theorem gap_of_nextEffective {i n : Nat} (h : ts.nextEffective i = some n) :
    EffectiveAt ts.kinds n ∧ Gap ts.kinds i n := by
  obtain ⟨hle, hn, hnone⟩ := scanUp_eq_some h
  refine ⟨any_isEffective_iff.1 hn, by omega, fun k hlt hk heff => ?_⟩
  exact hnone k hlt hk (any_isEffective_iff.2 heff)

end Tokens

/-- The ways from a keyword to the parenthesis that opens after it. -/
inductive OwnerPath (ks : List Kind) (w i : Nat) : Prop
  | direct {k : Kind} (hw : ks[w]? = some k) (hk : Tokens.ownsParens k = true) (h : Gap ks w i)
  | named {p : Nat} (hw : ks[w]? = some .kwFunction) (hp : ks[p]? = some .name)
      (hwp : Gap ks w p) (hpi : Gap ks p i)
  | byReference {q p : Nat} (hw : ks[w]? = some .kwFunction) (hq : ks[q]? = some .bitwiseAnd)
      (hp : ks[p]? = some .name) (hwq : Gap ks w q) (hqp : Gap ks q p) (hpi : Gap ks p i)

namespace OwnerPath

variable {ks : List Kind} {w i j : Nat}

theorem lt (h : OwnerPath ks w i) : w < i := by
  cases h with
  | direct _ _ h => exact h.lt
  | named _ _ hwp hpi => exact Nat.lt_trans hwp.lt hpi.lt
  | byReference _ _ _ hwq hqp hpi => exact Nat.lt_trans hwq.lt (Nat.lt_trans hqp.lt hpi.lt)

theorem ownsParens (h : OwnerPath ks w i) : ∃ k, ks[w]? = some k ∧ Tokens.ownsParens k = true := by
  cases h with
  | direct hw hk _ => exact ⟨_, hw, hk⟩
  | named hw => exact ⟨_, hw, rfl⟩
  | byReference hw => exact ⟨_, hw, rfl⟩

/-- The next effective tokens after a keyword tell which way leads on, so it leads to one
parenthesis only. -/
theorem unique (hi : OwnerPath ks w i) (hj : OwnerPath ks w j) (hki : ks[i]? = some .openParen)
    (hkj : ks[j]? = some .openParen) : i = j := by
  have hei : EffectiveAt ks i := ⟨_, hki, rfl⟩
  have hej : EffectiveAt ks j := ⟨_, hkj, rfl⟩
  -- two tokens right after the same one are the same, so their kinds are
  have same : ∀ {a b c : Nat} {k l : Kind}, Gap ks a b → Gap ks a c → ks[b]? = some k →
      ks[c]? = some l → k.isEffective = true → l.isEffective = true → b = c ∧ k = l := by
    intro a b c k l hb hc hk hl hek hel
    obtain rfl := hb.unique hc ⟨k, hk, hek⟩ ⟨l, hl, hel⟩
    exact ⟨rfl, Option.some.inj (hk.symm.trans hl)⟩
  cases hi with
  | direct _ _ hwi => cases hj with
    | direct _ _ hwj => exact hwi.unique hwj hei hej
    | named _ hp hwp => cases (same hwi hwp hki hp rfl rfl).2
    | byReference _ hq _ hwq => cases (same hwi hwq hki hq rfl rfl).2
  | named _ hp hwp hpi => cases hj with
    | direct _ _ hwj => cases (same hwp hwj hp hkj rfl rfl).2
    | named _ hp' hwp' hpj =>
      obtain ⟨rfl, -⟩ := same hwp hwp' hp hp' rfl rfl
      exact hpi.unique hpj hei hej
    | byReference _ hq _ hwq => cases (same hwp hwq hp hq rfl rfl).2
  | byReference _ hq hp hwq hqp hpi => cases hj with
    | direct _ _ hwj => cases (same hwq hwj hq hkj rfl rfl).2
    | named _ hp' hwp' => cases (same hwq hwp' hq hp' rfl rfl).2
    | byReference _ hq' hp' hwq' hqp' hpj =>
      obtain ⟨rfl, -⟩ := same hwq hwq' hq hq' rfl rfl
      obtain ⟨rfl, -⟩ := same hqp hqp' hp hp' rfl rfl
      exact hpi.unique hpj hei hej

end OwnerPath

/-- The part of the links that tells the pair of parentheses. -/
def Links.parens (l : Links) : Option Nat × Option Nat :=
  (l.parenOpener, l.parenCloser)

/-- The links that are not about doc comments. -/
def Links.undocumented (l : Links) : Links :=
  { l with docOpener := none, docCloser := none, docTags := [] }

def Kind.isParen : Kind → Bool
  | .openParen | .closeParen => true
  | _ => false

theorem IsPair.closeParen_iff {ks : List Kind} {p : Nat × Nat} (h : IsPair ks p) :
    ks[p.2]? = some .closeParen ↔ ks[p.1]? = some .openParen := by
  obtain ⟨o, c, ho, hc, hcloser⟩ := h.kinds
  rw [ho, hc]
  cases o <;> cases hcloser <;> simp

theorem PairsFrom.eq_of_end {ks : List Kind} {i : Nat} {stack : List (Nat × Kind)}
    {ps : List (Nat × Nat)} (h : PairsFrom ks i stack ps) {p q : Nat × Nat} (hp : p ∈ ps)
    (hq : q ∈ ps) {j : Nat} (hjp : j = p.1 ∨ j = p.2) (hjq : j = q.1 ∨ j = q.2) : p = q := by
  by_cases hne : p = q
  · exact hne
  · have hltp := (h.isPair p hp).lt
    have hltq := (h.isPair q hq).lt
    have := h.closesBefore_or hp hq hne
    simp only [ClosesBefore] at this
    omega

namespace Tokens

variable {ts us : Tokens}

theorem ownerPath_of_parenOwnerAt {i w : Nat} (h : ts.parenOwnerAt i = some w) :
    OwnerPath ts.kinds w i := by
  simp only [parenOwnerAt, Option.bind_eq_bind, Option.bind_eq_some_iff] at h
  obtain ⟨p, hp, h⟩ := h
  have hpi := (gap_of_previousEffective hp).2
  split at h
  · rename_i howns
    cases h
    obtain ⟨k, hk, howns⟩ := kindIs_iff.1 howns
    exact .direct hk howns hpi
  · simp only [Option.bind_eq_some_iff, Option.guard_eq_some', exists_const] at h
    obtain ⟨hname, q, hq, h⟩ := h
    have hqp := (gap_of_previousEffective hq).2
    rw [kindIs_beq] at hname
    split at h
    · rename_i hand
      simp only [Option.bind_eq_some_iff, Option.guard_eq_some', exists_const] at h
      obtain ⟨f, hf, hfunction, h⟩ := h
      cases h
      exact .byReference (kindIs_beq.1 hfunction) (kindIs_beq.1 hand) hname
        (gap_of_previousEffective hf).2 hqp hpi
    · simp only [Option.bind_some, Option.bind_eq_some_iff, Option.guard_eq_some', exists_const] at h
      obtain ⟨hfunction, h⟩ := h
      cases h
      exact .named (kindIs_beq.1 hfunction) hname hqp hpi

theorem part_relink {α : Type} (g : Links → α) {f : Links → Links} {v : α} (hf : ∀ l, g (f l) = v)
    {i j : Nat} (hj : j < ts.size) :
    g ((ts.relink i f).links j) = if j = i then v else g (ts.links j) := by
  split
  · rename_i h
    subst h
    rw [links_relink_self ts f hj, hf]
  · rename_i h
    rw [links_relink_of_ne ts f (Ne.symm h)]

theorem size_eq_of_unlinked (h : us.unlinked = ts.unlinked) : us.size = ts.size := by
  rw [← size_unlinked, h, size_unlinked]

theorem kinds_eq_of_unlinked (h : us.unlinked = ts.unlinked) : us.kinds = ts.kinds := by
  rw [← kinds_unlinked, h, kinds_unlinked]

/-- After a fold of steps that each write a part of the links or leave it alone, it is as at first
or as the last of the steps that write it left it. -/
theorem last_write {α β : Type} (ts : Tokens) (g : Links → α) {step : Tokens → β → Tokens} {j : Nat}
    (write : β → Option α) (hkeep : ∀ us b, (step us b).unlinked = us.unlinked)
    (hstep : ∀ us b, us.unlinked = ts.unlinked →
      g ((step us b).links j) = (write b).getD (g (us.links j))) (bs : List β) :
    ((∀ b ∈ bs, write b = none) ∧ g ((bs.foldl step ts).links j) = g (ts.links j)) ∨
    ∃ pre b post, bs = pre ++ b :: post ∧ (∀ b' ∈ post, write b' = none) ∧
      write b = some (g ((bs.foldl step ts).links j)) := by
  induction bs generalizing ts with
  | nil => exact .inl ⟨by simp, rfl⟩
  | cons b bs ih =>
    rw [List.foldl_cons]
    have hrest : ∀ us b', us.unlinked = (step ts b).unlinked →
        g ((step us b').links j) = (write b').getD (g (us.links j)) :=
      fun us b' h => hstep us b' (h.trans (hkeep ts b))
    rcases ih _ hrest with ⟨hnone, heq⟩ | ⟨pre, b', post, rfl, hpost, hwrite⟩
    · rw [heq, hstep ts b rfl]
      cases hb : write b with
      | none => exact .inl ⟨List.forall_mem_cons.2 ⟨hb, hnone⟩, rfl⟩
      | some v => exact .inr ⟨[], b, bs, rfl, hnone, hb⟩
    · exact .inr ⟨b :: pre, b', post, rfl, hpost, hwrite⟩

theorem parens_linkBracket (p : Nat × Nat) {j : Nat} (hj : j < ts.size) :
    ((ts.linkBracket p).links j).parens =
      (if (j = p.1 ∨ j = p.2) ∧ ts.kinds[p.2]? = some .closeParen
        then some (some p.1, some p.2) else none).getD (ts.links j).parens := by
  unfold linkBracket
  by_cases hc : ts.kindIs (· == .closeParen) p.2
  · simp only [hc, kindIs_beq.1 hc, if_true, and_true]
    rw [part_relink (v := (some p.1, some p.2)) Links.parens (by intro l; rfl)
        (by rwa [size_relink]),
      part_relink (v := (some p.1, some p.2)) Links.parens (by intro l; rfl) hj]
    by_cases h₁ : j = p.1 <;> by_cases h₂ : j = p.2 <;> simp only [h₁, h₂] <;> simp
  · simp only [hc, mt kindIs_beq.2 hc, and_false, if_false]
    rw [links_relink_eq Links.parens (by intro l; rfl), links_relink_eq Links.parens (by intro l; rfl)]
    rfl

theorem parenOwner_linkBracket (ts : Tokens) (p : Nat × Nat) (j : Nat) :
    ((ts.linkBracket p).links j).parenOwner = (ts.links j).parenOwner := by
  unfold linkBracket
  cases ts.kindIs (· == .closeParen) p.2 <;>
    rw [links_relink_eq Links.parenOwner (by intro l; rfl),
      links_relink_eq Links.parenOwner (by intro l; rfl)]

theorem parens_linkParenOwner (o : Owned) {j : Nat} (hj : j < ts.size) :
    ((ts.linkParenOwner o).links j).parens =
      (if j = o.owner then some (some o.opener, some o.closer) else none).getD
        (ts.links j).parens := by
  unfold linkParenOwner
  rw [links_relink_eq Links.parens (by intro l; rfl), links_relink_eq Links.parens (by intro l; rfl),
    part_relink (v := (some o.opener, some o.closer)) Links.parens (by intro l; rfl) hj]
  split <;> rfl

theorem parenOwner_linkParenOwner (o : Owned) {j : Nat} (hj : j < ts.size) :
    ((ts.linkParenOwner o).links j).parenOwner =
      (if j = o.opener ∨ j = o.closer then some (some o.owner) else none).getD
        (ts.links j).parenOwner := by
  unfold linkParenOwner
  rw [part_relink (v := some o.owner) Links.parenOwner (by intro l; rfl)
      (by simpa only [size_relink]),
    part_relink (v := some o.owner) Links.parenOwner (by intro l; rfl) (by rwa [size_relink]),
    links_relink_eq Links.parenOwner (by intro l; rfl)]
  by_cases h₁ : j = o.opener <;> by_cases h₂ : j = o.closer <;> simp [h₁, h₂]

/-! ### The links of parentheses -/

theorem links_of_size_le {j : Nat} (h : ts.size ≤ j) : ts.links j = {} := by
  rw [links, get?, Array.getElem?_eq_none h]
  rfl

theorem pairs_eq_of_unlinked (h : us.unlinked = ts.unlinked) : us.pairs = ts.pairs := by
  rw [pairs, pairs, kinds_eq_of_unlinked h]

theorem parens_linkBrackets_of_lt (hts : ∀ j, (ts.links j).undocumented = {}) {j : Nat}
    (hj : j < ts.size) :
    ((∀ p ∈ ts.pairs, (j = p.1 ∨ j = p.2) → ts.kinds[p.2]? ≠ some .closeParen) ∧
      (ts.linkBrackets.links j).parens = (none, none)) ∨
    ∃ p ∈ ts.pairs, ts.kinds[p.1]? = some .openParen ∧ (j = p.1 ∨ j = p.2) ∧
      (ts.linkBrackets.links j).parens = (some p.1, some p.2) := by
  have hfirst : (ts.links j).parens = (none, none) := congrArg Links.parens (hts j)
  have hstep : ∀ us p, us.unlinked = ts.unlinked → ((linkBracket us p).links j).parens =
      (if (j = p.1 ∨ j = p.2) ∧ ts.kinds[p.2]? = some .closeParen
        then some (some p.1, some p.2) else none).getD (us.links j).parens := by
    intro us p hus
    rw [parens_linkBracket p (by rwa [size_eq_of_unlinked hus]), kinds_eq_of_unlinked hus]
  rcases last_write ts Links.parens _ unlinked_linkBracket hstep ts.pairs with
    ⟨hnone, heq⟩ | ⟨pre, p, post, hps, -, hwrite⟩
  · refine .inl ⟨fun p hp hend hclose => ?_, heq.trans hfirst⟩
    simpa [hend, hclose] using hnone p hp
  · rw [Option.ite_none_right_eq_some] at hwrite
    obtain ⟨⟨hend, hclose⟩, hwrite⟩ := hwrite
    have hp : p ∈ ts.pairs := by simp [hps]
    refine .inr ⟨p, hp, (IsPair.closeParen_iff (ts.pairs_spec.isPair p hp)).1 hclose, hend, ?_⟩
    exact (Option.some.inj hwrite).symm

theorem parens_linkBrackets (hts : ∀ j, (ts.links j).undocumented = {}) (j : Nat) :
    (ts.linkBrackets.links j).parens = (none, none) ∨
    ∃ p ∈ ts.pairs, ts.kinds[p.1]? = some .openParen ∧ (j = p.1 ∨ j = p.2) ∧
      (ts.linkBrackets.links j).parens = (some p.1, some p.2) := by
  rcases Nat.lt_or_ge j ts.size with hj | hj
  · exact (parens_linkBrackets_of_lt hts hj).imp_left And.right
  · left
    rw [links_of_size_le (by rwa [size_eq_of_unlinked ts.unlinked_linkBrackets])]
    rfl

/-- A pair of parentheses is carried by both of them. -/
theorem parens_linkBrackets_of_mem (hts : ∀ j, (ts.links j).undocumented = {}) {p : Nat × Nat}
    (hp : p ∈ ts.pairs) (hopen : ts.kinds[p.1]? = some .openParen) {j : Nat}
    (hend : j = p.1 ∨ j = p.2) : (ts.linkBrackets.links j).parens = (some p.1, some p.2) := by
  have hpair := ts.pairs_spec.isPair p hp
  have hj : j < ts.size := by
    have hlt := hpair.lt
    have hsize := isPair_bounds hpair
    omega
  rcases parens_linkBrackets_of_lt hts hj with ⟨hnone, -⟩ | ⟨q, hq, -, hend', heq⟩
  · exact absurd (hpair.closeParen_iff.2 hopen) (hnone p hp hend)
  · rw [heq, ts.pairs_spec.eq_of_end hp hq hend hend']

/-- The pairs of parentheses with an owner. -/
def ownedParens (ts : Tokens) : List Owned :=
  (List.range ts.size).filterMap ts.ownedParens?

theorem ownedParens?_of_mem {e : Owned} (h : e ∈ ts.ownedParens) :
    ts.ownedParens? e.opener = some e := by
  obtain ⟨i, -, h⟩ := List.mem_filterMap.1 h
  have hi : e.opener = i := by
    simp only [ownedParens?, Option.bind_eq_bind, Option.bind_eq_some_iff] at h
    obtain ⟨-, -, c, -, w, -, h⟩ := h
    cases h
    rfl
  rwa [hi]

theorem ownedParens_spec (hts : ∀ j, (ts.links j).undocumented = {}) {e : Owned}
    (h : e ∈ ts.linkBrackets.ownedParens) :
    (e.opener, e.closer) ∈ ts.pairs ∧ ts.kinds[e.opener]? = some .openParen ∧
      OwnerPath ts.kinds e.owner e.opener := by
  have hkinds := kinds_eq_of_unlinked ts.unlinked_linkBrackets
  have h := ownedParens?_of_mem h
  simp only [ownedParens?, Option.bind_eq_bind, Option.bind_eq_some_iff, Option.guard_eq_some',
    exists_const, kindIs_beq] at h
  obtain ⟨hopen, c, hc, w, hw, h⟩ := h
  obtain ⟨owner, opener, closer⟩ := e
  cases h
  have hpath := ownerPath_of_parenOwnerAt hw
  rw [hkinds] at hopen hpath
  refine ⟨?_, hopen, hpath⟩
  rcases parens_linkBrackets hts opener with hnone | ⟨p, hp, hopener, hend, hparens⟩
  · cases hc.symm.trans (congrArg Prod.snd hnone)
  · obtain rfl : p.2 = c := Option.some.inj ((congrArg Prod.snd hparens).symm.trans hc)
    -- a parenthesis that opens is no end but the first
    rcases hend with rfl | rfl
    · exact hp
    · rw [(ts.pairs_spec.isPair p hp).closeParen_iff.2 hopener] at hopen
      cases hopen

theorem lt_size_of_kinds {j : Nat} {k : Kind} (h : ts.kinds[j]? = some k) : j < ts.size := by
  obtain ⟨h, -⟩ := List.getElem?_eq_some_iff.1 h
  simpa [kinds, size] using h

/-- Two owned pairs that share an end, or their owner, are the same. -/
theorem owned_unique (hts : ∀ j, (ts.links j).undocumented = {}) {d e : Owned}
    (hd : d ∈ ts.linkBrackets.ownedParens) (he : e ∈ ts.linkBrackets.ownedParens)
    (h : (∃ j, (j = d.opener ∨ j = d.closer) ∧ (j = e.opener ∨ j = e.closer)) ∨
      d.owner = e.owner) : d = e := by
  obtain ⟨hdp, hdk, hdw⟩ := ownedParens_spec hts hd
  obtain ⟨hep, hek, hew⟩ := ownedParens_spec hts he
  have hopener : d.opener = e.opener := by
    rcases h with ⟨j, hjd, hje⟩ | h
    · exact congrArg Prod.fst (ts.pairs_spec.eq_of_end hdp hep hjd hje)
    · rw [← h] at hew
      exact hdw.unique hew hdk hek
  have hd := ownedParens?_of_mem hd
  rw [hopener, ownedParens?_of_mem he] at hd
  exact (Option.some.inj hd).symm

/-- What a token tells of a pair that it owns. -/
theorem parens_linkParenOwners {j : Nat} (hj : j < ts.size) :
    ((∀ e ∈ ts.ownedParens, j ≠ e.owner) ∧
      (ts.linkParenOwners.links j).parens = (ts.links j).parens) ∨
    ∃ e ∈ ts.ownedParens, j = e.owner ∧
      (ts.linkParenOwners.links j).parens = (some e.opener, some e.closer) := by
  rcases last_write ts Links.parens _ unlinked_linkParenOwner
    (fun us o hus => parens_linkParenOwner o (by rwa [size_eq_of_unlinked hus])) ts.ownedParens with
    ⟨hnone, heq⟩ | ⟨pre, e, post, hes, -, hwrite⟩
  · exact .inl ⟨fun e he => by simpa using hnone e he, heq⟩
  · obtain ⟨howner, hwrite⟩ := Option.ite_none_right_eq_some.1 hwrite
    exact .inr ⟨e, by simp [hes], howner, (Option.some.inj hwrite).symm⟩

theorem parenOwner_linkParenOwners {j : Nat} (hj : j < ts.size) :
    ((∀ e ∈ ts.ownedParens, j ≠ e.opener ∧ j ≠ e.closer) ∧
      (ts.linkParenOwners.links j).parenOwner = (ts.links j).parenOwner) ∨
    ∃ e ∈ ts.ownedParens, (j = e.opener ∨ j = e.closer) ∧
      (ts.linkParenOwners.links j).parenOwner = some e.owner := by
  rcases last_write ts Links.parenOwner _ unlinked_linkParenOwner
    (fun us o hus => parenOwner_linkParenOwner o (by rwa [size_eq_of_unlinked hus]))
    ts.ownedParens with ⟨hnone, heq⟩ | ⟨pre, e, post, hes, -, hwrite⟩
  · exact .inl ⟨fun e he => by simpa [not_or] using hnone e he, heq⟩
  · obtain ⟨hend, hwrite⟩ := Option.ite_none_right_eq_some.1 hwrite
    exact .inr ⟨e, by simp [hes], hend, (Option.some.inj hwrite).symm⟩

theorem lt_size_of_parens {j c : Nat} (h : (ts.links j).parenCloser = some c) : j < ts.size := by
  by_contra hj
  rw [links_of_size_le (Nat.le_of_not_lt hj)] at h
  cases h

/-- A keyword with parentheses owns them. -/
theorem owned_of_parens (hts : ∀ j, (ts.links j).undocumented = {}) {w c : Nat}
    (hw : ∀ k, ts.kinds[w]? = some k → ¬ k.isParen = true)
    (h : (ts.linkBrackets.linkParenOwners.links w).parenCloser = some c) :
    ∃ e ∈ ts.linkBrackets.ownedParens, e.owner = w ∧ e.closer = c ∧
      (ts.linkBrackets.linkParenOwners.links w).parens = (some e.opener, some c) := by
  have hsize : w < ts.linkBrackets.size := by
    have := lt_size_of_parens h
    rwa [size_eq_of_unlinked (unlinked_linkParenOwners _)] at this
  rcases parens_linkParenOwners hsize with ⟨-, heq⟩ | ⟨e, he, howner, heq⟩
  · -- without an owned pair it would be a parenthesis itself
    rcases parens_linkBrackets hts w with hnone | ⟨p, hp, hopen, hend, -⟩
    · cases h.symm.trans (congrArg Prod.snd (heq.trans hnone))
    · rcases hend with rfl | rfl
      · exact absurd rfl (hw _ hopen)
      · exact absurd rfl (hw _ ((ts.pairs_spec.isPair p hp).closeParen_iff.2 hopen))
  · obtain rfl : e.closer = c := Option.some.inj ((congrArg Prod.snd heq).symm.trans h)
    exact ⟨e, he, howner.symm, rfl, heq⟩

theorem parenOwner_of_owned (hts : ∀ j, (ts.links j).undocumented = {}) {e : Owned}
    (he : e ∈ ts.linkBrackets.ownedParens) {j : Nat} (hj : j = e.opener ∨ j = e.closer) :
    (ts.linkBrackets.linkParenOwners.links j).parenOwner = some e.owner := by
  obtain ⟨hpair, -, -⟩ := ownedParens_spec hts he
  have hlt := (ts.pairs_spec.isPair _ hpair).lt
  have hsize := isPair_bounds (ts.pairs_spec.isPair _ hpair)
  have hj' : j < ts.linkBrackets.size := by
    rw [size_eq_of_unlinked ts.unlinked_linkBrackets]
    simp only at hlt hsize
    omega
  rcases parenOwner_linkParenOwners hj' with ⟨hnone, -⟩ | ⟨d, hd, hend, heq⟩
  · exact absurd hj (not_or.2 (hnone e he))
  · rw [heq, owned_unique hts hd he (.inl ⟨j, hend, hj⟩)]

/-- A token that is no parenthesis carries a pair of parentheses exactly if both name it as their
owner. -/
theorem parens_iff_owner (hts : ∀ j, (ts.links j).undocumented = {}) {w o c : Nat}
    (hw : ∀ k, ts.kinds[w]? = some k → ¬ k.isParen = true) :
    (ts.linkBrackets.linkParenOwners.links w).parens = (some o, some c) ↔
      ((o, c) ∈ ts.pairs ∧ ts.kinds[o]? = some .openParen) ∧
        (ts.linkBrackets.linkParenOwners.links o).parenOwner = some w ∧
        (ts.linkBrackets.linkParenOwners.links c).parenOwner = some w := by
  constructor
  · intro h
    obtain ⟨e, he, rfl, rfl, heq⟩ := owned_of_parens hts hw (congrArg Prod.snd h)
    obtain rfl : e.opener = o := Option.some.inj (congrArg Prod.fst (heq.symm.trans h))
    obtain ⟨hpair, hopen, -⟩ := ownedParens_spec hts he
    exact ⟨⟨hpair, hopen⟩, parenOwner_of_owned hts he (.inl rfl), parenOwner_of_owned hts he (.inr rfl)⟩
  · rintro ⟨⟨hpair, hopen⟩, ho, -⟩
    have hsize : o < ts.linkBrackets.size := by
      rw [size_eq_of_unlinked ts.unlinked_linkBrackets]
      exact lt_size_of_kinds hopen
    have hnone : (ts.linkBrackets.links o).parenOwner = none := by
      rw [linkBrackets, links_foldl_eq Links.parenOwner parenOwner_linkBracket]
      exact congrArg Links.parenOwner (hts o)
    rcases parenOwner_linkParenOwners hsize with ⟨-, heq⟩ | ⟨e, he, hend, heq⟩
    · rw [heq, hnone] at ho
      cases ho
    · obtain rfl : e.owner = w := Option.some.inj (heq.symm.trans ho)
      obtain ⟨hpair', -, hpath⟩ := ownedParens_spec hts he
      obtain ⟨rfl, rfl⟩ : o = e.opener ∧ c = e.closer :=
        Prod.mk.inj (ts.pairs_spec.eq_of_end hpair hpair' (.inl rfl) hend)
      obtain ⟨k, hk, -⟩ := hpath.ownsParens
      have hsize : e.owner < ts.linkBrackets.size := by
        rw [size_eq_of_unlinked ts.unlinked_linkBrackets]
        exact lt_size_of_kinds hk
      rcases parens_linkParenOwners hsize with ⟨hnone, -⟩ | ⟨d, hd, howner, heq⟩
      · exact absurd rfl (hnone e he)
      · rw [heq, owned_unique hts hd he (.inr howner.symm)]

theorem lt_of_parens (hts : ∀ j, (ts.links j).undocumented = {}) {w o c : Nat}
    (hw : ∀ k, ts.kinds[w]? = some k → ¬ k.isParen = true)
    (h : (ts.linkBrackets.linkParenOwners.links w).parens = (some o, some c)) : w < o := by
  obtain ⟨e, he, rfl, -, heq⟩ := owned_of_parens hts hw (congrArg Prod.snd h)
  obtain rfl : e.opener = o := Option.some.inj (congrArg Prod.fst (heq.symm.trans h))
  exact (ownedParens_spec hts he).2.2.lt

end Tokens

end PhpStyle
