import PhpStyle.Proofs.Relinking

/-!
# Bracket pairs

`bracketPairs` keeps the open brackets on a stack. Of two pairs it finds, the one that closes first
lies inside the other or wholly before it (`ClosesBefore`), so no index belongs to two pairs and no
two pairs cross. Setting the links of such pairs one after the other leaves each end with its own
pair (`bracketLinks_foldl_of_mem`) and every other token without one, and no later step of
`Tokens.ofSource` writes these links: a token carries a pair exactly if it is one of its ends
(`carriesPair_iff`).
-/

namespace PhpStyle

/-- `p` closes before `q` does, and lies inside of it or wholly before it. -/
def ClosesBefore (p q : Nat × Nat) : Prop :=
  p.2 < q.2 ∧ (q.1 < p.1 ∨ p.2 < q.1)

/-- `p` runs from a bracket to one that closes its kind. -/
structure IsPair (ks : List Kind) (p : Nat × Nat) : Prop where
  lt : p.1 < p.2
  kinds : ∃ o c, ks[p.1]? = some o ∧ ks[p.2]? = some c ∧ o.closer? = some c

/-- A stack of brackets before index `i`, the latest first. -/
structure OpenAt (ks : List Kind) (i : Nat) (stack : List (Nat × Kind)) : Prop where
  sorted : stack.Pairwise fun a b => b.1 < a.1
  lt : ∀ a ∈ stack, a.1 < i
  kind : ∀ a ∈ stack, ks[a.1]? = some a.2

namespace OpenAt

variable {ks : List Kind} {i : Nat} {stack rest : List (Nat × Kind)}

theorem nil : OpenAt ks i [] :=
  ⟨.nil, by simp, by simp⟩

theorem next (h : OpenAt ks i stack) : OpenAt ks (i + 1) stack :=
  ⟨h.sorted, fun a ha => Nat.lt_succ_of_lt (h.lt a ha), h.kind⟩

theorem push (h : OpenAt ks i stack) {k : Kind} (hk : ks[i]? = some k) :
    OpenAt ks (i + 1) ((i, k) :: stack) where
  sorted := .cons h.lt h.sorted
  lt := List.forall_mem_cons.2 ⟨Nat.lt_succ_self i, h.next.lt⟩
  kind := List.forall_mem_cons.2 ⟨hk, h.kind⟩

theorem sublist (h : OpenAt ks i stack) (hs : rest.Sublist stack) : OpenAt ks i rest :=
  ⟨h.sorted.sublist hs, fun a ha => h.lt a (hs.subset ha), fun a ha => h.kind a (hs.subset ha)⟩

end OpenAt

/-- What the pairs found from index `i` on look like: they are pairs of `ks` that close there and
open there or on the stack, in the order in which they close. -/
structure PairsFrom (ks : List Kind) (i : Nat) (stack : List (Nat × Kind))
    (ps : List (Nat × Nat)) : Prop where
  isPair : ∀ p ∈ ps, IsPair ks p
  le_closer : ∀ p ∈ ps, i ≤ p.2
  opener : ∀ p ∈ ps, p.1 ∈ stack.map Prod.fst ∨ i ≤ p.1
  ordered : ps.Pairwise ClosesBefore

namespace PairsFrom

variable {ks : List Kind} {i : Nat} {stack rest : List (Nat × Kind)} {ps : List (Nat × Nat)}

theorem nil : PairsFrom ks i stack [] :=
  ⟨by simp, by simp, by simp, .nil⟩

theorem of_next (h : PairsFrom ks (i + 1) stack ps) : PairsFrom ks i stack ps :=
  ⟨h.isPair, fun p hp => Nat.le_of_succ_le (h.le_closer p hp),
    fun p hp => (h.opener p hp).imp id Nat.le_of_succ_le, h.ordered⟩

theorem of_push {k : Kind} (h : PairsFrom ks (i + 1) ((i, k) :: stack) ps) :
    PairsFrom ks i stack ps where
  isPair := h.isPair
  le_closer p hp := Nat.le_of_succ_le (h.le_closer p hp)
  opener p hp := by
    rcases h.opener p hp with hp | hp
    · rcases List.mem_cons.1 hp with hp | hp
      · exact .inr (Nat.le_of_eq hp.symm)
      · exact .inl hp
    · exact .inr (Nat.le_of_succ_le hp)
  ordered := h.ordered

/-- The innermost open bracket of its shape is closed at `i`, those above it are given up. -/
theorem close (hopen : OpenAt ks i stack) {o : Nat × Kind} (hs : (o :: rest).Sublist stack)
    {c : Kind} (hc : ks[i]? = some c) (hcloser : o.2.closer? = some c)
    (h : PairsFrom ks (i + 1) rest ps) : PairsFrom ks i stack ((o.1, i) :: ps) where
  isPair := by
    have ho := hs.subset (List.mem_cons_self)
    exact List.forall_mem_cons.2
      ⟨⟨hopen.lt o ho, o.2, c, hopen.kind o ho, hc, hcloser⟩, h.isPair⟩
  le_closer := List.forall_mem_cons.2 ⟨Nat.le_refl i, h.of_next.le_closer⟩
  opener := by
    refine List.forall_mem_cons.2 ⟨.inl (List.mem_map_of_mem (hs.subset List.mem_cons_self)), ?_⟩
    intro p hp
    refine (h.of_next.opener p hp).imp (fun hmem => ?_) id
    exact ((List.sublist_cons_self o rest).trans hs |>.map Prod.fst).subset hmem
  ordered := by
    refine .cons (fun q hq => ⟨h.le_closer q hq, ?_⟩) h.ordered
    -- `q` opens on what is left of the stack, hence before `o`, or after `i`
    rcases h.opener q hq with hmem | hle
    · obtain ⟨a, ha, hq⟩ := List.mem_map.1 hmem
      have hlt := (List.pairwise_cons.1 (hopen.sublist hs).sorted).1 a ha
      exact .inl (by rwa [← hq])
    · exact .inr hle

theorem closesBefore_or (h : PairsFrom ks i stack ps) {p q : Nat × Nat} (hp : p ∈ ps) (hq : q ∈ ps)
    (hne : p ≠ q) : ClosesBefore p q ∨ ClosesBefore q p := by
  obtain ⟨m, hm, rfl⟩ := List.getElem_of_mem hp
  obtain ⟨n, hn, rfl⟩ := List.getElem_of_mem hq
  have hordered := List.pairwise_iff_getElem.1 h.ordered
  rcases Nat.lt_trichotomy m n with hmn | rfl | hmn
  · exact .inl (hordered m n hm hn hmn)
  · exact absurd rfl hne
  · exact .inr (hordered n m hn hm hmn)

end PairsFrom

theorem of_drop_eq_cons {ks rest : List Kind} {i : Nat} {k : Kind} (h : ks.drop i = k :: rest) :
    ks[i]? = some k ∧ ks.drop (i + 1) = rest := by
  rw [← List.head?_drop, ← List.tail_drop, h]
  exact ⟨rfl, rfl⟩

theorem bracketPairs_spec {ks : List Kind} (i : Nat) (stack : List (Nat × Kind)) (rest : List Kind)
    (hrest : ks.drop i = rest) (h : OpenAt ks i stack) :
    PairsFrom ks i stack (bracketPairs i stack rest) := by
  fun_induction bracketPairs i stack rest with
  | case1 => exact .nil
  | case2 i stack k rest hopener ih =>
    obtain ⟨hk, hrest⟩ := of_drop_eq_cons hrest
    exact (ih hrest (h.push hk)).of_push
  | case3 i stack k rest hopener hcloser o ko below hdrop ih =>
    obtain ⟨hk, hrest⟩ := of_drop_eq_cons hrest
    have hs : ((o, ko) :: below).Sublist stack := hdrop ▸ List.dropWhile_sublist _
    have hko := List.head?_dropWhile_not (fun a : Nat × Kind => a.2.closer? != some k) stack
    rw [hdrop] at hko
    refine .close h hs hk (by simpa using hko) (ih hrest ?_)
    exact (h.sublist ((List.sublist_cons_self _ below).trans hs)).next
  | case4 i stack k rest hopener hcloser hdrop ih =>
    exact (ih (of_drop_eq_cons hrest).2 h.next).of_next
  | case5 i stack k rest hopener hcloser ih =>
    exact (ih (of_drop_eq_cons hrest).2 h.next).of_next

/-- Some pairs close in the first part of a list; the others are those of the rest over the brackets
that are open there. -/
theorem exists_bracketPairs_append (i : Nat) (stack : List (Nat × Kind)) (ks rest : List Kind) :
    ∃ ps stack', bracketPairs i stack (ks ++ rest) =
      ps ++ bracketPairs (i + ks.length) stack' rest := by
  induction ks generalizing i stack with
  | nil => exact ⟨[], stack, rfl⟩
  | cons k ks ih =>
    have hlength : i + (k :: ks).length = i + 1 + ks.length := by rw [List.length_cons]; omega
    rw [List.cons_append, bracketPairs, hlength]
    split
    · exact ih _ _
    split
    · split
      · rename_i o _ below _
        obtain ⟨ps, stack', h⟩ := ih (i + 1) below
        exact ⟨(o, i) :: ps, stack', by rw [h]; rfl⟩
      · exact ih _ _
    · exact ih _ _

/-- The part of the links that tells the bracket pair. -/
def Links.brackets (l : Links) : Option Nat × Option Nat :=
  (l.bracketOpener, l.bracketCloser)

namespace Tokens

def bracketLinks (ts : Tokens) (i : Nat) : Option Nat × Option Nat :=
  (ts.links i).brackets

theorem bracketLinks_relink {f : Links → Links} (hf : ∀ l, (f l).brackets = l.brackets) (ts : Tokens)
    (i j : Nat) : (ts.relink i f).bracketLinks j = ts.bracketLinks j :=
  links_relink_eq Links.brackets hf ts i j

/-- The token at `i` is tied to the bracket pair `(o, c)`. -/
def CarriesPair (ts : Tokens) (i o c : Nat) : Prop :=
  ts.bracketLinks i = (some o, some c)

theorem bracketLinks_linkBracket_self (ts : Tokens) {p : Nat × Nat} {j : Nat} (hj : j < ts.size)
    (h : j = p.1 ∨ j = p.2) : (ts.linkBracket p).bracketLinks j = (some p.1, some p.2) := by
  unfold linkBracket bracketLinks
  by_cases h₂ : j = p.2
  · subst h₂
    rw [links_relink_self _ _ (by rwa [size_relink])]
    cases ts.kindIs (· == .closeParen) p.2 <;> rfl
  · obtain rfl := h.resolve_right h₂
    rw [links_relink_of_ne _ _ (Ne.symm h₂), links_relink_self _ _ hj]
    cases ts.kindIs (· == .closeParen) p.2 <;> rfl

theorem bracketLinks_linkBracket_of_ne (ts : Tokens) {p : Nat × Nat} {j : Nat} (h₁ : j ≠ p.1)
    (h₂ : j ≠ p.2) : (ts.linkBracket p).bracketLinks j = ts.bracketLinks j := by
  unfold linkBracket bracketLinks
  rw [links_relink_of_ne _ _ h₂.symm, links_relink_of_ne _ _ h₁.symm]

theorem bracketLinks_foldl_of_ne {ps : List (Nat × Nat)} {j : Nat}
    (h : ∀ p ∈ ps, j ≠ p.1 ∧ j ≠ p.2) (ts : Tokens) :
    (ps.foldl linkBracket ts).bracketLinks j = ts.bracketLinks j := by
  induction ps generalizing ts with
  | nil => rfl
  | cons p ps ih =>
    obtain ⟨hp, hps⟩ := List.forall_mem_cons.1 h
    rw [List.foldl_cons, ih hps, bracketLinks_linkBracket_of_ne ts hp.1 hp.2]

/-- An end of one of several pairs that do not meet is left with that pair. -/
theorem bracketLinks_foldl_of_mem {ps : List (Nat × Nat)} (hlt : ∀ p ∈ ps, p.1 < p.2)
    (hps : ps.Pairwise ClosesBefore) {p : Nat × Nat} (hp : p ∈ ps) {j : Nat}
    (h : j = p.1 ∨ j = p.2) (ts : Tokens) (hj : j < ts.size) :
    (ps.foldl linkBracket ts).bracketLinks j = (some p.1, some p.2) := by
  induction ps generalizing ts with
  | nil => cases hp
  | cons q ps ih =>
    obtain ⟨hq, hps⟩ := List.pairwise_cons.1 hps
    obtain ⟨hltq, hltps⟩ := List.forall_mem_cons.1 hlt
    rw [List.foldl_cons]
    rcases List.mem_cons.1 hp with rfl | hp
    · rw [bracketLinks_foldl_of_ne (fun r hr => ?_) _, bracketLinks_linkBracket_self ts hj h]
      obtain ⟨hclose, hopen⟩ := hq r hr
      have := hltps r hr
      omega
    · refine ih hltps hps hp _ ?_
      rwa [← size_unlinked, unlinked_linkBracket, size_unlinked]

/-- The bracket pairs among the tokens. -/
def pairs (ts : Tokens) : List (Nat × Nat) :=
  bracketPairs 0 [] ts.kinds

theorem pairs_spec (ts : Tokens) : PairsFrom ts.kinds 0 [] ts.pairs :=
  bracketPairs_spec 0 [] ts.kinds rfl .nil

theorem getElem?_kinds (ts : Tokens) (i : Nat) : ts.kinds[i]? = ts.kind? i := by
  simp [Tokens.kinds, kind?, get?]

theorem isPair_bounds {ts : Tokens} {p : Nat × Nat} (h : IsPair ts.kinds p) : p.2 < ts.size := by
  obtain ⟨o, c, -, hc, -⟩ := h.kinds
  obtain ⟨hlt, -⟩ := List.getElem?_eq_some_iff.1 hc
  simpa [kinds, size] using hlt

theorem carriesPair_linkBrackets {ts : Tokens} {p : Nat × Nat} (hp : p ∈ ts.pairs) {j : Nat}
    (hj : j = p.1 ∨ j = p.2) : ts.linkBrackets.CarriesPair j p.1 p.2 := by
  have hpairs := ts.pairs_spec
  have hlt := (hpairs.isPair p hp).lt
  have hsize := isPair_bounds (hpairs.isPair p hp)
  exact bracketLinks_foldl_of_mem (fun q hq => (hpairs.isPair q hq).lt) hpairs.ordered hp hj ts
    (by omega)

theorem bracketLinks_linkDoc (ts : Tokens) (d : DocSpan) (j : Nat) :
    (ts.linkDoc d).bracketLinks j = ts.bracketLinks j := by
  unfold linkDoc
  split
  · rw [bracketLinks_relink (by intro l; rfl), bracketLinks_relink (by intro l; rfl)]
  · rw [bracketLinks_relink (by intro l; rfl)]

theorem bracketLinks_linkParenOwner (ts : Tokens) (o : Owned) (j : Nat) :
    (ts.linkParenOwner o).bracketLinks j = ts.bracketLinks j := by
  unfold linkParenOwner
  rw [bracketLinks_relink (by intro l; rfl), bracketLinks_relink (by intro l; rfl),
    bracketLinks_relink (by intro l; rfl)]

theorem bracketLinks_linkScope (ts : Tokens) (o : Owned) (j : Nat) :
    (ts.linkScope o).bracketLinks j = ts.bracketLinks j := by
  unfold linkScope
  rw [bracketLinks_relink (by intro l; rfl), bracketLinks_relink (by intro l; rfl),
    bracketLinks_relink (by intro l; rfl)]

theorem links_lex (source : String) (j : Nat) : (lex source).links j = {} := by
  rw [← lex_unlinked, links, get?, unlinked, Array.getElem?_map]
  cases (lex source).items[j]? <;> rfl

theorem bracketLinks_linkDocs_lex (source : String) (j : Nat) :
    (lex source).linkDocs.bracketLinks j = (none, none) := by
  have h := links_foldl_eq Links.brackets bracketLinks_linkDoc
    (DocSpan.collect 0 none (lex source).kinds) (lex source) j
  rw [links_lex] at h
  exact h

theorem bracketLinks_ofSource (source : String) (j : Nat) :
    (ofSource source).bracketLinks j = (lex source).linkDocs.linkBrackets.bracketLinks j :=
  (links_foldl_eq Links.brackets bracketLinks_linkScope _ _ j).trans
    (links_foldl_eq Links.brackets bracketLinks_linkParenOwner _ _ j)

theorem kinds_ofSource (source : String) : (ofSource source).kinds = (lex source).kinds := by
  rw [← kinds_unlinked, ofSource_unlinked]

theorem pairs_ofSource (source : String) : (ofSource source).pairs = (lex source).linkDocs.pairs := by
  rw [pairs, pairs, kinds_ofSource, ← kinds_unlinked (lex source).linkDocs, unlinked_linkDocs,
    kinds_unlinked]

theorem carriesPair_of_mem {source : String} {p : Nat × Nat} (hp : p ∈ (ofSource source).pairs)
    {i : Nat} (hi : i = p.1 ∨ i = p.2) : (ofSource source).CarriesPair i p.1 p.2 := by
  rw [pairs_ofSource] at hp
  rw [CarriesPair, bracketLinks_ofSource]
  exact carriesPair_linkBrackets hp hi

/-- A token carries the pair that it is an end of, or none. -/
theorem bracketLinks_cases (source : String) (i : Nat) :
    (∃ p ∈ (ofSource source).pairs,
      (i = p.1 ∨ i = p.2) ∧ (ofSource source).CarriesPair i p.1 p.2) ∨
    (ofSource source).bracketLinks i = (none, none) := by
  by_cases hend : ∃ p ∈ (ofSource source).pairs, i = p.1 ∨ i = p.2
  · obtain ⟨p, hp, hi⟩ := hend
    exact .inl ⟨p, hp, hi, carriesPair_of_mem hp hi⟩
  · have hne : ∀ p ∈ (lex source).linkDocs.pairs, i ≠ p.1 ∧ i ≠ p.2 := by
      intro p hp
      rw [← pairs_ofSource] at hp
      exact ⟨fun hi => hend ⟨p, hp, .inl hi⟩, fun hi => hend ⟨p, hp, .inr hi⟩⟩
    rw [bracketLinks_ofSource]
    exact .inr ((bracketLinks_foldl_of_ne hne _).trans (bracketLinks_linkDocs_lex source i))

/-- A token carries a pair exactly if it is one of its ends. -/
theorem carriesPair_iff {source : String} {i o c : Nat} :
    (ofSource source).CarriesPair i o c ↔ (o, c) ∈ (ofSource source).pairs ∧ (i = o ∨ i = c) := by
  refine ⟨fun h => ?_, fun ⟨hp, hi⟩ => carriesPair_of_mem hp hi⟩
  rcases bracketLinks_cases source i with ⟨p, hp, hi, hcarries⟩ | hnone
  · have heq := hcarries.symm.trans h
    simp only [Prod.mk.injEq, Option.some.injEq] at heq
    obtain ⟨rfl, rfl⟩ := heq
    exact ⟨hp, hi⟩
  · rw [CarriesPair, hnone] at h
    cases h

end Tokens

end PhpStyle
