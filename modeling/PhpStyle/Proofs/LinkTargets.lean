import PhpStyle.Proofs.AdjacentDocs
import PhpStyle.Proofs.ScopeOwners
import PhpStyle.Token.Structure

/-!
# Where links lead

The links of a source lead to tokens of it, and in the order in which its queries follow them
(`LinkTargets`): brackets close behind their opener, and the tags of a doc comment stand between its
ends. A tag is only read where a comment is open (`exists_docOpen_of_docTag`), so that the last
opener before it is that of its own comment, which ends behind it.
-/

namespace PhpStyle

open Lexer in
/-- Before a tag, a comment has been opened and not closed. -/
theorem exists_docOpen_of_docTag (s : Lexer) (cs : List Char) {j : Nat}
    (hj : ((s.run cs).map (·.1))[j]? = some .docTag) :
    (s.mode.isDoc = true ∧ ∀ k < j, ((s.run cs).map (·.1))[k]? ≠ some .docClose) ∨
    ∃ m < j, ((s.run cs).map (·.1))[m]? = some .docOpen ∧
      ∀ k, m < k → k < j → ((s.run cs).map (·.1))[k]? ≠ some .docClose := by
  fun_induction run s cs generalizing j with
  | case1 => simp at hj
  | case2 s cs hne c =>
    rename_i ih
    rw [List.map_cons] at hj ⊢
    have hkind : (c.kind, cs.take c.length).1 = c.kind := rfl
    rw [hkind] at hj ⊢
    cases j with
    | zero =>
      have hk : (s.cut cs).kind = .docTag := by simpa using hj
      refine .inl ⟨?_, fun k hk => absurd hk (Nat.not_lt_zero k)⟩
      by_contra hmode
      rcases s.cut_outside (by simpa using hmode) hne with houtside | ⟨hcut, -⟩
      · exact houtside.not_tag hk
      · rw [hcut] at hk
        cases hk
    | succ j =>
      rw [List.getElem?_cons_succ] at hj
      rcases ih hj with ⟨hdoc, hopen⟩ | ⟨m, hm, hopen, hclose⟩
      · have hdoc : (s.cut cs).mode.isDoc = true := hdoc
        cases hmode : s.mode.isDoc with
        | true =>
          refine .inl ⟨rfl, fun k hk => ?_⟩
          cases k with
          | zero =>
            rcases s.cut_of_isDoc hmode hne with ⟨rest, -, hcut⟩ | hpiece
            · rw [hcut] at hdoc
              cases hdoc
            · simpa using hpiece.not_close
          | succ k =>
            rw [List.getElem?_cons_succ]
            exact hopen k (Nat.lt_of_succ_lt_succ hk)
        | false =>
          rcases s.cut_outside hmode hne with houtside | ⟨hcut, -⟩
          · rw [houtside.mode] at hdoc
            cases hdoc
          · have hk : c.kind = .docOpen := congrArg Cut.kind hcut
            refine .inr ⟨0, Nat.succ_pos j, by simpa using hk, fun k hk hkj => ?_⟩
            obtain ⟨k, rfl⟩ : ∃ k', k = k' + 1 := ⟨k - 1, by omega⟩
            rw [List.getElem?_cons_succ]
            exact hopen k (Nat.lt_of_succ_lt_succ hkj)
      · refine .inr ⟨m + 1, Nat.succ_lt_succ hm, by simpa using hopen, fun k hmk hkj => ?_⟩
        obtain ⟨k, rfl⟩ : ∃ k', k = k' + 1 := ⟨k - 1, by omega⟩
        rw [List.getElem?_cons_succ]
        exact hclose k (Nat.lt_of_succ_lt_succ hmk) (Nat.lt_of_succ_lt_succ hkj)

namespace Tokens

/-- Links lead to tokens, in the order in which queries follow them. -/
structure LinkTargets (ts : Tokens) : Prop where
  bracketOpener : ∀ i o, ts.kind? i = some .closeAttribute → (ts.links i).bracketOpener = some o → o < i
  bracketCloser : ∀ i k c, ts.kind? i = some k → k.isOpener = true →
    (ts.links i).bracketCloser = some c → i < c
  parens : ∀ i o c, (ts.links i).parens = (some o, some c) → o < c ∧ c < ts.size
  scope : ∀ i o c, (ts.links i).scope = (some o, some c) → o < c ∧ c < ts.size
  scopeOwner : ∀ i w, (ts.links i).scopeOwner = some w → w < ts.size
  docCloser : ∀ o c, (ts.links o).docCloser = some c → o < c ∧ c < ts.size
  docTags : ∀ o c, (ts.links o).docCloser = some c → ∀ t ∈ (ts.links o).docTags, o < t ∧ t < c
  docOpener : ∀ c o, ts.kind? c = some .docClose → (ts.links c).docOpener = some o → o < c
  /-- The last opener of a comment before a tag is that of its own comment. -/
  tag : ∀ i o c, ts.kind? i = some .docTag →
    ts.findPrevious (fun t => t.kind == .docOpen) i none = some o →
    (ts.links o).docCloser = some c → i < c

theorem links_of_carriesPair {ts : Tokens} {i o c : Nat} (h : ts.CarriesPair i o c) :
    (ts.links i).bracketOpener = some o ∧ (ts.links i).bracketCloser = some c :=
  Prod.mk.inj h

theorem links_of_bracketLinks {ts : Tokens} {i : Nat} (h : ts.bracketLinks i = (none, none)) :
    (ts.links i).bracketOpener = none ∧ (ts.links i).bracketCloser = none :=
  Prod.mk.inj h

variable {source : String}

theorem bracketOpener_lt {i o : Nat} (hk : (ofSource source).kind? i = some .closeAttribute)
    (ho : ((ofSource source).links i).bracketOpener = some o) : o < i := by
  rcases bracketLinks_cases source i with ⟨p, hp, hend, hcarries⟩ | hnone
  · obtain rfl : p.1 = o := Option.some.inj ((links_of_carriesPair hcarries).1.symm.trans ho)
    have hpair := (ofSource source).pairs_spec.isPair p hp
    rcases hend with rfl | rfl
    · -- an opener is no closer
      obtain ⟨k, l, hopen, -, hcloser⟩ := hpair.kinds
      rw [getElem?_kinds, hk] at hopen
      cases hopen
      cases hcloser
    · exact hpair.lt
  · cases (links_of_bracketLinks hnone).1.symm.trans ho

theorem lt_bracketCloser {i c : Nat} {k : Kind} (hk : (ofSource source).kind? i = some k)
    (hopener : k.isOpener = true) (hc : ((ofSource source).links i).bracketCloser = some c) :
    i < c := by
  rcases bracketLinks_cases source i with ⟨p, hp, hend, hcarries⟩ | hnone
  · obtain rfl : p.2 = c := Option.some.inj ((links_of_carriesPair hcarries).2.symm.trans hc)
    have hpair := (ofSource source).pairs_spec.isPair p hp
    rcases hend with rfl | rfl
    · exact hpair.lt
    · obtain ⟨l, l', -, hclose, hcloser⟩ := hpair.kinds
      rw [getElem?_kinds, hk] at hclose
      cases hclose
      cases l <;> cases hcloser <;> cases hopener
  · cases (links_of_bracketLinks hnone).2.symm.trans hc

theorem mem_pairs_of_parens {i o c : Nat} (h : ((ofSource source).links i).parens = (some o, some c)) :
    (o, c) ∈ (ofSource source).pairs := by
  have hts := undocumented_linkDocs_lex source
  have hi : i < (parenTied source).size := by
    by_contra hi
    rw [parens_ofSource, links_of_size_le (Nat.not_lt.1 hi)] at h
    cases h
  have hsize : i < (lex source).linkDocs.linkBrackets.size := by
    rwa [parenTied, size_eq_of_unlinked (unlinked_linkParenOwners _)] at hi
  rw [parens_ofSource, parenTied] at h
  rw [pairs_ofSource]
  rcases parens_linkParenOwners hsize with ⟨-, heq⟩ | ⟨e, he, -, heq⟩
  · rcases parens_linkBrackets hts i with hnone | ⟨p, hp, -, -, hparens⟩
    · cases h.symm.trans (heq.trans hnone)
    · cases h.symm.trans (heq.trans hparens)
      exact hp
  · cases h.symm.trans heq
    exact (ownedParens_spec hts he).1

theorem mem_pairs_of_scope {i o c : Nat} (h : ((ofSource source).links i).scope = (some o, some c)) :
    (o, c) ∈ (ofSource source).pairs := by
  obtain ⟨e, he, rfl, rfl, -⟩ := ownedScope_of_scope h
  rw [pairs_ofSource_eq]
  exact (ownedScopes_spec he).1

theorem bounds_of_mem_pairs {o c : Nat} (h : (o, c) ∈ (ofSource source).pairs) :
    o < c ∧ c < (ofSource source).size := by
  have hpair := (ofSource source).pairs_spec.isPair _ h
  exact ⟨hpair.lt, isPair_bounds hpair⟩

theorem scopeOwner_lt {i w : Nat} (h : ((ofSource source).links i).scopeOwner = some w) :
    w < (ofSource source).size := by
  have hsize : (ofSource source).size = (parenTied source).size :=
    size_eq_of_unlinked (unlinked_linkScopes _)
  have hi : i < (parenTied source).size := by
    by_contra hi
    rw [links_of_size_le (by omega)] at h
    cases h
  rw [ofSource_eq] at h
  rcases last_write (parenTied source) Links.scopeOwner _ unlinked_linkScope
    (fun us e hus => scopeOwner_linkScope e (by rwa [size_eq_of_unlinked hus]))
    (parenTied source).ownedScopes with ⟨-, heq⟩ | ⟨pre, e, post, hes, -, hwrite⟩
  · cases h.symm.trans (heq.trans (scopes_parenTied source i).2)
  · obtain ⟨-, hwrite⟩ := Option.ite_none_right_eq_some.1 hwrite
    have howner : e.owner = w := Option.some.inj ((Option.some.inj hwrite).trans h)
    obtain ⟨-, hbody⟩ := ownedScopes_spec (e := e) (by rw [hes]; simp)
    obtain ⟨-, -, k, hk, -⟩ := bodyOpener?_spec hbody
    rw [hsize, ← howner]
    exact lt_size_of_kinds hk

theorem exists_span_of_docCloser {o c : Nat} (h : ((ofSource source).links o).docCloser = some c) :
    ∃ d ∈ DocSpan.collect 0 none (ofSource source).kinds, d.opener = o ∧ d.closer = some c := by
  have hordered := DocSpan.collect_ordered 0 none (lex source).kinds (by simp)
  have hspans := DocSpan.collect_spans 0 none (lex source).kinds rfl (by simp)
  have hdocs := docLinks_ofSource source o
  rw [linkDocs] at hdocs
  rw [kinds_ofSource]
  by_cases hopens : ∃ d ∈ DocSpan.collect 0 none (lex source).kinds, d.opener = o
  · obtain ⟨d, hd, rfl⟩ := hopens
    rw [docLinks_foldl_of_mem hordered hspans hd] at hdocs
    exact ⟨d, hd, rfl, (Prod.mk.inj hdocs).1.symm.trans h⟩
  · rw [docLinks_foldl_of_ne fun d hd heq => hopens ⟨d, hd, heq⟩, docLinks_lex] at hdocs
    cases h.symm.trans (Prod.mk.inj hdocs).1

theorem docCloser_bounds {o c : Nat} (h : ((ofSource source).links o).docCloser = some c) :
    (o < c ∧ c < (ofSource source).size) ∧
      ∀ t ∈ ((ofSource source).links o).docTags, o < t ∧ t < c := by
  obtain ⟨d, hd, rfl, hcloser⟩ := exists_span_of_docCloser h
  have hspan := DocSpan.collect_spans 0 none (ofSource source).kinds rfl (by simp) d hd
  have hdoc := ofSource_documented source d.opener
  exact ⟨⟨hspan.lt_closer c hcloser, lt_size_of_kinds (hdoc.close c h)⟩, fun t ht =>
    ⟨hdoc.opener_lt t ht, hdoc.lt_close t ht c h⟩⟩

theorem tag_lt_docCloser {i o c : Nat} (hi : (ofSource source).kind? i = some .docTag)
    (ho : (ofSource source).findPrevious (fun t => t.kind == .docOpen) i none = some o)
    (hc : ((ofSource source).links o).docCloser = some c) : i < c := by
  have hclose := (ofSource_documented source o).close c hc
  obtain ⟨⟨hoc, -⟩, -⟩ := docCloser_bounds hc
  rw [← getElem?_kinds] at hi
  have hi' := hi
  rw [kinds_eq_lexemes] at hi'
  rcases exists_docOpen_of_docTag {} source.toList hi' with ⟨hdoc, -⟩ | ⟨m, hm, hopen, hnone⟩
  · cases hdoc
  · rw [← kinds_eq_lexemes] at hopen hnone
    -- the search stops at `m` or behind it, and no comment ends between there and the tag
    have hmo : m ≤ o := by
      by_contra hlt
      obtain ⟨-, -, hbetween⟩ := scanDown_eq_some ho
      refine hbetween m (by omega) (by have := lt_size_of_kinds hi; omega) ?_
      rw [getElem?_kinds, kind?, Option.map_eq_some_iff] at hopen
      obtain ⟨t, ht, hkind⟩ := hopen
      rw [ht, Option.any_some, hkind]
      rfl
    by_contra hlt
    rcases Nat.lt_or_eq_of_le (Nat.not_lt.1 hlt) with hlt | rfl
    · exact hnone c (by omega) hlt hclose
    · cases hi.symm.trans hclose

theorem linkTargets_ofSource (source : String) : (ofSource source).LinkTargets where
  bracketOpener i o := bracketOpener_lt
  bracketCloser i k c := lt_bracketCloser
  parens i o c h := bounds_of_mem_pairs (mem_pairs_of_parens h)
  scope i o c h := bounds_of_mem_pairs (mem_pairs_of_scope h)
  scopeOwner i w := scopeOwner_lt
  docCloser o c h := (docCloser_bounds h).1
  docTags o c h := (docCloser_bounds h).2
  docOpener c o hc ho := by
    obtain ⟨o', ho', hlt, -⟩ := docOpener_of_docClose hc
    cases ho.symm.trans ho'
    exact hlt
  tag i o c := tag_lt_docCloser

end Tokens

end PhpStyle
