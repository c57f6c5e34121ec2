import PhpStyle.Proofs.ParenOwners

/-!
# Keywords and their bodies

The search for the body of a keyword moves from gap to gap between the tokens. Over blanks, names
and whole bracket pairs it stays inside the same pairs (`SameLevel`); the search of a declaration
also walks out of pairs that close, unless in a brace, and never into one (`bodyFrom_spec`). Of
the keywords that find one brace the last is its owner.
-/

namespace PhpStyle

/-- The gap before token `i` lies between the ends of `p`. -/
def Inside (p : Nat × Nat) (i : Nat) : Prop :=
  p.1 < i ∧ i ≤ p.2

/-- The gaps before `i` and `j` lie inside the same of the pairs. -/
def SameLevel (ps : List (Nat × Nat)) (i j : Nat) : Prop :=
  ∀ p ∈ ps, Inside p i ↔ Inside p j

namespace SameLevel

variable {ps : List (Nat × Nat)} {i j k : Nat}

theorem trans (h : SameLevel ps i j) (h' : SameLevel ps j k) : SameLevel ps i k :=
  fun p hp => (h p hp).trans (h' p hp)

theorem of_not_end (hle : i ≤ j) (h : ∀ p ∈ ps, ∀ k, i ≤ k → k < j → k ≠ p.1 ∧ k ≠ p.2) :
    SameLevel ps i j := by
  intro p hp
  have hopen := h p hp p.1
  have hclose := h p hp p.2
  unfold Inside
  omega

theorem of_gap {ks : List Kind} (h : Gap ks i j) (hps : ∀ p ∈ ps, IsPair ks p) :
    SameLevel ps (i + 1) j := by
  refine of_not_end h.lt fun p hp k hik hkj => ?_
  obtain ⟨o, c, ho, hc, hcloser⟩ := (hps p hp).kinds
  have hk := h.trivia k hik hkj
  constructor
  · rintro rfl
    exact hk ⟨o, ho, by cases o <;> cases hcloser <;> rfl⟩
  · rintro rfl
    exact hk ⟨c, hc, by cases o <;> cases hcloser <;> rfl⟩

theorem of_kind {ks : List Kind} {kind : Kind} (hi : ks[i]? = some kind)
    (hkind : ¬ kind.isBracket = true) (hps : ∀ p ∈ ps, IsPair ks p) : SameLevel ps i (i + 1) := by
  refine of_not_end (Nat.le_succ i) fun p hp k hik hki => ?_
  obtain rfl : k = i := by omega
  obtain ⟨o, c, ho, hc, hcloser⟩ := (hps p hp).kinds
  constructor
  · rintro rfl
    cases ho.symm.trans hi
    exact hkind (by cases kind <;> cases hcloser <;> rfl)
  · rintro rfl
    cases hc.symm.trans hi
    exact hkind (by cases o <;> cases hcloser <;> rfl)

theorem of_pair {ks : List Kind} {stack : List (Nat × Kind)} (hps : PairsFrom ks k stack ps)
    (h : (i, j) ∈ ps) : SameLevel ps i (j + 1) := by
  intro p hp
  have hlt := (hps.isPair _ h).lt
  by_cases hne : p = (i, j)
  · subst hne
    unfold Inside
    omega
  · have := hps.closesBefore_or hp h hne
    simp only [ClosesBefore] at this hlt
    unfold Inside
    omega

theorem of_ownerPath {ks : List Kind} (h : OwnerPath ks i j) (hps : ∀ p ∈ ps, IsPair ks p) :
    SameLevel ps (i + 1) j := by
  cases h with
  | direct _ _ h => exact of_gap h hps
  | named _ hp hwp hpi =>
    exact ((of_gap hwp hps).trans (of_kind hp (by decide) hps)).trans (of_gap hpi hps)
  | byReference _ hq hp hwq hqp hpi =>
    have hwp := ((of_gap hwq hps).trans (of_kind hq (by decide) hps)).trans (of_gap hqp hps)
    exact (hwp.trans (of_kind hp (by decide) hps)).trans (of_gap hpi hps)

end SameLevel

/-- The keywords that declare something with a body. -/
def Kind.declares : Kind → Bool
  | .kwFunction | .kwClass | .kwInterface | .kwTrait | .kwEnum => true
  | _ => false

/-- The keywords with a body after their parentheses. -/
def Kind.branches : Kind → Bool
  | .kwIf | .kwElseif | .kwWhile | .kwFor | .kwForeach | .kwSwitch | .kwCatch | .kwMatch => true
  | _ => false

/-- The keywords with a body right after them. -/
def Kind.beginsBlock : Kind → Bool
  | .kwElse | .kwTry | .kwFinally => true
  | _ => false

def Kind.isBrace : Kind → Bool
  | .openBrace | .closeBrace => true
  | _ => false

/-- The part of the links that tells the scope. -/
def Links.scope (l : Links) : Option Nat × Option Nat :=
  (l.scopeOpener, l.scopeCloser)

namespace Tokens

variable {ts : Tokens} {i j o c : Nat}

theorem snd_bracketLinks : (ts.links j).bracketCloser = (ts.bracketLinks j).2 :=
  rfl

/-- What the search for a declaration's body leaves on its way from the gap before `j` to `o`: no
pair that closes in a brace, and it enters none. -/
theorem bodyFrom_spec
    (hlinks : ∀ j c k, ts.kinds[j]? = some k → k.isOpener = true →
      (ts.links j).bracketCloser = some c → (j, c) ∈ ts.pairs) (h : ts.bodyFrom j = some o) :
    j ≤ o ∧ ts.kinds[o]? = some .openBrace ∧ ∀ p ∈ ts.pairs, (Inside p o → Inside p j) ∧
      (Inside p j → Inside p o ∨ p.2 < o ∧ ts.kinds[p.1]? ≠ some .openBrace) := by
  have hkind : ∀ {j : Nat} (hj : j < ts.size), ts.kinds[j]? = some ts.items[j].kind := by
    intro j hj
    simp [kinds, Array.getElem?_eq_getElem hj]
  fun_induction bodyFrom ts j with
  | case1 j hj t hbrace =>
    obtain rfl : j = o := Option.some.inj h
    exact ⟨Nat.le_refl j, (hkind hj).trans (congrArg some hbrace), fun p hp => ⟨id, .inl⟩⟩
  | case2 j hj t hbrace hstop => cases h
  | case3 j hj t hbrace hstop hopener c hc ih =>
    have hpair : (j, c) ∈ ts.pairs := by
      refine hlinks j c _ (hkind hj) hopener ?_
      simp only [links, get?, Array.getElem?_eq_getElem hj]
      exact hc
    have hlt := (ts.pairs_spec.isPair _ hpair).lt
    have hlevel := SameLevel.of_pair ts.pairs_spec hpair
    rw [Nat.max_eq_left (Nat.succ_le_succ (Nat.le_of_lt hlt))] at ih h
    obtain ⟨hle, hbrace, hps⟩ := ih h
    refine ⟨by simp only at hlt; omega, hbrace, fun p hp => ?_⟩
    rw [hlevel p hp]
    exact hps p hp
  | case4 j hj t hbrace hstop hopener hc => cases h
  | case5 j hj t hbrace hstop hopener ih =>
    obtain ⟨hle, hbrace', hps⟩ := ih h
    refine ⟨by omega, hbrace', fun p hp => ?_⟩
    obtain ⟨k, l, hk, hl, hcloser⟩ := (ts.pairs_spec.isPair p hp).kinds
    -- a pair may close at `j`, but does not open there
    have hopen : p.1 ≠ j := by
      rintro rfl
      cases (hkind hj).symm.trans hk
      exact hopener (Option.isSome_iff_exists.2 ⟨l, hcloser⟩)
    obtain ⟨hout, hin⟩ := hps p hp
    refine ⟨fun hinside => ?_, fun hinside => ?_⟩
    · have := hout hinside
      unfold Inside at this ⊢
      omega
    · by_cases hclose : p.2 = j
      · refine .inr ⟨by omega, fun hk' => ?_⟩
        cases hk.symm.trans hk'
        cases hcloser
        rw [hclose] at hl
        have ht : t.kind = .closeBrace := Option.some.inj ((hkind hj).symm.trans hl)
        exact hstop (by rw [ht]; rfl)
      · exact hin (by unfold Inside at hinside ⊢; omega)
  | case6 j hj => cases h

theorem bodyOpener?_cases (h : ts.bodyOpener? i = some o) : ∃ k, ts.kinds[i]? = some k ∧
    (k.declares = true ∧ ts.bodyFrom (((ts.links i).parenCloser.getD i) + 1) = some o ∨
      ts.kinds[o]? = some .openBrace ∧
        (k.branches = true ∧
          (∃ c, (ts.links i).parenCloser = some c ∧ ts.nextEffective c = some o) ∨
        k.beginsBlock = true ∧ ts.nextEffective i = some o)) := by
  rw [bodyOpener?, ← getElem?_kinds] at h
  cases hk : ts.kinds[i]? with
  | none => rw [hk] at h; cases h
  | some k =>
    rw [hk] at h
    refine ⟨k, rfl, ?_⟩
    split at h
    case h_17 => cases h
    all_goals rename_i hk
    all_goals cases hk
    any_goals exact .inl ⟨rfl, h⟩
    any_goals
      obtain ⟨c, hc, h⟩ := Option.bind_eq_some_iff.1 h
      obtain ⟨h, hbrace⟩ := Option.filter_eq_some_iff.1 h
      exact .inr ⟨kindIs_beq.1 hbrace, .inl ⟨rfl, c, hc, h⟩⟩
    any_goals
      obtain ⟨h, hbrace⟩ := Option.filter_eq_some_iff.1 h
      exact .inr ⟨kindIs_beq.1 hbrace, .inr ⟨rfl, h⟩⟩

/-- The tokens of a source before their scopes are tied. -/
def parenTied (source : String) : Tokens :=
  (lex source).linkDocs.linkBrackets.linkParenOwners

theorem ofSource_eq (source : String) : ofSource source = (parenTied source).linkScopes :=
  rfl

theorem unlinked_parenTied (source : String) :
    (parenTied source).unlinked = (lex source).linkDocs.unlinked := by
  simp [parenTied]

theorem undocumented_linkDocs_lex (source : String) (j : Nat) :
    ((lex source).linkDocs.links j).undocumented = {} := by
  have hstep : ∀ ts d j, ((linkDoc ts d).links j).undocumented = (ts.links j).undocumented := by
    intro ts d j
    unfold linkDoc
    split
    · rw [links_relink_eq Links.undocumented (by intro l; rfl),
        links_relink_eq Links.undocumented (by intro l; rfl)]
    · rw [links_relink_eq Links.undocumented (by intro l; rfl)]
  rw [linkDocs, links_foldl_eq Links.undocumented hstep, links_lex]
  rfl

variable {source : String}

theorem kinds_parenTied : (parenTied source).kinds = (lex source).linkDocs.kinds :=
  kinds_eq_of_unlinked (unlinked_parenTied source)

theorem pairs_parenTied : (parenTied source).pairs = (lex source).linkDocs.pairs :=
  pairs_eq_of_unlinked (unlinked_parenTied source)

theorem mem_pairs_of_opener {k : Kind} (hk : (parenTied source).kinds[j]? = some k)
    (hopener : k.isOpener = true) (h : ((parenTied source).links j).bracketCloser = some c) :
    (j, c) ∈ (parenTied source).pairs := by
  have hlinks : (ofSource source).bracketLinks j = (parenTied source).bracketLinks j :=
    links_foldl_eq Links.brackets bracketLinks_linkScope _ _ j
  rw [pairs_parenTied, ← pairs_ofSource]
  rcases bracketLinks_cases source j with ⟨p, hp, hend, hcarries⟩ | hnone
  · rw [snd_bracketLinks, ← hlinks, hcarries] at h
    obtain rfl : p.2 = c := Option.some.inj h
    rcases hend with rfl | rfl
    · exact hp
    · -- a bracket that opens does not close a pair
      obtain ⟨o, l, ho, hl, hcloser⟩ := ((ofSource source).pairs_spec.isPair p hp).kinds
      rw [kinds_parenTied, ← kinds_unlinked, unlinked_linkDocs, kinds_unlinked, ← kinds_ofSource,
        hl] at hk
      cases hk
      cases o <;> cases hcloser <;> cases hopener
  · rw [snd_bracketLinks, ← hlinks, hnone] at h
    cases h

theorem sameLevel_parenCloser {k : Kind} (hk : (parenTied source).kinds[i]? = some k)
    (hparen : ¬ k.isParen = true) (h : ((parenTied source).links i).parenCloser = some c) :
    i < c ∧ SameLevel (parenTied source).pairs (i + 1) (c + 1) := by
  have hts := undocumented_linkDocs_lex source
  rw [kinds_parenTied] at hk
  have hw : ∀ l, (lex source).linkDocs.kinds[i]? = some l → ¬ l.isParen = true := by
    intro l hl
    rwa [← Option.some.inj (hk.symm.trans hl)]
  rw [parenTied] at h
  obtain ⟨e, he, rfl, rfl, -⟩ := owned_of_parens hts hw h
  obtain ⟨hpair, -, hpath⟩ := ownedParens_spec hts he
  have hpairs := (lex source).linkDocs.pairs_spec
  have hlt := (hpairs.isPair _ hpair).lt
  have howner := hpath.lt
  rw [pairs_parenTied]
  refine ⟨by simp only at hlt; omega, ?_⟩
  exact (SameLevel.of_ownerPath hpath hpairs.isPair).trans (.of_pair hpairs hpair)

/-- Where a keyword's body lies: after it, inside no pair that does not hold the keyword too, and
inside all of those except what a declaration has left. -/
theorem bodyOpener?_spec (h : (parenTied source).bodyOpener? i = some o) :
    i < o ∧ (parenTied source).kinds[o]? = some .openBrace ∧
    ∃ k, (parenTied source).kinds[i]? = some k ∧ ¬ k.isBracket = true ∧
      ∀ p ∈ (parenTied source).pairs, (Inside p o → Inside p (i + 1)) ∧
        (Inside p (i + 1) → Inside p o ∨
          k.declares = true ∧ p.2 < o ∧ (parenTied source).kinds[p.1]? ≠ some .openBrace) := by
  have hpairs := (parenTied source).pairs_spec
  obtain ⟨k, hk, h⟩ := bodyOpener?_cases h
  rcases h with ⟨hdeclares, ho⟩ | ⟨hbrace, ⟨hbranches, c, hc, ho⟩ | ⟨hbegins, ho⟩⟩
  · have hbracket : ¬ k.isBracket = true := by cases k <;> cases hdeclares <;> decide
    have hparen : ¬ k.isParen = true := by cases k <;> cases hdeclares <;> decide
    -- the search starts right after the keyword or after its parentheses
    have hstart : ∃ c, i ≤ c ∧ SameLevel (parenTied source).pairs (i + 1) (c + 1) ∧
        (parenTied source).bodyFrom (c + 1) = some o := by
      cases hc : ((parenTied source).links i).parenCloser with
      | none =>
        rw [hc, Option.getD_none] at ho
        exact ⟨i, Nat.le_refl i, fun p hp => Iff.rfl, ho⟩
      | some c =>
        rw [hc, Option.getD_some] at ho
        obtain ⟨hlt, hlevel⟩ := sameLevel_parenCloser hk hparen hc
        exact ⟨c, Nat.le_of_lt hlt, hlevel, ho⟩
    obtain ⟨c, hle, hlevel, ho⟩ := hstart
    obtain ⟨hco, hbrace, hps⟩ := bodyFrom_spec (fun j c k => mem_pairs_of_opener) ho
    refine ⟨by omega, hbrace, k, hk, hbracket, fun p hp => ?_⟩
    obtain ⟨hout, hin⟩ := hps p hp
    rw [hlevel p hp]
    exact ⟨hout, fun h => (hin h).imp_right fun hleft => ⟨hdeclares, hleft⟩⟩
  · have hbracket : ¬ k.isBracket = true := by cases k <;> cases hbranches <;> decide
    have hparen : ¬ k.isParen = true := by cases k <;> cases hbranches <;> decide
    obtain ⟨hlt, hlevel⟩ := sameLevel_parenCloser hk hparen hc
    obtain ⟨-, hgap⟩ := gap_of_nextEffective ho
    have hlevel := hlevel.trans (.of_gap hgap hpairs.isPair)
    refine ⟨Nat.lt_trans hlt hgap.lt, hbrace, k, hk, hbracket, fun p hp => ?_⟩
    exact ⟨(hlevel p hp).2, fun h => .inl ((hlevel p hp).1 h)⟩
  · have hbracket : ¬ k.isBracket = true := by cases k <;> cases hbegins <;> decide
    obtain ⟨-, hgap⟩ := gap_of_nextEffective ho
    have hlevel := SameLevel.of_gap hgap hpairs.isPair
    refine ⟨hgap.lt, hbrace, k, hk, hbracket, fun p hp => ?_⟩
    exact ⟨(hlevel p hp).2, fun h => .inl ((hlevel p hp).1 h)⟩

/-! ### The links of scopes -/

theorem scope_linkScope (e : Owned) (hj : j < ts.size) :
    ((ts.linkScope e).links j).scope =
      (if j = e.owner ∨ j = e.opener ∨ j = e.closer then some (some e.opener, some e.closer)
        else none).getD (ts.links j).scope := by
  unfold linkScope
  rw [part_relink (v := (some e.opener, some e.closer)) Links.scope (by intro l; rfl)
      (by simpa only [size_relink]),
    part_relink (v := (some e.opener, some e.closer)) Links.scope (by intro l; rfl)
      (by rwa [size_relink]),
    part_relink (v := (some e.opener, some e.closer)) Links.scope (by intro l; rfl) hj]
  by_cases h₁ : j = e.owner <;> by_cases h₂ : j = e.opener <;> by_cases h₃ : j = e.closer <;>
    simp [h₁, h₂, h₃]

theorem scopeOwner_linkScope (e : Owned) (hj : j < ts.size) :
    ((ts.linkScope e).links j).scopeOwner =
      (if j = e.opener ∨ j = e.closer then some (some e.owner) else none).getD
        (ts.links j).scopeOwner := by
  unfold linkScope
  rw [part_relink (v := some e.owner) Links.scopeOwner (by intro l; rfl)
      (by simpa only [size_relink]),
    part_relink (v := some e.owner) Links.scopeOwner (by intro l; rfl) (by rwa [size_relink]),
    links_relink_eq Links.scopeOwner (by intro l; rfl)]
  by_cases h₁ : j = e.opener <;> by_cases h₂ : j = e.closer <;> simp [h₁, h₂]

/-- The scopes with an owner, in the order of their owners. -/
def ownedScopes (ts : Tokens) : List Owned :=
  (List.range ts.size).filterMap ts.ownedScope?

theorem ownedScope?_eq_some {e : Owned} : ts.ownedScope? i = some e ↔
    e.owner = i ∧ ts.bodyOpener? i = some e.opener ∧
      (ts.links e.opener).bracketCloser = some e.closer := by
  simp only [ownedScope?, Option.bind_eq_bind, Option.bind_eq_some_iff]
  constructor
  · rintro ⟨o, ho, c, hc, h⟩
    cases h
    exact ⟨rfl, ho, hc⟩
  · rintro ⟨rfl, ho, hc⟩
    exact ⟨_, ho, _, hc, rfl⟩

theorem ownedScopes_pairwise (ts : Tokens) :
    ts.ownedScopes.Pairwise fun d e => d.owner < e.owner := by
  refine List.Pairwise.filterMap _ (fun i j hlt d hd e he => ?_) List.pairwise_lt_range
  rwa [(ownedScope?_eq_some.1 hd).1, (ownedScope?_eq_some.1 he).1]

theorem mem_ownedScopes {e : Owned} (h : e ∈ ts.ownedScopes) : ts.ownedScope? e.owner = some e := by
  obtain ⟨i, -, h⟩ := List.mem_filterMap.1 h
  rwa [(ownedScope?_eq_some.1 h).1]

theorem scope_linkScopes (hj : j < ts.size) :
    ((∀ e ∈ ts.ownedScopes, j ≠ e.owner) ∧ (ts.linkScopes.links j).scope = (ts.links j).scope) ∨
    ∃ e ∈ ts.ownedScopes, (j = e.owner ∨ j = e.opener ∨ j = e.closer) ∧
      (ts.linkScopes.links j).scope = (some e.opener, some e.closer) := by
  rcases last_write ts Links.scope _ unlinked_linkScope
    (fun us e hus => scope_linkScope e (by rwa [size_eq_of_unlinked hus])) ts.ownedScopes with
    ⟨hnone, heq⟩ | ⟨pre, e, post, hes, -, hwrite⟩
  · refine .inl ⟨fun e he howner => ?_, heq⟩
    simpa [howner] using hnone e he
  · obtain ⟨hend, hwrite⟩ := Option.ite_none_right_eq_some.1 hwrite
    exact .inr ⟨e, by simp [hes], hend, (Option.some.inj hwrite).symm⟩

theorem scopeOwner_linkScopes {e : Owned} (he : e ∈ ts.ownedScopes) (hend : j = e.opener ∨ j = e.closer)
    (hj : j < ts.size) : ∃ d ∈ ts.ownedScopes, (j = d.opener ∨ j = d.closer) ∧
      (ts.linkScopes.links j).scopeOwner = some d.owner ∧
      ∀ f ∈ ts.ownedScopes, (j = f.opener ∨ j = f.closer) → f.owner ≤ d.owner := by
  rcases last_write ts Links.scopeOwner _ unlinked_linkScope
    (fun us e hus => scopeOwner_linkScope e (by rwa [size_eq_of_unlinked hus])) ts.ownedScopes with
    ⟨hnone, -⟩ | ⟨pre, d, post, hds, hpost, hwrite⟩
  · simpa [hend] using hnone e he
  · obtain ⟨hend, hwrite⟩ := Option.ite_none_right_eq_some.1 hwrite
    refine ⟨d, by simp [hds], hend, (Option.some.inj hwrite).symm, fun f hf hfend => ?_⟩
    -- the scopes stand in the order of their keywords, and none after `d` writes this brace
    have hsorted := ts.ownedScopes_pairwise
    rw [hds] at hf hsorted
    obtain ⟨-, hsorted, hcross⟩ := List.pairwise_append.1 hsorted
    rcases List.mem_append.1 hf with hf | hf
    · exact Nat.le_of_lt (hcross f hf d List.mem_cons_self)
    · rcases List.mem_cons.1 hf with rfl | hf
      · exact Nat.le_refl _
      · simpa [hfend] using hpost f hf

theorem ownedScopes_spec {e : Owned} (h : e ∈ (parenTied source).ownedScopes) :
    (e.opener, e.closer) ∈ (parenTied source).pairs ∧
      (parenTied source).bodyOpener? e.owner = some e.opener := by
  obtain ⟨-, ho, hc⟩ := ownedScope?_eq_some.1 (mem_ownedScopes h)
  obtain ⟨-, hbrace, -⟩ := bodyOpener?_spec ho
  exact ⟨mem_pairs_of_opener hbrace rfl hc, ho⟩

/-- Scopes are tied last. -/
theorem scopes_parenTied (source : String) (j : Nat) :
    ((parenTied source).links j).scope = (none, none) ∧
      ((parenTied source).links j).scopeOwner = none := by
  let scopes (l : Links) : (Option Nat × Option Nat) × Option Nat := (l.scope, l.scopeOwner)
  have hparens : ∀ ts e j, scopes ((linkParenOwner ts e).links j) = scopes (ts.links j) := by
    intro ts e j
    unfold linkParenOwner
    rw [links_relink_eq scopes (by intro l; rfl), links_relink_eq scopes (by intro l; rfl),
      links_relink_eq scopes (by intro l; rfl)]
  have hbrackets : ∀ ts p j, scopes ((linkBracket ts p).links j) = scopes (ts.links j) := by
    intro ts p j
    unfold linkBracket
    cases ts.kindIs (· == .closeParen) p.2 <;>
      rw [links_relink_eq scopes (by intro l; rfl), links_relink_eq scopes (by intro l; rfl)]
  have hscopes : scopes ((parenTied source).links j) = ((none, none), none) := by
    rw [parenTied, linkParenOwners, links_foldl_eq scopes hparens, linkBrackets,
      links_foldl_eq scopes hbrackets]
    exact congrArg scopes (undocumented_linkDocs_lex source j)
  exact Prod.mk.inj hscopes

/-- Whoever carries a scope is its keyword or one of its braces. -/
theorem ownedScope_of_scope (h : ((ofSource source).links j).scope = (some o, some c)) :
    ∃ e ∈ (parenTied source).ownedScopes, e.opener = o ∧ e.closer = c ∧
      (j = e.owner ∨ j = e.opener ∨ j = e.closer) := by
  have hj : j < (parenTied source).size := by
    by_contra hj
    have hsize := size_eq_of_unlinked (parenTied source).unlinked_linkScopes
    rw [← hsize, ← ofSource_eq, Nat.not_lt] at hj
    rw [links_of_size_le hj] at h
    cases h
  rw [ofSource_eq] at h
  rcases scope_linkScopes hj with ⟨-, heq⟩ | ⟨e, he, hend, heq⟩
  · rw [heq, (scopes_parenTied source j).1] at h
    cases h
  · obtain ⟨ho, hc⟩ := Prod.mk.inj (heq.symm.trans h)
    exact ⟨e, he, Option.some.inj ho, Option.some.inj hc, hend⟩

theorem kinds_of_pair_brace {p : Nat × Nat} (hp : p ∈ ts.pairs) (h : ts.kinds[p.1]? = some .openBrace) :
    ts.kinds[p.2]? = some .closeBrace := by
  obtain ⟨k, l, hk, hl, hcloser⟩ := (ts.pairs_spec.isPair p hp).kinds
  cases hk.symm.trans h
  cases hcloser
  exact hl

theorem ownedScopes_braces {e : Owned} (h : e ∈ (parenTied source).ownedScopes) :
    (parenTied source).kinds[e.opener]? = some .openBrace ∧
      (parenTied source).kinds[e.closer]? = some .closeBrace := by
  obtain ⟨hpair, ho⟩ := ownedScopes_spec h
  obtain ⟨-, hbrace, -⟩ := bodyOpener?_spec ho
  have hclose := kinds_of_pair_brace hpair hbrace
  exact ⟨hbrace, hclose⟩

theorem scope_of_ownedScope {e : Owned} (he : e ∈ (parenTied source).ownedScopes) :
    ((ofSource source).links e.owner).scope = (some e.opener, some e.closer) := by
  obtain ⟨-, -, k, hk, hbracket, -⟩ := bodyOpener?_spec (ownedScopes_spec he).2
  rw [ofSource_eq]
  rcases scope_linkScopes (lt_size_of_kinds hk) with ⟨hnone, -⟩ | ⟨d, hd, hend, heq⟩
  · exact absurd rfl (hnone e he)
  · -- the keyword is no brace, so the step that wrote it is its own
    have hsame : e.owner = d.owner := by
      obtain ⟨hopen, hclose⟩ := ownedScopes_braces hd
      rcases hend with h | h | h
      · exact h
      · rw [← h, hk] at hopen
        cases hopen
        exact absurd rfl hbracket
      · rw [← h, hk] at hclose
        cases hclose
        exact absurd rfl hbracket
    have hd := mem_ownedScopes hd
    rw [← hsame, mem_ownedScopes he] at hd
    rw [heq, Option.some.inj hd]

theorem scopeOwner_of_ownedScope {e : Owned} (he : e ∈ (parenTied source).ownedScopes)
    (hj : j = e.opener ∨ j = e.closer) : ∃ d ∈ (parenTied source).ownedScopes,
      d.opener = e.opener ∧ d.closer = e.closer ∧
      ((ofSource source).links j).scopeOwner = some d.owner ∧
      ∀ f ∈ (parenTied source).ownedScopes, f.opener = e.opener → f.owner ≤ d.owner := by
  have hpairs := (parenTied source).pairs_spec
  have hpair := (ownedScopes_spec he).1
  have hlt : j < (parenTied source).size := by
    obtain ⟨hopen, hclose⟩ := ownedScopes_braces he
    rcases hj with rfl | rfl
    · exact lt_size_of_kinds hopen
    · exact lt_size_of_kinds hclose
  obtain ⟨d, hd, hend, howner, hlast⟩ := scopeOwner_linkScopes he hj hlt
  obtain ⟨ho, hc⟩ := Prod.mk.inj (hpairs.eq_of_end (ownedScopes_spec hd).1 hpair hend hj)
  refine ⟨d, hd, ho, hc, howner, fun f hf hfe => hlast f hf ?_⟩
  obtain ⟨-, hfc⟩ := Prod.mk.inj (hpairs.eq_of_end (j := f.opener) (ownedScopes_spec hf).1 hpair
    (.inl rfl) (.inl hfe))
  rwa [hfe, hfc]

/-- The token at `i` is tied to the scope from `o` to `c`. -/
def CarriesScope (ts : Tokens) (i o c : Nat) : Prop :=
  (ts.links i).scopeOpener = some o ∧ (ts.links i).scopeCloser = some c

instance (ts : Tokens) (i o c : Nat) : Decidable (ts.CarriesScope i o c) :=
  inferInstanceAs (Decidable (_ ∧ _))

instance (ts : Tokens) (i o c : Nat) : Decidable (ts.CarriesPair i o c) :=
  inferInstanceAs (Decidable (_ = _))

/-- The token at `i` is tied to the parentheses at `o` and `c`. -/
def CarriesParens (ts : Tokens) (i o c : Nat) : Prop :=
  (ts.links i).parenOpener = some o ∧ (ts.links i).parenCloser = some c

/-- The parentheses at `o` and `c` are partners. -/
structure ParenPair (ts : Tokens) (o c : Nat) : Prop where
  opener : ts.kind? o = some .openParen ∧ ts.CarriesPair o o c
  closer : ts.kind? c = some .closeParen ∧ ts.CarriesPair c o c

/-- The pair from `a` to `b` is open at `i`. -/
def Surrounds (ts : Tokens) (a b i : Nat) : Prop :=
  ts.CarriesPair a a b ∧ a < i ∧ i < b

/-- Every body lies at the level of its keyword and belongs to no other. -/
def BodiesAtKeywordLevel (ts : Tokens) : Prop :=
  ∀ i o c, ¬ ts.kindIs Kind.isBrace i = true → ts.CarriesScope i o c →
    (i < o ∧ o < c) ∧ (ts.kind? o = some .openBrace ∧ ts.CarriesPair o o c) ∧
    ((ts.links o).scopeOwner = some i ∧ (ts.links c).scopeOwner = some i) ∧
    ∀ a b, ts.Surrounds a b i ↔ ts.Surrounds a b o

/-- What keywords own. -/
structure Owners (ts : Tokens) : Prop where
  parens_iff : ∀ w o c, ¬ ts.kindIs Kind.isParen w = true → (ts.CarriesParens w o c ↔
    ts.ParenPair o c ∧ (ts.links o).parenOwner = some w ∧ (ts.links c).parenOwner = some w)
  parens_lt : ∀ w o c, ¬ ts.kindIs Kind.isParen w = true → ts.CarriesParens w o c → w < o
  body : ∀ i o c, ¬ ts.kindIs Kind.isBrace i = true → ts.CarriesScope i o c →
    (i < o ∧ o < c) ∧ ts.kind? o = some .openBrace ∧ ts.CarriesPair o o c
  /-- Of the keywords with one body the last is its owner. -/
  owner : ∀ i o c, ¬ ts.kindIs Kind.isBrace i = true → ts.CarriesScope i o c →
    ∃ j, (¬ ts.kindIs Kind.isBrace j = true ∧ ts.CarriesScope j o c) ∧ i ≤ j ∧
      (ts.links o).scopeOwner = some j ∧ (ts.links c).scopeOwner = some j ∧
      ∀ k, ¬ ts.kindIs Kind.isBrace k = true → ts.CarriesScope k o c → k ≤ j
  /-- A body lies in no pair that its keyword does not lie in. -/
  outer : ∀ i o c, ¬ ts.kindIs Kind.isBrace i = true → ts.CarriesScope i o c →
    ∀ a b, ts.Surrounds a b o → ts.Surrounds a b i
  /-- Only a declaration may have its body past the end of a pair it lies in, and not of braces. -/
  inner : ∀ i o c, ¬ ts.kindIs Kind.isBrace i = true → ts.CarriesScope i o c →
    ∀ a b, ts.Surrounds a b i → ts.Surrounds a b o ∨
      ts.kindIs Kind.declares i = true ∧ b < o ∧ ts.kind? a ≠ some .openBrace

theorem parens_linkScope (ts : Tokens) (e : Owned) (j : Nat) :
    ((ts.linkScope e).links j).parens = (ts.links j).parens := by
  unfold linkScope
  rw [links_relink_eq Links.parens (by intro l; rfl), links_relink_eq Links.parens (by intro l; rfl),
    links_relink_eq Links.parens (by intro l; rfl)]

theorem parenOwner_linkScope (ts : Tokens) (e : Owned) (j : Nat) :
    ((ts.linkScope e).links j).parenOwner = (ts.links j).parenOwner := by
  unfold linkScope
  rw [links_relink_eq Links.parenOwner (by intro l; rfl),
    links_relink_eq Links.parenOwner (by intro l; rfl),
    links_relink_eq Links.parenOwner (by intro l; rfl)]

theorem parens_ofSource (source : String) (j : Nat) :
    ((ofSource source).links j).parens = ((parenTied source).links j).parens :=
  links_foldl_eq Links.parens parens_linkScope _ _ j

theorem parenOwner_ofSource (source : String) (j : Nat) :
    ((ofSource source).links j).parenOwner = ((parenTied source).links j).parenOwner :=
  links_foldl_eq Links.parenOwner parenOwner_linkScope _ _ j

theorem carriesParens_iff : ts.CarriesParens i o c ↔ (ts.links i).parens = (some o, some c) :=
  Prod.mk.injEq _ _ _ _ ▸ Iff.rfl

theorem carriesScope_iff : ts.CarriesScope i o c ↔ (ts.links i).scope = (some o, some c) :=
  Prod.mk.injEq _ _ _ _ ▸ Iff.rfl

theorem kinds_ofSource_eq (source : String) : (ofSource source).kinds = (parenTied source).kinds :=
  kinds_eq_of_unlinked (unlinked_linkScopes _)

theorem pairs_ofSource_eq (source : String) : (ofSource source).pairs = (parenTied source).pairs :=
  pairs_eq_of_unlinked (unlinked_linkScopes _)

theorem carriesScope_iff_owned (hi : ¬ (ofSource source).kindIs Kind.isBrace i = true) :
    (ofSource source).CarriesScope i o c ↔ ⟨i, o, c⟩ ∈ (parenTied source).ownedScopes := by
  rw [carriesScope_iff]
  constructor
  · intro h
    obtain ⟨⟨w, o, c⟩, he, rfl, rfl, hend⟩ := ownedScope_of_scope h
    obtain ⟨hopen, hclose⟩ := ownedScopes_braces he
    rw [← kinds_ofSource_eq] at hopen hclose
    rcases hend with rfl | rfl | rfl
    · exact he
    · exact absurd (kindIs_iff.2 ⟨_, hopen, rfl⟩) hi
    · exact absurd (kindIs_iff.2 ⟨_, hclose, rfl⟩) hi
  · exact scope_of_ownedScope

theorem parenPair_iff : (ofSource source).ParenPair o c ↔
    (o, c) ∈ (ofSource source).pairs ∧ (ofSource source).kinds[o]? = some .openParen := by
  constructor
  · rintro ⟨⟨hopen, hcarries⟩, -⟩
    rw [getElem?_kinds]
    exact ⟨(carriesPair_iff.1 hcarries).1, hopen⟩
  · rintro ⟨hpair, hopen⟩
    have hclose := ((ofSource source).pairs_spec.isPair _ hpair).closeParen_iff.2 hopen
    rw [getElem?_kinds] at hopen hclose
    exact ⟨⟨hopen, carriesPair_of_mem hpair (.inl rfl)⟩, ⟨hclose, carriesPair_of_mem hpair (.inr rfl)⟩⟩

theorem surrounds_iff {a b : Nat} : (ofSource source).Surrounds a b i ↔
    (a, b) ∈ (ofSource source).pairs ∧ a < i ∧ i < b := by
  rw [Surrounds, carriesPair_iff]
  simp

theorem inside_succ_iff {a b : Nat} {k : Kind} (hk : ts.kinds[i]? = some k)
    (hbracket : ¬ k.isBracket = true) (h : (a, b) ∈ ts.pairs) :
    Inside (a, b) (i + 1) ↔ a < i ∧ i < b := by
  have hlevel := SameLevel.of_kind hk hbracket ts.pairs_spec.isPair (a, b) h
  unfold Inside at hlevel ⊢
  simp only at hlevel ⊢
  omega

theorem inside_opener_iff {a b : Nat} (ho : ts.kinds[o]? = some .openBrace) (h : (a, b) ∈ ts.pairs) :
    Inside (a, b) o ↔ a < o ∧ o < b := by
  have hne : o ≠ b := by
    rintro rfl
    obtain ⟨k, l, -, hl, hcloser⟩ := (ts.pairs_spec.isPair _ h).kinds
    cases hl.symm.trans ho
    cases k <;> cases hcloser
  unfold Inside
  simp only
  omega

theorem not_isParen_of_not_kindIs {w : Nat} (hw : ¬ (ofSource source).kindIs Kind.isParen w = true) :
    ∀ k, (lex source).linkDocs.kinds[w]? = some k → ¬ k.isParen = true := by
  intro k hk hparen
  rw [← kinds_parenTied, ← kinds_ofSource_eq] at hk
  exact hw (kindIs_iff.2 ⟨k, hk, hparen⟩)

theorem ownedScopes_levels {a b : Nat} (h : ⟨i, o, c⟩ ∈ (parenTied source).ownedScopes) :
    ((ofSource source).Surrounds a b o → (ofSource source).Surrounds a b i) ∧
    ((ofSource source).Surrounds a b i → (ofSource source).Surrounds a b o ∨
      (ofSource source).kindIs Kind.declares i = true ∧ b < o ∧
        (ofSource source).kind? a ≠ some .openBrace) := by
  obtain ⟨-, hbody⟩ := ownedScopes_spec h
  obtain ⟨-, hbrace, k, hk, hbracket, hlevels⟩ := bodyOpener?_spec hbody
  simp only at hbrace hk hlevels
  rw [← kinds_ofSource_eq] at hbrace hk
  rw [← pairs_ofSource_eq] at hlevels
  rw [surrounds_iff, surrounds_iff]
  constructor
  · rintro ⟨hpair, hsurrounds⟩
    have hout := (hlevels _ hpair).1
    rw [inside_opener_iff hbrace hpair, inside_succ_iff hk hbracket hpair] at hout
    exact ⟨hpair, hout hsurrounds⟩
  · rintro ⟨hpair, hsurrounds⟩
    have hin := (hlevels _ hpair).2
    rw [inside_opener_iff hbrace hpair, inside_succ_iff hk hbracket hpair, ← kinds_ofSource_eq,
      getElem?_kinds] at hin
    exact (hin hsurrounds).imp (⟨hpair, ·⟩) fun ⟨hdeclares, hleft⟩ =>
      ⟨kindIs_iff.2 ⟨k, hk, hdeclares⟩, hleft⟩

/-- Parentheses have one owner each way, and a body in braces follows its keyword, inside no
bracket that the keyword is not inside of. -/
theorem ofSource_owners (source : String) : (ofSource source).Owners where
  parens_iff w o c hw := by
    rw [carriesParens_iff, parens_ofSource, parenOwner_ofSource, parenOwner_ofSource, parenPair_iff,
      kinds_ofSource_eq, pairs_ofSource_eq, kinds_parenTied, pairs_parenTied, parenTied]
    exact parens_iff_owner (undocumented_linkDocs_lex source) (not_isParen_of_not_kindIs hw)
  parens_lt w o c hw h := by
    rw [carriesParens_iff, parens_ofSource, parenTied] at h
    exact lt_of_parens (undocumented_linkDocs_lex source) (not_isParen_of_not_kindIs hw) h
  body i o c hi h := by
    obtain ⟨hpair, hbody⟩ := ownedScopes_spec ((carriesScope_iff_owned hi).1 h)
    obtain ⟨hlt, hbrace, -⟩ := bodyOpener?_spec hbody
    rw [← pairs_ofSource_eq] at hpair
    rw [← kinds_ofSource_eq, getElem?_kinds] at hbrace
    exact ⟨⟨hlt, ((ofSource source).pairs_spec.isPair _ hpair).lt⟩, hbrace,
      carriesPair_of_mem hpair (.inl rfl)⟩
  owner i o c hi h := by
    have he := (carriesScope_iff_owned hi).1 h
    obtain ⟨⟨j, _, _⟩, hd, rfl, rfl, howner, hlast⟩ := scopeOwner_of_ownedScope he (.inl rfl)
    obtain ⟨⟨j', _, _⟩, hd', rfl, rfl, howner', hlast'⟩ := scopeOwner_of_ownedScope he (.inr rfl)
    obtain rfl : j = j' := Nat.le_antisymm (hlast' _ hd rfl) (hlast _ hd' rfl)
    have hj : ¬ (ofSource source).kindIs Kind.isBrace j = true := by
      obtain ⟨-, -, k, hk, hbracket, -⟩ := bodyOpener?_spec (ownedScopes_spec hd).2
      rw [kindIs_iff, kinds_ofSource_eq]
      rintro ⟨l, hl, hbrace⟩
      cases hk.symm.trans hl
      exact hbracket (by cases k <;> cases hbrace <;> rfl)
    refine ⟨j, ⟨hj, (carriesScope_iff_owned hj).2 hd⟩, hlast _ he rfl, howner, howner', ?_⟩
    intro k hk hscope
    exact hlast _ ((carriesScope_iff_owned hk).1 hscope) rfl
  outer i o c hi h a b := (ownedScopes_levels ((carriesScope_iff_owned hi).1 h)).1
  inner i o c hi h a b := (ownedScopes_levels ((carriesScope_iff_owned hi).1 h)).2

/-- A named argument `class` takes the body of the statement around it. -/
theorem named_argument_takes_body :
    ¬ (ofSource "<?php if (f(class: 1)) {}").BodiesAtKeywordLevel := by
  intro h
  have hscope : (ofSource "<?php if (f(class: 1)) {}").CarriesScope 7 14 15 := by
    decide +kernel
  have hbrace : ¬ (ofSource "<?php if (f(class: 1)) {}").kindIs Kind.isBrace 7 = true := by
    decide +kernel
  have hpair : (ofSource "<?php if (f(class: 1)) {}").CarriesPair 4 4 12 := by
    decide +kernel
  obtain ⟨-, -, -, hlevel⟩ := h 7 14 15 hbrace hscope
  obtain ⟨-, -, hlt⟩ := (hlevel 4 12).1 ⟨hpair, by decide, by decide⟩
  exact absurd hlt (by decide)

end Tokens

end PhpStyle
