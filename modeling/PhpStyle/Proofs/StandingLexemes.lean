import PhpStyle.Proofs.BalancedBrackets
import PhpStyle.Proofs.CheckedReads
import PhpStyle.Proofs.LinkTargets
import PhpStyle.Proofs.MatchedSignatures
import PhpStyle.Proofs.OperandBounds

/-!
# Lexemes at their places

`Stands source i ls` says that the lexemes `ls` are those of a source from index `i` on. What a search
or a splitter does there is read off `ls`: closed brackets in it are tied to each other
(`Stands.bracketCloser`), lexemes with closed brackets and no comma outside of them are passed over in
one step (`Stands.splitAtCommas_closed`), and a function carries the parentheses behind its name
(`parens_of_named`).
-/

namespace PhpStyle

theorem Balanced.append {u v : List String} (hu : Balanced u) (hv : Balanced v) : Balanced (u ++ v) := by
  induction hu with
  | nil => exact hv
  | enclose shape inner rest _ ih =>
    rw [List.cons_append, List.append_assoc, List.cons_append]
    exact .enclose shape inner ih

namespace Kind

theorem isBracket_of_closer? {o c : Kind} (h : o.closer? = some c) : o.isBracket = true ∧
    c.isBracket = true ∧ o.isOpener = true ∧ (o.bracketString, c.bracketString) ∈ bracketShapes := by
  cases o <;> first | (cases h; decide) | cases h

end Kind

/-- Kinds whose brackets are closed, with no comma outside of them. -/
inductive Closed : List Kind → Prop
  | nil : Closed []
  | cons {k : Kind} {ks : List Kind} (hk : k.isBracket = false) (hcomma : k ≠ .comma) (h : Closed ks) :
      Closed (k :: ks)
  | enclose {o c : Kind} {ks ls : List Kind} (hcloser : o.closer? = some c)
      (inner : Balanced (kindWord ks)) (h : Closed ls) : Closed (o :: (ks ++ c :: ls))

namespace Closed

variable {ks ls : List Kind}

theorem append (hks : Closed ks) (hls : Closed ls) : Closed (ks ++ ls) := by
  induction hks with
  | nil => exact hls
  | cons hk hcomma _ ih => exact .cons hk hcomma ih
  | enclose hcloser inner _ ih =>
    rw [List.cons_append, List.append_assoc, List.cons_append]
    exact .enclose hcloser inner ih

theorem of_isPlain (h : ∀ k ∈ ks, k.isPlain = true ∧ k ≠ .comma) : Closed ks := by
  induction ks with
  | nil => exact .nil
  | cons k ks ih =>
    obtain ⟨⟨hk, hcomma⟩, hks⟩ := List.forall_mem_cons.1 h
    exact .cons (Bool.eq_false_iff.2 (Kind.not_isBracket_of_isPlain hk)) hcomma (ih hks)

theorem bracketed {l m : Kind × List Char} {ls : List (Kind × List Char)}
    (hcloser : l.1.closer? = some m.1) (h : Balanced (kindWord (ls.map (·.1)))) :
    Closed ((l :: (ls ++ [m])).map (·.1)) := by
  rw [List.map_cons, List.map_append]
  exact .enclose hcloser h .nil

/-- The brackets of closed kinds are balanced, and so are those of closed kinds between commas. -/
theorem balanced (h : Closed ks) : Balanced (kindWord ks) := by
  induction h with
  | nil => exact .nil
  | @cons k ks hk _ _ ih =>
    rw [← List.singleton_append, kindWord_append, kindWord_eq_nil_iff.2 (by simp [hk])]
    exact ih
  | @enclose o c ks ls hcloser inner _ ih =>
    obtain ⟨ho, hc, -, hshape⟩ := Kind.isBracket_of_closer? hcloser
    have hword : kindWord (o :: (ks ++ c :: ls)) =
        o.bracketString :: (kindWord ks ++ c.bracketString :: kindWord ls) := by
      simp [kindWord, ho, hc]
    rw [hword]
    exact .enclose hshape inner ih

end Closed

namespace Tokens

variable {ts : Tokens} {i j stop : Nat}

theorem findNextEffective_eq_some (hij : i ≤ j) (hj : EffectiveAt ts.kinds j) (hstop : j < stop)
    (hgap : ∀ m, i ≤ m → m < j → ¬ EffectiveAt ts.kinds m) :
    ts.findNextEffective i (some stop) = some j := by
  have hsize := lt_size_of_effectiveAt hj
  refine scanUp_eq_of hij (by simp only [Option.getD_some]; omega) (any_isEffective_iff.2 hj) ?_
  intro m him hmj
  rw [any_isEffective_iff]
  exact hgap m him hmj

theorem previousEffective_eq_some (hgap : Gap ts.kinds i j) (hi : EffectiveAt ts.kinds i) :
    ts.previousEffective j = some i :=
  Rules.Yoda.previousEffective_eq hi hgap

end Tokens

open Tokens

/-- The lexemes of the source from index `i` on begin with `ls`. -/
def Stands (source : String) (i : Nat) (ls : List (Kind × List Char)) : Prop :=
  ∃ pre post, ({} : Lexer).run source.toList = pre ++ (ls ++ post) ∧ pre.length = i

namespace Stands

variable {source : String} {i start stop : Nat} {l m : Kind × List Char}
  {ls ms : List (Kind × List Char)}

theorem left (h : Stands source i (ls ++ ms)) : Stands source i ls := by
  obtain ⟨pre, post, hrun, hi⟩ := h
  exact ⟨pre, ms ++ post, by rw [hrun, List.append_assoc], hi⟩

theorem right (h : Stands source i (ls ++ ms)) : Stands source (i + ls.length) ms := by
  obtain ⟨pre, post, hrun, rfl⟩ := h
  exact ⟨pre ++ ls, post, by simp [hrun], List.length_append⟩

theorem tail (h : Stands source i (l :: ls)) : Stands source (i + 1) ls :=
  @right source i [l] ls h

theorem get? (h : Stands source i (l :: ls)) : ∃ t, (ofSource source).get? i = some t ∧
    t.kind = l.1 ∧ t.content = String.ofList l.2 := by
  obtain ⟨pre, post, hrun, rfl⟩ := h
  obtain ⟨t, ht, hkind, hcontent, -⟩ := get?_of_run hrun
  exact ⟨t, ht, hkind, by rw [← hcontent, String.ofList_toList]⟩

theorem kind?_eq (h : Stands source i (l :: ls)) : (ofSource source).kind? i = some l.1 := by
  obtain ⟨t, ht, hkind, -⟩ := h.get?
  rw [kind?, ht, Option.map_some, hkind]

theorem content_eq (h : Stands source i (l :: ls)) : (ofSource source).content i = String.ofList l.2 := by
  obtain ⟨t, ht, -, hcontent⟩ := h.get?
  rw [content, ht]
  exact hcontent

theorem kindIs_eq (h : Stands source i (l :: ls)) (q : Kind → Bool) :
    (ofSource source).kindIs q i = q l.1 := by
  rw [kindIs, h.kind?_eq, Option.any_some]

theorem kinds (h : Stands source i (l :: ls)) : (ofSource source).kinds[i]? = some l.1 := by
  rw [getElem?_kinds, h.kind?_eq]

theorem effectiveAt (h : Stands source i (l :: ls)) :
    EffectiveAt (ofSource source).kinds i ↔ l.1.isEffective = true := by
  constructor
  · rintro ⟨k, hk, heffective⟩
    cases hk.symm.trans h.kinds
    exact heffective
  · exact fun heffective => ⟨_, h.kinds, heffective⟩

/-- A search stops at the first lexeme of code. -/
theorem findNextEffective_eq (gap : List (Kind × List Char)) (h : Stands source i (gap ++ m :: ls))
    (hgap : ∀ b ∈ gap, b.1.isEffective = false) (hm : m.1.isEffective = true)
    (hstop : i + gap.length < stop) :
    (ofSource source).findNextEffective i (some stop) = some (i + gap.length) := by
  refine findNextEffective_eq_some (by omega) (h.right.effectiveAt.2 hm) hstop fun j hij hj heffective => ?_
  obtain ⟨d, rfl⟩ := Nat.exists_eq_add_of_le hij
  have hd : d < gap.length := by omega
  have hsplit : gap = gap.take d ++ gap[d] :: gap.drop (d + 1) := by simp
  rw [hsplit, List.append_assoc] at h
  have hthere := h.right
  rw [List.length_take, Nat.min_eq_left hd.le, List.cons_append] at hthere
  rw [hthere.effectiveAt, hgap _ (List.getElem_mem hd)] at heffective
  cases heffective

theorem nextEffective_eq (gap : List (Kind × List Char)) (h : Stands source i (l :: (gap ++ m :: ls)))
    (hgap : ∀ b ∈ gap, b.1.isEffective = false) (hm : m.1.isEffective = true) :
    (ofSource source).nextEffective i = some (i + 1 + gap.length) := by
  rw [nextEffective, findNextEffective_none]
  exact h.tail.findNextEffective_eq gap hgap hm (lt_size_of_effectiveAt (h.tail.right.effectiveAt.2 hm))

/-- A bracket is tied to the one that closes it. -/
theorem bracketPair (h : Stands source i (l :: (ls ++ [m]))) (hcloser : l.1.closer? = some m.1)
    (hls : Balanced (kindWord (ls.map (·.1)))) :
    (i, i + 1 + ls.length) ∈ (ofSource source).pairs := by
  obtain ⟨pre, post, hrun, rfl⟩ := h
  obtain ⟨hl, hm, -, hshape⟩ := Kind.isBracket_of_closer? hcloser
  have hencloses : Encloses 0 (ofSource source).kinds (pre.length, pre.length + 1 + ls.length) := by
    refine ⟨pre.map (·.1), l.1, ls.map (·.1), m.1, post.map (·.1), ?_, ?_, hl, hm, hshape, hls⟩
    · rw [kinds_eq_lexemes, hrun]
      simp
    · simp
  exact mem_pairs_of_partners (partners_of_encloses hencloses)

theorem bracketCloser (h : Stands source i (l :: (ls ++ [m]))) (hcloser : l.1.closer? = some m.1)
    (hls : Balanced (kindWord (ls.map (·.1)))) :
    ((ofSource source).links i).bracketCloser = some (i + 1 + ls.length) :=
  (links_of_carriesPair (carriesPair_of_mem (h.bracketPair hcloser hls) (.inl rfl))).2

/-- Closed lexemes do not split. -/
theorem splitAtCommas_closed (h : Stands source i ls) (hls : Closed (ls.map (·.1)))
    (hstop : i + ls.length ≤ stop) : (ofSource source).splitAtCommas start i stop =
      (ofSource source).splitAtCommas start (i + ls.length) stop := by
  generalize hks : ls.map (·.1) = ks at hls
  induction hls generalizing i ls with
  | nil =>
    rw [List.map_eq_nil_iff.1 hks]
    rfl
  | cons hk hcomma _ ih =>
    obtain ⟨l, ls, rfl, rfl, rfl⟩ := List.map_eq_cons_iff.1 hks
    obtain ⟨t, ht, hkind, -⟩ := h.get?
    rw [List.length_cons] at hstop ⊢
    have hopener : t.kind.isOpener = false := by
      rw [hkind]
      exact (Bool.or_eq_false_iff.1 hk).1
    rw [splitAtCommas_eq (by omega) ht, hopener, if_neg Bool.false_ne_true, if_neg (by rwa [hkind]),
      ih h.tail (by omega) rfl, Nat.add_right_comm, Nat.add_assoc]
  | @enclose o c ks ks' hcloser inner _ ih =>
    obtain ⟨l, inside, rfl, rfl, hinside⟩ := List.map_eq_cons_iff.1 hks
    obtain ⟨ls, behind, rfl, rfl, hbehind⟩ := List.map_eq_append_iff.1 hinside
    obtain ⟨m, ms, rfl, rfl, rfl⟩ := List.map_eq_cons_iff.1 hbehind
    obtain ⟨t, ht, hkind, -⟩ := h.get?
    have hsplit : l :: (ls ++ m :: ms) = (l :: (ls ++ [m])) ++ ms := by simp
    rw [hsplit] at h hstop ⊢
    have hclosed : t.links.bracketCloser = some (i + 1 + ls.length) := by
      rw [Tokens.links_of_get? ht]
      exact h.left.bracketCloser hcloser inner
    have hlength : (l :: (ls ++ [m])).length = ls.length + 2 := by simp
    have hnext : i + 1 + ls.length + 1 = i + (l :: (ls ++ [m])).length := by omega
    rw [List.length_append] at hstop ⊢
    rw [splitAtCommas_eq (by omega) ht, hkind, (Kind.isBracket_of_closer? hcloser).2.2.1, if_pos rfl,
      hclosed, Option.getD_some, Nat.max_eq_left (by omega), hnext, ih h.right (by omega) rfl,
      Nat.add_assoc]

end Stands

namespace Tokens

variable {source : String} {w p o c : Nat}

theorem parenOwnerAt_of_named {ts : Tokens} (hw : ts.kinds[w]? = some .kwFunction)
    (hp : ts.kinds[p]? = some .name) (hwp : Gap ts.kinds w p) (hpo : Gap ts.kinds p o) :
    ts.parenOwnerAt o = some w := by
  have hname : ts.kindIs (· == .name) p = true := kindIs_beq.2 hp
  have hfunction : ts.kindIs (· == .kwFunction) w = true := kindIs_beq.2 hw
  have howns : ¬ ts.kindIs ownsParens p = true := by
    rw [kindIs_iff]
    rintro ⟨k, hk, howns⟩
    cases hk.symm.trans hp
    cases howns
  have hand : ¬ ts.kindIs (· == .bitwiseAnd) w = true := by
    rw [kindIs_beq, hw]
    exact nofun
  simp [parenOwnerAt, previousEffective_eq_some hpo ⟨_, hp, rfl⟩,
    previousEffective_eq_some hwp ⟨_, hw, rfl⟩, howns, hname, hand, hfunction]

/-- A function carries the parentheses that open behind its name. -/
theorem parens_of_named (hw : (ofSource source).kinds[w]? = some .kwFunction)
    (hp : (ofSource source).kinds[p]? = some .name) (hwp : Gap (ofSource source).kinds w p)
    (hpo : Gap (ofSource source).kinds p o) (ho : (ofSource source).kinds[o]? = some .openParen)
    (hpair : (o, c) ∈ (ofSource source).pairs) :
    ((ofSource source).links w).parens = (some o, some c) := by
  have hts := undocumented_linkDocs_lex source
  rw [parens_ofSource, parenTied]
  rw [kinds_ofSource_eq, kinds_parenTied] at hw hp hwp hpo ho
  rw [pairs_ofSource_eq, pairs_parenTied] at hpair
  generalize (lex source).linkDocs = ts at hts hw hp hwp hpo ho hpair ⊢
  have hkinds := kinds_eq_of_unlinked ts.unlinked_linkBrackets
  have howned : (⟨w, o, c⟩ : Owned) ∈ ts.linkBrackets.ownedParens := by
    refine List.mem_filterMap.2 ⟨o, List.mem_range.2 (lt_size_of_kinds (by rwa [hkinds])), ?_⟩
    have hcloser : (ts.linkBrackets.links o).parenCloser = some c :=
      congrArg Prod.snd (parens_linkBrackets_of_mem hts hpair ho (.inl rfl))
    have howner : ts.linkBrackets.parenOwnerAt o = some w := by
      rw [← hkinds] at hw hp hwp hpo
      exact parenOwnerAt_of_named hw hp hwp hpo
    have hopen : ts.linkBrackets.kindIs (· == .openParen) o = true := by
      rw [kindIs_beq, hkinds, ho]
    simp [ownedParens?, hopen, hcloser, howner]
  have hsize : w < ts.linkBrackets.size := lt_size_of_kinds (by rwa [hkinds])
  rcases parens_linkParenOwners hsize with ⟨hnone, -⟩ | ⟨e, he, hwe, heq⟩
  · exact absurd rfl (hnone _ howned)
  · rw [heq, ← owned_unique hts howned he (.inr hwe)]

end Tokens

end PhpStyle
