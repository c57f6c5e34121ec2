import PhpStyle.DocBlock
import PhpStyle.Proofs.ParenOwners

/-!
# Doc comments and the values of their tags

The links of a source name tags and ends of comments only (`ofSource_documented`), so that the text
on a tag's line stands right behind the tag or a blank, and before the end of its comment
(`DocTag.valueIndexAt_spec`).
-/

namespace PhpStyle

/-- The tags and the end of the comment that starts at `opener`: none but tags, in front of the end,
and no comment starts before them. -/
structure IsDoc (ks : List Kind) (opener : Nat) (closer : Option Nat) (tags : List Nat) : Prop where
  tag : ∀ i ∈ tags, ks[i]? = some .docTag
  close : ∀ c, closer = some c → ks[c]? = some .docClose
  lt_close : ∀ i ∈ tags, ∀ c, closer = some c → i < c
  opener_lt : ∀ i ∈ tags, opener < i
  inside : ∀ i ∈ tags, ∀ j, opener < j → j < i → ks[j]? ≠ some .docOpen

namespace DocSpan

/-- The comment that is open at `i`, with its tags so far. -/
structure IsOpen (ks : List Kind) (i o : Nat) (tags : List Nat) : Prop where
  opener_lt : o < i
  inside : ∀ j, o < j → j < i → ks[j]? ≠ some .docOpen
  tags : ∀ t ∈ tags, ks[t]? = some .docTag ∧ o < t ∧ t < i

variable {ks : List Kind} {i o : Nat} {tags : List Nat}

theorem IsOpen.start (i : Nat) : IsOpen ks (i + 1) i [] :=
  ⟨Nat.lt_succ_self i, fun _ h h' => absurd (Nat.le_of_lt_succ h') (Nat.not_le.2 h), nofun⟩

theorem IsOpen.next (h : IsOpen ks i o tags) (hi : ks[i]? ≠ some .docOpen) :
    IsOpen ks (i + 1) o tags where
  opener_lt := Nat.lt_succ_of_lt h.opener_lt
  inside j hj hlt := by
    rcases Nat.lt_succ_iff_lt_or_eq.1 hlt with hlt | rfl
    · exact h.inside j hj hlt
    · exact hi
  tags t ht := by
    obtain ⟨htag, hot, hti⟩ := h.tags t ht
    exact ⟨htag, hot, Nat.lt_succ_of_lt hti⟩

theorem IsOpen.push (h : IsOpen ks i o tags) (hi : ks[i]? = some .docTag) :
    IsOpen ks (i + 1) o (i :: tags) := by
  have hnext := h.next (by rw [hi]; decide)
  refine ⟨hnext.opener_lt, hnext.inside, fun t ht => ?_⟩
  rcases List.mem_cons.1 ht with rfl | ht
  · exact ⟨hi, h.opener_lt, Nat.lt_succ_self t⟩
  · exact hnext.tags t ht

theorem IsOpen.isDoc (h : IsOpen ks i o tags) {closer : Option Nat}
    (hclose : ∀ c, closer = some c → ks[c]? = some .docClose ∧ i ≤ c) :
    IsDoc ks o closer tags.reverse where
  tag t ht := (h.tags t (List.mem_reverse.1 ht)).1
  close c hc := (hclose c hc).1
  lt_close t ht c hc := Nat.lt_of_lt_of_le (h.tags t (List.mem_reverse.1 ht)).2.2 (hclose c hc).2
  opener_lt t ht := (h.tags t (List.mem_reverse.1 ht)).2.1
  inside t ht j hj hlt := h.inside j hj (Nat.lt_trans hlt (h.tags t (List.mem_reverse.1 ht)).2.2)

theorem collect_isDoc {all : List Kind} (i : Nat) (current : Option (Nat × List Nat))
    (ks : List Kind) (hks : ∀ j, ks[j]? = all[i + j]?)
    (hcurrent : ∀ o tags, current = some (o, tags) → IsOpen all i o tags) :
    ∀ d ∈ collect i current ks, IsDoc all d.opener d.closer d.tags := by
  have hnext : ∀ {i : Nat} {k : Kind} {ks : List Kind}, (∀ j, (k :: ks)[j]? = all[i + j]?) →
      all[i]? = some k ∧ ∀ j, ks[j]? = all[i + 1 + j]? := by
    intro i k ks h
    refine ⟨(h 0).symm, fun j => ?_⟩
    rw [Nat.add_assoc, Nat.add_comm 1 j, ← h (j + 1)]
    rfl
  fun_induction collect i current ks with
  | case1 i o tags =>
    intro d hd
    obtain rfl := List.mem_singleton.1 hd
    exact (hcurrent o tags rfl).isDoc nofun
  | case2 i => exact fun d hd => nomatch hd
  | case3 i current ks ih =>
    refine ih (hnext hks).2 fun o tags h => ?_
    cases h
    exact .start i
  | case4 i current ks ih =>
    obtain ⟨hi, htail⟩ := hnext hks
    refine ih htail fun o tags h => ?_
    obtain ⟨⟨o, tags⟩, hcur, heq⟩ := Option.map_eq_some_iff.1 h
    cases heq
    exact (hcurrent o tags hcur).push hi
  | case5 i ks o tags ih =>
    obtain ⟨hi, htail⟩ := hnext hks
    intro d hd
    rcases List.mem_cons.1 hd with rfl | hd
    · refine (hcurrent o tags rfl).isDoc fun c hc => ?_
      cases hc
      exact ⟨hi, Nat.le_refl _⟩
    · exact ih htail nofun d hd
  | case6 i ks ih => exact ih (hnext hks).2 nofun
  | case7 i current k ks hopen _ _ ih =>
    obtain ⟨hi, htail⟩ := hnext hks
    refine ih htail fun o tags h => (hcurrent o tags h).next ?_
    rw [hi]
    exact fun heq => hopen (Option.some.inj heq)

end DocSpan

namespace Tokens

variable {ts : Tokens}

/-- All comments that links speak of are comments. -/
def Documented (ks : List Kind) (ts : Tokens) : Prop :=
  ∀ j, IsDoc ks j (ts.links j).docCloser (ts.links j).docTags

namespace Documented

variable {ks : List Kind}

theorem relink (h : ts.Documented ks) (i : Nat) {f : Links → Links}
    (hf : ∀ l, IsDoc ks i l.docCloser l.docTags → IsDoc ks i (f l).docCloser (f l).docTags) :
    (ts.relink i f).Documented ks := by
  intro j
  by_cases hij : i = j
  · subst hij
    by_cases hi : i < ts.size
    · rw [links_relink_self ts f hi]
      exact hf _ (h i)
    · rw [links_of_size_le (by rw [size_relink]; omega), ← links_of_size_le (Nat.not_lt.1 hi)]
      exact h i
  · rw [links_relink_of_ne ts f hij]
    exact h j

theorem linkDoc (h : ts.Documented ks) {d : DocSpan} (hd : IsDoc ks d.opener d.closer d.tags) :
    (ts.linkDoc d).Documented ks := by
  have hopened := h.relink d.opener
    (f := fun l => { l with docCloser := d.closer, docTags := d.tags }) fun l _ => hd
  unfold Tokens.linkDoc
  simp only
  split
  · exact hopened.relink _ fun l hl => hl
  · exact hopened

theorem linkBracket (h : ts.Documented ks) (p : Nat × Nat) : (ts.linkBracket p).Documented ks := by
  unfold Tokens.linkBracket
  cases ts.kindIs (· == .closeParen) p.2
  · refine relink (relink h _ ?_) _ ?_
    · exact fun l hl => hl
    · exact fun l hl => hl
  · refine relink (relink h _ ?_) _ ?_
    · exact fun l hl => hl
    · exact fun l hl => hl

theorem linkParenOwner (h : ts.Documented ks) (o : Owned) : (ts.linkParenOwner o).Documented ks := by
  refine relink (relink (relink h _ ?_) _ ?_) _ ?_
  · exact fun l hl => hl
  · exact fun l hl => hl
  · exact fun l hl => hl

theorem linkScope (h : ts.Documented ks) (o : Owned) : (ts.linkScope o).Documented ks := by
  refine relink (relink (relink h _ ?_) _ ?_) _ ?_
  · exact fun l hl => hl
  · exact fun l hl => hl
  · exact fun l hl => hl

theorem opener_unique (h : ts.Documented ks) {i o o' : Nat} (hi : i ∈ (ts.links o).docTags)
    (hi' : i ∈ (ts.links o').docTags) (ho : ks[o]? = some .docOpen) (ho' : ks[o']? = some .docOpen) :
    o = o' := by
  rcases Nat.lt_trichotomy o o' with hlt | heq | hlt
  · exact absurd ho' ((h o).inside i hi o' hlt ((h o').opener_lt i hi'))
  · exact heq
  · exact absurd ho ((h o').inside i hi' o hlt ((h o).opener_lt i hi))

theorem foldl {β : Type} {step : Tokens → β → Tokens} {bs : List β}
    (hstep : ∀ (ts : Tokens) (b : β), b ∈ bs → ts.Documented ks → (step ts b).Documented ks)
    (h : ts.Documented ks) : (bs.foldl step ts).Documented ks :=
  List.foldlRecOn (motive := Documented ks) bs step h fun ts h b hb => hstep ts b hb h

end Documented

theorem ofSource_documented (source : String) : (ofSource source).Documented (ofSource source).kinds := by
  have hkinds : (ofSource source).kinds = (lex source).kinds := by
    rw [← kinds_unlinked, ofSource_unlinked]
  have hlex : (lex source).Documented (lex source).kinds := by
    intro j
    rw [links_lex]
    exact ⟨nofun, nofun, nofun, nofun, nofun⟩
  have hdocs : (lex source).linkDocs.Documented (lex source).kinds :=
    .foldl (fun ts d hd h => h.linkDoc (DocSpan.collect_isDoc 0 none _ (fun j => by rw [Nat.zero_add])
      nofun d hd)) hlex
  rw [hkinds]
  unfold ofSource
  exact .foldl (fun ts o _ h => h.linkScope o) (.foldl (fun ts o _ h => h.linkParenOwner o)
    (.foldl (fun ts p _ h => h.linkBracket p) hdocs))

end Tokens

/-- A text inside a closed comment, right behind a tag or a blank. -/
structure IsTagText (ks : List Kind) (v : Nat) : Prop where
  text : ks[v]? = some .docText
  behind : ∃ j k, v = j + 1 ∧ ks[j]? = some k ∧ (k = .docTag ∨ k = .docBlank)
  closed : ∃ c, v < c ∧ ks[c]? = some .docClose

namespace DocTag

variable {ts : Tokens} {closer i v : Nat}

theorem valueIndexAt_spec (h : valueIndexAt ts i closer = some v) :
    i < v ∧ v < closer ∧ ts.kinds[v]? = some .docText ∧
      ∀ k, i < k → k < v → ts.kinds[k]? = some .docBlank := by
  simp only [valueIndexAt, Option.bind_eq_bind, Option.bind_eq_some_iff, Option.guard_eq_some',
    exists_const, Bool.and_eq_true, decide_eq_true_eq] at h
  obtain ⟨tag, -, w, hfind, t, ht, ⟨hkind, -⟩, heq⟩ := h
  cases heq
  have hlt := Tokens.scanUp_lt hfind
  obtain ⟨hle, -, hblank⟩ := Tokens.scanUp_eq_some hfind
  have htext : ts.kinds[v]? = some .docText := by
    rw [Tokens.getElem?_kinds, Tokens.kind?, ht, ← hkind]
    rfl
  have hsize := Tokens.lt_size_of_kinds htext
  refine ⟨hle, ?_, htext, fun k hk hkv => ?_⟩
  · simp only [Option.getD_some] at hlt
    omega
  · have hnot := hblank k hk hkv
    obtain ⟨u, hu⟩ : ∃ u, ts.get? k = some u :=
      ⟨_, Array.getElem?_eq_getElem (Nat.lt_trans hkv hsize)⟩
    rw [hu] at hnot
    rw [Tokens.getElem?_kinds, Tokens.kind?, hu]
    simpa using hnot

theorem value_of_not_multiline (h : (read ts closer i).multiline = false) :
    (read ts closer i).value = TagValue.parse (ts.content i)
      (((read ts closer i).valueIndex.map ts.content).getD "") := by
  generalize htag : read ts closer i = tag at h ⊢
  unfold read at htag
  simp only at htag
  split at htag
  · rw [← htag] at h
    cases h
  · rw [← htag]

theorem name_read (ts : Tokens) (c i : Nat) : (read ts c i).name = ts.content i := by
  unfold read
  simp only
  split <;> rfl

theorem valueIndex_read : (read ts closer i).valueIndex = valueIndexAt ts i closer := by
  unfold read
  simp only
  split
  · rfl
  · rfl

end DocTag

namespace DocBlock

variable {ts : Tokens} {opener closer : Nat} {block : DocBlock} {tag : DocTag}

/-- The comment between `opener` and `closer` is read as `block`. -/
structure ReadBetween (ts : Tokens) (opener closer : Nat) (block : DocBlock) : Prop where
  kind : ts.kind? opener = some .docOpen
  link : (ts.links opener).docCloser = some closer
  opener_eq : block.opener = opener
  closer_eq : block.closer = closer
  tags_eq : block.tags = (ts.links opener).docTags.map (DocTag.read ts closer)

theorem readBetween_of_read? (h : read? ts opener = some block) :
    ∃ closer, ReadBetween ts opener closer block := by
  simp only [read?, Option.bind_eq_bind, Option.bind_eq_some_iff, Option.guard_eq_some',
    exists_const] at h
  obtain ⟨t, ht, hkind, closer, hcloser, heq⟩ := h
  cases heq
  rw [Tokens.links_of_get? ht] at hcloser
  refine ⟨closer, ?_, hcloser, rfl, rfl, by rw [Tokens.links_of_get? ht]⟩
  rw [Tokens.kind?, ht, Option.map_some, hkind]

/-- A comment that is linked to its end is read. -/
theorem exists_readBetween (hkind : ts.kind? opener = some .docOpen)
    (hcloser : (ts.links opener).docCloser = some closer) :
    ∃ block, read? ts opener = some block ∧ ReadBetween ts opener closer block := by
  obtain ⟨t, ht, htkind⟩ := Option.map_eq_some_iff.1 hkind
  rw [← Tokens.links_of_get? ht] at hcloser
  obtain ⟨block, hread⟩ : ∃ block, read? ts opener = some block := by
    simp only [read?, ht, htkind, hcloser, guard, Option.bind_eq_bind, Option.bind_some, if_pos]
    exact ⟨_, rfl⟩
  obtain ⟨closer', hbetween⟩ := readBetween_of_read? hread
  rw [Tokens.links_of_get? ht] at hcloser
  obtain rfl : closer = closer' := Option.some.inj (hcloser.symm.trans hbetween.link)
  exact ⟨block, hread, hbetween⟩

theorem ReadBetween.exists_tag (h : ReadBetween ts opener closer block) (htag : tag ∈ block.tags) :
    ∃ i ∈ (ts.links opener).docTags, DocTag.read ts closer i = tag := by
  rw [h.tags_eq] at htag
  exact List.mem_map.1 htag

theorem value_eq (h : read? ts opener = some block) (htag : tag ∈ block.tags)
    (hline : tag.multiline = false) {v : Nat} (hv : tag.valueIndex = some v) :
    ∃ name, tag.value = TagValue.parse name (ts.content v) := by
  obtain ⟨closer, hread⟩ := readBetween_of_read? h
  obtain ⟨i, -, rfl⟩ := hread.exists_tag htag
  refine ⟨ts.content i, ?_⟩
  rw [DocTag.value_of_not_multiline hline, hv]
  simp only [Option.map_some, Option.getD_some]

/-- The value of a tag stands inside of its comment. -/
theorem isTagText {source : String} (h : read? (Tokens.ofSource source) opener = some block)
    (htag : tag ∈ block.tags) {v : Nat} (hv : tag.valueIndex = some v) :
    IsTagText (Tokens.ofSource source).kinds v := by
  obtain ⟨closer, hread⟩ := readBetween_of_read? h
  obtain ⟨i, hi, rfl⟩ := hread.exists_tag htag
  have hdoc := Tokens.ofSource_documented source opener
  rw [DocTag.valueIndex_read] at hv
  obtain ⟨hiv, hvc, htext, hblank⟩ := DocTag.valueIndexAt_spec hv
  refine ⟨htext, ?_, closer, hvc, hdoc.close closer hread.link⟩
  obtain ⟨j, rfl⟩ : ∃ j, v = j + 1 := ⟨v - 1, by omega⟩
  rcases Nat.lt_or_eq_of_le (Nat.le_of_lt_succ hiv) with hij | rfl
  · exact ⟨j, _, rfl, hblank j hij (Nat.lt_succ_self j), .inr rfl⟩
  · exact ⟨i, _, rfl, hdoc.tag i hi, .inl rfl⟩

end DocBlock

end PhpStyle
