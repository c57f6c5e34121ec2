import PhpStyle.Proofs.CheckedSignatures
import PhpStyle.Proofs.DocBlockLines
import PhpStyle.Proofs.OperandBounds

/-!
# Structural queries answer

On the tokens of any source, a query about one of them ends without a fault, gives the answer of its
total form, and names tokens of the source only (`answers_ofSource`). Doc comments are read along the
tags that their opener lists (`docBlock?_eq`), and the texts of tags character by character, where no
positions come in.
-/

namespace PhpStyle

namespace Checked

open Text Tokens

variable (ts : Tokens)

noncomputable section

/-- The text on the line of the tag at `i`, within the comment that ends at `closer`. -/
def valueIndexAt (line i closer : Nat) : Checked (Option Nat) := do
  match ← findNext ts (fun t => t.kind != .docBlank) (i + 1) (some closer) with
  | none => return none
  | some v =>
    let t ← token ts v
    return if t.kind = .docText ∧ t.line = line then some v else none

/-- The content at an index, empty if there is none. -/
def contentAt : Option Nat → Checked String
  | some i => return (← token ts i).content
  | none => return ""

/-- Reads the tag at `i` of the comment that ends at `closer`. -/
def docTag (closer i : Nat) : Checked DocTag := do
  let tag ← token ts i
  let valueIndex ← valueIndexAt ts tag.line i closer
  let body ← contentAt ts valueIndex
  match TagValue.parse tag.content body with
  | .invalid text true =>
    match ← tagText? ts i with
    | some joined => return ⟨i, tag.content, valueIndex, TagValue.parse tag.content joined, true⟩
    | none => return ⟨i, tag.content, valueIndex, .invalid text true, false⟩
  | value => return ⟨i, tag.content, valueIndex, value, false⟩

def docBlock? (opener : Nat) : Checked (Option DocBlock) := do
  match ts.get? opener with
  | none => return none
  | some t =>
    if t.kind = .docOpen then
      match t.links.docCloser with
      | none => return none
      | some closer =>
        let lead ← slice ts (opener + 1) (t.links.docTags.headD closer)
        let pieces := (lead.filter fun t => t.kind == .docText).map fun t => trim t.content.toList
        let tags ← t.links.docTags.mapM (docTag ts closer)
        return some ⟨opener, closer, String.ofList (joinWith [' '] pieces), tags⟩
    else return none

end

variable {ts : Tokens} {i closer opener : Nat}

theorem valueIndexAt_eq {tag : Token} (ht : ts.get? i = some tag) (closer : Nat) :
    valueIndexAt ts tag.line i closer = pure (DocTag.valueIndexAt ts i closer) := by
  rw [valueIndexAt, findNext_eq, pure_bind, DocTag.valueIndexAt, ht]
  cases hv : ts.findNext (fun t => t.kind != .docBlank) (i + 1) (some closer) with
  | none => rfl
  | some v =>
    obtain ⟨u, hu⟩ := exists_get? (lt_size_of_findNext hv)
    simp only [token_eq hu, pure_bind, Option.bind_eq_bind, Option.bind_some, hu, guard]
    by_cases hkind : u.kind = .docText
    · by_cases hline : u.line = tag.line
      · simp [hkind, hline]
      · simp [hkind, hline]
    · simp [hkind]

theorem contentAt_eq {i? : Option Nat} (h : ∀ i ∈ i?, i < ts.size) :
    contentAt ts i? = pure ((i?.map ts.content).getD "") := by
  cases i? with
  | none => rfl
  | some i =>
    obtain ⟨t, ht⟩ := exists_get? (h i rfl)
    rw [contentAt, token_eq ht, pure_bind, content_of_get? ht]
    rfl

theorem docTag_eq (hts : ts.LinkTargets) (hi : i < ts.size) (closer : Nat) :
    docTag ts closer i = pure (DocTag.read ts closer i) := by
  obtain ⟨tag, htag⟩ := exists_get? hi
  have hsize : ∀ v ∈ DocTag.valueIndexAt ts i closer, v < ts.size := fun v hv =>
    lt_size_of_kinds (DocTag.valueIndexAt_spec hv).2.2.1
  rw [docTag, token_eq htag, pure_bind, valueIndexAt_eq htag, pure_bind, contentAt_eq hsize, pure_bind,
    content_of_get? htag]
  generalize hvalue : TagValue.parse (ts.content i)
    (((DocTag.valueIndexAt ts i closer).map ts.content).getD "") = value
  rw [tagText?_eq hts]
  unfold DocTag.read
  simp only [hvalue]
  cases value with
  | invalid text continues =>
    cases continues with
    | true => cases ts.tagText? i <;> simp
    | false => simp
  | _ => simp

theorem docBlock?_eq (hts : ts.LinkTargets) (opener : Nat) :
    docBlock? ts opener = pure (DocBlock.read? ts opener) := by
  rw [docBlock?, DocBlock.read?]
  cases ht : ts.get? opener with
  | none => rfl
  | some t =>
    by_cases hkind : t.kind = .docOpen
    · cases hc : t.links.docCloser with
      | none => simp [hkind, hc, guard]
      | some closer =>
        have hcloser : (ts.links opener).docCloser = some closer := by rw [← links_of_get? ht, hc]
        obtain ⟨hlt, hsize⟩ := hts.docCloser opener closer hcloser
        have htags := hts.docTags opener closer hcloser
        rw [← links_of_get? ht] at htags
        have hfirst : opener < t.links.docTags.headD closer ∧
            t.links.docTags.headD closer ≤ ts.size := by
          cases hlist : t.links.docTags with
          | nil => exact ⟨hlt, hsize.le⟩
          | cons first rest =>
            have := htags first (by rw [hlist]; exact List.mem_cons_self)
            exact ⟨this.1, (this.2.trans hsize).le⟩
        have hread : t.links.docTags.mapM (docTag ts closer) =
            pure (t.links.docTags.map (DocTag.read ts closer)) :=
          mapM_eq fun i hi => docTag_eq hts ((htags i hi).2.trans hsize) closer
        simp only [hkind, if_true, hc, slice_eq hfirst.1 hfirst.2, hread, pure_bind]
        simp [guard, hkind, hc]
    · simp [hkind, guard]

end Checked

namespace Tokens

open Checked

variable {ts : Tokens} {i : Nat}

theorem lt_size_of_docOpenerOf (hts : ts.LinkTargets) {o : Nat} (h : ts.docOpenerOf i = some o) :
    o < ts.size := by
  obtain ⟨c, hc, ho⟩ := Option.bind_eq_some_iff.1 h
  obtain ⟨hsize, hkind⟩ := lt_size_of_docCommentOf hc
  exact (hts.docOpener c o hkind ho).trans hsize

theorem bounds_of_scope? (hts : ts.LinkTargets) {s : Scope} (h : ts.scope? i = some s) :
    s.opener < s.closer ∧ s.closer < ts.size := by
  simp only [scope?, Option.bind_eq_bind, Option.bind_eq_some_iff] at h
  obtain ⟨t, ht, o, ho, c, hc, heq⟩ := h
  cases heq
  exact hts.scope i o c (by rw [← links_of_get? ht, Links.scope, ho, hc])

theorem bounds_of_statementAt (hi : i < ts.size) : (ts.statementAt i).first ≤ i ∧
    i ≤ (ts.statementAt i).last ∧ (ts.statementAt i).last < ts.size :=
  ⟨Rules.Yoda.statementStartFrom_le (Nat.le_refl i),
    Rules.Yoda.statementEndFrom_bounds (Nat.le_refl i) (Nat.add_sub_of_le hi.le) hi⟩

theorem nameIndex_lt_of_mem_parameters (hts : ts.LinkTargets) {p : Parameter}
    (h : p ∈ ts.parameters i) : p.nameIndex < ts.size := by
  rw [parameters] at h
  split at h
  · rename_i o c ho hc
    obtain ⟨⟨start, stop⟩, hpiece, hp⟩ := List.mem_filterMap.1 h
    obtain ⟨⟨head, name⟩, hhead, heq⟩ := Option.bind_eq_some_iff.1 hp
    cases heq
    have hsize : c < ts.size := (hts.parens i o c (by rw [Links.parens, ho, hc])).2
    exact (lt_of_parameterHead hhead).trans_le
      ((snd_le_of_mem_splitAtCommas hpiece).trans hsize.le)
  · cases h

theorem parameters_of_signature? {s : Signature} (h : ts.signature? i = some s) :
    s.parameters = ts.parameters i := by
  simp only [signature?, Option.bind_eq_bind, Option.bind_eq_some_iff] at h
  obtain ⟨t, -, -, -, heq⟩ := h
  cases heq
  rfl

/-- The tokens that a comment read at `opener` names. -/
structure NamesTokens (ts : Tokens) (block : DocBlock) : Prop where
  opener : block.opener < ts.size
  closer : block.closer < ts.size
  tag : ∀ tag ∈ block.tags, tag.index < ts.size
  value : ∀ tag ∈ block.tags, ∀ v ∈ tag.valueIndex, v < ts.size

theorem namesTokens_of_read? (hts : ts.LinkTargets) {block : DocBlock}
    (h : DocBlock.read? ts i = some block) : ts.NamesTokens block := by
  obtain ⟨closer, hread⟩ := DocBlock.readBetween_of_read? h
  have hsize : closer < ts.size := (hts.docCloser i closer hread.link).2
  refine ⟨?_, hread.closer_eq ▸ hsize, fun tag htag => ?_, fun tag htag v hv => ?_⟩
  · rw [hread.opener_eq]
    exact lt_size_of_kinds ((getElem?_kinds ts i).trans hread.kind)
  · obtain ⟨j, hj, rfl⟩ := hread.exists_tag htag
    rw [DocBlock.index_read]
    exact ((hts.docTags i closer hread.link j hj).2).trans hsize
  · obtain ⟨j, -, rfl⟩ := hread.exists_tag htag
    rw [DocTag.valueIndex_read] at hv
    exact (DocTag.valueIndexAt_spec hv).2.1.trans hsize

/-- Each query about the token at `i` ends without a fault, in the answer of its total form, and
what it names are tokens. -/
structure Answers (ts : Tokens) (i : Nat) : Prop where
  declarationStart : Checked.declarationStart ts i = pure (ts.declarationStart i) ∧
    ts.declarationStart i < ts.size
  docComment : Checked.docCommentOf ts i = pure (ts.docCommentOf i) ∧
    ∀ c ∈ ts.docCommentOf i, c < ts.size
  docOpener : Checked.docOpenerOf ts i = pure (ts.docOpenerOf i) ∧
    ∀ o ∈ ts.docOpenerOf i, o < ts.size
  /-- A scope is read off the links of one token, which is looked for first. -/
  scope : ∀ s ∈ ts.scope? i, s.opener < ts.size ∧ s.closer < ts.size
  enclosingOwner : Checked.enclosingOwner ts i = pure (ts.enclosingOwner i) ∧
    ∀ owner ∈ ts.enclosingOwner i, owner < ts.size
  statement : Checked.statementAt ts i = pure (ts.statementAt i) ∧
    (ts.statementAt i).first < ts.size ∧ (ts.statementAt i).last < ts.size
  tagText : Checked.tagText? ts i = pure (ts.tagText? i)
  parameters : Checked.parameters ts i = pure (ts.parameters i) ∧
    ∀ p ∈ ts.parameters i, p.nameIndex < ts.size
  signature : Checked.signature? ts i = pure (ts.signature? i) ∧
    ∀ s ∈ ts.signature? i, ∀ p ∈ s.parameters, p.nameIndex < ts.size
  property : Checked.property? ts i = pure (ts.property? i)
  docBlock : Checked.docBlock? ts i = pure (DocBlock.read? ts i) ∧
    ∀ block ∈ DocBlock.read? ts i, ts.NamesTokens block

/-- On the tokens of a source, queries about a token answer. -/
theorem answers_ofSource (source : String) (i : Nat) (hi : i < (ofSource source).size) :
    (ofSource source).Answers i := by
  have hts : (ofSource source).LinkTargets := linkTargets_ofSource source
  generalize ofSource source = ts at hi hts ⊢
  exact {
    declarationStart := ⟨declarationStart_eq hts hi, (ts.declarationStart_le i).trans_lt hi⟩
    docComment := ⟨docCommentOf_eq hts hi, fun _ hc => (lt_size_of_docCommentOf hc).1⟩
    docOpener := ⟨docOpenerOf_eq hts hi, fun _ ho => lt_size_of_docOpenerOf hts ho⟩
    scope := fun _ hs =>
      have hbounds := bounds_of_scope? hts hs
      ⟨hbounds.1.trans hbounds.2, hbounds.2⟩
    enclosingOwner := ⟨enclosingOwner_eq i, fun _ howner => lt_size_of_enclosingOwner hts howner⟩
    statement :=
      have hbounds := bounds_of_statementAt hi
      ⟨statementAt_eq hts hi, hbounds.1.trans_lt hi, hbounds.2.2⟩
    tagText := tagText?_eq hts i
    parameters := ⟨parameters_eq hts i, fun _ hp => nameIndex_lt_of_mem_parameters hts hp⟩
    signature := ⟨signature?_eq hts i, fun _ hs _ hp =>
      nameIndex_lt_of_mem_parameters hts (parameters_of_signature? hs ▸ hp)⟩
    property := property?_eq hts i
    docBlock := ⟨docBlock?_eq hts i, fun _ hblock => namesTokens_of_read? hts hblock⟩ }

/-- A comment is read before a function, and the function with its parameter. -/
theorem answers_ofSource_function :
    (ofSource "<?php\n/** @param int $a */\nfunction f(int $a) {}").Answers 10 :=
  answers_ofSource _ 10 (by decide +kernel)

end Tokens

end PhpStyle
