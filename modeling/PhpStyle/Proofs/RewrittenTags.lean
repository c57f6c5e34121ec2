import Mathlib.Data.List.Forall2
import PhpStyle.Proofs.RewordedDocs
import PhpStyle.Proofs.TypeParts

/-!
# Rewritten tags read back

The rules for documented types rewrite tags with other alternatives (`Rewrites`). Where the new text
stands apart from its tag, such an edit is a `Rewording`, so the comment is read again with the same
tags, and those that no edit is on have their value. The value of a rewritten tag is read from the new
text, and it is the one meant if that text is `Legible`.
-/

namespace PhpStyle

open Text Lexer

namespace DocTag

variable {ts : Tokens} {i c c' v : Nat}

theorem line_of_valueIndexAt (h : valueIndexAt ts i c = some v) :
    ∃ tag t : Token, ts.get? i = some tag ∧ ts.get? v = some t ∧ t.line = tag.line := by
  simp only [valueIndexAt, Option.bind_eq_bind, Option.bind_eq_some_iff, Option.guard_eq_some',
    exists_const, Bool.and_eq_true, decide_eq_true_eq] at h
  obtain ⟨tag, htag, w, -, t, ht, ⟨-, hline⟩, heq⟩ := h
  cases heq
  exact ⟨tag, t, htag, ht, hline⟩

theorem valueIndexAt_closer (h : valueIndexAt ts i c = some v) (hlt : i < c')
    (hclose : ts.kinds[c']? = some .docClose) : valueIndexAt ts i c' = some v := by
  obtain ⟨hiv, -, htext, hblank⟩ := valueIndexAt_spec h
  have hvc : v < c' := by
    rcases Nat.lt_trichotomy v c' with hlt' | rfl | hgt
    · exact hlt'
    · rw [htext] at hclose
      cases hclose
    · rw [hblank c' hlt hgt] at hclose
      cases hclose
  have hsize := Tokens.lt_size_of_kinds htext
  simp only [valueIndexAt, Option.bind_eq_bind, Option.bind_eq_some_iff] at h ⊢
  obtain ⟨tag, htag, w, hfind, hw⟩ := h
  obtain ⟨t, ht, u, hguard, heq⟩ := hw
  cases heq
  obtain ⟨hle, hp, hno⟩ := Tokens.scanUp_eq_some hfind
  refine ⟨tag, htag, v, Tokens.scanUp_eq_of hle ?_ hp hno, t, ht, u, hguard, rfl⟩
  simp only [Option.getD_some]
  omega

theorem behindTag_of_valueIndexAt {source : String} (hi : (Tokens.ofSource source).kinds[i]? = some .docTag)
    (hv : valueIndexAt (.ofSource source) i c = some v) : BehindTag (({} : Lexer).run source.toList) v := by
  obtain ⟨hiv, -, -, hblank⟩ := valueIndexAt_spec hv
  obtain ⟨tag, t, htag, ht, hline⟩ := line_of_valueIndexAt hv
  have hcount : (spelled ((({} : Lexer).run source.toList).take v)).count '\n' =
      (spelled ((({} : Lexer).run source.toList).take i)).count '\n' := by
    have hv := Tokens.line_ofSource ht
    have hi := Tokens.line_ofSource htag
    omega
  refine ⟨i, hiv, ⟨_, Tokens.lexeme_of_kind hi⟩, fun k hik hkv => ?_⟩
  have hl := Tokens.lexeme_of_kind (hblank k hik hkv)
  exact ⟨_, hl, rfl, Tokens.newline_not_mem_of_count hcount (Nat.le_of_lt hik) hkv hl⟩

end DocTag

theorem DocBlock.exists_read {source : String} {opener : Nat} {block : DocBlock}
    (h : read? (.ofSource source) opener = some block) {tag : DocTag} (htag : tag ∈ block.tags) :
    ∃ i ∈ ((Tokens.ofSource source).links opener).docTags, ∃ c,
      tag = DocTag.read (.ofSource source) c i := by
  obtain ⟨c, hread⟩ := readBetween_of_read? h
  obtain ⟨i, hi, rfl⟩ := hread.exists_tag htag
  exact ⟨i, hi, c, rfl⟩

/-- The alternatives that a rule gives a type documented in the comment at `opener` instead of its
own: those after a question mark and `null`, or those that the declared type of the parameter does
not refuse. -/
inductive RewritesTo (ts : Tokens) (opener : Nat) : Rule → TypedText → List DocType → Prop
  | nullable {s : Option Severity} {typed : TypedText} {inner : DocType}
      (htype : typed.type = .nullable inner) :
      RewritesTo ts opener (Rules.NullableDoc.rule.withSeverity s) typed
        (inner.members ++ [.name "null"])
  | param {s : Option Severity} {i : Nat} (hdoc : ts.docOpenerOf i = some opener) {p : Parameter}
      (hparam : p ∈ ts.parameters i) {declared : DeclaredType} (hdeclared : p.type = some declared)
      {typed : TypedText} (hname : typed.variableName? = some p.name)
      (hdropped : ∃ m ∈ typed.type.members, Rules.ParamDoc.isCompatible
        (Rules.ParamDoc.nativeMembers declared.bare p.nullable) p m = false) :
      RewritesTo ts opener (Rules.ParamDoc.rule.withSeverity s) typed (typed.type.members.filter
        (Rules.ParamDoc.isCompatible (Rules.ParamDoc.nativeMembers declared.bare p.nullable) p))

/-- An edit with which a rule rewrites a tag on one line. -/
inductive Rewrites (ts : Tokens) (rule : Rule) : Edit → Prop
  | intro {opener : Nat} {block : DocBlock} (hblock : DocBlock.read? ts opener = some block)
      {tag : DocTag} (htag : tag ∈ block.tags) (hline : tag.multiline = false) {v : Nat}
      (hv : tag.valueIndex = some v) {role : TypeRole} {typed : TypedText}
      (hvalue : tag.value = .typed role typed) {ms : List DocType}
      (hms : RewritesTo ts opener rule typed ms) :
      Rewrites ts rule (.replace v (TypedText.mk (.ofMembers ms) typed.rest).text)

theorem TagValue.eq_typed {value : TagValue} {v : TypedText} (h : value.typed? = some v) :
    ∃ role, value = .typed role v := by
  cases value with
  | typed role w =>
    cases h
    exact ⟨role, rfl⟩
  | _ => cases h

theorem Rules.NullableDoc.rewrites_of_finding {site : Site} {i : Nat} {f : Finding}
    (hf : f ∈ findings site i) {es : List Edit} (hfix : f.fix = some es) (s : Option Severity) :
    ∃ e, es = [e] ∧ Rewrites site.tokens (rule.withSeverity s) e := by
  cases spellsOut_of_findings hf hfix with
  | @intro _ _ hblock tag htag hline v hv typed htyped inner htype =>
    obtain ⟨role, hvalue⟩ := TagValue.eq_typed htyped
    obtain ⟨name, hread⟩ := DocBlock.value_eq hblock htag hline hv
    have hms : DocType.union (inner.members ++ [.name "null"]) =
        .ofMembers (inner.members ++ [.name "null"]) := by
      rw [(TagValue.alternative_of_nullable (hread.symm.trans hvalue) htype).members]
      rfl
    refine ⟨_, rfl, ?_⟩
    rw [hvalue, TagValue.withTyped, hms]
    exact .intro hblock htag hline hv hvalue (.nullable htype)

theorem Rules.ParamDoc.rewrites_of_finding {site : Site} {i : Nat} {f : Finding}
    (hf : f ∈ findings site i) {es : List Edit} (hfix : f.fix = some es) (s : Option Severity) :
    ∃ e, es = [e] ∧ Rewrites site.tokens (rule.withSeverity s) e := by
  cases drops_of_findings hf hfix with
  | intro hblock htag hline hv htyped hdoc hparam hdeclared hname hfilter _ hdropped =>
    subst hfilter
    obtain ⟨role, hvalue⟩ := TagValue.eq_typed htyped
    refine ⟨_, rfl, ?_⟩
    rw [hvalue, TagValue.withTyped]
    exact .intro hblock htag hline hv hvalue (.param hdoc hparam hdeclared hname hdropped)

/-- The text `s` for the token at `v` starts with a character that stands apart from what is before
it: no blank, and right behind a tag none that tags are made of. -/
def Tokens.StandsApart (ts : Tokens) (v : Nat) (s : String) : Prop :=
  ∃ c, s.toList.head? = some c ∧ isBlank c = false ∧
    ∀ i, v = i + 1 → ts.kinds[i]? = some .docTag → isTagChar c = false

theorem TypedText.toList_text_ofMembers (ms : List DocType) (rest : String) :
    (TypedText.mk (.ofMembers ms) rest).text.toList = DocType.joined '|' ms ++ rest.toList := by
  rw [text, String.toList_append, DocType.text, String.toList_ofList, DocType.chars_ofMembers]

theorem DocType.mem_joined {c : Char} {ms : List DocType} (h : c ∈ joined '|' ms) :
    c = '|' ∨ ∃ m ∈ ms, c ∈ m.chars := by
  cases ms with
  | nil => cases h
  | cons m ms =>
    rw [joined_cons, List.mem_append] at h
    rcases h with h | h
    · exact .inr ⟨m, List.mem_cons_self, h⟩
    · obtain ⟨p, hp, hc⟩ := List.mem_flatMap.1 h
      obtain ⟨m', hm', rfl⟩ := List.mem_map.1 hp
      rcases List.mem_cons.1 hc with rfl | hc
      · exact .inl rfl
      · exact .inr ⟨m', List.mem_cons_of_mem m hm', hc⟩

theorem DocType.mem_chars_of_mem_members {t m : DocType} (hm : m ∈ t.members) {c : Char}
    (hc : c ∈ m.chars) : c ∈ t.chars := by
  cases t with
  | union ms =>
    obtain ⟨m', ms, rfl⟩ := List.exists_cons_of_ne_nil (List.ne_nil_of_mem hm)
    rw [chars, joined_cons, List.mem_append]
    rcases List.mem_cons.1 hm with rfl | hm
    · exact .inl hc
    · exact .inr (List.mem_flatMap.2 ⟨_, List.mem_map_of_mem hm, List.mem_cons_of_mem _ hc⟩)
  | _ =>
    obtain rfl := List.mem_singleton.1 hm
    exact hc

namespace RewritesTo

variable {ts : Tokens} {opener : Nat} {rule : Rule} {typed : TypedText} {ms : List DocType}

theorem mem_chars (h : RewritesTo ts opener rule typed ms) {m : DocType} (hm : m ∈ ms) :
    m = .name "null" ∨ ∀ c ∈ m.chars, c ∈ typed.type.chars := by
  cases h with
  | @nullable _ _ inner htype =>
    rcases List.mem_append.1 hm with hm | hm
    · refine .inr fun c hc => ?_
      rw [htype]
      exact List.mem_cons_of_mem _ (DocType.mem_chars_of_mem_members hm hc)
    · exact .inl (List.mem_singleton.1 hm)
  | param =>
    exact .inr fun c hc => DocType.mem_chars_of_mem_members (List.mem_of_mem_filter hm) hc

theorem noClose (h : RewritesTo ts opener rule typed ms) (hclose : NoClose typed.type.chars) :
    NoClose (DocType.joined '|' ms) := by
  rw [DocType.noClose_joined]
  intro m hm
  cases h with
  | @nullable _ _ inner htype =>
    rw [htype, DocType.chars] at hclose
    rcases List.mem_append.1 hm with hm | hm
    · exact DocType.noClose_members (NoClose.right (u := ['?']) hclose) m hm
    · rw [List.mem_singleton.1 hm, DocType.chars]
      exact .of_not_mem (by decide)
  | param => exact DocType.noClose_members hclose m (List.mem_of_mem_filter hm)

/-- The new text ends like the old one, or in `null`. -/
theorem getLast? (h : RewritesTo ts opener rule typed ms) :
    typed.rest.toList ≠ [] ∨ (DocType.joined '|' ms).getLast? = some 'l' := by
  cases h with
  | @nullable _ _ inner htype =>
    refine .inr ?_
    obtain ⟨cs, hcs⟩ := DocType.exists_joined_append '|' inner.members (.name "null")
    rw [hcs, DocType.chars, List.getLast?_append_of_ne_nil _ (by decide)]
    rfl
  | param _ _ _ hname =>
    refine .inl fun hnil => ?_
    rw [TypedText.variableName?, hnil] at hname
    cases hname

end RewritesTo

theorem TagValue.head_of_typed {name body : String} {role : TypeRole} {v : TypedText}
    (h : parse name body = .typed role v) : ∃ c, body.toList.head? = some c ∧ isBlank c = false := by
  obtain ⟨htrim, hne, -⟩ := start_of_typed h
  obtain ⟨c, cs, hbody⟩ := List.exists_cons_of_ne_nil hne
  refine ⟨c, by rw [hbody]; rfl, ?_⟩
  have hhead := List.head?_dropWhile_not isBlank body.toList
  rw [← trimStart, htrim, hbody] at hhead
  exact hhead

namespace Rewrites

variable {source : String} {rule : Rule} {e : Edit}

/-- Where the new text stands apart, rewriting a tag is rewording it. -/
theorem rewording (h : Rewrites (.ofSource source) rule e)
    (hapart : ∀ v s, e = .replace v s → (Tokens.ofSource source).StandsApart v s) :
    Rewording (({} : Lexer).run source.toList) e := by
  cases h with
  | @intro opener block hblock tag htag hline v hv role typed hvalue ms hms =>
    obtain ⟨name, hread⟩ := DocBlock.value_eq hblock htag hline hv
    obtain ⟨i, hmem, c, hplace⟩ := DocBlock.exists_read hblock htag
    have hi := (Tokens.ofSource_documented source opener).tag i hmem
    rw [hplace, DocTag.valueIndex_read] at hv
    rw [hvalue] at hread
    obtain ⟨hchars, hrest⟩ := TagValue.parse_typed? (congrArg TagValue.typed? hread.symm)
    obtain ⟨-, -, htext, -⟩ := DocTag.valueIndexAt_spec hv
    have hold := Tokens.lexeme_of_kind htext
    have hbehind := DocTag.behindTag_of_valueIndexAt hi hv
    have hhead := TagValue.head_of_typed hread.symm
    obtain ⟨t, hcut⟩ := textCut_of_behindTag (.inr hbehind) hold hhead
    obtain ⟨d, hd, hblank, hglue⟩ := hapart _ _ rfl
    have hnew := TypedText.toList_text_ofMembers ms typed.rest
    refine .intro hold hbehind ⟨hhead, ⟨d, hd, hblank⟩, ?_, ?_, ?_⟩ fun j name hj hname c hc => ?_
    · rw [hnew]
      by_cases hnil : typed.rest.toList = []
      · rw [hnil, List.append_nil]
        exact ⟨'l', hms.getLast?.resolve_left (not_not.2 hnil), by decide⟩
      · have hlast := hcut.last
        rw [hchars] at hlast
        rw [List.getLast?_append_of_ne_nil _ hnil] at hlast ⊢
        obtain ⟨b, hb⟩ := Option.isSome_iff_exists.1 (List.getLast?_isSome.2 hnil)
        exact ⟨b, hb, hlast b hb⟩
    · have hline := hcut.line
      rw [hchars, List.mem_append, not_or] at hline
      rw [hnew, List.mem_append]
      rintro (hmem | hmem)
      · rcases DocType.mem_joined hmem with hbar | ⟨m, hm, hmem⟩
        · cases hbar
        · rcases hms.mem_chars hm with rfl | hold
          · exact absurd hmem (by decide)
          · exact hline.1 (hold _ hmem)
      · exact hline.2 hmem
    · rw [hnew, hchars]
      refine harmless_retyped hrest hms.noClose fun hnil hstar => ?_
      rw [hms.getLast?.resolve_left (not_not.2 hnil)] at hstar
      cases hstar
    · have hkind : (Tokens.ofSource source).kinds[j]? = some .docTag := by
        rw [Tokens.kinds_eq_lexemes, List.getElem?_map, hname]
        rfl
      obtain rfl : d = c := Option.some.inj (hd.symm.trans hc)
      exact hglue j hj hkind

/-- The tag that an edit rewrites. -/
theorem exists_tag (h : Rewrites (.ofSource source) rule e) :
    ∃ opener i v role typed ms, e = .replace v (TypedText.mk (.ofMembers ms) typed.rest).text ∧
      (Tokens.ofSource source).kinds[opener]? = some .docOpen ∧
      i ∈ ((Tokens.ofSource source).links opener).docTags ∧
      FirstBehind (Tokens.ofSource source).kinds i v ∧
      (Tokens.ofSource source).kinds[v]? = some .docText ∧
      (∀ c, i < c → (Tokens.ofSource source).kinds[c]? = some .docClose →
        DocTag.valueIndexAt (.ofSource source) i c = some v) ∧
      TagValue.parse ((Tokens.ofSource source).content i) ((Tokens.ofSource source).content v) =
        .typed role typed ∧
      RewritesTo (.ofSource source) opener rule typed ms := by
  cases h with
  | @intro opener block hblock tag htag hline v hv role typed hvalue ms hms =>
    obtain ⟨i, hmem, c, hplace⟩ := DocBlock.exists_read hblock htag
    obtain ⟨_, hbetween⟩ := DocBlock.readBetween_of_read? hblock
    have hi := (Tokens.ofSource_documented source opener).tag i hmem
    rw [hplace] at hline hv hvalue
    have hread := DocTag.value_of_not_multiline hline
    rw [hv, hvalue, Option.map_some, Option.getD_some] at hread
    rw [DocTag.valueIndex_read] at hv
    obtain ⟨hiv, -, htext, hblank⟩ := DocTag.valueIndexAt_spec hv
    exact ⟨opener, i, v, role, typed, ms, rfl, (Tokens.getElem?_kinds _ _).trans hbetween.kind, hmem,
      ⟨hiv, hi, hblank⟩, htext, fun c' hlt hclose => DocTag.valueIndexAt_closer hv hlt hclose,
      hread.symm, hms⟩

end Rewrites

theorem RewritesTo.parse_eq {ts : Tokens} {opener : Nat} {rule : Rule} {typed : TypedText}
    {ms : List DocType}
    (h : RewritesTo ts opener rule typed ms) {name body : String} {role : TypeRole}
    (hparse : TagValue.parse name body = .typed role typed) (hne : DocType.joined '|' ms ≠ [])
    (hlegible : DocType.Legible ms typed.rest.toList) :
    TagValue.parse name (TypedText.mk (.ofMembers ms) typed.rest).text =
        .typed role ⟨.ofMembers ms, typed.rest⟩ ∧
      (DocType.ofMembers ms).members = ms := by
  cases h with
  | nullable htype => exact TagValue.parse_expanded hparse htype hlegible
  | param _ _ _ hname hdropped =>
    have hrest : typed.rest.toList ≠ [] := by
      intro hnil
      rw [TypedText.variableName?, hnil] at hname
      cases hname
    exact TagValue.parse_filtered hparse hrest hdropped hne hlegible

/-! ### Reading tags again -/

namespace DocTag

/-- An edit is on the value of the tag. -/
def IsEdited (tag : DocTag) (es : List Edit) : Prop :=
  ∃ v, tag.valueIndex = some v ∧ Edit.touches es v = true

/-- How a tag of the comment at `opener` is read after the edits with which a rule rewrites tags. -/
structure Reread (rule : Rule) (ts : Tokens) (opener : Nat) (es : List Edit) (tag tag' : DocTag) :
    Prop where
  name : tag'.name = tag.name
  kept : ¬ tag.IsEdited es → tag'.value = tag.value
  rewritten : tag.IsEdited es → ∃ v role typed ms, tag.valueIndex = some v ∧
    .replace v (TypedText.mk (.ofMembers ms) typed.rest).text ∈ es ∧
    tag.value = .typed role typed ∧ RewritesTo ts opener rule typed ms ∧
    (DocType.Legible ms typed.rest.toList ↔
      ∃ type, tag'.value = .typed role ⟨type, typed.rest⟩ ∧ type.members = ms)

theorem value_of_typed {ts : Tokens} {c i v : Nat} (hv : valueIndexAt ts i c = some v)
    {role : TypeRole} {typed : TypedText}
    (h : TagValue.parse (ts.content i) (ts.content v) = .typed role typed) :
    (read ts c i).value = .typed role typed := by
  unfold read
  simp only [hv, Option.map_some, Option.getD_some, h]

theorem exists_parse (ts : Tokens) (c i : Nat) :
    ∃ body, (read ts c i).value = TagValue.parse (ts.content i) body := by
  unfold read
  simp only
  split
  · rename_i joined _ _
    refine ⟨joined, ?_⟩
    with_reducible rfl
  · refine ⟨((valueIndexAt ts i c).map ts.content).getD "", ?_⟩
    with_reducible rfl

variable {source : String} {ts' : Tokens} {rule : Rule} {es : List Edit}

/-- An edit right behind a tag is one with which this tag is rewritten. -/
theorem rewritten_behind {e : Edit} (he : Rewrites (.ofSource source) rule e) {opener c i : Nat}
    (hopener : (Tokens.ofSource source).kinds[opener]? = some .docOpen)
    (hcloser : ((Tokens.ofSource source).links opener).docCloser = some c)
    (hmem : i ∈ ((Tokens.ofSource source).links opener).docTags)
    (hbehind : FirstBehind (Tokens.ofSource source).kinds i e.index) :
    ∃ v role typed ms, e = .replace v (TypedText.mk (.ofMembers ms) typed.rest).text ∧
      valueIndexAt (.ofSource source) i c = some v ∧
      TagValue.parse ((Tokens.ofSource source).content i) ((Tokens.ofSource source).content v) =
        .typed role typed ∧ RewritesTo (.ofSource source) opener rule typed ms := by
  have hdocs := Tokens.ofSource_documented source
  obtain ⟨o, j, v, role, typed, ms, rfl, ho, hj, hfirst, -, hvalue, hparse, hms⟩ := he.exists_tag
  have hji : j = i :=
    hfirst.eq_of_no_tag ((hdocs opener).tag i hmem) hbehind.lt fun k hik hkv htag => by
      rw [hbehind.blank k hik hkv] at htag
      cases htag
  subst hji
  obtain rfl := hdocs.opener_unique hj hmem ho hopener
  have hlt := (hdocs o).lt_close j hmem c hcloser
  exact ⟨v, role, typed, ms, rfl, hvalue c hlt ((hdocs o).close c hcloser), hparse, hms⟩

theorem reread (hes : ∀ e ∈ es, Rewrites (.ofSource source) rule e)
    (hapart : ∀ v s, .replace v s ∈ es → (Tokens.ofSource source).StandsApart v s)
    (hdistinct : es.Pairwise fun e e' => e.index ≠ e'.index)
    (h : (Tokens.ofSource source).Respelled ts' es) {opener c i : Nat}
    (hopener : (Tokens.ofSource source).kinds[opener]? = some .docOpen)
    (hcloser : ((Tokens.ofSource source).links opener).docCloser = some c)
    (hmem : i ∈ ((Tokens.ofSource source).links opener).docTags) :
    Reread rule (.ofSource source) opener es (read (.ofSource source) c i) (read ts' c i) := by
  have hi := (Tokens.ofSource_documented source opener).tag i hmem
  have htext : ∀ e ∈ es, (Tokens.ofSource source).kinds[e.index]? = some .docText := by
    intro e he
    obtain ⟨_, _, _, _, _, _, rfl, -, -, -, htext, -⟩ := (hes e he).exists_tag
    exact htext
  have hfirst : ∀ e ∈ es, ∃ j, FirstBehind (Tokens.ofSource source).kinds j e.index := by
    intro e he
    obtain ⟨_, j, _, _, _, _, rfl, -, -, hfirst, -⟩ := (hes e he).exists_tag
    exact ⟨j, hfirst⟩
  refine ⟨?_, fun hnot => ?_, ?_⟩
  · rw [name_read, name_read, h.content_of_docTag htext hi]
  · rw [h.read_eq hfirst htext hi (fun e he hbehind => hnot ?_) c]
    obtain ⟨v, role, typed, ms, rfl, hvalue, -⟩ :=
      rewritten_behind (hes e he) hopener hcloser hmem hbehind
    exact ⟨v, valueIndex_read.trans hvalue, List.any_eq_true.2 ⟨_, he, beq_self_eq_true v⟩⟩
  · rintro ⟨v, hv, htouch⟩
    rw [valueIndex_read] at hv
    obtain ⟨hiv, -, -, hblank⟩ := valueIndexAt_spec hv
    obtain ⟨e, he, hev⟩ := List.any_eq_true.1 htouch
    obtain ⟨w, role, typed, ms, rfl, hw, hparse, hms⟩ := rewritten_behind (hes e he) hopener hcloser
      hmem (by rw [beq_iff_eq.1 hev]; exact ⟨hiv, hi, hblank⟩)
    refine ⟨w, role, typed, ms, valueIndex_read.trans hw, he, value_of_typed hw hparse, hms,
      fun hlegible => ?_, ?_⟩
    · have hne : DocType.joined '|' ms ≠ [] := by
        intro hnil
        obtain ⟨d, hd, hblank, -⟩ := hapart w _ he
        obtain ⟨-, hrest⟩ := TagValue.parse_typed? (congrArg TagValue.typed? hparse)
        rw [TypedText.toList_text_ofMembers, hnil, List.nil_append] at hd
        rw [hd, Option.all_some, hblank] at hrest
        cases hrest
      obtain ⟨hread, hmembers⟩ := hms.parse_eq hparse hne hlegible
      have hvalid : (TagValue.parse ((Tokens.ofSource source).content i)
          (TypedText.mk (.ofMembers ms) typed.rest).text).isInvalid = false := by
        rw [hread]
        rfl
      rw [h.read_of_mem htext hdistinct hi hw he hvalid, hread]
      exact ⟨_, rfl, hmembers⟩
    · rintro ⟨type, hvalue, rfl⟩
      obtain ⟨body, hbody⟩ := exists_parse ts' c i
      exact TagValue.legible_of_parse (hbody.symm.trans hvalue)

end DocTag

theorem DocBlock.read?_respelled {ts ts' : Tokens} {es : List Edit} (h : ts.Respelled ts' es)
    {opener : Nat} {block : DocBlock} (hblock : read? ts opener = some block) :
    ∃ block' closer, read? ts' opener = some block' ∧ (ts.links opener).docCloser = some closer ∧
      block.tags = (ts.links opener).docTags.map (DocTag.read ts closer) ∧
        block'.tags = (ts.links opener).docTags.map (DocTag.read ts' closer) := by
  obtain ⟨closer, hread⟩ := readBetween_of_read? hblock
  obtain ⟨hcloser, htags⟩ := Prod.mk.inj (h.docs opener)
  have hkind : ts'.kind? opener = some .docOpen := by
    rw [← Tokens.getElem?_kinds, h.kinds, Tokens.getElem?_kinds]
    exact hread.kind
  obtain ⟨block', hblock', hread'⟩ := exists_readBetween hkind (hcloser.trans hread.link)
  exact ⟨block', closer, hblock', hread.link, hread.tags_eq, hread'.tags_eq.trans (by rw [htags])⟩

theorem Edit.distinct_flatten {cs : List (List Edit)} (hsingle : ∀ es ∈ cs, ∃ e, es = [e])
    (h : cs.Pairwise fun c d => ∀ i, touches c i = true → ¬ touches d i = true) :
    cs.flatten.Pairwise fun e e' => e.index ≠ e'.index := by
  rw [List.pairwise_flatten]
  refine ⟨fun es hes => ?_, h.imp fun h e he e' he' heq => ?_⟩
  · obtain ⟨e, rfl⟩ := hsingle es hes
    exact List.pairwise_singleton _ e
  · have htouch : ∀ {es : List Edit} {e : Edit}, e ∈ es → touches es e.index = true :=
      fun he => List.any_eq_true.2 ⟨_, he, beq_self_eq_true _⟩
    exact h e.index (htouch he) (heq ▸ htouch he')

namespace Analyzer

variable {a : Analyzer} {disk : Disk} {r : Round} {rule : Rule}

theorem rewrites_committed {s : Option Severity} (hrule :
      rule = Rules.NullableDoc.rule.withSeverity s ∨ rule = Rules.ParamDoc.rule.withSeverity s)
    (hrules : a.rules = [rule]) {es : List Edit} (h : es ∈ a.committed disk r) :
    ∃ e, es = [e] ∧ Rewrites (.ofSource r.text) rule e := by
  obtain ⟨rule', hmem, i, hfix⟩ := fix_of_mem_committed h
  rw [hrules, List.mem_singleton] at hmem
  subst hmem
  rw [← @tokens_siteOf a disk r]
  generalize a.siteOf disk r = site at hfix ⊢
  rcases hrule with rfl | rfl
  · obtain ⟨f, hf, hes⟩ := hfix _ _ (Rule.withSeverity_ofFindings _ _ s)
    exact Rules.NullableDoc.rewrites_of_finding hf hes s
  · obtain ⟨f, hf, hes⟩ := hfix _ _ (Rule.withSeverity_ofFindings _ _ s)
    exact Rules.ParamDoc.rewrites_of_finding hf hes s

theorem disjoint_committed (a : Analyzer) (disk : Disk) (r : Round) :
    (a.committed disk r).Pairwise fun c d => ∀ i, Edit.touches c i = true → ¬ Edit.touches d i = true := by
  have h := a.refines_closing disk r
  generalize a.committed disk r = cs at h ⊢
  exact h.disjoint

/-- After a pass of one of the rules for documented types, a comment is read again with the same
tags. A tag that was not rewritten has its value. One that was has the same kind of value with the
same text after the type, and the alternatives that the rule meant, if they are legible. -/
theorem rewritten_tags_read_back (a : Analyzer) (disk : Disk) (r : Round) (rule : Rule)
    (s : Option Severity) (hrule :
      rule = Rules.NullableDoc.rule.withSeverity s ∨ rule = Rules.ParamDoc.rule.withSeverity s)
    (hrules : a.rules = [rule])
    (hapart : ∀ v text, .replace v text ∈ (a.committed disk r).flatten →
      (Tokens.ofSource r.text).StandsApart v text)
    (opener : Nat) (block : DocBlock)
    (hblock : DocBlock.read? (.ofSource r.text) opener = some block) :
    ∃ block', DocBlock.read? (.ofSource (a.closing disk r).desk.buffer.text) opener = some block' ∧
      List.Forall₂ (DocTag.Reread rule (.ofSource r.text) opener (a.committed disk r).flatten)
        block.tags block'.tags := by
  have hrewrites : ∀ e ∈ (a.committed disk r).flatten, Rewrites (.ofSource r.text) rule e := by
    intro e he
    obtain ⟨es, hes, he⟩ := List.mem_flatten.1 he
    obtain ⟨e', rfl, hrewrites⟩ := rewrites_committed hrule hrules hes
    rwa [List.mem_singleton.1 he]
  have hdistinct : (a.committed disk r).flatten.Pairwise fun e e' => e.index ≠ e'.index := by
    refine Edit.distinct_flatten (fun es hes => ?_) (disjoint_committed a disk r)
    obtain ⟨e, rfl, -⟩ := rewrites_committed hrule hrules hes
    exact ⟨e, rfl⟩
  have hspell : (Tokens.ofSource r.text).Respelled
      (.ofSource (a.closing disk r).desk.buffer.text) (a.committed disk r).flatten := by
    rw [text_closing, outcomeOf]
    refine Tokens.respelled_edited (fun e he => (hrewrites e he).rewording ?_) hdistinct
    rintro v s rfl
    exact hapart v s he
  obtain ⟨_, hbetween⟩ := DocBlock.readBetween_of_read? hblock
  have hopener := (Tokens.getElem?_kinds _ _).trans hbetween.kind
  obtain ⟨block', closer, hblock', hcloser, htags, htags'⟩ := DocBlock.read?_respelled hspell hblock
  refine ⟨block', hblock', ?_⟩
  rw [htags, htags', List.forall₂_map_left_iff, List.forall₂_map_right_iff, List.forall₂_same]
  exact fun i hi => DocTag.reread hrewrites hapart hdistinct hspell hopener hcloser hi

theorem nullable_param_reads_back :
    let a : Analyzer := ⟨⟨"/"⟩, [Rules.NullableDoc.rule], [], {}, true, 50⟩
    let r : Round := ⟨⟨"a.php"⟩, "<?php\n/**\n * @param ?T $x y\n * @return int\n */\nfunction f($x);",
      true, a.start, []⟩
    (a.committed {} r).flatten = [.replace 9 "T|null $x y"] ∧
      ∃ block block', DocBlock.read? (.ofSource r.text) 2 = some block ∧
        DocBlock.read? (.ofSource (a.closing {} r).desk.buffer.text) 2 = some block' ∧
        List.Forall₂ (DocTag.Reread Rules.NullableDoc.rule (.ofSource r.text) 2
          [.replace 9 "T|null $x y"]) block.tags block'.tags := by
  intro a r
  have hcommitted : (a.committed {} r).flatten = [.replace 9 "T|null $x y"] := by decide +kernel
  have hkind : (Tokens.ofSource r.text).kinds[8]? = some .docBlank := by decide +kernel
  obtain ⟨block, hblock⟩ : ∃ block, DocBlock.read? (.ofSource r.text) 2 = some block :=
    Option.isSome_iff_exists.1 (by decide +kernel)
  obtain ⟨block', hblock', htags⟩ := rewritten_tags_read_back a {} r Rules.NullableDoc.rule none
    (.inl rfl) rfl (by
      intro v s hs
      rw [hcommitted, List.mem_singleton] at hs
      cases hs
      refine ⟨'T', by decide +kernel, by decide, fun i hi htag => ?_⟩
      cases hi
      rw [hkind] at htag
      cases htag)
    2 block hblock
  rw [hcommitted] at htags
  exact ⟨hcommitted, block, block', hblock, hblock', htags⟩

/-- A type that is written like a variable is no longer read as a type once it comes first. -/
theorem this_read_as_variable :
    let a : Analyzer := ⟨⟨"/"⟩, [Rules.ParamDoc.rule], [], {}, true, 50⟩
    let source := "<?php\n/**\n * @param int|$this $x\n * @param int|self $x\n */\nfunction f(self $x) {}\n"
    let fixed := "<?php\n/**\n * @param $this $x\n * @param int|self $x\n */\nfunction f(self $x) {}\n"
    let typed := fun text : String => (DocBlock.read? (.ofSource text) 2).map fun block =>
      block.tags.map fun tag => tag.value.typed?.isSome
    (a.closing {} ⟨⟨"a.php"⟩, source, true, a.start, []⟩).desk.buffer.text = fixed ∧
      typed source = some [true, true] ∧ typed fixed = some [false, true] := by
  refine ⟨?_, ?_, ?_⟩ <;> decide +kernel

end Analyzer

end PhpStyle
