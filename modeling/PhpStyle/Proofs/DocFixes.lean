import PhpStyle.Proofs.ConfinedEdits
import PhpStyle.Proofs.DocComments
import PhpStyle.Proofs.DocRewording
import PhpStyle.Proofs.Partition
import PhpStyle.Proofs.TypeRoundTrip
import PhpStyle.Rules.NullableDoc
import PhpStyle.Rules.ParamDoc

/-!
# Fixes of doc comments leave the code alone

The rules for documented types replace the type at the start of a tag's text by another one that is
put together from its parts. Such a text stays inside of its comment (`harmless_retyped`), so every
pass leaves the code as it was (`code_pass`), and so does fixing as a whole.
-/

namespace PhpStyle

open Text Lexer

theorem Lexer.NoClose.bar {u v : List Char} : NoClose (u ++ '|' :: v) ↔ NoClose u ∧ NoClose v := by
  constructor
  · intro h
    exact ⟨h.left, NoClose.right (u := ['|']) h.right⟩
  · rintro ⟨hu, hv⟩
    exact .append hu (.append (u := ['|']) (.of_not_mem (by decide)) hv nofun) nofun

namespace DocType

theorem noClose_joined (ms : List DocType) :
    NoClose (joined '|' ms) ↔ ∀ m ∈ ms, NoClose m.chars := by
  induction ms with
  | nil => simp [joined, NoClose.nil]
  | cons m ms ih =>
    cases ms with
    | nil => simp [joined]
    | cons m' ms =>
      rw [joined, NoClose.bar, ih, List.forall_mem_cons (l := m' :: ms)]
      exact List.cons_ne_nil m' ms

theorem noClose_members {t : DocType} (h : NoClose t.chars) : ∀ m ∈ t.members, NoClose m.chars := by
  intro m hm
  cases t with
  | union ms => exact (noClose_joined ms).1 h m hm
  | _ => rwa [List.mem_singleton.1 hm]

theorem chars_ofMembers (ms : List DocType) : (ofMembers ms).chars = joined '|' ms := by
  unfold ofMembers
  split
  · rw [joined]
  · rw [chars]

theorem exists_joined_append (sep : Char) (ms : List DocType) (t : DocType) :
    ∃ cs, joined sep (ms ++ [t]) = cs ++ t.chars := by
  induction ms with
  | nil => exact ⟨[], rfl⟩
  | cons m ms ih =>
    obtain ⟨cs, hcs⟩ := ih
    refine ⟨m.chars ++ sep :: cs, ?_⟩
    rw [List.cons_append, joined, hcs, List.append_assoc, List.cons_append]
    simp

theorem isBlank_drop_typeLength (depth : Int) (quote : Option Char) (before cs : List Char)
    (h : (typeLength depth quote before cs).2 = 0) :
    (cs.drop (typeLength depth quote before cs).1).head?.all isBlank = true := by
  fun_induction typeLength depth quote before cs with
  | case1 => rfl
  | case2 depth before c cs continued q ih => exact ih h
  | case3 depth before c cs continued hq ih => exact ih h
  | case4 depth before c cs continued hq ho ih => exact ih h
  | case5 depth before c cs hq ho hc hdepth =>
    -- a closer too many leaves the depth below zero
    simp only at h
    omega
  | case6 depth before c cs continued hq ho hc hdepth ih => exact ih h
  | case7 depth before c cs continued hq ho hc hb hcolon ih => exact ih h
  | case8 depth before c cs hq ho hc hb hcolon =>
    simp only [Bool.and_eq_true] at hb
    exact hb.1
  | case9 depth before c cs continued hq ho hc hb ih => exact ih h

end DocType

theorem TagValue.parse_typed? {name body : String} {v : TypedText}
    (h : (parse name body).typed? = some v) :
    body.toList = v.type.chars ++ v.rest.toList ∧ v.rest.toList.head?.all isBlank = true := by
  unfold parse at h
  simp only at h
  split at h
  · unfold parseTyped at h
    simp only at h
    split at h
    · cases h
    split at h
    · cases h
    · rename_i hdepth
      cases h
      rw [DocType.chars_parseChars, String.toList_ofList]
      exact ⟨(List.take_append_drop _ _).symm,
        DocType.isBlank_drop_typeLength 0 none [] _ (Decidable.not_not.1 hdepth)⟩
  · split at h
    · cases h
    · cases h

theorem TagValue.toList_withTyped {value : TagValue} {v : TypedText} (h : value.typed? = some v)
    (w : TypedText) : (value.withTyped w).text.toList = w.type.chars ++ w.rest.toList := by
  cases value with
  | typed role v' =>
    rw [withTyped, text, TypedText.text, String.toList_append, DocType.text, String.toList_ofList]
  | _ => cases h

/-- Another type at the start of a tag's text is harmless: a blank follows it, or else the text ends
with it, and not in a star. -/
theorem harmless_retyped {type type' rest : List Char} (hrest : rest.head?.all isBlank = true)
    (htype : NoClose type → NoClose type') (hlast : rest = [] → type'.getLast? ≠ some '*') :
    Harmless (type ++ rest) (type' ++ rest) where
  noClose h := by
    refine .append (htype h.left) h.right fun _ hslash => ?_
    rw [hslash] at hrest
    cases hrest
  last h := by
    cases rest with
    | nil =>
      rw [List.append_nil] at h
      exact absurd h (hlast rfl)
    | cons c rest =>
      rwa [List.getLast?_append_of_ne_nil _ (List.cons_ne_nil c rest)] at h ⊢

/-- The texts that may stand for a token without a change of code. -/
def Tokens.Admits (ts : Tokens) (i : Nat) (s : String) : Prop :=
  s = ts.content i ∨ IsTagText ts.kinds i ∧ Harmless (ts.content i).toList s.toList

theorem Tokens.admits_content (ts : Tokens) (i : Nat) : ts.Admits i (ts.content i) :=
  .inl rfl

/-- An edit that gives the value of a tag on one line another type. -/
inductive Retypes (block : DocBlock) : Edit → Prop
  | intro {tag : DocTag} (htag : tag ∈ block.tags) (hline : tag.multiline = false) {v : Nat}
      (hv : tag.valueIndex = some v) {typed : TypedText} (htyped : tag.value.typed? = some typed)
      {type : DocType} (hclose : NoClose typed.type.chars → NoClose type.chars)
      (hlast : typed.rest.toList = [] → type.chars.getLast? ≠ some '*') :
      Retypes block (.replace v (tag.value.withTyped { typed with type := type }).text)

theorem Retypes.keeps {source : String} {opener : Nat} {block : DocBlock}
    (hblock : DocBlock.read? (.ofSource source) opener = some block) {e : Edit}
    (h : Retypes block e) : e.Keeps (Tokens.ofSource source).Admits := by
  cases h with
  | intro htag hline hv htyped hclose hlast =>
    intro s _
    obtain ⟨name, hvalue⟩ := DocBlock.value_eq hblock htag hline hv
    have hnew := TagValue.toList_withTyped htyped
    rw [hvalue] at htyped
    obtain ⟨hold, hrest⟩ := TagValue.parse_typed? htyped
    refine .inr ⟨DocBlock.isTagText hblock htag hv, ?_⟩
    rw [Edit.index, Edit.apply, hold, hnew]
    exact harmless_retyped hrest hclose hlast

theorem DocType.expandNullable?_eq_some {t expanded : DocType} (h : t.expandNullable? = some expanded) :
    ∃ inner : DocType, t = .nullable inner ∧ expanded = .union (inner.members ++ [.name "null"]) := by
  unfold expandNullable? at h
  split at h
  · rename_i inner
    exact ⟨inner, rfl, (Option.some.inj h).symm⟩
  · cases h

namespace Rules.NullableDoc

/-- What the rule does to the tokens: it spells out the question mark before the type of a tag on one
line. -/
inductive SpellsOut (ts : Tokens) : List Edit → Prop
  | intro {opener : Nat} {block : DocBlock} (hblock : DocBlock.read? ts opener = some block)
      {tag : DocTag} (htag : tag ∈ block.tags) (hline : tag.multiline = false) {v : Nat}
      (hv : tag.valueIndex = some v) {typed : TypedText} (htyped : tag.value.typed? = some typed)
      {inner : DocType} (htype : typed.type = .nullable inner) :
      SpellsOut ts [.replace v (tag.value.withTyped
        { typed with type := .union (inner.members ++ [.name "null"]) }).text]

theorem spellsOut_of_findings {site : Site} {i : Nat} {f : Finding} (hf : f ∈ findings site i)
    {es : List Edit} (hfix : f.fix = some es) : SpellsOut site.tokens es := by
  unfold findings at hf
  split at hf
  · rename_i block hblock
    obtain ⟨tag, htag, hfinding⟩ := List.mem_filterMap.1 hf
    simp only [finding?, Option.bind_eq_bind, Option.bind_eq_some_iff, Option.guard_eq_some',
      exists_const, Bool.and_eq_true, Bool.not_eq_true'] at hfinding
    obtain ⟨⟨-, hline⟩, v, hv, typed, htyped, expanded, hexpanded, heq⟩ := hfinding
    cases heq
    cases hfix
    obtain ⟨inner, htype, rfl⟩ := DocType.expandNullable?_eq_some hexpanded
    exact .intro hblock htag hline hv htyped htype
  · cases hf

theorem SpellsOut.keeps {source : String} {es : List Edit} (h : SpellsOut (.ofSource source) es) :
    ∀ e ∈ es, e.Keeps (Tokens.ofSource source).Admits := by
  cases h with
  | intro hblock htag hline hv htyped htype =>
    rw [List.forall_mem_singleton]
    refine Retypes.keeps hblock (.intro htag hline hv htyped (fun hclose => ?_) fun _ hlast => ?_)
    · rw [htype, DocType.chars] at hclose
      rw [DocType.chars, DocType.noClose_joined]
      intro m hm
      rcases List.mem_append.1 hm with hm | hm
      · exact DocType.noClose_members (NoClose.right (u := ['?']) hclose) m hm
      · rw [List.mem_singleton.1 hm, DocType.chars]
        exact .of_not_mem (by decide)
    · -- the type ends in `null`, whatever follows
      obtain ⟨cs, hcs⟩ := DocType.exists_joined_append '|' (DocType.members _) (.name "null")
      rw [DocType.chars, hcs, DocType.chars, List.getLast?_append_of_ne_nil _ (by decide)] at hlast
      exact absurd hlast (by decide)

theorem keeps_findings {file : SourceFile} {disk : Disk} {i : Nat} {f : Finding}
    (hf : f ∈ findings ⟨file, .ofSource file.content, disk⟩ i) :
    f.Keeps (Tokens.ofSource file.content).Admits := by
  intro es hfix
  have hfound := spellsOut_of_findings hf hfix
  dsimp only at hfound
  exact hfound.keeps

end Rules.NullableDoc

namespace Rules.ParamDoc

/-- What the rule does to the tokens: from the documented type of a parameter, on one line, it takes
out the alternatives that the declared type refuses, unless these are all or none. -/
inductive Drops (ts : Tokens) : List Edit → Prop
  | intro {opener : Nat} {block : DocBlock} (hblock : DocBlock.read? ts opener = some block)
      {tag : DocTag} (htag : tag ∈ block.tags) (hline : tag.multiline = false) {v : Nat}
      (hv : tag.valueIndex = some v) {typed : TypedText} (htyped : tag.value.typed? = some typed)
      {i : Nat} (hdoc : ts.docOpenerOf i = some opener) {p : Parameter} (hparam : p ∈ ts.parameters i)
      {declared : DeclaredType} (hdeclared : p.type = some declared)
      (hname : typed.variableName? = some p.name) {kept : List DocType}
      (hfilter : typed.type.members.filter
        (isCompatible (nativeMembers declared.bare p.nullable) p) = kept)
      (hkept : kept ≠ []) (hdropped : ∃ m ∈ typed.type.members,
        isCompatible (nativeMembers declared.bare p.nullable) p m = false) :
      Drops ts [.replace v (tag.value.withTyped { typed with type := .ofMembers kept }).text]

theorem paramTag?_spec {block : DocBlock} {name : String} {tag : DocTag}
    (h : block.paramTag? name = some tag) {typed : TypedText} (htyped : tag.value.typed? = some typed) :
    tag ∈ block.tags ∧ typed.variableName? = some name := by
  refine ⟨List.mem_of_mem_filter (List.mem_of_find?_eq_some h), ?_⟩
  have hname := List.find?_some h
  rw [htyped, Option.bind_some] at hname
  exact beq_iff_eq.1 hname

theorem drops_of_findings {site : Site} {i : Nat} {f : Finding} (hf : f ∈ findings site i)
    {es : List Edit} (hfix : f.fix = some es) : Drops site.tokens es := by
  unfold findings at hf
  split at hf
  · rename_i block hblock
    obtain ⟨opener, hdoc, hread⟩ := Option.bind_eq_some_iff.1 hblock
    obtain ⟨p, hparam, hfinding⟩ := List.mem_filterMap.1 hf
    simp only [finding?, Option.bind_eq_bind, Option.bind_eq_some_iff, Option.guard_eq_some',
      exists_const] at hfinding
    obtain ⟨declared, hdeclared, tag, htag, typed, htyped, hdropped, heq⟩ := hfinding
    cases heq
    obtain ⟨v, hvalue, rfl⟩ := Option.map_eq_some_iff.1 hfix
    obtain ⟨hv, hchecked⟩ := Option.filter_eq_some_iff.1 hvalue
    simp only [Bool.and_eq_true, Bool.not_eq_true', List.isEmpty_eq_false_iff] at hchecked
    obtain ⟨hkept, hline⟩ := hchecked
    obtain ⟨hmem, hname⟩ := paramTag?_spec htag htyped
    rw [List.partition_eq_filter_filter] at hdropped hkept ⊢
    exact .intro hread hmem hline hv htyped hdoc hparam hdeclared hname rfl hkept
      (by simpa using hdropped)
  · cases hf

theorem Drops.keeps {source : String} {es : List Edit} (h : Drops (.ofSource source) es) :
    ∀ e ∈ es, e.Keeps (Tokens.ofSource source).Admits := by
  cases h with
  | intro hblock htag hline hv htyped _ _ _ hname hfilter _ _ =>
    rw [List.forall_mem_singleton]
    refine Retypes.keeps hblock (.intro htag hline hv htyped (fun hclose => ?_) fun hnil => ?_)
    · rw [DocType.chars_ofMembers, DocType.noClose_joined, ← hfilter]
      exact fun m hm => DocType.noClose_members hclose m (List.mem_of_mem_filter hm)
    · -- the name of the parameter stands behind the type
      rw [TypedText.variableName?, hnil] at hname
      cases hname

theorem keeps_findings {file : SourceFile} {disk : Disk} {i : Nat} {f : Finding}
    (hf : f ∈ findings ⟨file, .ofSource file.content, disk⟩ i) :
    f.Keeps (Tokens.ofSource file.content).Admits := by
  intro es hfix
  have hfound := drops_of_findings hf hfix
  dsimp only at hfound
  exact hfound.keeps

end Rules.ParamDoc

/-! ### Passes -/

theorem IsTagText.tail {k : Kind} {ks : List Kind} {i : Nat} (h : IsTagText (k :: ks) (i + 2)) :
    IsTagText ks (i + 1) := by
  obtain ⟨htext, ⟨j, k', hj, hk', hkind⟩, c, hc, hclose⟩ := h
  obtain rfl : j = i + 1 := by omega
  obtain ⟨c, rfl⟩ : ∃ d, c = d + 1 := ⟨c - 1, by omega⟩
  exact ⟨htext, ⟨i, k', rfl, hk', hkind⟩, c, by omega, hclose⟩

/-- New texts that are harmless one by one amend the lexemes. -/
theorem amended_of_isTagText {ls : List (Kind × List Char)} {ns : List (List Char)}
    (hlength : ns.length = ls.length)
    (hfirst : ∀ l new, ls[0]? = some l → ns[0]? = some new → new = l.2)
    (h : ∀ i l new, ls[i + 1]? = some l → ns[i + 1]? = some new →
      new = l.2 ∨ IsTagText (ls.map (·.1)) (i + 1) ∧ Harmless l.2 new) :
    Amended ls ns := by
  -- by recursion, one lexeme at a time where the next is kept and two where it is replaced
  match ls, ns with
  | [], [] => exact .nil
  | [l], [n] =>
    obtain rfl := hfirst l n rfl rfl
    exact .keep l .nil
  | l :: m :: ls, n :: n' :: ns =>
    obtain rfl := hfirst l n rfl rfl
    rcases h 0 m n' rfl rfl with heq | ⟨htag, hnew⟩
    · refine .keep l (amended_of_isTagText (Nat.succ.inj hlength) ?_ fun i l' new hl hn => ?_)
      · intro l' new hl hn
        cases hl
        cases hn
        exact heq
      · rcases h (i + 1) l' new hl hn with heq | ⟨htag, hnew⟩
        · exact .inl heq
        · exact .inr ⟨htag.tail, hnew⟩
    · obtain ⟨htext, ⟨j, k, hj, hk, hkind⟩, c, hc, hclose⟩ := htag
      obtain rfl : j = 0 := by omega
      obtain ⟨c, rfl⟩ : ∃ d, c = d + 2 := ⟨c - 2, by omega⟩
      obtain ⟨k', old⟩ := m
      cases htext
      cases hk
      have hclosed : ∃ l ∈ ls, l.1 = .docClose := List.mem_map.1 (List.mem_of_getElem? hclose)
      refine .replace hkind hclosed hnew
        (amended_of_isTagText (Nat.succ.inj (Nat.succ.inj hlength)) ?_ fun i l' new hl hn => ?_)
      · -- what follows a text stands behind no tag and no blank
        intro l' new hl hn
        rcases h 1 l' new hl hn with heq | ⟨⟨-, ⟨j, k, hj, hk, hkind⟩, -⟩, -⟩
        · exact heq
        · obtain rfl : j = 1 := by omega
          cases hk
          rcases hkind with hkind | hkind <;> cases hkind
      · rcases h (i + 2) l' new hl hn with heq | ⟨htag, hnew⟩
        · exact .inl heq
        · exact .inr ⟨htag.tail.tail, hnew⟩

namespace Tokens

/-- The code of a source: its effective tokens with their kinds and contents. -/
def code (ts : Tokens) : List (Kind × String) :=
  (ts.items.toList.filter isEffective).map fun t => (t.kind, t.content)

theorem code_eq_filter (ts : Tokens) :
    ts.code = (ts.items.toList.map fun t => (t.kind, t.content)).filter fun p => p.1.isEffective := by
  rw [List.filter_map]
  rfl

theorem map_place (p : Position) (ls : List (Kind × List Char)) :
    (Token.place p ls).map (fun t => (t.kind, t.content)) =
      ls.map fun l => (l.1, String.ofList l.2) := by
  induction ls generalizing p with
  | nil => rfl
  | cons l ls ih => rw [Token.place, List.map_cons, ih, List.map_cons]

theorem code_unlinked (ts : Tokens) : ts.unlinked.code = ts.code := by
  rw [code_eq_filter, code_eq_filter, unlinked, Array.toList_map, List.map_map]
  rfl

theorem code_ofSource (source : String) :
    (ofSource source).code =
      (Lexer.code (({} : Lexer).run source.toList)).map fun l => (l.1, String.ofList l.2) := by
  rw [← code_unlinked, ofSource_unlinked, code_eq_filter, lex, map_place, List.filter_map]
  rfl

theorem contents_ofSource (source : String) :
    (ofSource source).items.toList.map (·.content) =
      (({} : Lexer).run source.toList).map fun l => String.ofList l.2 := by
  rw [← contents_unlinked, ofSource_unlinked]
  exact Token.content_place {} _

theorem content_ofSource {source : String} {i : Nat} {l : Kind × List Char}
    (h : (({} : Lexer).run source.toList)[i]? = some l) :
    ((ofSource source).content i).toList = l.2 := by
  have hcontents := congrArg (·[i]?) (contents_ofSource source)
  simp only [List.getElem?_map, h, Option.map_some, Array.getElem?_toList] at hcontents
  rw [content, get?, hcontents, Option.getD_some, String.toList_ofList]

end Tokens

theorem EditBuffer.Confined.amended {ts : Tokens} {ls : List (Kind × List Char)}
    (hkinds : ts.kinds = ls.map (·.1))
    (hcontent : ∀ i l, ls[i]? = some l → (ts.content i).toList = l.2) {b : EditBuffer}
    (h : b.Confined ts.Admits ts.size) : Amended ls (b.contents.toList.map String.toList) := by
  have hsize : ts.size = ls.length := by
    rw [← List.length_map (f := (·.1)), ← hkinds, Tokens.kinds, List.length_map, Array.length_toList,
      Tokens.size]
  have hadmits : ∀ i l new, ls[i]? = some l → (b.contents.toList.map String.toList)[i]? = some new →
      new = l.2 ∨ IsTagText (ls.map (·.1)) i ∧ Harmless l.2 new := by
    intro i l new hl hnew
    rw [List.getElem?_map, Array.getElem?_toList] at hnew
    obtain ⟨s, hs, rfl⟩ := Option.map_eq_some_iff.1 hnew
    rw [← hcontent i l hl, ← hkinds]
    rcases h.contents i s hs with rfl | hadmits
    · exact .inl rfl
    · exact .inr hadmits
  refine amended_of_isTagText ?_ (fun l new hl hnew => ?_) fun i => hadmits (i + 1)
  · rw [List.length_map, Array.length_toList, h.size_eq, hsize]
  · rcases hadmits 0 l new hl hnew with heq | ⟨htag, -⟩
    · exact heq
    · obtain ⟨j, k, hj, -⟩ := htag.behind
      omega

theorem EditBuffer.Confined.code_eq {source : String} {b : EditBuffer}
    (h : b.Confined (Tokens.ofSource source).Admits (Tokens.ofSource source).size) :
    (Tokens.ofSource b.text).code = (Tokens.ofSource source).code := by
  have hkinds : (Tokens.ofSource source).kinds = (({} : Lexer).run source.toList).map (·.1) := by
    rw [Tokens.kinds_ofSource]
    exact Token.kind_place {} _
  have hamended := h.amended hkinds fun i l hl => Tokens.content_ofSource hl
  have htext : b.text.toList = (b.contents.toList.map String.toList).flatten := by
    rw [EditBuffer.text, String.toList_join, List.flatMap]
  rw [Tokens.code_ofSource, Tokens.code_ofSource, htext, code_run_amended _ hamended]

namespace Analyzer

variable {a : Analyzer} (disk : Disk) (path : Path)

/-- All rules are rules for documented types. -/
def DocRules (a : Analyzer) : Prop :=
  ∀ rule ∈ a.rules, ∃ s,
    rule = Rules.NullableDoc.rule.withSeverity s ∨ rule = Rules.ParamDoc.rule.withSeverity s

theorem DocRules.keepTexts (hrules : a.DocRules) (file : SourceFile) :
    KeepTexts (Tokens.ofSource file.content).Admits ⟨file, .ofSource file.content, disk⟩ a.workers := by
  intro w hw
  obtain ⟨hrule, -⟩ := Worker.of_mem_ofRules hw
  obtain ⟨s, heq | heq⟩ := hrules _ hrule
  · exact ⟨_, _, heq.trans (Rule.withSeverity_ofFindings _ _ s), fun i f hf =>
      Rules.NullableDoc.keeps_findings hf⟩
  · exact ⟨_, _, heq.trans (Rule.withSeverity_ofFindings _ _ s), fun i f hf =>
      Rules.ParamDoc.keeps_findings hf⟩

theorem code_runPass (hrules : a.DocRules) (file : SourceFile) (fixing : Bool) (run : RunState)
    (failures : List RuleFailure) :
    (Tokens.ofSource (runPass disk a.workers file fixing run failures).desk.buffer.text).code =
      (Tokens.ofSource file.content).code := by
  have hkeep := hrules.keepTexts disk file
  have hconfined := confined_runPass (Tokens.admits_content _) hkeep fixing run failures
  exact hconfined.code_eq

theorem code_pass (hrules : a.DocRules) (text : String) (fixing : Bool) (run : RunState)
    (failures : List RuleFailure) :
    (Tokens.ofSource (a.pass disk path text fixing run failures).desk.buffer.text).code =
      (Tokens.ofSource text).code := by
  unfold pass
  exact code_runPass disk hrules ⟨path, text, a.root⟩ fixing run failures

theorem code_fixLoop (hrules : a.DocRules) (n : Nat) (s : FixState) :
    (Tokens.ofSource (a.fixLoop disk path n s).text).code = (Tokens.ofSource s.text).code := by
  induction n generalizing s with
  | zero => rfl
  | succ n ih =>
    have hpass := code_pass disk path hrules s.text true s.run s.failures
    rw [fixLoop]
    generalize a.pass disk path s.text true s.run s.failures = p at hpass ⊢
    by_cases hzero : p.desk.buffer.commits = 0
    · rw [if_pos hzero]
    · rw [if_neg hzero, ih]
      exact hpass

theorem code_fixedState (hrules : a.DocRules) (source : String) (run : RunState) :
    (Tokens.ofSource (a.fixedState disk path source run).text).code =
      (Tokens.ofSource source).code := by
  unfold fixedState
  simp only
  split
  · exact code_fixLoop disk path hrules _ _
  · rfl

/-- Fixing documented types leaves the code of a file as it was. -/
theorem fixing_docs_keeps_code (a : Analyzer)
    (hrules : ∀ rule ∈ a.rules, ∃ s,
      rule = Rules.NullableDoc.rule.withSeverity s ∨ rule = Rules.ParamDoc.rule.withSeverity s)
    (disk : Disk) (path : Path) (source : String) (run : RunState) :
    ∃ outcome, (a.analyzeText disk path source run).1.files = [outcome] ∧
      (Tokens.ofSource (outcome.fixedSource.getD source)).code = (Tokens.ofSource source).code := by
  refine ⟨_, rfl, ?_⟩
  have hcode := code_fixedState disk path hrules source run
  generalize (a.fixedState disk path source run).text = text at hcode ⊢
  simp only
  split
  · rfl
  · exact hcode

theorem code_beside_nullable_doc :
    let a : Analyzer := ⟨⟨"/"⟩, [Rules.NullableDoc.rule, Rules.ParamDoc.rule], [], {}, true, 50⟩
    let source := "<?php /** @var ?T */ $a;"
    ∃ outcome, (a.analyzeText {} ⟨"a.php"⟩ source a.start).1.files = [outcome] ∧
      (Tokens.ofSource (outcome.fixedSource.getD source)).code =
        [(.openTag, "<?php"), (.variableName, "$a"), (.semicolon, ";")] := by
  intro a source
  have hrules : ∀ rule ∈ a.rules, ∃ s,
      rule = Rules.NullableDoc.rule.withSeverity s ∨ rule = Rules.ParamDoc.rule.withSeverity s :=
    List.forall_mem_cons.2 ⟨⟨none, .inl rfl⟩, List.forall_mem_singleton.2 ⟨none, .inr rfl⟩⟩
  obtain ⟨outcome, hfiles, hcode⟩ := fixing_docs_keeps_code a hrules {} ⟨"a.php"⟩ source a.start
  have hsource : (Tokens.ofSource source).code =
      [(.openTag, "<?php"), (.variableName, "$a"), (.semicolon, ";")] := by
    decide +kernel
  exact ⟨outcome, hfiles, hcode.trans hsource⟩

end Analyzer

end PhpStyle
