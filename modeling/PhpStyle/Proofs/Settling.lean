import Mathlib.Algebra.GroupWithZero.Nat
import Mathlib.Algebra.Order.BigOperators.Group.List
import Mathlib.Data.List.Induction
import PhpStyle.Proofs.CommittedFixes
import PhpStyle.Proofs.DocFixes
import PhpStyle.Rules.ArrayBlankLines

/-!
# Fixing settles

The `weight` of a text is its length, with a question mark counting for six characters. Spelling out
a nullable type gives up a question mark for the five characters of `|null`, taking alternatives out
of a type and removing blank lines only shorten a text, so all edits of the rules for documented
types and for blank lines leave a token lighter than it was (`Edit.Lightens`). A pass that commits
something leaves a lighter text (`Analyzer.weight_closing_lt`), and a loop with more passes than the
weight of the text ends with a pass that commits nothing.
-/

namespace PhpStyle

open Text

def weight (cs : List Char) : Nat :=
  cs.length + 5 * cs.count '?'

@[simp] theorem weight_nil : weight [] = 0 := rfl

theorem weight_append (cs ds : List Char) : weight (cs ++ ds) = weight cs + weight ds := by
  simp only [weight, List.length_append, List.count_append]
  omega

theorem weight_cons (c : Char) (cs : List Char) : weight (c :: cs) = weight [c] + weight cs :=
  weight_append [c] cs

theorem weight_pos {cs : List Char} (h : cs ≠ []) : 0 < weight cs := by
  have := List.length_pos_iff.2 h
  unfold weight
  omega

theorem weight_flatMap {α : Type} (f : α → List Char) (l : List α) :
    weight (l.flatMap f) = (l.map fun x => weight (f x)).sum := by
  induction l with
  | nil => rfl
  | cons x l ih => rw [List.flatMap_cons, weight_append, ih, List.map_cons, List.sum_cons]

namespace DocType

/-- The weight of alternatives, each with a bar. -/
def load (ms : List DocType) : Nat :=
  (ms.map fun m => weight m.chars + 1).sum

theorem load_cons (m : DocType) (ms : List DocType) : load (m :: ms) = weight m.chars + 1 + load ms :=
  List.sum_cons

theorem load_append (ms ms' : List DocType) : load (ms ++ ms') = load ms + load ms' := by
  simp [load]

theorem weight_joined {ms : List DocType} (h : ms ≠ []) : weight (joined '|' ms) + 1 = load ms := by
  induction ms with
  | nil => exact absurd rfl h
  | cons m ms ih =>
    cases ms with
    | nil => simp [joined, load]
    | cons m' ms =>
      have hrest := ih (List.cons_ne_nil m' ms)
      rw [joined.eq_3 _ _ _ (List.cons_ne_nil m' ms), weight_append, weight_cons, load_cons, ← hrest]
      have hbar : weight ['|'] = 1 := by decide
      omega

theorem load_members_le (t : DocType) : load t.members ≤ weight t.chars + 1 := by
  cases t with
  | union ms =>
    cases ms with
    | nil => simp [members, load]
    | cons m ms =>
      have h := weight_joined (List.cons_ne_nil m ms)
      rw [members, chars]
      omega
  | _ => simp [members, load]

theorem load_pos {ms : List DocType} (h : ms ≠ []) : 0 < load ms := by
  have := weight_joined h
  omega

theorem load_partition (p : DocType → Bool) (ms : List DocType) :
    load (ms.filter p) + load (ms.filter fun m => !p m) = load ms := by
  induction ms with
  | nil => rfl
  | cons m ms ih =>
    cases hp : p m with
    | true =>
      rw [List.filter_cons_of_pos hp, List.filter_cons_of_neg (by simp [hp]), load_cons, load_cons]
      omega
    | false =>
      rw [List.filter_cons_of_neg (by simp [hp]), List.filter_cons_of_pos (by simp [hp]), load_cons,
        load_cons]
      omega

theorem weight_expanded (inner : DocType) :
    weight (union (inner.members ++ [name "null"])).chars < weight (nullable inner).chars := by
  have hjoined := weight_joined (List.append_ne_nil_of_right_ne_nil inner.members
    (List.cons_ne_nil (name "null") []))
  have hmembers := load_members_le inner
  have hnull : load [name "null"] = 5 := by simp [load, chars, weight]
  have hmark : weight ['?'] = 6 := by decide
  rw [load_append] at hjoined
  rw [chars, chars, weight_cons]
  omega

theorem weight_ofMembers_filter {t : DocType} {p : DocType → Bool} (hkept : t.members.filter p ≠ [])
    (hdropped : (t.members.filter fun m => !p m) ≠ []) :
    weight (ofMembers (t.members.filter p)).chars < weight t.chars := by
  have hjoined := weight_joined hkept
  have hsplit := load_partition p t.members
  have hpos := load_pos hdropped
  have hmembers := load_members_le t
  rw [chars_ofMembers]
  omega

end DocType

/-- Whatever the edit is applied to, it leaves a lighter text than the token had. -/
def Edit.Lightens (ts : Tokens) (e : Edit) : Prop :=
  ∀ s, weight (e.apply s).toList < weight (ts.content e.index).toList

/-- The fix of the finding, if it has one, consists of edits that lighten. -/
def Finding.Lightens (ts : Tokens) (f : Finding) : Prop :=
  ∀ es, f.fix = some es → es ≠ [] ∧ ∀ e ∈ es, e.Lightens ts

theorem DocBlock.lightens_retyped {ts : Tokens} {opener : Nat} {block : DocBlock}
    (hblock : read? ts opener = some block) {tag : DocTag} (htag : tag ∈ block.tags)
    (hline : tag.multiline = false) {v : Nat} (hv : tag.valueIndex = some v) {typed : TypedText}
    (htyped : tag.value.typed? = some typed) {type : DocType}
    (htype : weight type.chars < weight typed.type.chars) :
    (Edit.replace v (tag.value.withTyped { typed with type := type }).text).Lightens ts := by
  intro s
  obtain ⟨name, hvalue⟩ := value_eq hblock htag hline hv
  have hnew := TagValue.toList_withTyped htyped { typed with type := type }
  rw [hvalue] at htyped
  obtain ⟨hold, -⟩ := TagValue.parse_typed? htyped
  rw [Edit.apply, Edit.index, hnew, hold, weight_append, weight_append]
  exact Nat.add_lt_add_right htype _

theorem Rules.NullableDoc.lightens_findings {site : Site} {i : Nat} {f : Finding}
    (hf : f ∈ findings site i) : f.Lightens site.tokens := by
  intro es hfix
  cases spellsOut_of_findings hf hfix with
  | intro hblock htag hline hv htyped htype =>
    refine ⟨List.cons_ne_nil _ _, fun e he => ?_⟩
    rw [List.mem_singleton.1 he]
    refine DocBlock.lightens_retyped hblock htag hline hv htyped ?_
    rw [htype]
    exact DocType.weight_expanded _

theorem Rules.ParamDoc.lightens_findings {site : Site} {i : Nat} {f : Finding}
    (hf : f ∈ findings site i) : f.Lightens site.tokens := by
  intro es hfix
  cases drops_of_findings hf hfix with
  | intro hblock htag hline hv htyped _ _ _ _ hfilter hkept hdropped =>
    subst hfilter
    refine ⟨List.cons_ne_nil _ _, fun e he => ?_⟩
    rw [List.mem_singleton.1 he]
    refine DocBlock.lightens_retyped hblock htag hline hv htyped
      (DocType.weight_ofMembers_filter hkept ?_)
    obtain ⟨m, hm, hrefused⟩ := hdropped
    exact List.ne_nil_of_mem (List.mem_filter.2 ⟨hm, by rw [hrefused]; rfl⟩)

theorem Rules.ArrayBlankLines.hasNewline_of_mem_blankLines {ts : Tokens} {last closer i : Nat}
    (h : i ∈ blankLines ts last closer) : '\n' ∈ (ts.content i).toList := by
  have hbreak : (ts.get? i).any (fun t => t.kind == .blank && t.hasNewline) = true := by
    unfold blankLines at h
    simp only at h
    split at h
    · exact (List.mem_filter.1 h).2
    · exact (List.mem_filter.1 (List.mem_of_mem_drop h)).2
  obtain ⟨t, ht, hbreak⟩ := (Option.any_eq_true _ _).1 hbreak
  rw [Bool.and_eq_true] at hbreak
  rw [Tokens.content, ht]
  exact List.contains_iff_mem.1 hbreak.2

theorem Rules.ArrayBlankLines.lightens_findings {site : Site} {i : Nat} {f : Finding}
    (hf : f ∈ findings site i) : f.Lightens site.tokens := by
  have hfinding := Option.mem_toList.1 hf
  simp only [finding?, Option.bind_eq_bind, Option.bind_eq_some_iff, Option.guard_eq_some',
    exists_const] at hfinding
  obtain ⟨opener, -, c, -, closer, -, -, last, -, hspare, heq⟩ := hfinding
  cases heq
  intro es hfix
  cases hfix
  refine ⟨fun hnil => ?_, fun e he => ?_⟩
  · simp [List.map_eq_nil_iff.1 hnil] at hspare
  · obtain ⟨j, hj, rfl⟩ := List.mem_map.1 he
    intro s
    exact weight_pos (List.ne_nil_of_mem (hasNewline_of_mem_blankLines hj))

/-! ### Texts -/

namespace Tokens

variable {ts : Tokens} {es : List Edit}

theorem weight_applyAt_lt (hes : ∀ e ∈ es, e.Lightens ts) {i : Nat} (hi : Edit.touches es i = true)
    (s : String) : weight (Edit.applyAt i es s).toList < weight (ts.content i).toList := by
  induction es using List.reverseRecOn with
  | nil => cases hi
  | append_singleton es e ih =>
    have hlast := hes e (List.mem_append_right es List.mem_cons_self)
    rw [Edit.applyAt_append]
    by_cases he : e.index = i
    · subst he
      rw [Edit.applyAt_singleton_self]
      exact hlast _
    · have hnot : ¬ Edit.touches [e] i = true := by simp [Edit.touches, he]
      rw [Edit.applyAt_of_not_touches hnot]
      rw [Edit.touches_append, Bool.or_eq_true] at hi
      exact ih (fun e he => hes e (List.mem_append_left _ he)) (hi.resolve_right hnot)

theorem weight_edited (ts : Tokens) (es : List Edit) : weight (ts.edited es).toList =
    (ts.items.toList.zipIdx.map fun p => weight (Edit.applyAt p.2 es p.1.content).toList).sum := by
  rw [edited, String.toList_join, weight_flatMap, List.map_map]
  rfl

theorem weight_edited_lt (hes : ∀ e ∈ es, e.Lightens ts) (hne : es ≠ []) :
    weight (ts.edited es).toList < weight ts.source.toList := by
  have hcontent : ∀ p ∈ ts.items.toList.zipIdx, ts.content p.2 = p.1.content := by
    intro p hp
    have hget := List.mem_zipIdx_iff_getElem?.1 hp
    rw [Array.getElem?_toList] at hget
    rw [content, get?, hget]
    rfl
  rw [← edited_nil, weight_edited, weight_edited]
  refine List.sum_lt_sum _ _ (fun p hp => ?_) ?_
  · by_cases hp2 : Edit.touches es p.2 = true
    · have hlt := weight_applyAt_lt hes hp2 p.1.content
      rw [hcontent p hp] at hlt
      exact Nat.le_of_lt hlt
    · rw [Edit.applyAt_of_not_touches hp2]
      rfl
  · -- a token that is lightened has a text, so it exists
    obtain ⟨e, he⟩ := List.exists_mem_of_ne_nil es hne
    have htouch : Edit.touches es e.index = true := List.any_eq_true.2 ⟨e, he, beq_self_eq_true _⟩
    obtain ⟨t, ht⟩ : ∃ t, ts.get? e.index = some t := by
      cases hget : ts.get? e.index with
      | some t => exact ⟨t, rfl⟩
      | none =>
        have hlt := hes e he ""
        rw [content, hget] at hlt
        cases hlt
    have hmem : (t, e.index) ∈ ts.items.toList.zipIdx := by
      rw [List.mem_zipIdx_iff_getElem?, Array.getElem?_toList]
      exact ht
    have hlt := weight_applyAt_lt hes htouch t.content
    rw [hcontent _ hmem] at hlt
    exact ⟨_, hmem, hlt⟩

end Tokens

namespace Analyzer

variable {a : Analyzer} (disk : Disk)

/-- All rules are rules for documented types or for blank lines in arrays. -/
def LighteningRules (a : Analyzer) : Prop :=
  ∀ rule ∈ a.rules, ∃ s, rule = Rules.NullableDoc.rule.withSeverity s ∨
    rule = Rules.ParamDoc.rule.withSeverity s ∨ rule = Rules.ArrayBlankLines.rule.withSeverity s

theorem LighteningRules.lightens_committed (hrules : a.LighteningRules) {r : Round} {es : List Edit}
    (h : es ∈ a.committed disk r) : es ≠ [] ∧ ∀ e ∈ es, e.Lightens (Tokens.ofSource r.text) := by
  obtain ⟨rule, hrule, i, hfix⟩ := fix_of_mem_committed h
  rw [← @tokens_siteOf a disk r]
  generalize a.siteOf disk r = site at hfix ⊢
  obtain ⟨s, heq | heq | heq⟩ := hrules rule hrule
  · obtain ⟨f, hf, hes⟩ := hfix _ _ (heq.trans (Rule.withSeverity_ofFindings _ _ s))
    exact Rules.NullableDoc.lightens_findings hf es hes
  · obtain ⟨f, hf, hes⟩ := hfix _ _ (heq.trans (Rule.withSeverity_ofFindings _ _ s))
    exact Rules.ParamDoc.lightens_findings hf es hes
  · obtain ⟨f, hf, hes⟩ := hfix _ _ (heq.trans (Rule.withSeverity_ofFindings _ _ s))
    exact Rules.ArrayBlankLines.lightens_findings hf es hes

/-- A pass that commits something leaves a lighter text. -/
theorem weight_closing_lt (hrules : a.LighteningRules) {r : Round}
    (h : (a.closing disk r).desk.buffer.commits ≠ 0) :
    weight (a.closing disk r).desk.buffer.text.toList < weight r.text.toList := by
  rw [commits_closing] at h
  obtain ⟨c, hc⟩ := List.exists_mem_of_ne_nil _ (List.length_pos_iff.1 (Nat.pos_of_ne_zero h))
  have hlt : weight (a.outcomeOf disk r).toList < weight (Tokens.ofSource r.text).source.toList := by
    refine Tokens.weight_edited_lt (fun e he => ?_) fun hnil => ?_
    · obtain ⟨es, hes, he⟩ := List.mem_flatten.1 he
      exact (hrules.lightens_committed disk hes).2 e he
    · exact (hrules.lightens_committed disk hc).1 (List.flatten_eq_nil_iff.1 hnil c hc)
  rwa [← text_closing, Tokens.source_ofSource] at hlt

theorem settles_fixLoop (hrules : a.LighteningRules) (path : Path) {n : Nat} {s : FixState}
    (h : weight s.text.toList < n) :
    (a.fixLoop disk path n s).converged = true ∧
      ∃ r ∈ a.fixRounds disk path n s, a.committed disk r = [] := by
  refine a.fixLoop_cases disk path (motive := fun n s s' rs => weight s.text.toList < n →
    s'.converged = true ∧ ∃ r ∈ rs, a.committed disk r = []) ?_ ?_ ?_ n s h
  · exact fun s h => absurd h (Nat.not_lt_zero _)
  · intro n s hcommits _
    rw [commits_closing, List.length_eq_zero_iff] at hcommits
    exact ⟨rfl, _, List.mem_singleton_self _, hcommits⟩
  · intro n s s' rs hcommits ih hlt
    have hlighter := weight_closing_lt disk hrules hcommits
    have htext : weight (s.round path true).text.toList < n + 1 := hlt
    generalize a.closing disk (s.round path true) = p at hlighter ih
    obtain ⟨hconverged, r, hr, hnone⟩ := ih (Nat.lt_of_lt_of_le hlighter (Nat.le_of_lt_succ htext))
    exact ⟨hconverged, r, List.mem_cons_of_mem _ hr, hnone⟩

/-- The fixers for documented types and for blank lines do not go on for ever: with enough passes
allowed, fixing comes to a pass that commits nothing. -/
theorem fixing_settles (a : Analyzer)
    (hrules : ∀ rule ∈ a.rules, ∃ s, rule = Rules.NullableDoc.rule.withSeverity s ∨
      rule = Rules.ParamDoc.rule.withSeverity s ∨ rule = Rules.ArrayBlankLines.rule.withSeverity s)
    (disk : Disk) (path : Path) (source : String) (run : RunState) :
    ∃ N, ∀ n ≥ N,
      let a : Analyzer := { a with fixing := true, maxPasses := n }
      (∃ outcome, (a.analyzeText disk path source run).1.files = [outcome] ∧
        outcome.converged = true) ∧
      ∃ r ∈ a.fixRoundsOf disk path source run, a.committed disk r = [] := by
  refine ⟨weight source.toList + 1, fun n hn => ?_⟩
  intro a
  have hsettles := settles_fixLoop (a := a) disk hrules path (s := a.fixStart source run) hn
  have hstate : a.fixedState disk path source run = a.fixLoop disk path n (a.fixStart source run) :=
    a.fixedState_eq disk path source run
  rw [← hstate] at hsettles
  exact ⟨⟨_, rfl, hsettles.1⟩, hsettles.2⟩

/-- Taking out `int` brings a question mark to the front, and spelling that out brings a `null` that
is taken out in turn. -/
theorem rules_in_turn_settle :
    let rules := [Rules.NullableDoc.rule, Rules.ParamDoc.rule, Rules.ArrayBlankLines.rule]
    let source := "<?php\n/** @param int|?T $x */\nfunction f(T $x) \x7b return [1,\n\n]; \x7d"
    (∀ rule ∈ rules, ∃ s, rule = Rules.NullableDoc.rule.withSeverity s ∨
      rule = Rules.ParamDoc.rule.withSeverity s ∨ rule = Rules.ArrayBlankLines.rule.withSeverity s) ∧
    ∃ N, ∀ n ≥ N,
      let a : Analyzer := ⟨⟨"/"⟩, rules, [], {}, true, n⟩
      (∃ outcome, (a.analyzeText {} ⟨"a.php"⟩ source a.start).1.files = [outcome] ∧
        outcome.converged = true) ∧
      ∃ r ∈ a.fixRoundsOf {} ⟨"a.php"⟩ source a.start, a.committed {} r = [] := by
  intro rules source
  have hrules : ∀ rule ∈ rules, ∃ s, rule = Rules.NullableDoc.rule.withSeverity s ∨
      rule = Rules.ParamDoc.rule.withSeverity s ∨ rule = Rules.ArrayBlankLines.rule.withSeverity s :=
    List.forall_mem_cons.2 ⟨⟨none, .inl rfl⟩, List.forall_mem_cons.2 ⟨⟨none, .inr (.inl rfl)⟩,
      List.forall_mem_singleton.2 ⟨none, .inr (.inr rfl)⟩⟩⟩
  exact ⟨hrules, fixing_settles ⟨⟨"/"⟩, rules, [], {}, true, 50⟩ hrules {} ⟨"a.php"⟩ source
    ⟨rules.map fun _ => {}, []⟩⟩

end Analyzer

end PhpStyle
