import PhpStyle.Proofs.CommittedFixes
import PhpStyle.Proofs.DocFixes
import PhpStyle.Proofs.DocRelexing

/-!
# Reading comments with other texts behind their tags

Edits that give texts behind tags other texts leave the kinds of all tokens, their lines and the
links of comments as they were (`Tokens.respelled_edited`). So a comment is found again with the
same tags, and a tag is read as before unless the text behind it was edited (`Respelled.read_eq`);
then it is read from the new text (`Respelled.read_of_mem`).
-/

namespace PhpStyle

open Text Lexer

/-- Lexemes with the texts that edits give them. -/
def Lexer.reworded (ls : List (Kind × List Char)) (es : List Edit) : List (Kind × List Char) :=
  ls.mapIdx fun i l => (l.1, (Edit.applyAt i es (String.ofList l.2)).toList)

/-- An edit that gives the text behind a tag another one, which stands apart from the tag. -/
inductive Rewording (ls : List (Kind × List Char)) : Edit → Prop
  | intro {v : Nat} {old : List Char} {s : String} (hold : ls[v]? = some (.docText, old))
      (hbehind : BehindTag ls v) (hnew : Rewords old s.toList)
      (hglue : ∀ i name, v = i + 1 → ls[i]? = some (.docTag, name) →
        ∀ c, s.toList.head? = some c → isTagChar c = false) :
      Rewording ls (.replace v s)

section Lexemes

variable {ls : List (Kind × List Char)} {es : List Edit}

theorem getElem?_reworded (i : Nat) : (reworded ls es)[i]? =
    ls[i]?.map fun l => (l.1, (Edit.applyAt i es (String.ofList l.2)).toList) :=
  List.getElem?_mapIdx

theorem getElem?_reworded_of_not_touches {i : Nat} (h : ¬ Edit.touches es i = true) :
    (reworded ls es)[i]? = ls[i]? := by
  rw [getElem?_reworded]
  simp [Edit.applyAt_of_not_touches h]

theorem Rewording.docText {e : Edit} (h : Rewording ls e) :
    ∃ old, ls[e.index]? = some (.docText, old) := by
  obtain ⟨hold, -, -, -⟩ := h
  exact ⟨_, hold⟩

theorem not_touches_of_ne_docText (hes : ∀ e ∈ es, Rewording ls e) {i : Nat} {l : Kind × List Char}
    (hl : ls[i]? = some l) (hkind : l.1 ≠ .docText) : ¬ Edit.touches es i = true := by
  intro h
  obtain ⟨e, he, hi⟩ := List.any_eq_true.1 h
  obtain ⟨old, hold⟩ := (hes e he).docText
  rw [beq_iff_eq.1 hi, hl] at hold
  cases hold
  exact hkind rfl

theorem Lexer.BehindTag.reworded (hes : ∀ e ∈ es, Rewording ls e) {v : Nat} (h : BehindTag ls v) :
    BehindTag (reworded ls es) v := by
  obtain ⟨i, hiv, ⟨name, hi⟩, hgaps⟩ := h
  refine ⟨i, hiv, ⟨name, ?_⟩, fun k hik hkv => ?_⟩
  · rw [getElem?_reworded_of_not_touches (not_touches_of_ne_docText hes hi nofun), hi]
  · obtain ⟨l, hl, hgap⟩ := hgaps k hik hkv
    have hkind : l.1 ≠ .docText := by
      rw [hgap.1]
      nofun
    exact ⟨l, by rw [getElem?_reworded_of_not_touches (not_touches_of_ne_docText hes hl hkind), hl],
      hgap⟩

theorem reworded_concat {v : Nat} {old : List Char} (hold : ls[v]? = some (.docText, old))
    (s : String) : reworded ls (es ++ [.replace v s]) =
      (reworded ls es).set v (.docText, s.toList) := by
  refine List.ext_getElem? fun i => ?_
  rw [getElem?_reworded, List.getElem?_set]
  by_cases hi : v = i
  · subst hi
    have hlt : v < (reworded ls es).length := by
      rw [reworded, List.length_mapIdx]
      exact (List.getElem?_eq_some_iff.1 hold).1
    rw [if_pos rfl, if_pos hlt, hold, Option.map_some, Edit.applyAt_append]
    exact congrArg (fun t : String => some (Kind.docText, t.toList))
      (Edit.applyAt_singleton_self (.replace v s) _)
  · have hnot : ¬ Edit.touches [.replace v s] i = true := by simp [Edit.touches, Edit.index, hi]
    simp only [if_neg hi, getElem?_reworded, Edit.applyAt_append, Edit.applyAt_of_not_touches hnot]

theorem run_reworded {text : List Char} (hls : ({} : Lexer).run text = ls)
    (hes : ∀ e ∈ es, Rewording ls e) (hdistinct : es.Pairwise fun e e' => e.index ≠ e'.index) :
    ({} : Lexer).run (spelled (reworded ls es)) = reworded ls es := by
  induction es using List.reverseRecOn with
  | nil =>
    have hnil : reworded ls [] = ls := by
      refine List.ext_getElem? fun i => ?_
      exact getElem?_reworded_of_not_touches (by simp [Edit.touches])
    rw [hnil, ← hls, spelled_run]
  | append_singleton es e ih =>
    obtain ⟨hpairwise, -, hnew⟩ := List.pairwise_append.1 hdistinct
    have hes' : ∀ e ∈ es, Rewording ls e := fun e he => hes e (List.mem_append_left _ he)
    have hrun := ih hes' hpairwise
    have hlast := hes e (List.mem_append_right _ List.mem_cons_self)
    cases hlast with
    | @intro v old s hold hbehind hwords hglue =>
      have hnot : ¬ Edit.touches es v = true := by
        intro h
        obtain ⟨e', he', hv⟩ := List.any_eq_true.1 h
        exact hnew e' he' _ List.mem_cons_self (beq_iff_eq.1 hv)
      have hset := fun hline => @run_set {} (spelled (reworded ls es)) v hline old s.toList
      rw [hrun] at hset
      rw [reworded_concat hold]
      refine hset (.inr (hbehind.reworded hes')) ?_ hwords fun i name hi hname => ?_
      · rw [getElem?_reworded_of_not_touches hnot, hold]
      · obtain ⟨l, hl, hkind⟩ := Option.map_eq_some_iff.1 ((getElem?_reworded i).symm.trans hname)
        obtain ⟨k, u⟩ := l
        cases hkind
        exact hglue i u hi hl

end Lexemes

theorem Tokens.toList_edited {ts : Tokens} {ls : List (Kind × List Char)}
    (h : ts.items.toList.map (·.content) = ls.map fun l => String.ofList l.2) (es : List Edit) :
    (ts.edited es).toList = spelled (reworded ls es) := by
  rw [edited, String.toList_join, List.flatMap, spelled]
  refine congrArg List.flatten (List.ext_getElem? fun i => ?_)
  have hcontent := congrArg (·[i]?) h
  simp only [List.getElem?_map] at hcontent
  simp only [List.getElem?_map, List.getElem?_zipIdx, getElem?_reworded, Option.map_map]
  cases hi : ts.items.toList[i]? with
  | none =>
    rw [hi] at hcontent
    rw [Option.map_eq_none_iff.1 hcontent.symm]
    rfl
  | some t =>
    rw [hi] at hcontent
    obtain ⟨l, hl, ht⟩ := Option.map_eq_some_iff.1 hcontent.symm
    rw [hl]
    simp [ht]

theorem Edit.applyAt_of_mem {es : List Edit} (hdistinct : es.Pairwise fun e e' => e.index ≠ e'.index)
    {v : Nat} {s : String} (h : .replace v s ∈ es) (t : String) : applyAt v es t = s := by
  induction es generalizing t with
  | nil => cases h
  | cons e es ih =>
    obtain ⟨hne, hdistinct⟩ := List.pairwise_cons.1 hdistinct
    rw [← List.singleton_append, applyAt_append]
    rcases List.mem_cons.1 h with rfl | h
    · have hnot : ¬ touches es v = true := by
        intro htouch
        obtain ⟨e, he, hv⟩ := List.any_eq_true.1 htouch
        exact hne e he (beq_iff_eq.1 hv).symm
      rw [applyAt_of_not_touches hnot]
      exact applyAt_singleton_self (.replace v s) t
    · exact ih hdistinct h _

/-- What the opener of a comment says about it. -/
def Links.docs (l : Links) : Option Nat × List Nat :=
  (l.docCloser, l.docTags)

namespace Tokens

variable {ts ts' : Tokens}

def docLinks (ts : Tokens) (j : Nat) : Option Nat × List Nat :=
  (ts.links j).docs

theorem docLinks_relink {f : Links → Links} (hf : ∀ l, (f l).docs = l.docs) {i j : Nat} :
    (ts.relink i f).docLinks j = ts.docLinks j :=
  links_relink_eq Links.docs hf ts i j

theorem docLinks_linkDoc (ts : Tokens) (d : DocSpan) (j : Nat) : (ts.linkDoc d).docLinks j =
    if d.opener = j ∧ j < ts.size then (d.closer, d.tags) else ts.docLinks j := by
  have hopened : (ts.relink d.opener fun l =>
      { l with docCloser := d.closer, docTags := d.tags }).docLinks j =
        if d.opener = j ∧ j < ts.size then (d.closer, d.tags) else ts.docLinks j := by
    by_cases hj : d.opener = j
    · subst hj
      by_cases hlt : d.opener < ts.size
      · rw [if_pos ⟨rfl, hlt⟩, docLinks, links_relink_self ts _ hlt]
        rfl
      · rw [if_neg fun h => hlt h.2, docLinks, docLinks, links_of_size_le, links_of_size_le]
        · exact Nat.not_lt.1 hlt
        · rw [size_relink]
          exact Nat.not_lt.1 hlt
    · rw [if_neg fun h => hj h.1, docLinks, links_relink_of_ne ts _ hj, docLinks]
  unfold linkDoc
  simp only
  split
  · rw [docLinks_relink (by intro l; rfl), hopened]
  · exact hopened

theorem size_linkDoc (ts : Tokens) (d : DocSpan) : (ts.linkDoc d).size = ts.size := by
  rw [← size_unlinked, unlinked_linkDoc, size_unlinked]

theorem docLinks_foldl_congr (hsize : ts'.size = ts.size) (h : ∀ j, ts'.docLinks j = ts.docLinks j)
    (ds : List DocSpan) (j : Nat) :
    (ds.foldl linkDoc ts').docLinks j = (ds.foldl linkDoc ts).docLinks j := by
  induction ds generalizing ts ts' with
  | nil => exact h j
  | cons d ds ih =>
    refine ih ?_ fun j => ?_
    · rw [size_linkDoc, size_linkDoc, hsize]
    · rw [docLinks_linkDoc, docLinks_linkDoc, hsize, h]

theorem docLinks_linkBracket (ts : Tokens) (p : Nat × Nat) (j : Nat) :
    (ts.linkBracket p).docLinks j = ts.docLinks j := by
  unfold linkBracket
  cases ts.kindIs (· == .closeParen) p.2
  · rw [docLinks_relink (by intro l; rfl), docLinks_relink (by intro l; rfl)]
  · rw [docLinks_relink (by intro l; rfl), docLinks_relink (by intro l; rfl)]

theorem docLinks_linkParenOwner (ts : Tokens) (o : Owned) (j : Nat) :
    (ts.linkParenOwner o).docLinks j = ts.docLinks j := by
  unfold linkParenOwner
  rw [docLinks_relink (by intro l; rfl), docLinks_relink (by intro l; rfl),
    docLinks_relink (by intro l; rfl)]

theorem docLinks_linkScope (ts : Tokens) (o : Owned) (j : Nat) :
    (ts.linkScope o).docLinks j = ts.docLinks j := by
  unfold linkScope
  rw [docLinks_relink (by intro l; rfl), docLinks_relink (by intro l; rfl),
    docLinks_relink (by intro l; rfl)]

theorem docLinks_ofSource (source : String) (j : Nat) :
    (ofSource source).docLinks j = (lex source).linkDocs.docLinks j :=
  (links_foldl_eq Links.docs docLinks_linkScope _ _ j).trans
    ((links_foldl_eq Links.docs docLinks_linkParenOwner _ _ j).trans
      (links_foldl_eq Links.docs docLinks_linkBracket _ _ j))

theorem docLinks_lex (source : String) (j : Nat) : (lex source).docLinks j = (none, []) := by
  rw [docLinks, links_lex]
  rfl

theorem docLinks_congr {source source' : String}
    (h : (ofSource source').kinds = (ofSource source).kinds) (j : Nat) :
    (ofSource source').docLinks j = (ofSource source).docLinks j := by
  rw [kinds_ofSource, kinds_ofSource] at h
  have hsize : (lex source').size = (lex source).size := by
    have hlength := congrArg List.length h
    simpa [kinds, size] using hlength
  rw [docLinks_ofSource, docLinks_ofSource, linkDocs, linkDocs, h]
  exact docLinks_foldl_congr hsize (fun j => by rw [docLinks_lex, docLinks_lex]) _ j

/-! ### Tokens with other texts -/

/-- The tokens `ts'` are like `ts`, but for the texts of those that `es` are on. -/
structure Respelled (ts ts' : Tokens) (es : List Edit) : Prop where
  kinds : ts'.kinds = ts.kinds
  content : ∀ i, ts'.content i = Edit.applyAt i es (ts.content i)
  line : ∀ i : Nat, (ts'.get? i).map (·.line) = (ts.get? i).map (·.line)
  docs : ∀ i, ts'.docLinks i = ts.docLinks i

theorem getElem?_lexemes (source : String) (i : Nat) :
    (({} : Lexer).run source.toList)[i]? =
      ((ofSource source).get? i).map fun t => (t.kind, t.content.toList) := by
  have hkinds := congrArg (·[i]?) (kinds_ofSource source)
  have hcontents := congrArg (·[i]?) (contents_ofSource source)
  have hlex : (lex source).kinds = (({} : Lexer).run source.toList).map (·.1) :=
    Token.kind_place {} _
  rw [hlex] at hkinds
  simp only [Tokens.kinds, List.getElem?_map, Array.getElem?_toList] at hkinds hcontents
  rw [get?]
  cases hl : (({} : Lexer).run source.toList)[i]? with
  | none =>
    rw [hl] at hkinds
    rw [Option.map_eq_none_iff.1 hkinds]
    rfl
  | some l =>
    rw [hl] at hkinds hcontents
    obtain ⟨t, ht, hkind⟩ := Option.map_eq_some_iff.1 hkinds
    rw [ht] at hcontents ⊢
    have hcontent : t.content = String.ofList l.2 := Option.some.inj hcontents
    rw [Option.map_some, hcontent, String.toList_ofList, hkind]

theorem line_ofSource {source : String} {i : Nat} {t : Token} (h : (ofSource source).get? i = some t) :
    t.line = 1 + (spelled ((({} : Lexer).run source.toList).take i)).count '\n' := by
  rw [(ofSource_partitions source).2.line_eq i t h, ← textBefore_unlinked, ofSource_unlinked,
    textBefore_lex, spelled]

theorem kinds_eq_lexemes (source : String) :
    (ofSource source).kinds = (({} : Lexer).run source.toList).map (·.1) := by
  rw [kinds_ofSource]
  exact Token.kind_place {} _

theorem get?_of_lexeme {source : String} {i : Nat} {l : Kind × List Char}
    (h : (({} : Lexer).run source.toList)[i]? = some l) :
    ∃ t, (ofSource source).get? i = some t ∧ t.kind = l.1 ∧ t.content.toList = l.2 := by
  rw [getElem?_lexemes] at h
  obtain ⟨t, ht, rfl⟩ := Option.map_eq_some_iff.1 h
  exact ⟨t, ht, rfl, rfl⟩

theorem get?_of_run {source : String} {pre post : List (Kind × List Char)} {l : Kind × List Char}
    (h : ({} : Lexer).run source.toList = pre ++ l :: post) :
    ∃ t, (ofSource source).get? pre.length = some t ∧ t.kind = l.1 ∧ t.content.toList = l.2 ∧
      t.line = 1 + (spelled pre).count '\n' := by
  have hlexeme : (({} : Lexer).run source.toList)[pre.length]? = some l := by
    rw [h, List.getElem?_append_right (Nat.le_refl _), Nat.sub_self, List.getElem?_cons_zero]
  obtain ⟨t, ht, hkind, hcontent⟩ := get?_of_lexeme hlexeme
  refine ⟨t, ht, hkind, hcontent, ?_⟩
  rw [line_ofSource ht, h, List.take_left]

theorem content_eq_lexeme (source : String) (i : Nat) : (ofSource source).content i =
    ((({} : Lexer).run source.toList)[i]?.map fun l => String.ofList l.2).getD "" := by
  rw [getElem?_lexemes, content]
  cases (ofSource source).get? i with
  | none => rfl
  | some t => simp

theorem lexeme_of_kind {source : String} {i : Nat} {kind : Kind}
    (h : (ofSource source).kinds[i]? = some kind) :
    (({} : Lexer).run source.toList)[i]? = some (kind, ((ofSource source).content i).toList) := by
  rw [kinds_eq_lexemes, List.getElem?_map] at h
  obtain ⟨l, hl, rfl⟩ := Option.map_eq_some_iff.1 h
  rw [hl, content_ofSource hl]

/-- Of two places in a text on one line, nothing between has a line feed. -/
theorem newline_not_mem_of_count {ls : List (Kind × List Char)} {i k v : Nat} {l : Kind × List Char}
    (h : (spelled (ls.take v)).count '\n' = (spelled (ls.take i)).count '\n') (hik : i ≤ k)
    (hkv : k < v) (hl : ls[k]? = some l) : '\n' ∉ l.2 := by
  have hmono : ∀ {m n : Nat}, m ≤ n →
      (spelled (ls.take m)).count '\n' ≤ (spelled (ls.take n)).count '\n' := by
    intro m n hmn
    have hsplit := List.take_append_drop m (ls.take n)
    rw [List.take_take, Nat.min_eq_left hmn] at hsplit
    rw [← hsplit, spelled_append, List.count_append]
    exact Nat.le_add_right _ _
  have hnext : (spelled (ls.take (k + 1))).count '\n' =
      (spelled (ls.take k)).count '\n' + l.2.count '\n' := by
    rw [List.take_add_one, hl, spelled_append, List.count_append]
    simp [spelled]
  have hbefore := hmono hik
  have hafter := hmono (show k + 1 ≤ v from hkv)
  rw [← List.count_eq_zero]
  omega

section Edited

variable {ls : List (Kind × List Char)} {es : List Edit}

theorem map_fst_reworded : (reworded ls es).map (·.1) = ls.map (·.1) := by
  refine List.ext_getElem? fun i => ?_
  rw [List.getElem?_map, List.getElem?_map, getElem?_reworded, Option.map_map]
  rfl

theorem count_newline_reworded {text : List Char} (hls : ({} : Lexer).run text = ls)
    (hes : ∀ e ∈ es, Rewording ls e) (hdistinct : es.Pairwise fun e e' => e.index ≠ e'.index) (n : Nat) :
    (spelled ((reworded ls es).take n)).count '\n' = (spelled (ls.take n)).count '\n' := by
  have hmap : (reworded ls es).map (fun l => l.2.count '\n') = ls.map fun l => l.2.count '\n' := by
    refine List.ext_getElem? fun k => ?_
    rw [List.getElem?_map, List.getElem?_map]
    by_cases htouch : Edit.touches es k = true
    · obtain ⟨e, he, hk⟩ := List.any_eq_true.1 htouch
      cases hes e he with
      | @intro v old s hold hbehind hwords hglue =>
        obtain rfl : v = k := beq_iff_eq.1 hk
        have hline : '\n' ∉ old := by
          rw [← hls] at hold hbehind
          obtain ⟨t, htext⟩ := textCut_of_behindTag (.inr hbehind) hold hwords.head
          exact htext.line
        rw [getElem?_reworded, hold, Option.map_some, Option.map_some, Option.map_some,
          Edit.applyAt_of_mem hdistinct he, List.count_eq_zero.2 hwords.line,
          List.count_eq_zero.2 hline]
    · rw [getElem?_reworded_of_not_touches htouch]
  have hcount : ∀ ls : List (Kind × List Char),
      (spelled ls).count '\n' = (ls.map fun l => l.2.count '\n').sum := by
    intro ls
    rw [spelled, List.count_flatten, List.map_map]
    rfl
  rw [hcount, hcount, List.map_take, List.map_take, hmap]

/-- Edits behind tags leave kinds, lines and comments as they were. -/
theorem respelled_edited {source : String}
    (hes : ∀ e ∈ es, Rewording (({} : Lexer).run source.toList) e)
    (hdistinct : es.Pairwise fun e e' => e.index ≠ e'.index) :
    Respelled (ofSource source) (ofSource ((ofSource source).edited es)) es := by
  have hrun : ({} : Lexer).run ((ofSource source).edited es).toList =
      reworded (({} : Lexer).run source.toList) es := by
    rw [toList_edited (contents_ofSource source), run_reworded rfl hes hdistinct]
  have hkinds : (ofSource ((ofSource source).edited es)).kinds = (ofSource source).kinds := by
    rw [kinds_eq_lexemes, kinds_eq_lexemes, hrun, map_fst_reworded]
  have hget := getElem?_lexemes ((ofSource source).edited es)
  have hline := @line_ofSource ((ofSource source).edited es)
  have hcontent := content_eq_lexeme ((ofSource source).edited es)
  rw [hrun] at hget hline hcontent
  refine ⟨hkinds, fun i => ?_, fun i => ?_, docLinks_congr hkinds⟩
  · rw [hcontent, getElem?_reworded, content_eq_lexeme]
    cases hl : (({} : Lexer).run source.toList)[i]? with
    | none =>
      have hnot : ¬ Edit.touches es i = true := by
        intro htouch
        obtain ⟨e, he, hi⟩ := List.any_eq_true.1 htouch
        obtain ⟨old, hold⟩ := (hes e he).docText
        rw [beq_iff_eq.1 hi, hl] at hold
        cases hold
      rw [Edit.applyAt_of_not_touches hnot]
      rfl
    | some l => simp
  · cases ht : (ofSource ((ofSource source).edited es)).get? i with
    | none =>
      have hnone := hget i
      rw [ht, getElem?_reworded, getElem?_lexemes] at hnone
      rw [Option.map_eq_none_iff.1 (Option.map_eq_none_iff.1 hnone)]
    | some t' =>
      have hsome := hget i
      rw [ht, getElem?_reworded, getElem?_lexemes] at hsome
      obtain ⟨l, hl, -⟩ := Option.map_eq_some_iff.1 hsome
      obtain ⟨t, ht0, -⟩ := Option.map_eq_some_iff.1 hl
      rw [ht0, Option.map_some, Option.map_some, hline ht, line_ofSource ht0,
        count_newline_reworded rfl hes hdistinct]

end Edited

end Tokens

/-- The token at `v` is the first behind the tag at `i`, apart from blanks. -/
structure FirstBehind (ks : List Kind) (i v : Nat) : Prop where
  lt : i < v
  tag : ks[i]? = some .docTag
  blank : ∀ k, i < k → k < v → ks[k]? = some .docBlank

theorem FirstBehind.eq_of_no_tag {ks : List Kind} {i j v : Nat} (h : FirstBehind ks j v)
    (hi : ks[i]? = some .docTag) (hiv : i < v)
    (hno : ∀ k, i < k → k < v → ks[k]? ≠ some .docTag) : j = i := by
  rcases Nat.lt_trichotomy j i with hlt | heq | hgt
  · have hblank := h.blank i hlt hiv
    rw [hi] at hblank
    cases hblank
  · exact heq
  · exact absurd h.tag (hno j hgt h.lt)

namespace Tokens.Respelled

variable {ts ts' : Tokens} {es : List Edit}

theorem size_eq (h : Respelled ts ts' es) : ts'.size = ts.size := by
  have hlength := congrArg List.length h.kinds
  simpa [Tokens.kinds, size] using hlength

theorem get?_eq_some (h : Respelled ts ts' es) {i : Nat} {t : Token} (ht : ts.get? i = some t) :
    ∃ t', ts'.get? i = some t' ∧ t'.kind = t.kind ∧ t'.line = t.line ∧
      t'.content = Edit.applyAt i es t.content := by
  have hline := h.line i
  have hkind := congrArg (·[i]?) h.kinds
  have hcontent := h.content i
  simp only [getElem?_kinds, kind?, ht] at hkind
  rw [ht] at hline
  obtain ⟨t', ht', hk⟩ := Option.map_eq_some_iff.1 hkind
  rw [ht'] at hline
  rw [Tokens.content, Tokens.content, ht, ht'] at hcontent
  exact ⟨t', ht', hk, Option.some.inj hline, hcontent⟩

theorem get?_eq_none (h : Respelled ts ts' es) {i : Nat} (ht : ts.get? i = none) :
    ts'.get? i = none := by
  have hline := h.line i
  rw [ht] at hline
  exact Option.map_eq_none_iff.1 hline

theorem any_kind (h : Respelled ts ts' es) (p : Kind → Bool) (i : Nat) :
    (ts'.get? i).any (fun t => p t.kind) = (ts.get? i).any fun t => p t.kind := by
  cases ht : ts.get? i with
  | none => rw [h.get?_eq_none ht]
  | some t =>
    obtain ⟨t', ht', hkind, -⟩ := h.get?_eq_some ht
    rw [ht', Option.any_some, Option.any_some, hkind]

theorem scanUp_eq (h : Respelled ts ts' es) (p : Kind → Bool) (i n : Nat) :
    ts'.scanUp (fun t => p t.kind) i n = ts.scanUp (fun t => p t.kind) i n := by
  induction n generalizing i with
  | zero => rfl
  | succ n ih => rw [scanUp, scanUp, h.any_kind, ih]

theorem scanDown_eq (h : Respelled ts ts' es) (p : Kind → Bool) (i n : Nat) :
    ts'.scanDown (fun t => p t.kind) i n = ts.scanDown (fun t => p t.kind) i n := by
  induction n generalizing i with
  | zero => rfl
  | succ n ih => rw [scanDown, scanDown, h.any_kind, ih]

theorem valueIndexAt_eq (h : Respelled ts ts' es) (i closer : Nat) :
    DocTag.valueIndexAt ts' i closer = DocTag.valueIndexAt ts i closer := by
  have hfind : ts'.findNext (fun t => t.kind != .docBlank) (i + 1) (some closer) =
      ts.findNext (fun t => t.kind != .docBlank) (i + 1) (some closer) := by
    rw [findNext, findNext, h.size_eq]
    exact h.scanUp_eq (· != .docBlank) _ _
  unfold DocTag.valueIndexAt
  rw [hfind]
  cases hi : ts.get? i with
  | none =>
    rw [h.get?_eq_none hi]
    rfl
  | some tag =>
    obtain ⟨tag', hi', -, hline, -⟩ := h.get?_eq_some hi
    rw [hi']
    cases ts.findNext (fun t => t.kind != .docBlank) (i + 1) (some closer) with
    | none => rfl
    | some v =>
      simp only [Option.bind_eq_bind, Option.bind_some]
      cases hv : ts.get? v with
      | none =>
        rw [h.get?_eq_none hv]
        rfl
      | some t =>
        obtain ⟨t', hv', hkind, hline', -⟩ := h.get?_eq_some hv
        simp only [hv', Option.bind_some, hkind, hline, hline']

/-- Pieces of a comment up to its next tag, with the same texts. -/
theorem pieces_eq {us us' : List Token} (hlength : us'.length = us.length)
    (hsame : ∀ (k : Nat) (t : Token), us[k]? = some t → ∃ t' : Token, us'[k]? = some t' ∧
      t'.kind = t.kind ∧ (t.kind = .docText →
        (∀ (m : Nat) (u : Token), m ≤ k → us[m]? = some u → u.kind ≠ .docTag) →
          t'.content = t.content)) :
    (((us'.takeWhile fun t => t.kind != .docTag).filter fun t => t.kind == .docText).map
        fun t => trim t.content.toList) =
      ((us.takeWhile fun t => t.kind != .docTag).filter fun t => t.kind == .docText).map
        fun t => trim t.content.toList := by
  induction us generalizing us' with
  | nil =>
    rw [List.eq_nil_of_length_eq_zero hlength]
  | cons t us ih =>
    obtain ⟨t', us', rfl⟩ := List.exists_cons_of_length_eq_add_one hlength
    obtain ⟨t'', ht'', hkind, hcontent⟩ := hsame 0 t rfl
    obtain rfl : t' = t'' := Option.some.inj ht''
    by_cases htag : t.kind = .docTag
    · rw [List.takeWhile_cons_of_neg (by simp [hkind, htag]),
        List.takeWhile_cons_of_neg (by simp [htag])]
    · have hrest := ih (Nat.succ.inj hlength) fun k u hu => by
        obtain ⟨u', hu', hk, hc⟩ := hsame (k + 1) u hu
        refine ⟨u', hu', hk, fun htext hno => hc htext fun m w hm hw => ?_⟩
        cases m with
        | zero =>
          cases hw
          exact htag
        | succ m => exact hno m w (Nat.le_of_succ_le_succ hm) hw
      rw [List.takeWhile_cons_of_pos (by simp [hkind, htag]),
        List.takeWhile_cons_of_pos (by simp [htag])]
      by_cases htext : t.kind = .docText
      · rw [List.filter_cons_of_pos (by simp [hkind, htext]),
          List.filter_cons_of_pos (by simp [htext]), List.map_cons, List.map_cons, hrest, hcontent htext]
        intro m u hm hu
        obtain rfl := Nat.le_zero.1 hm
        cases hu
        exact htag
      · rw [List.filter_cons_of_neg (by simp [hkind, htext]),
          List.filter_cons_of_neg (by simp [htext]), hrest]

theorem getElem?_body (ts : Tokens) (i n k : Nat) : ((ts.items.toList.drop (i + 1)).take n)[k]? =
    if k < n then ts.get? (i + 1 + k) else none := by
  rw [List.getElem?_take, List.getElem?_drop, Array.getElem?_toList, get?]

/-- The text of a tag over several lines, if no edit is on what stands right behind the tag. -/
theorem tagText?_eq (h : Respelled ts ts' es) (hes : ∀ e ∈ es, ∃ j, FirstBehind ts.kinds j e.index)
    {i : Nat} (hi : ts.kinds[i]? = some .docTag)
    (hno : ∀ e ∈ es, ¬ FirstBehind ts.kinds i e.index) : ts'.tagText? i = ts.tagText? i := by
  have hfind : ts'.findPrevious (fun t => t.kind == .docOpen) i none =
      ts.findPrevious (fun t => t.kind == .docOpen) i none := by
    rw [findPrevious, findPrevious, h.size_eq]
    exact h.scanDown_eq (· == .docOpen) _ _
  have hkind : ts'.kindIs (· == .docTag) i = ts.kindIs (· == .docTag) i := by
    rw [kindIs, kindIs, ← getElem?_kinds, ← getElem?_kinds, h.kinds]
  have hcloser : ∀ j, (ts'.links j).docCloser = (ts.links j).docCloser := fun j =>
    congrArg Prod.fst (h.docs j)
  unfold tagText?
  simp only [hkind, hfind, hcloser]
  refine congrArg (Option.bind _) (funext fun _ => congrArg (Option.bind _) (funext fun opener =>
    congrArg (Option.bind _) (funext fun closer => ?_)))
  have hpieces := @pieces_eq ((ts.items.toList.drop (i + 1)).take (closer - (i + 1)))
    ((ts'.items.toList.drop (i + 1)).take (closer - (i + 1))) ?_ ?_
  · rw [hpieces]
  · have hsize := h.size_eq
    simp only [size] at hsize
    simp [hsize]
  · intro k t hk
    rw [getElem?_body] at hk ⊢
    by_cases hkn : k < closer - (i + 1)
    · rw [if_pos hkn] at hk ⊢
      obtain ⟨t', ht', hk', -, hcontent⟩ := h.get?_eq_some hk
      refine ⟨t', ht', hk', fun _ hnotag => ?_⟩
      -- an edit here would be on what stands right behind the tag
      have hnot : ¬ Edit.touches es (i + 1 + k) = true := by
        intro htouch
        obtain ⟨e, he, hv⟩ := List.any_eq_true.1 htouch
        obtain ⟨j, hj⟩ := hes e he
        rw [beq_iff_eq.1 hv] at hj
        have hji := hj.eq_of_no_tag hi (by omega) fun m him hmv hm => ?_
        · rw [hji, ← beq_iff_eq.1 hv] at hj
          exact hno e he hj
        · obtain ⟨d, rfl⟩ : ∃ d, m = i + 1 + d := ⟨m - (i + 1), by omega⟩
          rw [getElem?_kinds, kind?] at hm
          obtain ⟨u, hu, hkind⟩ := Option.map_eq_some_iff.1 hm
          refine hnotag d u (by omega) ?_ hkind
          rw [getElem?_body, if_pos (by omega), hu]
      rw [hcontent, Edit.applyAt_of_not_touches hnot]
    · rw [if_neg hkn] at hk
      cases hk

theorem content_of_docTag (h : Respelled ts ts' es)
    (htext : ∀ e ∈ es, ts.kinds[e.index]? = some .docText) {i : Nat}
    (hi : ts.kinds[i]? = some .docTag) : ts'.content i = ts.content i := by
  refine (h.content i).trans (Edit.applyAt_of_not_touches (fun htouch => ?_) _)
  obtain ⟨e, he, hv⟩ := List.any_eq_true.1 htouch
  have hkind := htext e he
  rw [beq_iff_eq.1 hv, hi] at hkind
  cases hkind

/-- A tag is read as before, if no edit is on what stands right behind it. -/
theorem read_eq (h : Respelled ts ts' es) (hes : ∀ e ∈ es, ∃ j, FirstBehind ts.kinds j e.index)
    (htext : ∀ e ∈ es, ts.kinds[e.index]? = some .docText) {i : Nat}
    (hi : ts.kinds[i]? = some .docTag) (hno : ∀ e ∈ es, ¬ FirstBehind ts.kinds i e.index)
    (closer : Nat) : DocTag.read ts' closer i = DocTag.read ts closer i := by
  have hname := h.content_of_docTag htext hi
  have hvalue : (DocTag.valueIndexAt ts i closer).map ts'.content =
      (DocTag.valueIndexAt ts i closer).map ts.content := by
    cases hv : DocTag.valueIndexAt ts i closer with
    | none => rfl
    | some v =>
      obtain ⟨hlt, -, -, hblank⟩ := DocTag.valueIndexAt_spec hv
      refine congrArg some ((h.content v).trans (Edit.applyAt_of_not_touches (fun htouch => ?_) _))
      obtain ⟨e, he, hev⟩ := List.any_eq_true.1 htouch
      refine hno e he ?_
      rw [beq_iff_eq.1 hev]
      exact ⟨hlt, hi, hblank⟩
  unfold DocTag.read
  simp only [hname, h.valueIndexAt_eq, hvalue, h.tagText?_eq hes hi hno]

/-- A tag whose text was edited is read from the new text, if that is complete. -/
theorem read_of_mem (h : Respelled ts ts' es) (htext : ∀ e ∈ es, ts.kinds[e.index]? = some .docText)
    (hdistinct : es.Pairwise fun e e' => e.index ≠ e'.index) {i closer v : Nat}
    (hi : ts.kinds[i]? = some .docTag) (hv : DocTag.valueIndexAt ts i closer = some v) {s : String}
    (hs : .replace v s ∈ es) (hvalid : (TagValue.parse (ts.content i) s).isInvalid = false) :
    DocTag.read ts' closer i =
      ⟨i, ts.content i, some v, TagValue.parse (ts.content i) s, false⟩ := by
  have hname := h.content_of_docTag htext hi
  have hcontent : ts'.content v = s := (h.content v).trans (Edit.applyAt_of_mem hdistinct hs _)
  unfold DocTag.read
  simp only [hname, h.valueIndexAt_eq, hv, Option.map_some, hcontent, Option.getD_some]
  split
  · rename_i body _ hparse _
    rw [hparse] at hvalid
    cases hvalid
  · rfl

end Tokens.Respelled

end PhpStyle
