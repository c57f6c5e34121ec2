import PhpStyle.Proofs.InsertedComments
import PhpStyle.Proofs.TrailingBlankLines
import PhpStyle.Token.Structure

/-!
# The doc comment above a declaration

The search for a doc comment compares the lines of two tokens. A line is one more than the line
feeds before it, and the end of a comment holds none, so the comparison counts the line feeds in
the blanks between the comment and the declaration (`docCommentOf_iff_above`).

The lexer closes comments only where it has opened one, so that each end of a comment is the end of
a span (`exists_span_of_docClose`), and the spans follow each other (`DocSpan.collect_ordered`):
what one of them writes on its ends is not overwritten by another.
-/

namespace PhpStyle

namespace Lexer

theorem PhpCut.kind_ne_docClose {s : Lexer} {cs : List Char} {cut : Cut} (h : PhpCut s cs cut) :
    cut.kind ≠ .docClose := by
  intro hk
  cases h with
  | number c cs h => exact absurd (cutNumber_isPlain (c :: cs)) (by rw [hk]; decide)
  | word c cs => exact absurd (cutWord_isPlain s.last (c :: cs)) (by rw [hk]; decide)
  | operator c cs => exact absurd (cutOperator_isPlain s.last (c :: cs)) (by rw [hk]; decide)
  | openSquare cs =>
    have hk : squareKind s.last = .docClose := hk
    exact absurd (bracketText_squareKind s.last) (by rw [hk]; decide)
  | closeSquare cs =>
    have hk : closeSquareKind s.squares.head? = .docClose := hk
    exact absurd (bracketText_closeSquareKind s.squares.head?) (by rw [hk]; decide)
  | mark c k cs h =>
    have hmarks : ∀ p ∈ marks, p.2 ≠ .docClose := by decide
    exact hmarks _ h hk
  | _ => cases hk

theorem cut_of_docClose (s : Lexer) {cs : List Char} (hne : cs ≠ [])
    (hk : (s.cut cs).kind = .docClose) :
    s.mode.isDoc = true ∧ cs.take (s.cut cs).length = ['*', '/'] := by
  cases hmode : s.mode.isDoc with
  | true =>
    rcases s.cut_of_isDoc hmode hne with ⟨rest, rfl, hcut⟩ | hpiece
    · rw [hcut]
      exact ⟨rfl, rfl⟩
    · exact absurd hk hpiece.not_close
  | false =>
    obtain ⟨c, cs, rfl⟩ := List.exists_cons_of_ne_nil hne
    rw [cut] at hk
    split at hk
    · unfold cutHtml at hk
      split at hk <;> cases hk
    · exact absurd hk (s.cutPhp_form c cs).kind_ne_docClose
    · rename_i hm
      rw [hm] at hmode
      cases hmode

end Lexer

namespace DocSpan

/-- The comment that is open behind a lexeme of kind `k` at index `i`. -/
def openAfter (i : Nat) (current : Option (Nat × List Nat)) : Kind → Option (Nat × List Nat)
  | .docOpen => some (i, [])
  | .docTag => current.map fun (o, tags) => (o, i :: tags)
  | .docClose => none
  | _ => current

theorem mem_collect_cons {i : Nat} {current : Option (Nat × List Nat)} {k : Kind} {ks : List Kind}
    {d : DocSpan} (h : d ∈ collect (i + 1) (openAfter i current k) ks) :
    d ∈ collect i current (k :: ks) := by
  cases k with
  | docClose =>
    cases current with
    | none => exact h
    | some c => exact List.mem_cons_of_mem _ h
  | _ => exact h

theorem isSome_openAfter {current : Option (Nat × List Nat)} (i : Nat)
    (hcurrent : current.isSome = true) {k : Kind} (hk : k ≠ .docClose) :
    (openAfter i current k).isSome = true := by
  cases k with
  | docClose => exact absurd rfl hk
  | docTag => rw [openAfter, Option.isSome_map, hcurrent]
  | docOpen => rfl
  | _ => exact hcurrent

end DocSpan

open DocSpan Lexer in
/-- Where a comment is open whenever the lexer reads one, every end of a comment ends a span. -/
theorem exists_span_of_docClose (s : Lexer) (cs : List Char) (i : Nat)
    (current : Option (Nat × List Nat)) {j : Nat}
    (hcurrent : s.mode.isDoc = true → current.isSome = true)
    (hj : ((s.run cs).map (·.1))[j]? = some .docClose) :
    ∃ d ∈ collect i current ((s.run cs).map (·.1)), d.closer = some (i + j) := by
  fun_induction run s cs generalizing i j current with
  | case1 => simp at hj
  | case2 s cs hne c =>
    rename_i ih
    rw [List.map_cons] at hj ⊢
    cases j with
    | zero =>
      have hk : c.kind = .docClose := by simpa using hj
      obtain ⟨⟨o, tags⟩, rfl⟩ := Option.isSome_iff_exists.1 (hcurrent (s.cut_of_docClose hne hk).1)
      rw [show (c.kind, cs.take c.length).1 = .docClose from hk]
      exact ⟨_, List.mem_cons_self, rfl⟩
    | succ j =>
      have hnext : (s.cut cs).mode.isDoc = true →
          (openAfter i current (s.cut cs).kind).isSome = true := by
        intro hdoc
        cases hmode : s.mode.isDoc with
        | true =>
          rcases s.cut_of_isDoc hmode hne with ⟨rest, -, hcut⟩ | hpiece
          · rw [hcut] at hdoc
            cases hdoc
          · exact isSome_openAfter i (hcurrent hmode) hpiece.not_close
        | false =>
          rcases s.cut_outside hmode hne with houtside | ⟨hcut, -⟩
          · rw [houtside.mode] at hdoc
            cases hdoc
          · rw [hcut]
            rfl
      obtain ⟨d, hd, hcloser⟩ := ih (i + 1) (openAfter i current c.kind) hnext (by simpa using hj)
      refine ⟨d, mem_collect_cons hd, ?_⟩
      rw [hcloser, Nat.add_assoc, Nat.add_comm 1 j]

namespace DocSpan

/-- The span `d` ends before `d'` begins. -/
structure Before (d d' : DocSpan) : Prop where
  opener_lt : d.opener < d'.opener
  closer_lt : ∀ c, d.closer = some c → c < d'.opener

theorem collect_ordered (i : Nat) (current : Option (Nat × List Nat)) (ks : List Kind)
    (hcurrent : ∀ o tags, current = some (o, tags) → o < i) :
    (collect i current ks).Pairwise Before := by
  fun_induction collect i current ks with
  | case1 i o tags => exact List.pairwise_singleton _ _
  | case2 i => exact .nil
  | case3 i current ks ih =>
    refine ih fun o tags h => ?_
    cases h
    exact Nat.lt_succ_self i
  | case4 i current ks ih =>
    refine ih fun o tags h => ?_
    obtain ⟨⟨o, tags⟩, hcur, heq⟩ := Option.map_eq_some_iff.1 h
    cases heq
    exact Nat.lt_succ_of_lt (hcurrent o tags hcur)
  | case5 i ks o tags ih =>
    refine .cons (fun d hd => ?_) (ih (by simp))
    have hle := le_opener (i + 1) none ks (Nat.le_refl _) (by simp) d hd
    have hlt := hcurrent o tags rfl
    refine ⟨by simp only; omega, fun c hc => ?_⟩
    cases hc
    exact hle
  | case6 i ks ih => exact ih (by simp)
  | case7 i current k ks _ _ _ ih =>
    exact ih fun o tags h => Nat.lt_succ_of_lt (hcurrent o tags h)

/-- A span runs from the opener of a comment to its end. -/
structure Spans (ks : List Kind) (d : DocSpan) : Prop where
  opener : ks[d.opener]? = some .docOpen
  lt_closer : ∀ c, d.closer = some c → d.opener < c

theorem collect_spans {all : List Kind} (i : Nat) (current : Option (Nat × List Nat))
    (ks : List Kind) (hks : all.drop i = ks)
    (hcurrent : ∀ o tags, current = some (o, tags) → o < i ∧ all[o]? = some .docOpen) :
    ∀ d ∈ collect i current ks, d.Spans all := by
  fun_induction collect i current ks with
  | case1 i o tags =>
    intro d hd
    obtain rfl := List.mem_singleton.1 hd
    exact ⟨(hcurrent o tags rfl).2, by simp⟩
  | case2 i =>
    intro d hd
    cases hd
  | case3 i current ks ih =>
    obtain ⟨hi, htail⟩ := of_drop_eq_cons hks
    refine ih htail fun o tags h => ?_
    cases h
    exact ⟨Nat.lt_succ_self i, hi⟩
  | case4 i current ks ih =>
    refine ih (of_drop_eq_cons hks).2 fun o tags h => ?_
    obtain ⟨⟨o, tags⟩, hcur, heq⟩ := Option.map_eq_some_iff.1 h
    cases heq
    exact (hcurrent o tags hcur).imp Nat.lt_succ_of_lt id
  | case5 i ks o tags ih =>
    intro d hd
    rcases List.mem_cons.1 hd with rfl | hd
    · refine ⟨(hcurrent o tags rfl).2, fun c hc => ?_⟩
      cases hc
      exact (hcurrent o tags rfl).1
    · exact ih (of_drop_eq_cons hks).2 (by simp) d hd
  | case6 i ks ih => exact ih (of_drop_eq_cons hks).2 (by simp)
  | case7 i current k ks _ _ _ ih =>
    exact ih (of_drop_eq_cons hks).2 fun o tags h => (hcurrent o tags h).imp Nat.lt_succ_of_lt id

theorem eq_of_ordered {ks : List Kind} {ds : List DocSpan} (hds : ds.Pairwise Before)
    (hspans : ∀ d ∈ ds, d.Spans ks) {d d' : DocSpan} (hd : d ∈ ds) (hd' : d' ∈ ds)
    (h : d.opener = d'.opener ∨ ∃ c, d.closer = some c ∧ d'.closer = some c) : d = d' := by
  have hne : ∀ {d d' : DocSpan}, d.Before d' → d'.Spans ks →
      ¬ (d.opener = d'.opener ∨ ∃ c, d.closer = some c ∧ d'.closer = some c) := by
    rintro d d' hbefore hspan (heq | ⟨c, hc, hc'⟩)
    · exact absurd heq hbefore.opener_lt.ne
    · have hlt := hbefore.closer_lt c hc
      have hgt := hspan.lt_closer c hc'
      omega
  obtain ⟨m, hm, rfl⟩ := List.getElem_of_mem hd
  obtain ⟨n, hn, rfl⟩ := List.getElem_of_mem hd'
  have hordered := List.pairwise_iff_getElem.1 hds
  rcases Nat.lt_trichotomy m n with hmn | rfl | hmn
  · exact absurd h (hne (hordered m n hm hn hmn) (hspans _ hd'))
  · rfl
  · refine absurd (h.imp Eq.symm ?_) (hne (hordered n m hn hm hmn) (hspans _ hd))
    rintro ⟨c, hc, hc'⟩
    exact ⟨c, hc', hc⟩

end DocSpan

namespace Tokens

variable {source : String}

/-! ### Links -/

theorem docOpener_linkDoc {ts : Tokens} (d : DocSpan) {j : Nat} (hj : j < ts.size) :
    ((ts.linkDoc d).links j).docOpener =
      (if d.closer = some j then some (some d.opener) else none).getD (ts.links j).docOpener := by
  unfold linkDoc
  cases hc : d.closer with
  | none =>
    rw [if_neg (by simp)]
    exact links_relink_eq Links.docOpener (by intro l; rfl) _ _ _
  | some c =>
    rw [part_relink (v := some d.opener) Links.docOpener (by intro l; rfl) (by rwa [size_relink]),
      links_relink_eq Links.docOpener (by intro l; rfl)]
    simp only [Option.some.injEq, eq_comm (a := c)]
    split <;> rfl

theorem docOpener_linkBracket (ts : Tokens) (p : Nat × Nat) (j : Nat) :
    ((ts.linkBracket p).links j).docOpener = (ts.links j).docOpener := by
  unfold linkBracket
  cases ts.kindIs (· == .closeParen) p.2 <;>
    rw [links_relink_eq Links.docOpener (by intro l; rfl),
      links_relink_eq Links.docOpener (by intro l; rfl)]

theorem docOpener_linkParenOwner (ts : Tokens) (o : Owned) (j : Nat) :
    ((ts.linkParenOwner o).links j).docOpener = (ts.links j).docOpener := by
  unfold linkParenOwner
  rw [links_relink_eq Links.docOpener (by intro l; rfl),
    links_relink_eq Links.docOpener (by intro l; rfl),
    links_relink_eq Links.docOpener (by intro l; rfl)]

theorem docOpener_linkScope (ts : Tokens) (o : Owned) (j : Nat) :
    ((ts.linkScope o).links j).docOpener = (ts.links j).docOpener := by
  unfold linkScope
  rw [links_relink_eq Links.docOpener (by intro l; rfl),
    links_relink_eq Links.docOpener (by intro l; rfl),
    links_relink_eq Links.docOpener (by intro l; rfl)]

theorem docOpener_ofSource (source : String) (j : Nat) :
    ((ofSource source).links j).docOpener = ((lex source).linkDocs.links j).docOpener :=
  (links_foldl_eq Links.docOpener docOpener_linkScope _ _ j).trans
    ((links_foldl_eq Links.docOpener docOpener_linkParenOwner _ _ j).trans
      (links_foldl_eq Links.docOpener docOpener_linkBracket _ _ j))

section Spans

variable {ts : Tokens} {ds : List DocSpan} {d : DocSpan} {c : Nat}

/-- Each span is written on its opener. -/
theorem docLinks_foldl_of_mem (hds : ds.Pairwise DocSpan.Before)
    (hspans : ∀ d ∈ ds, d.Spans ts.kinds) (hd : d ∈ ds) :
    (ds.foldl linkDoc ts).docLinks d.opener = (d.closer, d.tags) := by
  have hlt : d.opener < ts.size := lt_size_of_kinds (hspans d hd).opener
  have hstep : ∀ us b, us.unlinked = ts.unlinked → ((linkDoc us b).links d.opener).docs =
      (if b.opener = d.opener then some (b.closer, b.tags) else none).getD
        (us.links d.opener).docs := by
    intro us b hus
    rw [← size_eq_of_unlinked hus] at hlt
    have hdocs := docLinks_linkDoc us b d.opener
    simp only [hlt, and_true] at hdocs
    refine hdocs.trans ?_
    split <;> rfl
  rcases last_write ts Links.docs _ unlinked_linkDoc hstep ds with
    ⟨hnone, -⟩ | ⟨pre, b, post, rfl, -, hwrite⟩
  · have := hnone d hd
    simp at this
  · have hb : b.opener = d.opener := by
      by_contra hne
      rw [if_neg hne] at hwrite
      cases hwrite
    obtain rfl := DocSpan.eq_of_ordered hds hspans (by simp) hd (.inl hb)
    rw [if_pos rfl] at hwrite
    exact (Option.some.inj hwrite).symm

theorem docOpener_foldl_of_mem (hds : ds.Pairwise DocSpan.Before)
    (hspans : ∀ d ∈ ds, d.Spans ts.kinds) (hd : d ∈ ds) (hc : d.closer = some c)
    (hlt : c < ts.size) : ((ds.foldl linkDoc ts).links c).docOpener = some d.opener := by
  have hstep : ∀ us b, us.unlinked = ts.unlinked → ((linkDoc us b).links c).docOpener =
      (if b.closer = some c then some (some b.opener) else none).getD (us.links c).docOpener := by
    intro us b hus
    exact docOpener_linkDoc b (by rwa [size_eq_of_unlinked hus])
  rcases last_write ts Links.docOpener _ unlinked_linkDoc hstep ds with
    ⟨hnone, -⟩ | ⟨pre, b, post, rfl, -, hwrite⟩
  · have := hnone d hd
    simp [hc] at this
  · have hb : b.closer = some c := by
      by_contra hne
      rw [if_neg hne] at hwrite
      cases hwrite
    obtain rfl := DocSpan.eq_of_ordered hds hspans (by simp) hd (.inr ⟨c, hb, hc⟩)
    rw [if_pos hc] at hwrite
    exact (Option.some.inj hwrite).symm

end Spans

/-- The end of a comment is tied to the opener of that comment, and this one to its end. -/
theorem docOpener_of_docClose {c : Nat} (hc : (ofSource source).kind? c = some .docClose) :
    ∃ o, ((ofSource source).links c).docOpener = some o ∧ o < c ∧
      (ofSource source).kind? o = some .docOpen ∧
        ((ofSource source).links o).docCloser = some c := by
  have hkinds : (lex source).kinds = (({} : Lexer).run source.toList).map (·.1) := by
    rw [← kinds_ofSource, kinds_eq_lexemes]
  rw [← getElem?_kinds, kinds_eq_lexemes] at hc
  obtain ⟨d, hd, hcloser⟩ := exists_span_of_docClose {} source.toList 0 none (by simp [Lexer.Mode.isDoc]) hc
  rw [Nat.zero_add] at hcloser
  rw [← hkinds] at hd hc
  have hordered := DocSpan.collect_ordered 0 none (lex source).kinds (by simp)
  have hspans := DocSpan.collect_spans 0 none (lex source).kinds rfl (by simp)
  have hspan := hspans d hd
  refine ⟨d.opener, ?_, hspan.lt_closer c hcloser, ?_, ?_⟩
  · rw [docOpener_ofSource]
    exact docOpener_foldl_of_mem hordered hspans hd hcloser (lt_size_of_kinds hc)
  · rw [← getElem?_kinds, kinds_ofSource]
    exact hspan.opener
  · have hdocs := docLinks_ofSource source d.opener
    rw [linkDocs, docLinks_foldl_of_mem hordered hspans hd, hcloser] at hdocs
    exact (Prod.mk.inj hdocs).1

variable {c s d : Nat}

/-- The doc comment that ends at `c` stands on the line above token `s`: only blanks with one line
feed lie between. -/
structure Above (ts : Tokens) (c s : Nat) : Prop where
  lt : c < s
  close : ts.kind? c = some .docClose
  blank : ∀ j, c < j → j < s → ts.kind? j = some .blank
  newline : (ts.contentBetween (c + 1) (s - 1)).toList.count '\n' = 1

theorem take_eq_append_cons {ls : List (Kind × List Char)} {l : Kind × List Char}
    (hl : ls[c]? = some l) (hlt : c < s) :
    ls.take s = ls.take c ++ l :: (ls.drop (c + 1)).take (s - 1 + 1 - (c + 1)) := by
  obtain ⟨n, rfl⟩ : ∃ n, s = c + (n + 1) := ⟨s - c - 1, by omega⟩
  rw [List.take_add, Lexer.drop_eq_cons hl, List.take_succ_cons,
    show c + (n + 1) - 1 + 1 - (c + 1) = n by omega]

theorem line_eq_of_docClose {t u : Token} (ht : (ofSource source).get? c = some t)
    (hkind : t.kind = .docClose) (hu : (ofSource source).get? s = some u) (hlt : c < s) :
    u.line = t.line + ((ofSource source).contentBetween (c + 1) (s - 1)).toList.count '\n' := by
  have hlexeme := getElem?_lexemes source c
  rw [ht, Option.map_some, hkind] at hlexeme
  have hclose : t.content.toList = ['*', '/'] :=
    Lexer.forall_mem_run (Q := fun k u => k = .docClose → u = ['*', '/'])
      (fun s cs hne hk => (s.cut_of_docClose hne hk).2) _ _ _ (List.mem_of_getElem? hlexeme) rfl
  rw [line_ofSource hu, line_ofSource ht, toList_contentBetween, take_eq_append_cons hlexeme hlt,
    Lexer.spelled_append, Lexer.spelled_cons, hclose, List.count_append, List.count_append,
    show ['*', '/'].count '\n' = 0 by decide, Nat.zero_add, Nat.add_assoc]

theorem declarationFrom_le (ts : Tokens) (index start : Nat) :
    ts.declarationFrom index start ≤ start := by
  fun_induction declarationFrom ts index start with
  | case1 start s _ hlt ih => exact ih.trans hlt.le
  | case2 => exact Nat.le_refl _
  | case3 => exact Nat.le_refl _

theorem declarationStart_le (ts : Tokens) (index : Nat) : ts.declarationStart index ≤ index :=
  ts.declarationFrom_le index index

theorem docCommentOf_eq_some {ts : Tokens} : ts.docCommentOf d = some c ↔
    0 < ts.declarationStart d ∧
    ts.findPrevious (fun t => t.kind != .blank) (ts.declarationStart d - 1) none = some c ∧
    ∃ t u, ts.get? c = some t ∧ ts.get? (ts.declarationStart d) = some u ∧
      t.kind = .docClose ∧ u.line = t.line + 1 := by
  simp only [docCommentOf, Option.bind_eq_bind, Option.bind_eq_some_iff, Option.guard_eq_some',
    Bool.and_eq_true, decide_eq_true_eq, Option.pure_def, Option.some.injEq]
  constructor
  · rintro ⟨-, hpos, p, hp, t, ht, u, hu, -, ⟨hkind, hline⟩, rfl⟩
    exact ⟨hpos, hp, t, u, ht, hu, hkind, hline⟩
  · rintro ⟨hpos, hp, t, u, ht, hu, hkind, hline⟩
    exact ⟨(), hpos, c, hp, t, ht, u, hu, (), ⟨hkind, hline⟩, rfl⟩

theorem not_any_iff_blank {ts : Tokens} {j : Nat} (hj : j < ts.size) :
    ¬ (ts.get? j).any (fun t => t.kind != .blank) = true ↔ ts.kind? j = some .blank := by
  rw [kind?, get?, Array.getElem?_eq_getElem hj]
  simp

theorem findPrevious_eq_some {ts : Tokens} (hs : 0 < s) (hsize : s < ts.size) :
    ts.findPrevious (fun t => t.kind != .blank) (s - 1) none = some c ↔
      c < s ∧ ts.kind? c ≠ some .blank ∧ ∀ j, c < j → j < s → ts.kind? j = some .blank := by
  rw [findPrevious, Option.getD_none, Nat.min_eq_left (by omega)]
  constructor
  · intro h
    obtain ⟨hle, hc, hblank⟩ := scanDown_eq_some h
    refine ⟨by omega, fun hk => ?_, fun j hcj hjs => ?_⟩
    · exact (not_any_iff_blank (by omega)).2 hk hc
    · exact (not_any_iff_blank (by omega)).1 (hblank j hcj (by omega))
  · rintro ⟨hlt, hk, hblank⟩
    refine scanDown_eq_of (by omega) (by omega) ?_ fun j hcj hjs => ?_
    · by_contra hc
      exact hk ((not_any_iff_blank (by omega)).1 hc)
    · exact (not_any_iff_blank (by omega)).2 (hblank j hcj (by omega))

/-- The lines tell whether a comment stands above a declaration. -/
theorem docCommentOf_iff_above (hd : d < (ofSource source).size) :
    (ofSource source).docCommentOf d = some c ↔
      (ofSource source).Above c ((ofSource source).declarationStart d) := by
  have hle := (ofSource source).declarationStart_le d
  have hsize : (ofSource source).declarationStart d < (ofSource source).size := by omega
  rw [docCommentOf_eq_some]
  generalize (ofSource source).declarationStart d = s at hsize
  constructor
  · rintro ⟨hpos, hprevious, t, u, ht, hu, hkind, hline⟩
    obtain ⟨hlt, -, hblank⟩ := (findPrevious_eq_some hpos hsize).1 hprevious
    have hcount := line_eq_of_docClose ht hkind hu hlt
    exact ⟨hlt, by rw [kind?, ht, Option.map_some, hkind], hblank, by omega⟩
  · rintro ⟨hlt, hclose, hblank, hnewline⟩
    have hpos : 0 < s := by omega
    obtain ⟨t, ht, hkind⟩ := Option.map_eq_some_iff.1 hclose
    obtain ⟨u, hu⟩ : ∃ u, (ofSource source).get? s = some u := ⟨_, Array.getElem?_eq_getElem hsize⟩
    refine ⟨hpos, (findPrevious_eq_some hpos hsize).2 ⟨hlt, ?_, hblank⟩, t, u, ht, hu, hkind, ?_⟩
    · rw [hclose]
      decide
    · rw [line_eq_of_docClose ht hkind hu hlt, hnewline]

/-- The doc comment of a declaration is the one that ends on the line above, and its opener the one
tied to that end. -/
theorem docCommentOf_adjacent (hd : d < (ofSource source).size) :
    (∀ c, (ofSource source).docCommentOf d = some c ↔
      (ofSource source).Above c ((ofSource source).declarationStart d)) ∧
    ∀ c, (ofSource source).docCommentOf d = some c → ∃ o, (ofSource source).docOpenerOf d = some o ∧
      o < c ∧ (ofSource source).kind? o = some .docOpen ∧
        ((ofSource source).links o).docCloser = some c := by
  refine ⟨fun c => docCommentOf_iff_above hd, fun c hc => ?_⟩
  obtain ⟨o, ho, hspan⟩ := docOpener_of_docClose ((docCommentOf_iff_above hd).1 hc).close
  exact ⟨o, by rw [docOpenerOf, hc, Option.bind_some, ho], hspan⟩

/-- The comment above an attribute and a modifier is that of the function behind them. -/
theorem attributed_function_adjacent :
    (ofSource "<?php\n/** x */\n#[B] final function f() {}").Above 6 8 ∧
    ∃ o, (ofSource "<?php\n/** x */\n#[B] final function f() {}").docOpenerOf 14 = some o ∧
      o < 6 := by
  have hd : 14 < (ofSource "<?php\n/** x */\n#[B] final function f() {}").size := by
    decide +kernel
  have hc : (ofSource "<?php\n/** x */\n#[B] final function f() {}").docCommentOf 14 = some 6 := by
    decide +kernel
  have hs : (ofSource "<?php\n/** x */\n#[B] final function f() {}").declarationStart 14 = 8 := by
    decide +kernel
  obtain ⟨hiff, hopener⟩ := docCommentOf_adjacent hd
  obtain ⟨o, ho, hlt, -⟩ := hopener 6 hc
  have habove := (hiff 6).1 hc
  rw [hs] at habove
  exact ⟨habove, o, ho, hlt⟩

end Tokens

end PhpStyle
