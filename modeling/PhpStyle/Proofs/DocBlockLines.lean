import Mathlib.Data.List.Forall2
import PhpStyle.Proofs.AdjacentDocs
import PhpStyle.Proofs.DocComments
import PhpStyle.Proofs.DocLines

/-!
# Doc comments read by lines

A doc comment that is closed is cut into its opener, the pieces of its body and its end, wherever it
stands (`Lexer.exists_pieces`), and is linked with its end and with all of its tags
(`Tokens.docLinks_of_pieces`). With what is known of the pieces, the tags that are read are those of the
lines of the body, each with the text of its line (`DocBlock.read?_by_lines`).
-/

namespace PhpStyle

open Text Lexer DocLine

namespace Lexer

theorem PhpCut.eq_of_docOpen {s : Lexer} {cs : List Char} {cut : Cut} (h : PhpCut s cs cut)
    (hk : cut.kind = .docOpen) : cut = ⟨.docOpen, 3, .doc false false⟩ := by
  cases h with
  | docOpen => rfl
  | number c cs h => exact absurd (cutNumber_isPlain (c :: cs)) (by rw [hk]; decide)
  | word c cs => exact absurd (cutWord_isPlain s.last (c :: cs)) (by rw [hk]; decide)
  | operator c cs => exact absurd (cutOperator_isPlain s.last (c :: cs)) (by rw [hk]; decide)
  | openSquare cs =>
    have hk : squareKind s.last = .docOpen := hk
    exact absurd (bracketText_squareKind s.last) (by rw [hk]; decide)
  | closeSquare cs =>
    have hk : closeSquareKind s.squares.head? = .docOpen := hk
    exact absurd (bracketText_closeSquareKind s.squares.head?) (by rw [hk]; decide)
  | mark c k cs h =>
    have hmarks : ∀ p ∈ marks, p.2 ≠ .docOpen := by decide
    exact absurd hk (hmarks _ h)
  | _ => cases hk

theorem cut_eq_of_docOpen (s : Lexer) {cs : List Char} (hne : cs ≠ [])
    (hk : (s.cut cs).kind = .docOpen) : s.cut cs = ⟨.docOpen, 3, .doc false false⟩ := by
  obtain ⟨c, cs, rfl⟩ := List.exists_cons_of_ne_nil hne
  unfold cut at hk ⊢
  split at hk
  · unfold cutHtml at hk
    split at hk <;> cases hk
  · exact (s.cutPhp_form c cs).eq_of_docOpen hk
  · have hpiece := isDocPiece_of_cutDoc _ _ (by rw [hk]; decide)
    rw [hk] at hpiece
    cases hpiece

/-- A doc comment that is closed is read as its opener, pieces and its end. -/
theorem exists_pieces {text body after : List Char} {o : Nat}
    (hopen : ((({} : Lexer).run text).map (·.1))[o]? = some .docOpen)
    (htext : text = spelled ((({} : Lexer).run text).take o) ++
      '/' :: '*' :: '*' :: (body ++ '*' :: '/' :: after)) (hbody : NoClose body) :
    ∃ ps post, ({} : Lexer).run text = (({} : Lexer).run text).take o ++
        (.docOpen, ['/', '*', '*']) :: (ps ++ (.docClose, ['*', '/']) :: post) ∧
      spelled ps = body ∧ Pieces false false ps := by
  generalize hls : ({} : Lexer).run text = ls at *
  have hsplit := congrArg spelled (List.take_append_drop o ls)
  rw [spelled_append, ← hls, spelled_run, hls, htext] at hsplit
  have hrest := List.append_cancel_left hsplit
  rw [List.getElem?_map] at hopen
  obtain ⟨⟨k, w⟩, hl, hk⟩ := Option.map_eq_some_iff.1 hopen
  have hk : k = .docOpen := hk
  subst hk
  have hdrop := drop_eq_cons hl
  obtain ⟨s, hrun⟩ := exists_run_drop hls o
  rw [hdrop] at hrun hrest
  obtain ⟨cut, hcut, hkind, hlength, hne, hbehind⟩ := cut_of_run hrun
  obtain rfl : cut = ⟨.docOpen, 3, .doc false false⟩ := by
    rw [← hcut]
    exact s.cut_eq_of_docOpen (by simp [hne]) (by rw [hcut, ← hkind])
  have hparts : w ++ spelled (ls.drop (o + 1)) =
      ['/', '*', '*'] ++ (body ++ '*' :: '/' :: after) := hrest
  obtain ⟨rfl, hspelled⟩ := List.append_inj hparts hlength.symm
  obtain ⟨ps, hps, hbodyps, hpieces⟩ := pieces_run (s.advance ⟨.docOpen, 3, .doc false false⟩) rfl hbody after
  generalize run _ after = post at hps
  rw [hspelled, hps] at hbehind
  refine ⟨ps, post, ?_, hbodyps, hpieces⟩
  rw [hbehind, ← hdrop, List.take_append_drop]

end Lexer

namespace DocSpan

theorem exists_mem_collect_append (i : Nat) (current : Option (Nat × List Nat)) (ks ks' : List Kind) :
    ∃ current', ∀ d ∈ collect (i + ks.length) current' ks', d ∈ collect i current (ks ++ ks') := by
  induction ks generalizing i current with
  | nil => exact ⟨current, fun d hd => hd⟩
  | cons k ks ih =>
    obtain ⟨current', h⟩ := ih (i + 1) (openAfter i current k)
    refine ⟨current', fun d hd => mem_collect_cons (h d ?_)⟩
    rwa [List.length_cons, Nat.add_comm ks.length, ← Nat.add_assoc] at hd

end DocSpan

namespace Tokens

variable {source : String}

/-- A comment is linked with its end and its tags. -/
theorem docLinks_of_pieces {ks ps ks' : List Kind}
    (hkinds : (ofSource source).kinds = ks ++ .docOpen :: (ps ++ .docClose :: ks'))
    (hps : ∀ k ∈ ps, k.isDocPiece = true) :
    (ofSource source).docLinks ks.length = (some (ks.length + 1 + ps.length),
      DocSpan.tagsAmong (ofSource source).kinds (ks.length + 1) ps.length) := by
  have hdrop : (ofSource source).kinds.drop (ks.length + 1) = ps ++ .docClose :: ks' := by
    rw [hkinds, ← List.drop_drop, List.drop_left]
    rfl
  have hspan := DocSpan.collect_pieces hps hdrop ks.length []
  obtain ⟨current, hmem⟩ := DocSpan.exists_mem_collect_append 0 none ks (.docOpen :: (ps ++ .docClose :: ks'))
  rw [Nat.zero_add, ← hkinds, kinds_ofSource] at hmem
  have hstart : DocSpan.collect ks.length current (.docOpen :: (ps ++ .docClose :: ks')) =
      DocSpan.collect (ks.length + 1) (some (ks.length, [])) (ps ++ .docClose :: ks') := rfl
  rw [hstart, hspan] at hmem
  have hordered := DocSpan.collect_ordered 0 none (lex source).kinds (by simp)
  have hspans := DocSpan.collect_spans 0 none (lex source).kinds rfl (by simp)
  exact (docLinks_ofSource source ks.length).trans
    (docLinks_foldl_of_mem hordered hspans (hmem _ List.mem_cons_self))

end Tokens

/-- A lexeme that is the tag of line `t` of a comment, when line 0 is behind `n` line feeds, with the text
that the line has. Behind the comment stands `post`. -/
inductive TagLexeme (ls post : List (Kind × List Char)) (n : Nat) : TagLine → Nat → Prop
  | intro {pre ps : List (Kind × List Char)} {k : Nat} {name rest : List Char}
      (hsplit : ls = pre ++ (.docTag, name) :: (ps ++ post)) (hname : '\n' ∉ name)
      (hline : (spelled pre).count '\n' = n + k) (htext : HasText rest ps) :
      TagLexeme ls post n ⟨k, name, rest⟩ pre.length

/-- The tags among the pieces of a comment are those of its lines. -/
theorem TagsRead.lexemes {k n : Nat} {pre ps : List (Kind × List Char)} {ts : List TagLine}
    (h : TagsRead k ps ts) (hcount : (spelled pre).count '\n' = n + k)
    (post : List (Kind × List Char)) :
    List.Forall₂ (TagLexeme (pre ++ (ps ++ post)) post n) ts
      (DocSpan.tagsAmong ((pre ++ (ps ++ post)).map (·.1)) pre.length ps.length) := by
  have hnext : ∀ (l : Kind × List Char) (ps : List (Kind × List Char)),
      pre ++ (l :: ps ++ post) = (pre ++ [l]) ++ (ps ++ post) := by simp
  induction h generalizing pre with
  | nil k => exact .nil
  | @other k l ps ts hkind h ih =>
    have hget : ((pre ++ (l :: ps ++ post)).map (·.1))[pre.length]? = some l.1 := by simp
    have hcount' : (spelled (pre ++ [l])).count '\n' = n + (k + l.2.count '\n') := by
      rw [spelled_append, List.count_append, hcount, Nat.add_assoc]
      simp [spelled]
    have htags := ih hcount' (by simp)
    rw [← hnext, List.length_append, List.length_singleton] at htags
    rw [DocSpan.tagsAmong, List.length_cons, List.range'_succ,
      List.filter_cons_of_neg (by rw [hget]; simpa using hkind)]
    exact htags
  | @tag k name rest ps ts hname htext h ih =>
    have hget : ((pre ++ ((.docTag, name) :: ps ++ post)).map (·.1))[pre.length]? = some .docTag := by simp
    have hcount' : (spelled (pre ++ [(.docTag, name)])).count '\n' = n + k := by
      rw [spelled_append, List.count_append, hcount]
      simp [spelled, List.count_eq_zero.2 hname]
    have htags := ih hcount' (by simp)
    rw [← hnext, List.length_append, List.length_singleton] at htags
    rw [DocSpan.tagsAmong, List.length_cons, List.range'_succ,
      List.filter_cons_of_pos (by rw [hget]; rfl)]
    exact .cons (.intro rfl hname hcount htext) htags

/-- The value of a tag is at the first piece behind it that is no blank, if that is text on the same
line. -/
theorem DocTag.valueIndexAt_eq {source : String} {pre gaps post : List (Kind × List Char)}
    {name text : List Char} (hrun : ({} : Lexer).run source.toList =
      pre ++ (.docTag, name) :: (gaps ++ (.docText, text) :: post))
    (hname : '\n' ∉ name) (hgaps : ∀ l ∈ gaps, l.1 = .docBlank ∧ '\n' ∉ l.2) {c : Nat}
    (hc : pre.length + 1 + gaps.length < c) :
    valueIndexAt (.ofSource source) pre.length c = some (pre.length + 1 + gaps.length) := by
  obtain ⟨t, ht, -, -, hline⟩ := Tokens.get?_of_run hrun
  have htext : ({} : Lexer).run source.toList =
      (pre ++ (.docTag, name) :: gaps) ++ (.docText, text) :: post := by
    rw [hrun, List.append_assoc, List.cons_append]
  obtain ⟨u, hu, hkind, -, hline'⟩ := Tokens.get?_of_run htext
  have hv : (pre ++ (Kind.docTag, name) :: gaps).length = pre.length + 1 + gaps.length := by
    rw [List.length_append, List.length_cons]
    omega
  rw [hv] at hu
  have hsize := Tokens.lt_size_of_get? hu
  have hfind : (Tokens.ofSource source).findNext (fun t => t.kind != .docBlank) (pre.length + 1) (some c) =
      some (pre.length + 1 + gaps.length) := by
    refine Tokens.scanUp_eq_of (by omega) (by rw [Option.getD_some]; omega) (by rw [hu]; simp [hkind]) ?_
    intro j hj hjv
    obtain ⟨m, rfl⟩ : ∃ m, j = pre.length + 1 + m := ⟨j - (pre.length + 1), by omega⟩
    obtain ⟨l, hl⟩ : ∃ l, gaps[m]? = some l := ⟨_, List.getElem?_eq_getElem (by omega)⟩
    have hlexeme : (({} : Lexer).run source.toList)[pre.length + 1 + m]? = some l := by
      rw [hrun, List.getElem?_append_right (by omega), show pre.length + 1 + m - pre.length = m + 1 by omega,
        List.getElem?_cons_succ, List.getElem?_append_left (by omega), hl]
    obtain ⟨w, hw, hwkind, -⟩ := Tokens.get?_of_lexeme hlexeme
    rw [hw]
    simp [hwkind, (hgaps l (List.mem_of_getElem? hl)).1]
  have hsame : u.line = t.line := by
    have hnone : (spelled gaps).count '\n' = 0 :=
      List.count_eq_zero.2 fun hmem => by
        obtain ⟨w, hw, hc⟩ := List.mem_flatten.1 hmem
        obtain ⟨l, hl, rfl⟩ := List.mem_map.1 hw
        exact (hgaps l hl).2 hc
    rw [hline', hline, spelled_append, spelled_cons, List.count_append, List.count_append, hnone,
      List.count_eq_zero.2 hname]
    rfl
  simp only [valueIndexAt, Option.bind_eq_bind, Option.bind_eq_some_iff]
  refine ⟨t, ht, _, hfind, u, hu, (), ?_, rfl⟩
  simp [guard, hkind, hsame]

/-! ### Reading a comment -/

namespace DocBlock

/-- The tag of a comment that opens at `opener` is the one on line `l` of its body, and has its text. -/
structure TagOnLine (ts : Tokens) (opener : Nat) (l : TagLine) (tag : DocTag) : Prop where
  name : tag.name.toList = l.name
  line : ∃ t u : Token, ts.get? opener = some t ∧ ts.get? tag.index = some u ∧ u.line = t.line + l.line
  value : (∃ c ∈ l.rest, isBlank c = false) →
    ∃ v, tag.valueIndex = some v ∧ (ts.content v).toList = trimEnd (behindGaps l.rest)

/-- The comment with this body between `o` and `c` is read as `block`, by lines: its tags are those of
the lines of the body, in this order, and each has the text of its line. -/
structure ReadByLines (ts : Tokens) (o c : Nat) (body : List Char) (block : DocBlock) : Prop where
  read : read? ts o = some block
  opener : block.opener = o
  closer : block.closer = c
  close : ts.kind? c = some .docClose
  text : (ts.contentBetween (o + 1) (c - 1)).toList = body
  docTags : (ts.links o).docTags =
    (List.range' (o + 1) (c - (o + 1))).filter fun i => ts.kind? i == some .docTag
  indices : block.tags.map DocTag.index = (ts.links o).docTags
  tags : List.Forall₂ (TagOnLine ts o) (tagLines body) block.tags

theorem index_read (ts : Tokens) (c i : Nat) : (DocTag.read ts c i).index = i := by
  unfold DocTag.read
  simp only
  split <;> rfl

variable {source : String}

theorem tagOnLine_of_lexeme {before ps post : List (Kind × List Char)} {l : TagLine} {i c : Nat}
    (hrun : ({} : Lexer).run source.toList = before ++ (.docOpen, ['/', '*', '*']) :: (ps ++ post))
    (hc : c + post.length = (({} : Lexer).run source.toList).length)
    (h : TagLexeme (({} : Lexer).run source.toList) post ((spelled before).count '\n') l i) :
    TagOnLine (.ofSource source) before.length l (DocTag.read (.ofSource source) c i) := by
  obtain @⟨pre, ps', k, name, rest, hsplit, hname, hline, htext⟩ := h
  obtain ⟨u, hu, -, hcontent, huline⟩ := Tokens.get?_of_run hsplit
  obtain ⟨t, ht, -, -, htline⟩ := Tokens.get?_of_run hrun
  refine ⟨?_, ⟨t, u, ht, ?_, ?_⟩, fun hblank => ?_⟩
  · rw [DocTag.name_read, Tokens.content, hu]
    exact hcontent
  · rw [index_read]
    exact hu
  · rw [huline, htline, hline, Nat.add_assoc]
  · obtain ⟨gaps, ps'', rfl, hgaps⟩ := htext hblank
    have htext : ({} : Lexer).run source.toList = pre ++ (.docTag, name) ::
        (gaps ++ (.docText, trimEnd (behindGaps rest)) :: (ps'' ++ post)) := by
      rw [hsplit, List.append_assoc, List.cons_append]
    have hvalue : ({} : Lexer).run source.toList = (pre ++ (.docTag, name) :: gaps) ++
        (.docText, trimEnd (behindGaps rest)) :: (ps'' ++ post) := by
      rw [htext, List.append_assoc, List.cons_append]
    have hlength := congrArg List.length htext
    simp only [List.length_append, List.length_cons] at hlength
    refine ⟨pre.length + 1 + gaps.length, ?_, ?_⟩
    · rw [DocTag.valueIndex_read]
      exact DocTag.valueIndexAt_eq htext hname hgaps (by omega)
    · obtain ⟨w, hw, -, hwcontent, -⟩ := Tokens.get?_of_run hvalue
      rw [List.length_append, List.length_cons, ← Nat.add_assoc, Nat.add_right_comm] at hw
      rw [Tokens.content, hw]
      exact hwcontent

/-- A doc comment that is closed is read by lines. -/
theorem read?_by_lines {o : Nat} {body after : List Char}
    (hopen : (Tokens.ofSource source).kind? o = some .docOpen)
    (hsource : source.toList = ((Tokens.ofSource source).textBefore o).toList ++
      '/' :: '*' :: '*' :: (body ++ '*' :: '/' :: after)) (hbody : NoClose body) :
    ∃ c block, ReadByLines (.ofSource source) o c body block := by
  have hbefore : ((Tokens.ofSource source).textBefore o).toList =
      spelled ((({} : Lexer).run source.toList).take o) := by
    rw [← Tokens.textBefore_unlinked, Tokens.ofSource_unlinked, Tokens.textBefore_lex, spelled]
  rw [hbefore] at hsource
  have hlexeme : ((({} : Lexer).run source.toList).map (·.1))[o]? = some .docOpen := by
    rwa [← Tokens.getElem?_kinds, Tokens.kinds_eq_lexemes] at hopen
  obtain ⟨ps, post, hrun, rfl, hpieces⟩ := exists_pieces hlexeme hsource hbody
  have hlength : ((({} : Lexer).run source.toList).take o).length = o := by
    have hlt := (List.getElem?_eq_some_iff.1 hlexeme).1
    rw [List.length_map] at hlt
    exact List.length_take_of_le hlt.le
  generalize (({} : Lexer).run source.toList).take o = pre at hrun hlength
  subst hlength
  have hkinds : (Tokens.ofSource source).kinds =
      pre.map (·.1) ++ .docOpen :: (ps.map (·.1) ++ .docClose :: post.map (·.1)) := by
    rw [Tokens.kinds_eq_lexemes, hrun]
    simp
  have hdocs := Tokens.docLinks_of_pieces hkinds (by simpa using hpieces.isDocPiece)
  rw [List.length_map, List.length_map] at hdocs
  obtain ⟨hcloser, htags⟩ := Prod.mk.inj hdocs
  have hamong : DocSpan.tagsAmong (Tokens.ofSource source).kinds (pre.length + 1) ps.length =
      (List.range' (pre.length + 1) (pre.length + 1 + ps.length - (pre.length + 1))).filter fun i =>
        (Tokens.ofSource source).kind? i == some .docTag := by
    rw [Nat.add_sub_cancel_left, DocSpan.tagsAmong]
    simp only [Tokens.getElem?_kinds]
  have hclose : ({} : Lexer).run source.toList =
      (pre ++ (.docOpen, ['/', '*', '*']) :: ps) ++ (.docClose, ['*', '/']) :: post := by
    rw [hrun, List.append_assoc, List.cons_append]
  have hc : (pre ++ (Kind.docOpen, ['/', '*', '*']) :: ps).length = pre.length + 1 + ps.length := by
    rw [List.length_append, List.length_cons]
    omega
  obtain ⟨u, hu, hukind, -, -⟩ := Tokens.get?_of_run hclose
  rw [hc] at hu
  obtain ⟨block, hread, hbetween⟩ := exists_readBetween hopen hcloser
  refine ⟨_, block, hread, hbetween.opener_eq, hbetween.closer_eq, ?_, ?_, htags.trans hamong, ?_, ?_⟩
  · rw [Tokens.kind?, hu, Option.map_some, hukind]
  · rw [Tokens.toList_contentBetween, hrun, show pre.length + 1 + ps.length - 1 + 1 - (pre.length + 1) =
      ps.length by omega, ← List.drop_drop, List.drop_left, List.drop_one, List.tail_cons, List.take_left]
  · rw [hbetween.tags_eq, List.map_map]
    exact (List.map_congr_left fun i _ => index_read _ _ i).trans (List.map_id _)
  · rw [hbetween.tags_eq, List.forall₂_map_right_iff, htags, tagLines_eq]
    have hcount : (spelled (pre ++ [(.docOpen, ['/', '*', '*'])])).count '\n' =
        (spelled pre).count '\n' + 0 := by
      rw [spelled_append, List.count_append]
      rfl
    have hlexemes := (hpieces.tagsRead 0).lexemes hcount ((.docClose, ['*', '/']) :: post)
    rw [List.append_assoc, List.singleton_append, ← hrun, ← Tokens.kinds_eq_lexemes, List.length_append,
      List.length_singleton] at hlexemes
    exact hlexemes.imp fun l i h => tagOnLine_of_lexeme hrun (by
      rw [hclose, List.length_append, hc]) h

theorem read?_three_lines :
    let source := "<?php\n/** @a x \n * @\n\t*@b:c\r\n */"
    let body := " @a x \n * @\n\t*@b:c\r\n ".toList
    tagLines body = [⟨0, "@a".toList, " x ".toList⟩, ⟨2, "@b:c".toList, "\r".toList⟩] ∧
      ∃ c block, ReadByLines (.ofSource source) 2 c body block := by
  intro source body
  have hopen : (Tokens.ofSource source).kind? 2 = some .docOpen := by decide +kernel
  have hsource : source.toList = ((Tokens.ofSource source).textBefore 2).toList ++
      '/' :: '*' :: '*' :: (body ++ '*' :: '/' :: []) := by decide +kernel
  exact ⟨by decide, read?_by_lines hopen hsource (by decide)⟩

end DocBlock

end PhpStyle
