import PhpStyle.Proofs.Relexing
import PhpStyle.Proofs.RewordedDocs
import PhpStyle.Rules.LicenseHeader

/-!
# A comment behind the first tag

A text that is one comment (`IsComment`) is read as such wherever code is read, and the lexer is left
as it was (`run_comment`). So a comment may be inserted on a line of its own behind the first opening
tag: all other lexemes are read as before (`run_inserted`), and the comment is found there with its
whole text (`commentAt?_inserted`).
-/

namespace PhpStyle

open Text

/-- The pieces of a doc comment between its two ends. -/
def Kind.isDocPiece : Kind → Bool
  | .docBlank | .docStar | .docTag | .docText => true
  | _ => false

namespace Lexer

/-- The text is a comment that is closed at its end and not before. -/
def IsComment (h : List Char) : Prop :=
  ∃ body, NoClose body ∧ h = '/' :: '*' :: (body ++ ['*', '/'])

/-- The lexemes of a comment. -/
inductive CommentLexemes : List Char → List (Kind × List Char) → Prop
  | block (h : List Char) : CommentLexemes h [(.comment, h)]
  | doc {pieces : List (Kind × List Char)} (hpieces : ∀ l ∈ pieces, l.1.isDocPiece = true) :
      CommentLexemes ('/' :: '*' :: '*' :: (spelled pieces ++ ['*', '/']))
        ((.docOpen, ['/', '*', '*']) :: (pieces ++ [(.docClose, ['*', '/'])]))

theorem find?_close {body : List Char} (h : NoClose body) (z : List Char) :
    find? "*/".toList (body ++ '*' :: '/' :: z) = some body.length := by
  induction body with
  | nil => rfl
  | cons c body ih =>
    have hnot : ¬ startsWith "*/".toList (c :: (body ++ '*' :: '/' :: z)) = true := by
      rw [startsWith_close]
      rintro ⟨rfl, hslash⟩
      cases body with
      | nil => cases hslash
      | cons d body =>
        obtain rfl : d = '/' := Option.some.inj hslash
        exact h [] body rfl
    rw [List.cons_append, find?, if_neg hnot, ih (NoClose.right (u := [c]) h)]
    rfl

theorem noClose_cons_iff {c : Char} {cs : List Char} :
    NoClose (c :: cs) ↔ ¬ startsWith "*/".toList (c :: cs) = true ∧ NoClose cs := by
  rw [startsWith_close]
  constructor
  · refine fun h => ⟨?_, NoClose.right (u := [c]) h⟩
    rintro ⟨rfl, hslash⟩
    obtain ⟨b, rfl⟩ := List.head?_eq_some_iff.1 hslash
    exact h [] b rfl
  · rintro ⟨hstart, h⟩ (_ | ⟨d, a⟩) b heq
    · obtain ⟨rfl, rfl⟩ := List.cons.inj heq
      exact hstart ⟨rfl, rfl⟩
    · exact h a b (List.cons.inj heq).2

theorem noClose_iff_find? {cs : List Char} : NoClose cs ↔ find? "*/".toList cs = none := by
  induction cs with
  | nil => exact ⟨fun _ => rfl, fun _ => .nil⟩
  | cons c cs ih =>
    rw [noClose_cons_iff, find?, ih]
    split <;> simp_all

instance (cs : List Char) : Decidable (NoClose cs) :=
  decidable_of_iff _ noClose_iff_find?.symm

theorem isDocPiece_of_cutDoc (lineStart hasText : Bool) {cs : List Char}
    (h : (cutDoc lineStart hasText cs).kind ≠ .docClose) :
    (cutDoc lineStart hasText cs).kind.isDocPiece = true := by
  unfold cutDoc at h ⊢
  split
  case h_1 => exact absurd rfl h
  case h_5 =>
    repeat' split
    all_goals rfl
  all_goals rfl

/-- The inside of a doc comment, up to its end. -/
theorem run_doc (s : Lexer) (hmode : s.mode.isDoc = true) {B : List Char} (hB : NoClose B)
    (z : List Char) :
    ∃ pieces, s.run (B ++ '*' :: '/' :: z) =
        pieces ++ (.docClose, ['*', '/']) :: { s with mode := .php }.run z ∧
      spelled pieces = B ∧ ∀ l ∈ pieces, l.1.isDocPiece = true := by
  induction hn : B.length using Nat.strongRecOn generalizing s B with | _ n ih
  obtain ⟨lineStart, hasText, hm⟩ := exists_of_isDoc hmode
  obtain ⟨c, cs, hcs⟩ := List.exists_cons_of_ne_nil (l := B ++ '*' :: '/' :: z) (by simp)
  have hcut : s.cut (B ++ '*' :: '/' :: z) = cutDoc lineStart hasText (c :: cs) := by
    rw [cut, hm, hcs]
  rw [run_of_ne_nil s (by simp), hcut]
  rcases cutDoc_cases lineStart hasText c cs with ⟨rest, hclose, heq⟩ | hpiece
  · rw [← hcs] at hclose
    obtain ⟨rfl, rfl⟩ := hB.eq_nil_of_close hclose
    refine ⟨[], ?_, rfl, List.forall_mem_nil _⟩
    rw [heq, advance_of_trivia s (by rfl)]
    rfl
  · have hle := hpiece.before_close B z hcs.symm
    have hpos := (cutDoc_fits lineStart hasText c cs).pos
    have hkind := isDocPiece_of_cutDoc lineStart hasText hpiece.not_close
    generalize cutDoc lineStart hasText (c :: cs) = cut at *
    rw [← List.take_append_drop cut.length B] at hB
    obtain ⟨pieces, hrun, hspelled, hpieces⟩ := ih (B.drop cut.length).length
      (by rw [List.length_drop]; omega) { s with mode := cut.mode } hpiece.stays hB.right rfl
    refine ⟨(cut.kind, B.take cut.length) :: pieces, ?_, ?_, List.forall_mem_cons.2 ⟨hkind, hpieces⟩⟩
    · rw [advance_of_trivia s hpiece.trivia, List.drop_append_of_le_length hle,
        List.take_append_of_le_length hle, hrun]
      rfl
    · rw [spelled_cons, hspelled, List.take_append_drop]

theorem advance_php {s : Lexer} (hmode : s.mode = .php) {cut : Cut} (htrivia : cut.kind.isTrivia = true)
    (hphp : cut.mode = .php) : s.advance cut = s := by
  rw [advance_of_trivia s htrivia, hphp, ← hmode]

theorem cut_block (s : Lexer) (hmode : s.mode = .php) {body : List Char} (hbody : NoClose body)
    (hstar : body.head? ≠ some '*') (z : List Char) :
    s.cut ('/' :: '*' :: (body ++ '*' :: '/' :: z)) = ⟨.comment, body.length + 4, .php⟩ := by
  rw [cut, hmode]
  cases body with
  | nil => rfl
  | cons d body =>
    have hd : d ≠ '*' := fun hd => hstar (by rw [hd]; rfl)
    have hlength : blockCommentLength ('/' :: '*' :: (d :: body ++ '*' :: '/' :: z)) =
        (d :: body).length + 4 := by
      rw [blockCommentLength, List.drop_succ_cons, List.drop_succ_cons, List.drop_zero,
        find?_close hbody]
    simp only [← hlength]
    simp [cutPhp, hd]

/-- Where code is read, a comment is read up to its end, and code goes on. -/
theorem run_comment {s : Lexer} (hmode : s.mode = .php) {h : List Char} (hcomment : IsComment h)
    (z : List Char) : ∃ ls, CommentLexemes h ls ∧ s.run (h ++ z) = ls ++ s.run z := by
  obtain ⟨body, hbody, rfl⟩ := hcomment
  have htext : '/' :: '*' :: (body ++ ['*', '/']) ++ z = '/' :: '*' :: (body ++ '*' :: '/' :: z) := by
    simp
  by_cases hstar : body.head? = some '*'
  · obtain ⟨B, rfl⟩ := List.head?_eq_some_iff.1 hstar
    have hslash : (B ++ '*' :: '/' :: z).head? ≠ some '/' := by
      cases B with
      | nil => simp
      | cons d B =>
        intro hd
        obtain rfl : d = '/' := Option.some.inj hd
        exact hbody [] B rfl
    obtain ⟨pieces, hrun, rfl, hpieces⟩ := run_doc { s with mode := .doc false false } rfl
      (NoClose.right (u := ['*']) hbody) z
    refine ⟨_, .doc hpieces, ?_⟩
    have hstate : { s with mode := Mode.php } = s := by rw [← hmode]
    rw [htext, List.cons_append, run_of_ne_nil s (by simp), cut_docOpen s hmode hslash,
      advance_of_trivia s (by rfl), List.cons_append, List.append_assoc]
    refine congrArg _ (hrun.trans ?_)
    simp only [hstate, List.singleton_append]
  · refine ⟨_, .block _, ?_⟩
    have hcut := cut_block s hmode hbody hstar z
    rw [← htext] at hcut
    rw [run_of_cut (by simp) hcut (by simp), advance_php hmode rfl rfl]
    rfl

/-- The lexer behind the first tag. -/
def inside : Lexer where
  mode := .php
  last := some .openTag

/-- The lexemes before the first tag. -/
def lead (u : List Char) : List (Kind × List Char) :=
  if u = [] then [] else [(.html, u)]

/-- The first tag of the text is `t`, between `u` and `z`. -/
structure FirstTag (u t z : List Char) : Prop where
  tag : IsOpenTag t
  length : htmlLength (u ++ (t ++ z)) = u.length

theorem FirstTag.retail {u t z : List Char} (h : FirstTag u t z) (z' : List Char) : FirstTag u t z' :=
  ⟨h.tag, htmlLength_congr_of_openTag h.tag h.length z'⟩

theorem FirstTag.unique {u t z u' t' z' : List Char} (h : FirstTag u t z) (h' : FirstTag u' t' z')
    (heq : u ++ (t ++ z) = u' ++ (t' ++ z')) : u = u' := by
  refine (List.append_inj heq ?_).1
  rw [← h.length, ← h'.length, heq]

theorem FirstTag.run {u t z : List Char} (h : FirstTag u t z) :
    ({} : Lexer).run (u ++ (t ++ z)) = lead u ++ (.openTag, t) :: inside.run z := by
  have hne : t ≠ [] := by
    rintro rfl
    rcases h.tag with h | h <;> cases h
  have htag : ∀ s : Lexer, s.mode = .html → s.squares = [] →
      s.run (t ++ z) = (.openTag, t) :: inside.run z := by
    intro s hmode hsquares
    have hcut : s.cut (t ++ z) = ⟨.openTag, t.length, .php⟩ := by
      rw [cut, hmode]
      exact cutHtml_of_openTag h.tag z
    rw [run_of_cut hne hcut rfl, advance, hsquares]
    rfl
  by_cases hu : u = []
  · subst hu
    exact htag {} rfl rfl
  · have hcut : ({} : Lexer).cut (u ++ (t ++ z)) = ⟨.html, u.length, .html⟩ := by
      show cutHtml _ = _
      rw [cutHtml_eq (by simp [hu]), h.length, if_neg (by simpa using hu)]
    rw [run_of_cut hu hcut rfl, lead, if_neg hu, List.singleton_append]
    exact congrArg _ (htag _ rfl rfl)

/-- A tag with none before it is the first tag of the text. -/
theorem exists_firstTag {text t : List Char} {i : Nat}
    (hi : (({} : Lexer).run text)[i]? = some (.openTag, t))
    (hfirst : ∀ j < i, ∀ v, (({} : Lexer).run text)[j]? ≠ some (.openTag, v)) :
    ∃ u z, text = u ++ (t ++ z) ∧ FirstTag u t z ∧ i = (lead u).length := by
  have hne : text ≠ [] := by
    rintro rfl
    rw [run, if_pos rfl] at hi
    cases hi
  obtain ⟨u, z, rfl, hlength⟩ : ∃ u z, text = u ++ z ∧ htmlLength text = u.length := by
    refine ⟨text.take (htmlLength text), text.drop (htmlLength text),
      (List.take_append_drop ..).symm, ?_⟩
    rw [List.length_take, Nat.min_eq_left (htmlLength_le text)]
  have hbehind := openTag_behind_html (u ++ z)
  rw [hlength, List.drop_left] at hbehind
  rcases hbehind with rfl | hbehind
  · -- without a tag the text is one lexeme
    rw [List.append_nil] at hne hlength hi
    have hcut : ({} : Lexer).cut (u ++ []) = ⟨.html, u.length, .html⟩ := by
      show cutHtml _ = _
      rw [List.append_nil, cutHtml_eq hne, hlength, if_neg (by simpa using hne)]
    rw [← List.append_nil u, run_of_cut hne hcut rfl, run, if_pos rfl] at hi
    rcases i with - | i <;> cases hi
  · obtain ⟨n, hn⟩ := Option.isSome_iff_exists.1 hbehind
    obtain ⟨t', z, rfl, hlen⟩ : ∃ t' z', z = t' ++ z' ∧ n = t'.length := by
      refine ⟨z.take n, z.drop n, (List.take_append_drop ..).symm, ?_⟩
      rw [List.length_take, Nat.min_eq_left (openTagLength?_bounds hn).2]
    rw [hlen] at hn
    have htag : FirstTag u t' z := ⟨isOpenTag_of_length hn, hlength⟩
    rw [htag.run] at hi hfirst
    have hget : (lead u ++ (Kind.openTag, t') :: inside.run z)[(lead u).length]? =
        some (.openTag, t') := by
      rw [List.getElem?_append_right (Nat.le_refl _), Nat.sub_self, List.getElem?_cons_zero]
    have hle : (lead u).length ≤ i := by
      by_contra hlt
      rw [List.getElem?_append_left (by omega), lead] at hi
      split at hi
      · cases hi
      · cases List.mem_singleton.1 (List.mem_of_getElem? hi)
    obtain rfl : (lead u).length = i := by
      refine Nat.le_antisymm hle (Nat.not_lt.1 fun hlt => ?_)
      exact hfirst _ hlt _ hget
    cases hi.symm.trans hget
    exact ⟨u, z, rfl, htag, rfl⟩

theorem run_newline {s : Lexer} (hmode : s.mode = .php) (z : List Char) :
    s.run ('\n' :: z) = (.blank, ['\n']) :: s.run z := by
  have hcut : s.cut (['\n'] ++ z) = ⟨.blank, 1, .php⟩ := by
    rw [cut, hmode]
    rfl
  exact (run_of_cut (by simp) hcut rfl).trans (by rw [advance_php hmode rfl rfl])

/-- A comment on lines of its own behind the first tag. -/
theorem FirstTag.run_inserted {u t z h : List Char} (htag : FirstTag u t z) (hcomment : IsComment h) :
    ∃ ls, CommentLexemes h ls ∧ ({} : Lexer).run (u ++ (t ++ ('\n' :: (h ++ '\n' :: z)))) =
      lead u ++ (.openTag, t) :: (.blank, ['\n']) :: (ls ++ (.blank, ['\n']) :: inside.run z) := by
  obtain ⟨ls, hls, hrun⟩ := run_comment (s := inside) rfl hcomment ('\n' :: z)
  refine ⟨ls, hls, ?_⟩
  rw [(htag.retail _).run, run_newline rfl, hrun, run_newline rfl]

theorem CommentLexemes.exists_cons {h : List Char} {ls : List (Kind × List Char)}
    (hls : CommentLexemes h ls) : ∃ l ls', ls = l :: ls' ∧ l.1 ≠ .blank := by
  cases hls with
  | block => exact ⟨_, _, rfl, by simp⟩
  | doc _ => exact ⟨_, _, rfl, by simp⟩

theorem CommentLexemes.trivia {h : List Char} {ls : List (Kind × List Char)} (hls : CommentLexemes h ls) :
    ∀ l ∈ ls, l.1.isTrivia = true := by
  cases hls with
  | block => simp [Kind.isTrivia]
  | doc hpieces =>
    intro l hl
    rcases List.mem_cons.1 hl with rfl | hl
    · rfl
    rcases List.mem_append.1 hl with hl | hl
    · have := hpieces l hl
      revert this
      cases l.1 <;> simp [Kind.isDocPiece, Kind.isTrivia]
    · rw [List.mem_singleton.1 hl]
      rfl

theorem code_append_of_trivia {ls : List (Kind × List Char)} (h : ∀ l ∈ ls, l.1.isTrivia = true)
    (ls' : List (Kind × List Char)) : code (ls ++ ls') = code ls' := by
  induction ls with
  | nil => rfl
  | cons l ls ih =>
    obtain ⟨hl, hls⟩ := List.forall_mem_cons.1 h
    rw [List.cons_append, code_cons_of_trivia hl, ih hls]

theorem FirstTag.code_inserted {u t z h : List Char} (htag : FirstTag u t z) (hcomment : IsComment h) :
    code (({} : Lexer).run (u ++ (t ++ ('\n' :: (h ++ '\n' :: z))))) =
      code (({} : Lexer).run (u ++ (t ++ z))) := by
  obtain ⟨ls, hls, hrun⟩ := htag.run_inserted hcomment
  have hadd : code ((Kind.blank, ['\n']) :: (ls ++ (Kind.blank, ['\n']) :: inside.run z)) =
      code (inside.run z) := by
    rw [code_cons_of_trivia (by rfl), code_append_of_trivia hls.trivia, code_cons_of_trivia (by rfl)]
  have happend : ∀ ls', code (lead u ++ (Kind.openTag, t) :: ls') =
      code (lead u ++ [(Kind.openTag, t)]) ++ code ls' := fun ls' => by
    rw [code, code, code, ← List.filter_append, List.append_assoc, List.singleton_append]
  rw [hrun, htag.run]
  exact (happend _).trans ((congrArg _ hadd).trans (happend _).symm)

end Lexer

/-! ### The comment is found -/

namespace DocSpan

theorem collect_of_no_opener {ks : List Kind} (h : .docOpen ∉ ks) (i : Nat) (ks' : List Kind) :
    collect i none (ks ++ ks') = collect (i + ks.length) none ks' := by
  induction ks generalizing i with
  | nil => rfl
  | cons k ks ih =>
    obtain ⟨hk, hks⟩ := not_or.1 (mt List.mem_cons.2 h)
    have hstep : collect i none (k :: (ks ++ ks')) = collect (i + 1) none (ks ++ ks') := by
      cases k <;> first | rfl | exact absurd rfl hk
    rw [List.cons_append, hstep, ih hks, List.length_cons]
    congr 1
    omega

/-- The tags among the `n` kinds from index `i` on. -/
def tagsAmong (all : List Kind) (i n : Nat) : List Nat :=
  (List.range' i n).filter fun j => all[j]? == some .docTag

theorem collect_pieces {all ps ks : List Kind} (h : ∀ k ∈ ps, k.isDocPiece = true) {i : Nat}
    (hall : all.drop i = ps ++ .docClose :: ks) (o : Nat) (acc : List Nat) :
    collect i (some (o, acc)) (ps ++ .docClose :: ks) =
      ⟨o, some (i + ps.length), acc.reverse ++ tagsAmong all i ps.length⟩ ::
        collect (i + ps.length + 1) none ks := by
  induction ps generalizing i acc with
  | nil =>
    rw [tagsAmong, List.length_nil, List.range'_zero, List.filter_nil, List.append_nil]
    rfl
  | cons k ps ih =>
    obtain ⟨hk, hps⟩ := List.forall_mem_cons.1 h
    obtain ⟨hi, htail⟩ := of_drop_eq_cons hall
    have hindex : i + (k :: ps).length = i + 1 + ps.length := by
      rw [List.length_cons]
      omega
    have htags : tagsAmong all i (k :: ps).length =
        (if k = .docTag then [i] else []) ++ tagsAmong all (i + 1) ps.length := by
      rw [tagsAmong, List.length_cons, List.range'_succ, List.filter_cons, hi]
      cases k <;> rfl
    rw [hindex, htags, ← List.append_assoc]
    cases k with
    | docTag => exact (ih hps htail (i :: acc)).trans (by rw [List.reverse_cons]; rfl)
    | docBlank | docStar | docText => exact (ih hps htail acc).trans (by simp)
    | _ => cases hk

theorem le_opener (i : Nat) (current : Option (Nat × List Nat)) (ks : List Kind) {n : Nat} (hn : n ≤ i)
    (hcurrent : ∀ o tags, current = some (o, tags) → n ≤ o) :
    ∀ d ∈ collect i current ks, n ≤ d.opener := by
  fun_induction collect i current ks with
  | case1 i o tags =>
    intro d hd
    rw [List.mem_singleton.1 hd]
    exact hcurrent o tags rfl
  | case2 i =>
    intro d hd
    cases hd
  | case3 i current ks ih =>
    refine ih (by omega) fun o tags h => ?_
    cases h
    exact hn
  | case4 i current ks ih =>
    refine ih (by omega) fun o tags h => ?_
    obtain ⟨⟨o, tags⟩, hcur, heq⟩ := Option.map_eq_some_iff.1 h
    cases heq
    exact hcurrent o tags hcur
  | case5 i ks o tags ih =>
    intro d hd
    rcases List.mem_cons.1 hd with rfl | hd
    · exact hcurrent o tags rfl
    · exact ih (by omega) (by simp) d hd
  | case6 i ks ih => exact ih (by omega) (by simp)
  | case7 i current k ks _ _ _ ih => exact ih (by omega) hcurrent

end DocSpan

namespace Tokens

variable {source : String}

theorem docLinks_foldl_of_ne {ts : Tokens} {ds : List DocSpan} {j : Nat} (h : ∀ d ∈ ds, d.opener ≠ j) :
    (ds.foldl linkDoc ts).docLinks j = ts.docLinks j := by
  induction ds generalizing ts with
  | nil => rfl
  | cons d ds ih =>
    obtain ⟨hd, hds⟩ := List.forall_mem_cons.1 h
    rw [List.foldl_cons, ih hds, docLinks_linkDoc, if_neg fun h => hd h.1]

theorem docCloser_of_first {ks ps ks' : List Kind}
    (hkinds : (ofSource source).kinds = ks ++ .docOpen :: (ps ++ .docClose :: ks'))
    (hks : .docOpen ∉ ks) (hps : ∀ k ∈ ps, k.isDocPiece = true) :
    ((ofSource source).links ks.length).docCloser = some (ks.length + 1 + ps.length) := by
  have hdrop : (ofSource source).kinds.drop (ks.length + 1) = ps ++ .docClose :: ks' := by
    rw [hkinds, ← List.drop_drop, List.drop_left]
    rfl
  have hspan := DocSpan.collect_pieces hps hdrop ks.length []
  generalize [].reverse ++ DocSpan.tagsAmong _ _ _ = tags at hspan
  have hcollect : DocSpan.collect 0 none (lex source).kinds =
      ⟨ks.length, some (ks.length + 1 + ps.length), tags⟩ ::
        DocSpan.collect (ks.length + 1 + ps.length + 1) none ks' := by
    rw [← kinds_ofSource, hkinds, DocSpan.collect_of_no_opener hks, Nat.zero_add]
    exact hspan
  have hlt : ks.length < (lex source).size := by
    have hlength := congrArg List.length hkinds
    rw [kinds_ofSource] at hlength
    simp only [kinds, List.length_map, Array.length_toList, List.length_append,
      List.length_cons] at hlength
    rw [size]
    omega
  have hlater : ∀ d ∈ DocSpan.collect (ks.length + 1 + ps.length + 1) none ks', d.opener ≠ ks.length := by
    intro d hd
    have := DocSpan.le_opener (ks.length + 1 + ps.length + 1) none ks' (Nat.le_refl _) (by simp) d hd
    omega
  have hdocs := docLinks_ofSource source ks.length
  rw [linkDocs, hcollect, List.foldl_cons, docLinks_foldl_of_ne hlater, docLinks_linkDoc,
    if_pos ⟨rfl, hlt⟩, docLinks, Links.docs] at hdocs
  exact (Prod.mk.inj hdocs).1

theorem toList_contentBetween (source : String) (i j : Nat) :
    ((ofSource source).contentBetween i j).toList =
      Lexer.spelled (((({} : Lexer).run source.toList).drop i).take (j + 1 - i)) := by
  rw [contentBetween, List.map_take, List.map_drop, contents_ofSource, String.toList_join,
    Lexer.spelled, List.map_take, List.map_drop, List.flatMap]
  simp only [List.map_take, List.map_drop, List.map_map]
  congr 3
  refine List.map_congr_left fun l _ => ?_
  simp

end Tokens

open Lexer in
/-- The first comment of a text is found with its whole text. -/
theorem Rules.LicenseHeader.commentAt?_of_run {source : String} {h : List Char}
    {before ls after : List (Kind × List Char)} (hcomment : IsComment h) (hls : CommentLexemes h ls)
    (hrun : ({} : Lexer).run source.toList = before ++ (ls ++ after))
    (hbefore : ∀ l ∈ before, l.1 ≠ .docOpen) :
    commentAt? (.ofSource source) before.length = some (String.ofList h) := by
  have hget := Tokens.getElem?_lexemes source before.length
  rw [hrun, List.getElem?_append_right (Nat.le_refl _), Nat.sub_self] at hget
  cases hls with
  | block =>
    obtain ⟨t, ht, hl⟩ := Option.map_eq_some_iff.1 hget.symm
    obtain ⟨hkind, hcontent⟩ := Prod.mk.inj hl
    have hstart : startsWith "/*".toList h = true := by
      obtain ⟨body, -, rfl⟩ := hcomment
      rfl
    simp only [commentAt?, ht, Option.bind_eq_bind, Option.bind_some, hkind, hcontent, hstart, if_true]
    rw [← hcontent, String.ofList_toList]
  | doc hpieces =>
    rename_i pieces
    obtain ⟨t, ht, hl⟩ := Option.map_eq_some_iff.1 hget.symm
    obtain ⟨hkind, -⟩ := Prod.mk.inj hl
    have hkinds : (Tokens.ofSource source).kinds = before.map (·.1) ++
        .docOpen :: (pieces.map (·.1) ++ .docClose :: after.map (·.1)) := by
      rw [Tokens.kinds_eq_lexemes, hrun]
      simp
    have hno : .docOpen ∉ before.map (·.1) := by
      intro hmem
      obtain ⟨l, hl, hopen⟩ := List.mem_map.1 hmem
      exact hbefore l hl hopen
    have hcloser := Tokens.docCloser_of_first hkinds hno (by simpa using hpieces)
    have hlinks : t.links.docCloser = some (before.length + 1 + pieces.length) := by
      rw [List.length_map, List.length_map, Tokens.links, ht] at hcloser
      exact hcloser
    simp only [commentAt?, ht, Option.bind_eq_bind, Option.bind_some, hkind, hlinks, Option.map_some]
    refine congrArg some (String.toList_inj.1 ?_)
    rw [Tokens.toList_contentBetween, hrun, List.drop_left, String.toList_ofList]
    have hlength : before.length + 1 + pieces.length + 1 - before.length =
        ((Kind.docOpen, ['/', '*', '*']) :: (pieces ++ [(Kind.docClose, ['*', '/'])])).length := by
      simp only [List.length_cons, List.length_append, List.length_nil]
      omega
    rw [hlength, List.take_left, spelled_cons, spelled_append]
    rfl

end PhpStyle
