import PhpStyle.Proofs.BlankLexemes
import PhpStyle.Proofs.InsertedComments

/-!
# The lines of a doc comment

The lexer reads a doc comment piece by piece and keeps two flags; the reader of a comment sees lines.
Here tags are told from the lines alone: a line holds a tag if its content starts with one
(`tagLines`). The pieces that the lexer cuts (`PieceCut`, `Pieces`) hold these tags in the same order,
and each of them is followed by the text on its line (`Pieces.tagsRead`).
-/

namespace PhpStyle

open Text Lexer

/-- A line of a doc comment that holds a tag: the number of line feeds before the line, the tag, and
what follows it on the line. -/
structure TagLine where
  line : Nat
  name : List Char
  rest : List Char
  deriving DecidableEq, Repr

namespace DocLine

/-- The blanks that count for nothing at the start of a line. -/
def isGap (c : Char) : Bool :=
  c = ' ' || c = '\t' || c = '\r'

def behindGaps (l : List Char) : List Char :=
  l.dropWhile isGap

/-- The content of a line, which in a decorated line starts behind a star. -/
def content (decorated : Bool) (l : List Char) : List Char :=
  if decorated && (behindGaps l).head? == some '*' then behindGaps (behindGaps l).tail
  else behindGaps l

end DocLine

open DocLine

/-- The tag with which the content of line `k` starts. -/
def TagLine.ofContent? (k : Nat) : List Char → Option TagLine
  | '@' :: cs =>
    if cs.head?.any isTagStart then
      some ⟨k, '@' :: cs.takeWhile isTagChar, cs.dropWhile isTagChar⟩
    else none
  | _ => none

/-- The tag of a line, given with its number. All lines but the first may be decorated. -/
def TagLine.ofLine? (l : List Char × Nat) : Option TagLine :=
  ofContent? l.2 (content (l.2 != 0) l.1)

/-- The tags of a comment, by its lines. -/
def tagLines (body : List Char) : List TagLine :=
  (splitAt '\n' body).zipIdx.filterMap TagLine.ofLine?

example : tagLines "@a\n * @b x \n* * @c\n@".toList =
    [⟨0, "@a".toList, []⟩, ⟨1, "@b".toList, " x ".toList⟩] := by
  decide

namespace DocLine

theorem content_nil (decorated : Bool) : content decorated [] = [] := by
  cases decorated <;> rfl

theorem behindGaps_append {u : List Char} (hu : ∀ c ∈ u, isGap c = true) (l : List Char) :
    behindGaps (u ++ l) = behindGaps l :=
  List.dropWhile_append_of_pos hu

theorem content_append {u : List Char} (hu : ∀ c ∈ u, isGap c = true) (decorated : Bool)
    (l : List Char) : content decorated (u ++ l) = content decorated l := by
  rw [content, content, behindGaps_append hu]

theorem behindGaps_cons {c : Char} (hc : isGap c = false) (l : List Char) :
    behindGaps (c :: l) = c :: l := by
  rw [behindGaps, List.dropWhile_cons_of_neg (by simp [hc])]

theorem content_cons {c : Char} (hc : isGap c = false) {decorated : Bool}
    (hstar : decorated = true → c ≠ '*') (l : List Char) : content decorated (c :: l) = c :: l := by
  have hnot : ¬ (decorated && (c :: l).head? == some '*') = true := by
    simpa using hstar
  rw [content, behindGaps_cons hc, if_neg hnot]

theorem newline_not_mem_of_gaps {u : List Char} (hu : ∀ c ∈ u, isGap c = true) : '\n' ∉ u :=
  fun h => absurd (hu _ h) (by decide)

theorem isBlank_of_isGap {c : Char} (h : isGap c = true) : isBlank c = true := by
  simp only [isGap, Bool.or_eq_true, decide_eq_true_eq] at h
  rcases h with (rfl | rfl) | rfl <;> rfl

/-- The rest of the line at the start of a text. -/
def lineOf (cs : List Char) : List Char :=
  cs.takeWhile (· ≠ '\n')

theorem lineOf_append {u : List Char} (hu : '\n' ∉ u) (v : List Char) :
    lineOf (u ++ v) = u ++ lineOf v :=
  List.takeWhile_append_of_pos fun c hc => by
    have : c ≠ '\n' := fun h => hu (h ▸ hc)
    simpa using this

/-- The first line of a text is what stands before its line feed, and the others do not depend on
it. -/
theorem exists_splitAt (v : List Char) : ∃ ls, splitAt '\n' v = lineOf v :: ls ∧
    ∀ u, '\n' ∉ u → splitAt '\n' (u ++ v) = (u ++ lineOf v) :: ls := by
  have hstart : ∃ ls, splitAt '\n' v = lineOf v :: ls := by
    induction v with
    | nil => exact ⟨[], rfl⟩
    | cons c v ih =>
      obtain ⟨ls, hls⟩ := ih
      rw [splitAt] at hls
      rw [splitAt, List.splitOnP_cons_eq_if_modifyHead, hls]
      by_cases hc : c = '\n'
      · exact ⟨lineOf v :: ls, by simp [hc, lineOf]⟩
      · exact ⟨ls, by simp [hc, lineOf]⟩
  obtain ⟨ls, hls⟩ := hstart
  refine ⟨ls, hls, fun u hu => ?_⟩
  induction u with
  | nil => exact hls
  | cons c u ih =>
    rw [List.mem_cons, not_or] at hu
    have hc : c ≠ '\n' := fun h => hu.1 h.symm
    have hrest := ih hu.2
    rw [splitAt] at hrest
    rw [splitAt, List.cons_append, List.splitOnP_cons_eq_if_modifyHead, hrest]
    simp [hc]

end DocLine

/-- The tags of a text that starts on line `k`. A first line with text has no tag; a star counts on
it if it is still to be `decorated`. -/
def tagsFrom (decorated hasText : Bool) (k : Nat) (cs : List Char) : List TagLine :=
  match splitAt '\n' cs with
  | [] => []
  | l :: ls =>
    (if hasText then none else TagLine.ofContent? k (content decorated l)).toList ++
      (ls.zipIdx (k + 1)).filterMap TagLine.ofLine?

section TagsFrom

variable {decorated hasText : Bool} {k : Nat} {u v : List Char}

theorem tagLines_eq (body : List Char) : tagLines body = tagsFrom false false 0 body := by
  obtain ⟨ls, hls, -⟩ := exists_splitAt body
  rw [tagLines, tagsFrom, hls, List.zipIdx_cons, List.filterMap_cons]
  simp only [TagLine.ofLine?, bne_self_eq_false]
  cases TagLine.ofContent? 0 (content false (lineOf body)) <;> rfl

theorem tagsFrom_append (hu : '\n' ∉ u) : tagsFrom decorated hasText k (u ++ v) =
    (if hasText then none else TagLine.ofContent? k (content decorated (u ++ lineOf v))).toList ++
      tagsFrom false true k v := by
  obtain ⟨ls, hls, happend⟩ := exists_splitAt v
  rw [tagsFrom, happend u hu, tagsFrom, hls]
  rfl

theorem tagsFrom_eq : tagsFrom decorated hasText k v =
    (if hasText then none else TagLine.ofContent? k (content decorated (lineOf v))).toList ++
      tagsFrom false true k v :=
  tagsFrom_append (u := []) List.not_mem_nil

theorem tagsFrom_newline :
    tagsFrom decorated hasText k ('\n' :: v) = tagsFrom true false (k + 1) v := by
  obtain ⟨ls, hls, -⟩ := exists_splitAt v
  have hsplit : splitAt '\n' ('\n' :: v) = [] :: lineOf v :: ls := by
    rw [← hls, splitAt, List.splitOnP_cons_eq_if_modifyHead]
    rfl
  have hfirst : (if hasText then none else TagLine.ofContent? k []) = none := by
    cases hasText <;> rfl
  rw [tagsFrom, hsplit, tagsFrom, hls]
  have hnext : TagLine.ofLine? (lineOf v, k + 1) =
      TagLine.ofContent? (k + 1) (content true (lineOf v)) := rfl
  simp only [content_nil, hfirst]
  rw [List.zipIdx_cons, List.filterMap_cons, hnext]
  cases TagLine.ofContent? (k + 1) (content true (lineOf v)) <;> rfl

theorem tagsFrom_gaps (hu : ∀ c ∈ u, isGap c = true) :
    tagsFrom decorated hasText k (u ++ v) = tagsFrom decorated hasText k v := by
  rw [tagsFrom_append (newline_not_mem_of_gaps hu), content_append hu, ← tagsFrom_eq]

theorem tagsFrom_star : tagsFrom true hasText k ('*' :: v) = tagsFrom false hasText k v := by
  have hplain : tagsFrom false hasText k v =
      (if hasText then none else TagLine.ofContent? k (content false (lineOf v))).toList ++
        tagsFrom false true k v := tagsFrom_eq
  rw [← List.singleton_append, tagsFrom_append (by decide), hplain]
  rfl

end TagsFrom

/-! ### Pieces -/

/-- A piece `u` of a comment that goes on with `v`: its kind, and the flags behind it. -/
inductive PieceCut (lineStart hasText : Bool) :
    List Char → List Char → Kind → Bool → Bool → Prop
  | newline {u v : List Char} (hu : u = ['\n'] ∨ u = ['\r', '\n']) :
      PieceCut lineStart hasText u v .docBlank true false
  | gaps {u v : List Char} (hu : ∀ c ∈ u, isGap c = true) :
      PieceCut lineStart hasText u v .docBlank lineStart hasText
  | star {v : List Char} (hstart : lineStart = true) :
      PieceCut lineStart hasText ['*'] v .docStar false hasText
  | tag {name v : List Char} (htext : hasText = false) (hname : name.head?.any isTagStart = true)
      (hchars : ∀ c ∈ name, isTagChar c = true) (hstop : v.head?.any isTagChar = false) :
      PieceCut lineStart hasText ('@' :: name) v .docTag false true
  | text {c : Char} {u v : List Char} (hgap : isGap c = false) (hline : '\n' ∉ c :: u)
      (hstar : lineStart = true → c ≠ '*')
      (htag : hasText = false → c = '@' → (u ++ v).head?.any isTagStart = false)
      (htrim : (∃ d ∈ lineOf (c :: (u ++ v)), isBlank d = false) →
        c :: u = trimEnd (lineOf (c :: (u ++ v)))) :
      PieceCut lineStart hasText (c :: u) v .docText false true

/-- Pieces that the lexer cuts one after the other, beginning with the given flags. -/
inductive Pieces : Bool → Bool → List (Kind × List Char) → Prop
  | nil {lineStart hasText : Bool} : Pieces lineStart hasText []
  | cons {lineStart hasText lineStart' hasText' : Bool} {u : List Char} {k : Kind}
      {ps : List (Kind × List Char)} (hcut : PieceCut lineStart hasText u (spelled ps) k lineStart' hasText')
      (h : Pieces lineStart' hasText' ps) : Pieces lineStart hasText ((k, u) :: ps)

namespace Lexer

theorem docLine_body {B : List Char} (hB : NoClose B) (z : List Char) :
    docLine (B ++ '*' :: '/' :: z) = lineOf B := by
  induction B with
  | nil => rfl
  | cons c B ih =>
    have hclose : ¬ startsWith "*/".toList (c :: (B ++ '*' :: '/' :: z)) = true := by
      rw [startsWith_close]
      rintro ⟨rfl, hslash⟩
      cases B with
      | nil => cases hslash
      | cons d B =>
        obtain rfl : d = '/' := Option.some.inj hslash
        exact hB [] B rfl
    rw [List.cons_append, docLine, ih (NoClose.right (u := [c]) hB), lineOf, lineOf,
      List.takeWhile_cons]
    by_cases hc : c = '\n'
    · rw [if_pos (by simp [hc])]
      simp [hc]
    · rw [if_neg (by simpa [hc] using hclose)]
      simp [hc]

theorem any_head?_append {p : Char → Bool} {d : Char} (hd : p d = false) (u v : List Char) :
    (u ++ d :: v).head?.any p = u.head?.any p := by
  cases u with
  | nil => exact hd
  | cons c u => rfl

theorem takeWhile_append_cons {p : Char → Bool} {d : Char} (hd : p d = false) (u v : List Char) :
    (u ++ d :: v).takeWhile p = u.takeWhile p := by
  induction u with
  | nil => exact List.takeWhile_cons_of_neg (by simp [hd])
  | cons c u ih => rw [List.cons_append, List.takeWhile_cons, List.takeWhile_cons, ih]

theorem take_docTextLength {c : Char} {B : List Char} (hB : NoClose (c :: B)) (z : List Char)
    (hc : c ≠ '\n') :
    ∃ n, docTextLength (c :: (B ++ '*' :: '/' :: z)) = n + 1 ∧ '\n' ∉ c :: B.take n ∧
      ((∃ d ∈ lineOf (c :: B), isBlank d = false) → c :: B.take n = trimEnd (lineOf (c :: B))) := by
  have hline : docLine (c :: (B ++ '*' :: '/' :: z)) = lineOf (c :: B) := docLine_body hB z
  rw [docTextLength, hline]
  have hprefix : trimEnd (lineOf (c :: B)) <+: c :: B :=
    (prefix_trimEnd _).trans (List.takeWhile_prefix _)
  by_cases hnil : trimEnd (lineOf (c :: B)) = []
  · refine ⟨0, by rw [hnil]; rfl, by simpa using hc.symm, ?_⟩
    rintro ⟨d, hd, hblank⟩
    obtain ⟨a, b, hab⟩ := List.append_of_mem hd
    have hlt := lt_length_trimEnd (u := a) (v := b) hblank
    rw [← hab, hnil] at hlt
    cases hlt
  · have hpos := List.length_pos_iff.2 hnil
    obtain ⟨n, hn⟩ : ∃ n, (trimEnd (lineOf (c :: B))).length = n + 1 := ⟨_, (Nat.succ_pred_eq_of_pos hpos).symm⟩
    have htake : c :: B.take n = trimEnd (lineOf (c :: B)) := by
      rw [List.prefix_iff_eq_take.1 hprefix, hn, List.take_succ_cons]
    refine ⟨n, by omega, ?_, fun _ => htake⟩
    rw [htake]
    intro hmem
    have := List.mem_takeWhile_imp ((prefix_trimEnd _).subset hmem)
    simp at this

theorem pieceCut_gaps {lineStart hasText : Bool} {p : Char → Bool}
    (hp : ∀ c, p c = true → isGap c = true) (B : List Char) :
    PieceCut lineStart hasText (B.take (B.takeWhile p).length) (B.drop (B.takeWhile p).length)
      .docBlank lineStart hasText := by
  refine .gaps fun d hd => hp d ?_
  rw [← List.prefix_iff_eq_take.1 (List.takeWhile_prefix _)] at hd
  exact List.mem_takeWhile_imp hd

theorem pieceCut_tag {lineStart : Bool} {B : List Char} (hhead : B.head?.any isTagStart = true) :
    PieceCut lineStart false ('@' :: B.take (B.takeWhile isTagChar).length)
      (B.drop (B.takeWhile isTagChar).length) .docTag false true := by
  rw [← List.prefix_iff_eq_take.1 (List.takeWhile_prefix _)]
  refine .tag rfl ?_ (fun d hd => List.mem_takeWhile_imp hd) ?_
  · cases B with
    | nil => cases hhead
    | cons d B =>
      have hd : isTagStart d = true := hhead
      rw [List.takeWhile_cons_of_pos (isTagChar_of_isTagStart hd)]
      exact hd
  · rw [drop_length_takeWhile]
    cases hdrop : (B.dropWhile isTagChar).head? with
    | none => rfl
    | some d =>
      have hd := List.head?_dropWhile_not isTagChar B
      rw [hdrop] at hd
      exact hd

/-- The cuts inside of a comment. -/
theorem pieceCut {lineStart hasText : Bool} {B : List Char} (hB : NoClose B) (hne : B ≠ [])
    (z : List Char) {cut : Cut} (hcut : cutDoc lineStart hasText (B ++ '*' :: '/' :: z) = cut) :
    ∃ lineStart' hasText', cut.mode = .doc lineStart' hasText' ∧
      PieceCut lineStart hasText (B.take cut.length) (B.drop cut.length) cut.kind lineStart' hasText' := by
  obtain ⟨c, B, rfl⟩ := List.exists_cons_of_ne_nil hne
  have hsecond : ∀ d, (B ++ '*' :: '/' :: z).head? = some d → d ≠ '*' → ∃ B', B = d :: B' := by
    intro d hd hstar
    cases B with
    | nil => exact absurd (Option.some.inj hd).symm hstar
    | cons e B =>
      obtain rfl : e = d := Option.some.inj hd
      exact ⟨B, rfl⟩
  rw [List.cons_append, cutDoc_cons] at hcut
  subst hcut
  split_ifs with hclose hfeed hreturn hcrlf hblank hstar htag
  · obtain ⟨rfl, hslash⟩ := hclose
    obtain ⟨B, rfl⟩ := hsecond '/' hslash (by decide)
    exact absurd rfl (hB [] B)
  · subst hfeed
    exact ⟨true, false, rfl, .newline (.inl rfl)⟩
  · subst hreturn
    obtain ⟨B, rfl⟩ := hsecond '\n' hcrlf (by decide)
    exact ⟨true, false, rfl, .newline (.inr rfl)⟩
  · subst hreturn
    exact ⟨_, _, rfl, .gaps (by simp [isGap])⟩
  · rw [← List.cons_append, takeWhile_append_cons (by decide)]
    exact ⟨_, _, rfl, pieceCut_gaps (fun d hd => by rw [isGap, hd]; rfl) (c :: B)⟩
  · obtain ⟨rfl, hstart⟩ := hstar
    exact ⟨_, _, rfl, .star hstart⟩
  · obtain ⟨rfl, rfl, hhead⟩ := htag
    rw [any_head?_append (by decide)] at hhead
    rw [takeWhile_append_cons (by decide), Nat.add_comm]
    exact ⟨_, _, rfl, pieceCut_tag hhead⟩
  · rw [any_head?_append (by decide)] at htag
    obtain ⟨n, hn, hmem, htrim⟩ := take_docTextLength hB z hfeed
    rw [hn]
    refine ⟨_, _, rfl, ?_⟩
    simp only [List.take_succ_cons, List.drop_succ_cons]
    refine .text ?_ hmem (fun hstart hc => hstar ⟨hc, hstart⟩) (fun htext hc => ?_) ?_
    · rw [not_or] at hblank
      simp [isGap, hblank.1, hblank.2, hreturn]
    · rw [List.take_append_drop]
      exact Bool.eq_false_iff.2 fun hhead => htag ⟨hc, htext, hhead⟩
    · rw [List.take_append_drop]
      exact htrim

end Lexer

theorem PieceCut.isDocPiece {lineStart hasText lineStart' hasText' : Bool} {u v : List Char}
    {k : Kind} (h : PieceCut lineStart hasText u v k lineStart' hasText') : k.isDocPiece = true := by
  cases h <;> rfl

theorem Pieces.isDocPiece {lineStart hasText : Bool} {ps : List (Kind × List Char)}
    (h : Pieces lineStart hasText ps) : ∀ l ∈ ps, l.1.isDocPiece = true := by
  induction h with
  | nil => exact List.forall_mem_nil _
  | cons hcut _ ih => exact List.forall_mem_cons.2 ⟨hcut.isDocPiece, ih⟩

namespace Lexer

theorem pieces_of_run (s : Lexer) {lineStart hasText : Bool} (hmode : s.mode = .doc lineStart hasText)
    {ps post : List (Kind × List Char)} (hrun : s.run (spelled (ps ++ post)) = ps ++ post)
    {z : List Char} (hpost : spelled post = '*' :: '/' :: z) (hbody : NoClose (spelled ps)) :
    Pieces lineStart hasText ps := by
  induction ps generalizing s lineStart hasText with
  | nil => exact .nil
  | cons l ps ih =>
    rw [List.cons_append] at hrun
    obtain ⟨cut, hcut, hkind, hlength, hne, hrest⟩ := cut_of_run hrun
    rw [Lexer.cut, hmode, spelled_append, hpost, ← List.append_assoc] at hcut
    obtain ⟨lineStart', hasText', hmode', hpiece⟩ := pieceCut hbody (by simp [hne]) z hcut
    rw [hlength, spelled_cons, List.take_left, List.drop_left, ← hkind] at hpiece
    exact .cons hpiece (ih (s.advance cut) hmode' hrest hbody.right)

/-- The inside of a doc comment is read as pieces. -/
theorem pieces_run (s : Lexer) {lineStart hasText : Bool} (hmode : s.mode = .doc lineStart hasText)
    {B : List Char} (hB : NoClose B) (z : List Char) :
    ∃ ps, s.run (B ++ '*' :: '/' :: z) =
        ps ++ (.docClose, ['*', '/']) :: { s with mode := .php }.run z ∧
      spelled ps = B ∧ Pieces lineStart hasText ps := by
  obtain ⟨ps, hrun, rfl, -⟩ := run_doc s (by rw [hmode]; rfl) hB z
  have hpost : spelled ((.docClose, ['*', '/']) :: { s with mode := .php }.run z) = '*' :: '/' :: z := by
    rw [spelled_cons, spelled_run]
    rfl
  refine ⟨ps, hrun, rfl, pieces_of_run s hmode ?_ hpost hB⟩
  rw [spelled_append, hpost, hrun]

end Lexer

/-- Unless the rest of a line is blank, the next piece apart from gaps is its text. -/
def HasText (rest : List Char) (ps : List (Kind × List Char)) : Prop :=
  (∃ c ∈ rest, isBlank c = false) → ∃ gaps ps',
    ps = gaps ++ (.docText, trimEnd (behindGaps rest)) :: ps' ∧
      ∀ l ∈ gaps, l.1 = .docBlank ∧ '\n' ∉ l.2

/-- The tags among pieces, the first of which is on line `k`. -/
inductive TagsRead : Nat → List (Kind × List Char) → List TagLine → Prop
  | nil (k : Nat) : TagsRead k [] []
  | other {k : Nat} {l : Kind × List Char} {ps : List (Kind × List Char)} {ts : List TagLine}
      (hkind : l.1 ≠ .docTag) (h : TagsRead (k + l.2.count '\n') ps ts) : TagsRead k (l :: ps) ts
  | tag {k : Nat} {name rest : List Char} {ps : List (Kind × List Char)} {ts : List TagLine}
      (hname : '\n' ∉ name) (htext : HasText rest ps) (h : TagsRead k ps ts) :
      TagsRead k ((.docTag, name) :: ps) (⟨k, name, rest⟩ :: ts)

/-- Behind a tag stands the text of its line. -/
theorem Pieces.hasText {ps : List (Kind × List Char)} (h : Pieces false true ps) :
    HasText (lineOf (spelled ps)) ps := by
  generalize hstart : false = lineStart at h
  generalize htext : true = hasText at h
  induction h with
  | nil =>
    rintro ⟨c, hc, -⟩
    cases hc
  | @cons _ _ _ _ u k ps hcut h ih =>
    simp only [spelled_cons]
    cases hcut with
    | newline hu =>
      rintro ⟨c, hc, hblank⟩
      have hc' : c = '\r' := by
        rcases hu with rfl | rfl
        · cases hc
        · exact List.mem_singleton.1 hc
      rw [hc'] at hblank
      cases hblank
    | gaps hu =>
      have hline := newline_not_mem_of_gaps hu
      rw [lineOf_append hline]
      rintro ⟨c, hc, hblank⟩
      have hc' : c ∈ lineOf (spelled ps) := by
        refine (List.mem_append.1 hc).resolve_left fun hcu => ?_
        rw [isBlank_of_isGap (hu c hcu)] at hblank
        cases hblank
      obtain ⟨gaps, ps', hps, hgaps⟩ := ih hstart htext ⟨c, hc', hblank⟩
      refine ⟨(.docBlank, u) :: gaps, ps', ?_, List.forall_mem_cons.2 ⟨⟨rfl, hline⟩, hgaps⟩⟩
      rw [behindGaps_append hu, List.cons_append, ← hps]
    | star hstar => cases hstart.trans hstar
    | tag hno => cases htext.trans hno
    | @text c u v hgap hline _ _ htrim =>
      intro hblank
      refine ⟨[], ps, ?_, List.forall_mem_nil _⟩
      rw [List.cons_append] at hblank ⊢
      have hstart : lineOf (c :: (u ++ spelled ps)) = c :: (u ++ lineOf (spelled ps)) :=
        lineOf_append hline _
      rw [hstart, behindGaps_cons hgap, ← hstart, ← htrim hblank, List.nil_append]

theorem lineOf_head {p : Char → Bool} {v : List Char} (h : v.head?.any p = false) :
    (lineOf v).head?.any p = false := by
  cases v with
  | nil => rfl
  | cons c v =>
    rw [lineOf, List.takeWhile_cons]
    split
    · exact h
    · rfl

theorem TagLine.ofContent?_tag {k : Nat} {name rest : List Char}
    (hhead : name.head?.any isTagStart = true) (hchars : ∀ c ∈ name, isTagChar c = true)
    (hrest : rest.head?.any isTagChar = false) :
    ofContent? k ('@' :: (name ++ rest)) = some ⟨k, '@' :: name, rest⟩ := by
  have hstart : (name ++ rest).head?.any isTagStart = true := by
    cases name with
    | nil => cases hhead
    | cons c name => exact hhead
  have htake : rest.takeWhile isTagChar = [] := by
    cases rest with
    | nil => rfl
    | cons c rest => exact List.takeWhile_cons_of_neg (by simpa using hrest)
  have hdrop : rest.dropWhile isTagChar = rest := by
    cases rest with
    | nil => rfl
    | cons c rest => exact List.dropWhile_cons_of_neg (by simpa using hrest)
  rw [ofContent?, if_pos hstart, List.takeWhile_append_of_pos hchars, htake, List.append_nil,
    List.dropWhile_append_of_pos hchars, hdrop]

theorem TagLine.ofContent?_eq_none (k : Nat) {c : Char} {cs : List Char}
    (h : c = '@' → cs.head?.any isTagStart = false) : ofContent? k (c :: cs) = none := by
  unfold ofContent?
  split
  · rename_i heq
    obtain ⟨rfl, rfl⟩ := List.cons.inj heq
    rw [h rfl]
    rfl
  · rfl

/-- The pieces of a comment hold the tags that its lines tell of. -/
theorem Pieces.tagsRead {lineStart hasText : Bool} {ps : List (Kind × List Char)}
    (h : Pieces lineStart hasText ps) (k : Nat) :
    TagsRead k ps (tagsFrom lineStart hasText k (spelled ps)) := by
  induction h generalizing k with
  | @nil lineStart hasText =>
    have hnone : tagsFrom lineStart hasText k (spelled []) = [] := by
      cases hasText <;> cases lineStart <;> rfl
    rw [hnone]
    exact .nil k
  | @cons lineStart hasText _ _ u _ ps hcut h ih =>
    simp only [spelled_cons]
    cases hcut with
    | newline hu =>
      refine .other (by simp) ?_
      have hcount : u.count '\n' = 1 := by
        rcases hu with rfl | rfl <;> rfl
      have htags : tagsFrom lineStart hasText k (u ++ spelled ps) =
          tagsFrom true false (k + 1) (spelled ps) := by
        rcases hu with rfl | rfl
        · exact tagsFrom_newline
        · exact (tagsFrom_gaps (u := ['\r']) (by decide)).trans tagsFrom_newline
      rw [hcount, htags]
      exact ih (k + 1)
    | gaps hu =>
      refine .other (by simp) ?_
      rw [List.count_eq_zero.2 (newline_not_mem_of_gaps hu), tagsFrom_gaps hu]
      exact ih k
    | star hstar =>
      subst hstar
      refine .other (by simp) ?_
      rw [List.singleton_append, tagsFrom_star]
      exact ih k
    | @tag name _ hno hhead hchars hstop =>
      subst hno
      have hname : '\n' ∉ '@' :: name := by
        rw [List.mem_cons, not_or]
        exact ⟨by decide, fun h => absurd (hchars _ h) (by decide)⟩
      rw [tagsFrom_append hname, List.cons_append, content_cons (by decide) (by simp),
        TagLine.ofContent?_tag hhead hchars (lineOf_head hstop)]
      exact .tag hname h.hasText (ih k)
    | @text c u _ hgap hline hstar htag =>
      refine .other (by simp) ?_
      rw [List.count_eq_zero.2 hline, tagsFrom_append hline, List.cons_append, content_cons hgap hstar]
      have hnone : (if hasText then none else
          TagLine.ofContent? k (c :: (u ++ lineOf (spelled ps)))) = none := by
        split
        · rfl
        · rename_i hno
          refine TagLine.ofContent?_eq_none k fun hc => ?_
          have hhead := htag (Bool.eq_false_iff.2 hno) hc
          cases u with
          | nil => exact lineOf_head hhead
          | cons d u => exact hhead
      rw [hnone]
      exact ih k

end PhpStyle
