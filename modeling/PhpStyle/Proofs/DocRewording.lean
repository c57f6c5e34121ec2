import PhpStyle.Proofs.Lookahead
import PhpStyle.Proofs.Lexemes

/-!
# Rewording doc comments

A doc comment ends at the first `*/` behind its opener, and nothing inside of it is code. So texts
inside a closed comment may be reworded in any way that brings no `*/` about (`Reworded.noClose`):
the comment ends where it did, the lexer is then in the state it was in, and no lexeme before the
comment has looked into it (`cut_congr`). `SameCode` relates texts that differ in this way only,
and they have the same code (`SameCode.code_run_eq`). The lexemes of a text with new words for some
in its comments spell out such a text (`amended_run`).
-/

namespace PhpStyle

namespace Lexer

/-- No `*/` occurs. -/
def NoClose (cs : List Char) : Prop :=
  ∀ a b, cs ≠ a ++ '*' :: '/' :: b

namespace NoClose

variable {u v : List Char}

theorem nil : NoClose [] := by
  intro a b h
  cases a <;> cases h

theorem left (h : NoClose (u ++ v)) : NoClose u := by
  rintro a b rfl
  exact h a (b ++ v) (by simp)

theorem right (h : NoClose (u ++ v)) : NoClose v := by
  rintro a b rfl
  exact h (u ++ a) b (by simp)

theorem of_not_mem (h : '*' ∉ u) : NoClose u := by
  rintro a b rfl
  exact h (by simp)

theorem meet (h : NoClose (u ++ v)) (hu : u.getLast? = some '*') : v.head? ≠ some '/' := by
  intro hv
  obtain ⟨a, rfl⟩ := List.getLast?_eq_some_iff.1 hu
  obtain ⟨b, rfl⟩ := List.head?_eq_some_iff.1 hv
  exact h a b (by simp)

/-- Nor does one come about where two texts meet. -/
theorem append (hu : NoClose u) (hv : NoClose v)
    (hmeet : u.getLast? = some '*' → v.head? ≠ some '/') : NoClose (u ++ v) := by
  intro a b h
  rcases List.append_eq_append_iff.1 h with ⟨c, rfl, hc⟩ | ⟨c, rfl, hc⟩
  · exact hv c b hc
  · match c with
    | [] => exact hv [] b hc.symm
    | [x] =>
      obtain ⟨rfl, rfl⟩ := List.cons.inj hc
      exact hmeet (by simp) rfl
    | x :: y :: c =>
      simp only [List.cons_append, List.cons.injEq] at hc
      obtain ⟨rfl, rfl, rfl⟩ := hc
      exact hu a c rfl

end NoClose

theorem length_docLine_le_of_close (a b : List Char) :
    (docLine (a ++ '*' :: '/' :: b)).length ≤ a.length := by
  induction a with
  | nil => exact Nat.le_refl 0
  | cons c a ih =>
    rw [List.cons_append, docLine]
    split
    · exact Nat.zero_le _
    · exact Nat.succ_le_succ ih

/-- What a piece of a comment is like that does not close it: it is no code, the comment goes on,
and it ends before the next `*/`. -/
structure DocPiece (cs : List Char) (cut : Cut) : Prop where
  trivia : cut.kind.isTrivia = true
  not_close : cut.kind ≠ .docClose
  stays : cut.mode.isDoc = true
  before_close : ∀ a b, cs = a ++ '*' :: '/' :: b → cut.length ≤ a.length
  no_star : cut.kind = .docTag ∨ cut.kind = .docBlank → '*' ∉ cs.take cut.length

theorem DocPiece.of_starless {u cs : List Char} {cut : Cut} (hstart : u <+: cs) (hu : '*' ∉ u)
    (hlength : cut.length = u.length) (htrivia : cut.kind.isTrivia = true)
    (hkind : cut.kind ≠ .docClose) (hmode : cut.mode.isDoc = true) : DocPiece cs cut := by
  obtain ⟨r, rfl⟩ := hstart
  refine ⟨htrivia, hkind, hmode, fun a b h => ?_, fun _ => ?_⟩
  · rw [hlength]
    rcases List.append_eq_append_iff.1 h with ⟨c, rfl, -⟩ | ⟨c, rfl, hc⟩
    · rw [List.length_append]
      exact Nat.le_add_right _ _
    · cases c with
      | nil => rw [List.append_nil]
      | cons d c =>
        obtain ⟨rfl, -⟩ := List.cons.inj hc
        exact absurd (by simp) hu
  · rw [hlength, List.take_left]
    exact hu

theorem not_mem_takeWhile {p : Char → Bool} {c : Char} (hc : p c = false) (cs : List Char) :
    c ∉ cs.takeWhile p := by
  intro hmem
  rw [List.mem_takeWhile_imp hmem] at hc
  cases hc

theorem length_pos_of_close {c : Char} {cs a b : List Char}
    (hclose : ∀ b, c = '*' → cs = '/' :: b → False) (h : c :: cs = a ++ '*' :: '/' :: b) :
    0 < a.length := by
  cases a with
  | nil => exact (hclose b (List.cons.inj h).1 (List.cons.inj h).2).elim
  | cons d a => exact Nat.succ_pos _

theorem docTextLength_le_of_close {c : Char} {cs a b : List Char}
    (hclose : ∀ b, c = '*' → cs = '/' :: b → False) (h : c :: cs = a ++ '*' :: '/' :: b) :
    docTextLength (c :: cs) ≤ a.length := by
  have hline := length_docLine_le_of_close a b
  rw [← h] at hline
  have htrim := Text.length_dropTail_le Text.isBlank (docLine (c :: cs))
  have hpos := length_pos_of_close hclose h
  simp only [docTextLength, Text.trimEnd]
  omega

/-- What is read inside a comment closes it or is a piece of it. -/
theorem cutDoc_cases (lineStart hasText : Bool) (c : Char) (cs : List Char) :
    (∃ rest, c :: cs = '*' :: '/' :: rest ∧
      cutDoc lineStart hasText (c :: cs) = ⟨.docClose, 2, .php⟩) ∨
    DocPiece (c :: cs) (cutDoc lineStart hasText (c :: cs)) := by
  unfold cutDoc
  split
  case h_1 rest heq => exact .inl ⟨rest, heq, rfl⟩
  case h_2 rest heq =>
    rw [heq]
    exact .inr (.of_starless (u := ['\n']) ⟨rest, rfl⟩ (by decide) rfl rfl nofun rfl)
  case h_3 rest heq =>
    rw [heq]
    exact .inr (.of_starless (u := ['\r', '\n']) ⟨rest, rfl⟩ (by decide) rfl rfl nofun rfl)
  case h_4 rest hnl heq =>
    rw [heq]
    exact .inr (.of_starless (u := ['\r']) ⟨rest, rfl⟩ (by decide) rfl rfl nofun rfl)
  case h_5 d rest hclose hnl hcrlf hcr heq =>
    obtain ⟨rfl, rfl⟩ := List.cons.inj heq
    right
    split
    · exact .of_starless (List.takeWhile_prefix _) (not_mem_takeWhile rfl _) rfl rfl nofun rfl
    split
    · exact ⟨rfl, nofun, rfl, fun a b h => length_pos_of_close hclose h, fun h => by simp at h⟩
    split
    · rename_i htag
      simp only [Bool.and_eq_true, decide_eq_true_eq] at htag
      obtain ⟨⟨rfl, -⟩, -⟩ := htag
      have hstar : '*' ∉ '@' :: cs.takeWhile isTagChar := by
        simp only [List.mem_cons, not_or]
        exact ⟨by decide, not_mem_takeWhile rfl _⟩
      exact .of_starless (List.cons_prefix_cons.2 ⟨rfl, List.takeWhile_prefix _⟩) hstar
        (Nat.add_comm _ _) rfl nofun rfl
    · exact ⟨rfl, nofun, rfl, fun a b h => docTextLength_le_of_close hclose h,
        fun h => by simp at h⟩
  case h_6 heq => cases heq

theorem exists_of_isDoc {m : Mode} (h : m.isDoc = true) :
    ∃ lineStart hasText, m = .doc lineStart hasText := by
  cases m with
  | html => cases h
  | php => cases h
  | doc lineStart hasText => exact ⟨lineStart, hasText, rfl⟩

theorem NoClose.eq_nil_of_close {B after rest : List Char} (hB : NoClose B)
    (h : B ++ '*' :: '/' :: after = '*' :: '/' :: rest) : B = [] ∧ after = rest := by
  match B with
  | [] => exact ⟨rfl, (List.cons.inj (List.cons.inj h).2).2⟩
  | [x] => cases (List.cons.inj (List.cons.inj h).2).1
  | x :: y :: B =>
    simp only [List.cons_append, List.cons.injEq] at h
    obtain ⟨rfl, rfl, -⟩ := h
    exact absurd rfl (hB [] B)

theorem DocPiece.noClose_append {cs : List Char} {cut : Cut} (h : DocPiece cs cut)
    {B after : List Char} (hrest : cs.drop cut.length = B ++ '*' :: '/' :: after) (hB : NoClose B) :
    NoClose (cs.take cut.length ++ B) := by
  intro a b hab
  have hcs : cs = a ++ '*' :: '/' :: (b ++ '*' :: '/' :: after) := by
    rw [← List.take_append_drop cut.length cs, hrest, ← List.append_assoc, hab, List.append_assoc,
      List.cons_append, List.cons_append]
  have hle := h.before_close a _ hcs
  -- what starts behind the piece lies in `B`
  obtain ⟨c, rfl⟩ : ∃ c, a = cs.take cut.length ++ c := by
    refine ⟨a.drop cut.length, ?_⟩
    rw [hcs, List.take_append_of_le_length hle, List.take_append_drop]
  rw [List.append_assoc] at hab
  exact hB c b (List.append_cancel_left hab)

/-- The lexemes that are code. -/
def code (ls : List (Kind × List Char)) : List (Kind × List Char) :=
  ls.filter fun l => l.1.isEffective

theorem run_of_ne_nil (s : Lexer) {cs : List Char} (h : cs ≠ []) :
    s.run cs = ((s.cut cs).kind, cs.take (s.cut cs).length) ::
      (s.advance (s.cut cs)).run (cs.drop (s.cut cs).length) := by
  rw [run, if_neg h]

theorem advance_of_trivia (s : Lexer) {cut : Cut} (h : cut.kind.isTrivia = true) :
    s.advance cut = { s with mode := cut.mode } := by
  obtain ⟨k, n, m⟩ := cut
  cases k <;> cases h <;> rfl

theorem code_cons_of_trivia {l : Kind × List Char} (h : l.1.isTrivia = true)
    (ls : List (Kind × List Char)) : code (l :: ls) = code ls := by
  simp [code, Kind.isEffective, h]

theorem code_run_doc (s : Lexer) (hmode : s.mode.isDoc = true) {B : List Char} (hB : NoClose B)
    (after : List Char) :
    code (s.run (B ++ '*' :: '/' :: after)) = code ({ s with mode := .php }.run after) := by
  induction hn : B.length using Nat.strongRecOn generalizing s B with | _ n ih
  obtain ⟨lineStart, hasText, hm⟩ := exists_of_isDoc hmode
  obtain ⟨c, cs, hcs⟩ := List.exists_cons_of_ne_nil (l := B ++ '*' :: '/' :: after) (by simp)
  have hcut : s.cut (B ++ '*' :: '/' :: after) = cutDoc lineStart hasText (c :: cs) := by
    rw [cut, hm, hcs]
  rw [run_of_ne_nil s (by simp), hcut]
  rcases cutDoc_cases lineStart hasText c cs with ⟨rest, hclose, heq⟩ | hpiece
  · rw [← hcs] at hclose
    obtain ⟨rfl, rfl⟩ := hB.eq_nil_of_close hclose
    rw [heq, code_cons_of_trivia (by rfl), advance_of_trivia s (by rfl)]
    rfl
  · have hle := hpiece.before_close B after hcs.symm
    have hpos := (cutDoc_fits lineStart hasText c cs).pos
    rw [code_cons_of_trivia hpiece.trivia, advance_of_trivia s hpiece.trivia,
      List.drop_append_of_le_length hle]
    rw [← List.take_append_drop (cutDoc lineStart hasText (c :: cs)).length B] at hB
    refine ih _ ?_ _ hpiece.stays hB.right rfl
    rw [List.length_drop]
    omega

/-- What may stand in a comment in place of `old`: it closes the comment no more than `old` does,
and ends in a star only where `old` does. -/
structure Harmless (old new : List Char) : Prop where
  noClose : NoClose old → NoClose new
  last : new.getLast? = some '*' → old.getLast? = some '*'

/-- Some texts of a comment are replaced, each behind a piece without stars. -/
inductive Reworded : List Char → List Char → Prop
  | nil : Reworded [] []
  | keep (c : Char) {B B' : List Char} (h : Reworded B B') : Reworded (c :: B) (c :: B')
  | replace {u old new B B' : List Char} (hne : u ≠ []) (hu : '*' ∉ u) (hnew : Harmless old new)
      (h : Reworded B B') : Reworded (u ++ (old ++ B)) (u ++ (new ++ B'))

namespace Reworded

variable {B B' : List Char}

theorem head? (h : Reworded B B') : B'.head? = B.head? := by
  cases h with
  | nil => rfl
  | keep c h => rfl
  | replace hne =>
    obtain ⟨c, u, rfl⟩ := List.exists_cons_of_ne_nil hne
    rfl

theorem noClose (h : Reworded B B') (hB : NoClose B) : NoClose B' := by
  induction h with
  | nil => exact .nil
  | keep c h ih =>
    refine NoClose.append (u := [c]) (NoClose.left hB) (ih (NoClose.right (u := [c]) hB)) ?_
    rw [h.head?]
    exact NoClose.meet hB
  | replace hne hu hnew h ih =>
    have hrest := NoClose.right hB
    refine .append (.of_not_mem hu) (.append (hnew.noClose hrest.left) (ih hrest.right) ?_) ?_
    · rw [h.head?]
      exact fun hlast => hrest.meet (hnew.last hlast)
    · exact fun hlast => absurd (List.mem_of_getLast? hlast) hu

theorem keep_append (u : List Char) (h : Reworded B B') : Reworded (u ++ B) (u ++ B') := by
  induction u with
  | nil => exact h
  | cons c u ih => exact .keep c ih

end Reworded

/-- The texts differ in closed doc comments only, and there by harmless rewording; `s` is the
lexer's state before them. -/
inductive SameCode : Lexer → List Char → List Char → Prop
  | refl (s : Lexer) (cs : List Char) : SameCode s cs cs
  | lexeme (s : Lexer) {cs rest' : List Char} (hmode : s.mode.isDoc = false) (hne : cs ≠ [])
      (h : SameCode (s.advance (s.cut cs)) (cs.drop (s.cut cs).length) rest') :
      SameCode s cs (cs.take (s.cut cs).length ++ rest')
  | comment (s : Lexer) {B B' after after' : List Char} (hmode : s.mode = .php) (hB : NoClose B)
      (hslash : B.head? ≠ some '/') (hwords : Reworded B B') (h : SameCode s after after') :
      SameCode s ('/' :: '*' :: '*' :: (B ++ '*' :: '/' :: after))
        ('/' :: '*' :: '*' :: (B' ++ '*' :: '/' :: after'))

theorem SameCode.eq_or_slash {s : Lexer} {cs cs' : List Char} (h : SameCode s cs cs') :
    cs' = cs ∨ ∃ w z z', cs = w ++ '/' :: z ∧ cs' = w ++ '/' :: z' := by
  induction h with
  | refl s cs => exact .inl rfl
  | lexeme s hmode hne h ih =>
    rename_i cs rest'
    have hcs := List.take_append_drop (s.cut cs).length cs
    rcases ih with heq | ⟨w, z, z', hz, hz'⟩
    · exact .inl (by rw [heq, hcs])
    · refine .inr ⟨cs.take (s.cut cs).length ++ w, z, z', ?_, ?_⟩
      · rw [List.append_assoc, ← hz, hcs]
      · rw [List.append_assoc, ← hz']
  | comment => exact .inr ⟨[], _, _, rfl, rfl⟩

theorem cut_docOpen (s : Lexer) (hmode : s.mode = .php) {cs : List Char} (h : cs.head? ≠ some '/') :
    s.cut ('/' :: '*' :: '*' :: cs) = ⟨.docOpen, 3, .doc false false⟩ := by
  rw [cut, hmode]
  cases cs with
  | nil => rfl
  | cons c cs =>
    have hc : c ≠ '/' := fun hc => h (by rw [hc]; rfl)
    simp [cutPhp, hc]

theorem code_run_comment (s : Lexer) (hmode : s.mode = .php) {B : List Char} (hB : NoClose B)
    (hslash : B.head? ≠ some '/') (after : List Char) :
    code (s.run ('/' :: '*' :: '*' :: (B ++ '*' :: '/' :: after))) = code (s.run after) := by
  have hhead : (B ++ '*' :: '/' :: after).head? ≠ some '/' := by
    cases B with
    | nil => simp
    | cons c B => exact hslash
  rw [run_of_ne_nil s (by simp), cut_docOpen s hmode hhead, code_cons_of_trivia (by rfl),
    advance_of_trivia s (by rfl)]
  have hdoc := code_run_doc { s with mode := .doc false false } rfl hB after
  have hstate : { s with mode := Mode.php } = s := by rw [← hmode]
  simp only [hstate] at hdoc
  exact hdoc

theorem length_take_cut (s : Lexer) {cs : List Char} (hne : cs ≠ []) :
    (cs.take (s.cut cs).length).length = (s.cut cs).length := by
  rw [List.length_take, Nat.min_eq_left (s.cut_fits hne).le]

/-- The lexeme before texts that differ by harmless rewording is the same. -/
theorem SameCode.cut_eq {s : Lexer} {cs rest' : List Char} (hmode : s.mode.isDoc = false)
    (hne : cs ≠ []) (h : SameCode (s.advance (s.cut cs)) (cs.drop (s.cut cs).length) rest') :
    s.cut (cs.take (s.cut cs).length ++ rest') = s.cut cs := by
  have hlength := s.length_take_cut hne
  rcases h.eq_or_slash with heq | ⟨w, z, z', hz, hz'⟩
  · rw [heq, List.take_append_drop]
  · have hcs : (cs.take (s.cut cs).length ++ w) ++ '/' :: z = cs := by
      rw [List.append_assoc, ← hz, List.take_append_drop]
    have hle : (s.cut ((cs.take (s.cut cs).length ++ w) ++ '/' :: z)).length ≤
        (cs.take (s.cut cs).length ++ w).length := by
      rw [hcs, List.length_append, hlength]
      exact Nat.le_add_right _ _
    have hpos := (s.cut_fits hne).pos
    have hne' : cs.take (s.cut cs).length ++ w ≠ [] := by
      refine List.ne_nil_of_length_pos ?_
      rw [List.length_append, hlength]
      omega
    rw [hz', ← List.append_assoc, cut_congr s hmode hne' hle, hcs]

/-- Texts that differ by harmless rewording have the same code. -/
theorem SameCode.code_run_eq {s : Lexer} {cs cs' : List Char} (h : SameCode s cs cs') :
    code (s.run cs') = code (s.run cs) := by
  induction h with
  | refl s cs => rfl
  | lexeme s hmode hne h ih =>
    rename_i cs rest'
    have hlength := s.length_take_cut hne
    have hpos := (s.cut_fits hne).pos
    have hne' : cs.take (s.cut cs).length ++ rest' ≠ [] := by
      refine List.ne_nil_of_length_pos ?_
      rw [List.length_append, hlength]
      omega
    rw [run_of_ne_nil s hne', run_of_ne_nil s hne, h.cut_eq hmode hne, List.take_left' hlength,
      List.drop_left' hlength]
    simp only [code, List.filter_cons] at ih ⊢
    rw [ih]
  | comment s hmode hB hslash hwords h ih =>
    have hslash' := hslash
    rw [← hwords.head?] at hslash'
    rw [code_run_comment s hmode hB hslash, code_run_comment s hmode (hwords.noClose hB) hslash', ih]

/-! ### Reworded lexemes -/

/-- New texts for lexemes: those of some texts of closed comments are replaced, each right behind a
tag or a blank. -/
inductive Amended : List (Kind × List Char) → List (List Char) → Prop
  | nil : Amended [] []
  | keep (l : Kind × List Char) {ls : List (Kind × List Char)} {ns : List (List Char)}
      (h : Amended ls ns) : Amended (l :: ls) (l.2 :: ns)
  | replace {k : Kind} {u old new : List Char} {ls : List (Kind × List Char)} {ns : List (List Char)}
      (hk : k = .docTag ∨ k = .docBlank) (hclosed : ∃ l ∈ ls, l.1 = .docClose)
      (hnew : Harmless old new) (h : Amended ls ns) :
      Amended ((k, u) :: (.docText, old) :: ls) (u :: new :: ns)

/-- What amending the pieces of a comment from `cs` on does: the comment is reworded and the text
behind it has the same code, or it is never closed and stays as it is. -/
def AmendsDoc (s : Lexer) (cs new : List Char) : Prop :=
  (∃ B B' after after', cs = B ++ '*' :: '/' :: after ∧ new = B' ++ '*' :: '/' :: after' ∧
    NoClose B ∧ Reworded B B' ∧ SameCode { s with mode := .php } after after') ∨
  (¬ (∃ l ∈ s.run cs, l.1 = .docClose) ∧ new = cs)

theorem cutWord_mode (last : Option Kind) (cs : List Char) : (cutWord last cs).mode = .php := by
  unfold cutWord
  simp only
  split
  · rfl
  split
  · rfl
  · rfl

theorem cutOperator_mode (last : Option Kind) (cs : List Char) : (cutOperator last cs).mode = .php := by
  unfold cutOperator
  split
  · rfl
  split
  · rfl
  · rfl

theorem cutNumber_mode (cs : List Char) : (cutNumber cs).mode = .php := by
  unfold cutNumber
  split
  · split
    · rfl
    · rfl
  · rfl

/-- The lexeme is none of a doc comment's pieces, nor does one begin behind it. -/
structure Cut.Outside (cut : Cut) : Prop where
  mode : cut.mode.isDoc = false
  not_tag : cut.kind ≠ .docTag
  not_blank : cut.kind ≠ .docBlank

theorem Cut.Outside.of_isPlain {cut : Cut} (hmode : cut.mode = .php) (h : cut.kind.isPlain = true) :
    cut.Outside where
  mode := by rw [hmode]; rfl
  not_tag hk := by rw [hk] at h; cases h
  not_blank hk := by rw [hk] at h; cases h

theorem Cut.Outside.of_bracket {cut : Cut} {c : Char} (hmode : cut.mode = .php)
    (h : cut.kind.bracketText = [c]) : cut.Outside where
  mode := by rw [hmode]; rfl
  not_tag hk := by rw [hk] at h; cases h
  not_blank hk := by rw [hk] at h; cases h

/-- A lexeme of code is outside of doc comments unless it opens one. -/
theorem PhpCut.outside {s : Lexer} {cs : List Char} {cut : Cut} (h : PhpCut s cs cut) :
    cut.Outside ∨ cut = ⟨.docOpen, 3, .doc false false⟩ ∧ ∃ rest, cs = '/' :: '*' :: '*' :: rest := by
  cases h with
  | docOpen cs => exact .inr ⟨rfl, cs, rfl⟩
  | number c cs h => exact .inl (.of_isPlain (cutNumber_mode _) (cutNumber_isPlain _))
  | word c cs => exact .inl (.of_isPlain (cutWord_mode _ _) (cutWord_isPlain _ _))
  | operator c cs => exact .inl (.of_isPlain (cutOperator_mode _ _) (cutOperator_isPlain _ _))
  | openSquare cs =>
    exact .inl (.of_bracket rfl (bracketText_squareKind s.last))
  | closeSquare cs =>
    exact .inl (.of_bracket rfl (bracketText_closeSquareKind s.squares.head?))
  | mark c k cs h =>
    have hmarks : ∀ p ∈ marks, p.2 ≠ .docTag ∧ p.2 ≠ .docBlank := by decide
    exact .inl ⟨rfl, (hmarks _ h).1, (hmarks _ h).2⟩
  | _ => exact .inl ⟨rfl, nofun, nofun⟩

theorem cutHtml_outside (cs : List Char) : (cutHtml cs).Outside := by
  unfold cutHtml
  split
  · exact ⟨rfl, nofun, nofun⟩
  · exact ⟨rfl, nofun, nofun⟩

theorem cut_outside (s : Lexer) (hmode : s.mode.isDoc = false) {cs : List Char} (hne : cs ≠ []) :
    (s.cut cs).Outside ∨ s.cut cs = ⟨.docOpen, 3, .doc false false⟩ ∧ s.mode = .php ∧
      ∃ rest, cs = '/' :: '*' :: '*' :: rest ∧ rest.head? ≠ some '/' := by
  obtain ⟨c, cs, rfl⟩ := List.exists_cons_of_ne_nil hne
  rw [cut]
  split
  · exact .inl (cutHtml_outside _)
  · rename_i hphp
    rcases (s.cutPhp_form c cs).outside with h | ⟨hcut, rest, hrest⟩
    · exact .inl h
    · refine .inr ⟨hcut, hphp, rest, hrest, fun hslash => ?_⟩
      obtain ⟨t, rfl⟩ := List.head?_eq_some_iff.1 hslash
      rw [hrest] at hcut
      cases hcut
  · rename_i hm
    rw [hm] at hmode
    cases hmode

theorem length_drop_cut_lt (s : Lexer) {cs : List Char} (hne : cs ≠ []) :
    (cs.drop (s.cut cs).length).length < cs.length := by
  have hfits := s.cut_fits hne
  have hpos := hfits.pos
  have hle := hfits.le
  rw [List.length_drop]
  omega

theorem cut_of_isDoc (s : Lexer) (hmode : s.mode.isDoc = true) {cs : List Char} (hne : cs ≠ []) :
    (∃ rest, cs = '*' :: '/' :: rest ∧ s.cut cs = ⟨.docClose, 2, .php⟩) ∨ DocPiece cs (s.cut cs) := by
  obtain ⟨lineStart, hasText, hm⟩ := exists_of_isDoc hmode
  obtain ⟨c, cs, rfl⟩ := List.exists_cons_of_ne_nil hne
  rw [cut, hm]
  exact cutDoc_cases lineStart hasText c cs

theorem AmendsDoc.keep {s : Lexer} {cs new : List Char} (hne : cs ≠ [])
    (hpiece : DocPiece cs (s.cut cs))
    (h : AmendsDoc (s.advance (s.cut cs)) (cs.drop (s.cut cs).length) new) :
    AmendsDoc s cs (cs.take (s.cut cs).length ++ new) := by
  have hcs := List.take_append_drop (s.cut cs).length cs
  rw [advance_of_trivia s hpiece.trivia] at h
  rcases h with ⟨B, B', after, after', hB, rfl, hclose, hwords, hafter⟩ | ⟨hopen, rfl⟩
  · refine .inl ⟨_, _, after, after', ?_, (List.append_assoc _ _ _).symm,
      hpiece.noClose_append hB hclose, hwords.keep_append _, hafter⟩
    rw [List.append_assoc, ← hB, hcs]
  · refine .inr ⟨?_, hcs⟩
    rw [run_of_ne_nil s hne, advance_of_trivia s hpiece.trivia]
    rintro ⟨l, hl, hkind⟩
    rcases List.mem_cons.1 hl with rfl | hl
    · exact hpiece.not_close hkind
    · exact hopen ⟨l, hl, hkind⟩

/-- A tag or a blank, and the text behind it, which gets new words. -/
theorem AmendsDoc.replace {s t : Lexer} {cs rest new ns : List Char} (hne : cs ≠ [])
    (hpiece : DocPiece cs (s.cut cs))
    (hkind : (s.cut cs).kind = .docTag ∨ (s.cut cs).kind = .docBlank)
    (ht : s.advance (s.cut cs) = t) (hrest : cs.drop (s.cut cs).length = rest)
    (htext : DocPiece rest (t.cut rest)) (hnew : Harmless (rest.take (t.cut rest).length) new)
    (hclosed : ∃ l ∈ (t.advance (t.cut rest)).run (rest.drop (t.cut rest).length), l.1 = .docClose)
    (h : AmendsDoc (t.advance (t.cut rest)) (rest.drop (t.cut rest).length) ns) :
    AmendsDoc s cs (cs.take (s.cut cs).length ++ (new ++ ns)) := by
  rcases h with ⟨B, B', after, after', hB, rfl, hclose, hwords, hafter⟩ | ⟨hopen, -⟩
  · have hdrop : rest = (rest.take (t.cut rest).length ++ B) ++ '*' :: '/' :: after := by
      rw [List.append_assoc, ← hB, List.take_append_drop]
    have hrestClose := htext.noClose_append hB hclose
    refine .inl ⟨cs.take (s.cut cs).length ++ (rest.take (t.cut rest).length ++ B),
      cs.take (s.cut cs).length ++ (new ++ B'), after, after', ?_, ?_,
      hpiece.noClose_append (hrest.trans hdrop) hrestClose, ?_, ?_⟩
    · rw [List.append_assoc, ← hdrop, ← hrest, List.take_append_drop]
    · simp only [List.append_assoc]
    · refine .replace ?_ (hpiece.no_star hkind) hnew hwords
      refine List.ne_nil_of_length_pos ?_
      rw [s.length_take_cut hne]
      exact (s.cut_fits hne).pos
    · subst ht
      rw [advance_of_trivia _ htext.trivia, advance_of_trivia s hpiece.trivia] at hafter
      exact hafter
  · exact absurd hclosed hopen

/-- A comment opens, and its pieces are amended. -/
theorem AmendsDoc.open {s : Lexer} {rest new : List Char} (hphp : s.mode = .php)
    (hslash : rest.head? ≠ some '/') (h : AmendsDoc { s with mode := .doc false false } rest new) :
    SameCode s ('/' :: '*' :: '*' :: rest) ('/' :: '*' :: '*' :: new) := by
  rcases h with ⟨B, B', after, after', rfl, rfl, hclose, hwords, hafter⟩ | ⟨-, rfl⟩
  · have hstate : { s with mode := Mode.php } = s := by rw [← hphp]
    simp only [hstate] at hafter
    refine .comment s hphp hclose ?_ hwords hafter
    cases B with
    | nil => simp
    | cons c B => exact hslash
  · exact .refl s _

theorem docPiece_of_run {t : Lexer} (hmode : t.mode.isDoc = true) {rest old : List Char}
    {ls : List (Kind × List Char)} (h : t.run rest = (.docText, old) :: ls) :
    rest ≠ [] ∧ DocPiece rest (t.cut rest) ∧ rest.take (t.cut rest).length = old ∧
      (t.advance (t.cut rest)).run (rest.drop (t.cut rest).length) = ls := by
  have hne : rest ≠ [] := by
    rintro rfl
    rw [run, if_pos rfl] at h
    cases h
  rw [run_of_ne_nil t hne] at h
  obtain ⟨hhead, hls⟩ := List.cons.inj h
  obtain ⟨hkind, hold⟩ := Prod.mk.inj hhead
  rcases t.cut_of_isDoc hmode hne with ⟨after, -, hcut⟩ | hpiece
  · rw [hcut] at hkind
    cases hkind
  · exact ⟨hne, hpiece, hold, hls⟩

/-- The lexemes of a text with new words for some: code is as before, and comments are reworded. -/
theorem amended_run (s : Lexer) (cs : List Char) {ns : List (List Char)} (h : Amended (s.run cs) ns) :
    (s.mode.isDoc = false → SameCode s cs ns.flatten) ∧
    (s.mode.isDoc = true → AmendsDoc s cs ns.flatten) := by
  induction hn : cs.length using Nat.strongRecOn generalizing s cs ns with | _ n ih
  by_cases hne : cs = []
  · subst hne
    rw [run, if_pos rfl] at h
    cases h
    refine ⟨fun _ => .refl s [], fun _ => .inr ⟨?_, rfl⟩⟩
    rw [run, if_pos rfl]
    rintro ⟨l, hl, -⟩
    cases hl
  have hlt := s.length_drop_cut_lt hne
  rw [hn] at hlt
  rw [run_of_ne_nil s hne] at h
  generalize hls : (s.advance (s.cut cs)).run (cs.drop (s.cut cs).length) = ls at h
  cases h with
  | keep l h =>
    subst hls
    obtain ⟨ihCode, ihDoc⟩ := ih _ hlt _ _ h rfl
    constructor
    · intro hmode
      rcases s.cut_outside hmode hne with hout | ⟨hcut, hphp, rest, rfl, hslash⟩
      · exact .lexeme s hmode hne (ihCode hout.mode)
      · rw [hcut, advance_of_trivia s (by rfl)] at ihDoc
        rw [hcut]
        exact (ihDoc rfl).open hphp hslash
    · intro hmode
      rcases s.cut_of_isDoc hmode hne with ⟨rest, rfl, hcut⟩ | hpiece
      · rw [hcut, advance_of_trivia s (by rfl)] at ihCode
        rw [hcut]
        exact .inl ⟨[], [], rest, _, rfl, rfl, .nil, .nil, ihCode rfl⟩
      · exact .keep hne hpiece (ihDoc hpiece.stays)
  | replace hk hclosed hnew h =>
    constructor
    · intro hmode
      rcases s.cut_outside hmode hne with hout | ⟨hcut, -⟩
      · exact (hk.elim hout.not_tag hout.not_blank).elim
      · rw [hcut] at hk
        rcases hk with hk | hk <;> cases hk
    · intro hmode
      rcases s.cut_of_isDoc hmode hne with ⟨rest, rfl, hcut⟩ | hpiece
      · rw [hcut] at hk
        rcases hk with hk | hk <;> cases hk
      generalize ht : s.advance (s.cut cs) = t at hls
      generalize hrest : cs.drop (s.cut cs).length = rest at hls hlt
      obtain ⟨hrestNe, htext, rfl, rfl⟩ := docPiece_of_run (ht ▸ hpiece.stays) hls
      have hlt' := t.length_drop_cut_lt hrestNe
      have ihRest := ih _ (Nat.lt_trans hlt' hlt) _ _ h rfl
      exact .replace hne hpiece hk ht hrest htext hnew hclosed (ihRest.2 htext.stays)

theorem code_run_amended (text : List Char) {ns : List (List Char)}
    (h : Amended (({} : Lexer).run text) ns) :
    code (({} : Lexer).run ns.flatten) = code (({} : Lexer).run text) :=
  ((amended_run _ _ h).1 rfl).code_run_eq

end Lexer

end PhpStyle
