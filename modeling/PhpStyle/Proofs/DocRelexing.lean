import Mathlib.Data.List.Basic
import Mathlib.Data.List.Induction
import Mathlib.Data.List.TakeWhile
import PhpStyle.Proofs.DocRewording

/-!
# One text of a doc comment replaced

The text behind a tag on its line may be replaced by another one that stands apart from the tag,
ends the line as the old one did and brings no `*/` about. Then the lexer cuts the same lexemes
again, with the new text in the place of the old one (`run_set`): the lexemes before it do not see
the difference (`cutDoc_congr`, and `cut_congr` before the comment), and behind it the lexer is in
the state it was in.
-/

namespace PhpStyle

open Text

namespace Lexer

/-- The text of lexemes. -/
def spelled (ls : List (Kind × List Char)) : List Char :=
  (ls.map (·.2)).flatten

@[simp] theorem spelled_cons (l : Kind × List Char) (ls : List (Kind × List Char)) :
    spelled (l :: ls) = l.2 ++ spelled ls := rfl

theorem spelled_append (ls ls' : List (Kind × List Char)) :
    spelled (ls ++ ls') = spelled ls ++ spelled ls' := by
  simp [spelled]

theorem spelled_run (s : Lexer) (cs : List Char) : spelled (s.run cs) = cs :=
  flatten_run s cs

theorem docLine_prefix (cs : List Char) : docLine cs <+: cs := by
  induction cs with
  | nil => exact List.prefix_rfl
  | cons c cs ih =>
    rw [docLine]
    split
    · exact List.nil_prefix
    · exact List.cons_prefix_cons.2 ⟨rfl, ih⟩

theorem newline_not_mem_docLine (cs : List Char) : '\n' ∉ docLine cs := by
  induction cs with
  | nil => exact List.not_mem_nil
  | cons c cs ih =>
    rw [docLine]
    split
    · exact List.not_mem_nil
    · rename_i hstop
      rw [Bool.or_eq_true, decide_eq_true_eq, not_or] at hstop
      exact fun h => (List.mem_cons.1 h).elim (fun h => hstop.1 h.symm) ih

theorem startsWith_close (c : Char) (cs : List Char) :
    startsWith "*/".toList (c :: cs) = true ↔ c = '*' ∧ cs.head? = some '/' := by
  constructor
  · intro h
    obtain ⟨t, ht⟩ := exists_eq_append_of_startsWith h
    obtain ⟨rfl, rfl⟩ := List.cons.inj ht
    exact ⟨rfl, rfl⟩
  · rintro ⟨rfl, hslash⟩
    obtain ⟨t, rfl⟩ := List.head?_eq_some_iff.1 hslash
    rfl

theorem docLine_append {u v : List Char} (hline : '\n' ∉ u) (hclose : NoClose u)
    (hmeet : u.getLast? = some '*' → v.head? ≠ some '/') : docLine (u ++ v) = u ++ docLine v := by
  induction u with
  | nil => rfl
  | cons c u ih =>
    have hc : ¬ (c = '\n' || startsWith "*/".toList (c :: (u ++ v))) = true := by
      rw [Bool.or_eq_true, decide_eq_true_eq, startsWith_close]
      rintro (rfl | ⟨rfl, hslash⟩)
      · exact hline List.mem_cons_self
      · cases u with
        | nil => exact hmeet rfl hslash
        | cons d u =>
          obtain rfl : d = '/' := Option.some.inj hslash
          exact hclose [] u rfl
    rw [List.cons_append, docLine, if_neg hc, List.cons_append]
    refine congrArg (c :: ·) (ih ?_ (NoClose.right (u := [c]) hclose) fun hlast => hmeet ?_)
    · exact fun h => hline (List.mem_cons_of_mem c h)
    · cases u with
      | nil => cases hlast
      | cons d u => rwa [List.getLast?_cons_cons]

/-- What a line goes on over does not hold the end of the comment. -/
theorem docLine_append_of_le {u v : List Char} (h : u.length ≤ (docLine (u ++ v)).length) :
    docLine (u ++ v) = u ++ docLine v ∧ NoClose u ∧
      (u.getLast? = some '*' → v.head? ≠ some '/') := by
  induction u with
  | nil => exact ⟨rfl, .nil, nofun⟩
  | cons c u ih =>
    rw [List.cons_append, docLine] at h ⊢
    split at h
    · cases h
    · rename_i hstop
      rw [if_neg hstop]
      obtain ⟨hline, hclose, hmeet⟩ := ih (Nat.le_of_succ_le_succ h)
      have hslash : c = '*' → (u ++ v).head? ≠ some '/' := fun hc hslash =>
        hstop (by rw [Bool.or_eq_true, startsWith_close]; exact .inr ⟨hc, hslash⟩)
      refine ⟨by rw [hline, List.cons_append], ?_, fun hlast => ?_⟩
      · rintro (_ | ⟨b, a⟩) t ht
        · obtain ⟨rfl, rfl⟩ := List.cons.inj ht
          exact hslash rfl rfl
        · exact hclose a t (List.cons.inj ht).2
      · cases u with
        | nil => exact hslash (Option.some.inj hlast)
        | cons d u =>
          rw [List.getLast?_cons_cons] at hlast
          exact hmeet hlast

theorem docLine_congr {u v : List Char} (h : (docLine (u ++ v)).length < u.length)
    (hlast : u.getLast? ≠ some '*') (v' : List Char) : docLine (u ++ v') = docLine (u ++ v) := by
  induction u with
  | nil => cases h
  | cons c u ih =>
    have hstop : (c = '\n' || startsWith "*/".toList (c :: (u ++ v'))) =
        (c = '\n' || startsWith "*/".toList (c :: (u ++ v))) := by
      congr 1
      rw [Bool.eq_iff_iff, startsWith_close, startsWith_close]
      cases u with
      | nil =>
        have hc : c ≠ '*' := fun hc => hlast (by rw [hc]; rfl)
        simp [hc]
      | cons d u => simp
    rw [List.cons_append, List.cons_append, docLine, docLine, hstop]
    split
    · rfl
    · rename_i hgo
      rw [List.cons_append, docLine, if_neg hgo, List.length_cons, List.length_cons] at h
      refine congrArg (c :: ·) (ih (Nat.lt_of_succ_lt_succ h) fun hu => hlast ?_)
      cases u with
      | nil => cases hu
      | cons d u => rwa [List.getLast?_cons_cons]

theorem prefix_trimEnd (cs : List Char) : trimEnd cs <+: cs :=
  ⟨_, dropTail_append_tail isBlank cs⟩

theorem trimEnd_append_of_blank {u v : List Char} (hv : ∀ c ∈ v, isBlank c = true) :
    trimEnd (u ++ v) = trimEnd u := by
  have hall : v.reverse.dropWhile isBlank = [] :=
    List.dropWhile_eq_nil_iff.2 fun c hc => hv c (List.mem_reverse.1 hc)
  rw [trimEnd, dropTail, List.reverse_append, List.dropWhile_append, hall]
  rfl

theorem trimEnd_append_of_ne_nil (u : List Char) {v : List Char} (hv : trimEnd v ≠ []) :
    trimEnd (u ++ v) = u ++ trimEnd v := by
  have hne : (v.reverse.dropWhile isBlank).isEmpty = false := by
    rw [trimEnd, dropTail, ne_eq, List.reverse_eq_nil_iff] at hv
    simpa using hv
  rw [trimEnd, dropTail, List.reverse_append, List.dropWhile_append, hne]
  simp [trimEnd, dropTail]

theorem trimEnd_of_getLast? {u : List Char} {c : Char} (h : u.getLast? = some c)
    (hc : isBlank c = false) : trimEnd u = u := by
  obtain ⟨v, rfl⟩ := List.getLast?_eq_some_iff.1 h
  rw [trimEnd, dropTail, List.reverse_append, List.reverse_singleton, List.singleton_append,
    List.dropWhile_cons_of_neg (by simp [hc]), List.reverse_cons, List.reverse_reverse]

theorem isBlank_getLast?_trimEnd {u : List Char} {c : Char} (h : (trimEnd u).getLast? = some c) :
    isBlank c = false := by
  rw [trimEnd, dropTail, List.getLast?_reverse] at h
  have hhead := List.head?_dropWhile_not isBlank u.reverse
  rw [h] at hhead
  exact hhead

/-- What is no blank is not trimmed away. -/
theorem lt_length_trimEnd {u v : List Char} {c : Char} (hc : isBlank c = false) :
    u.length < (trimEnd (u ++ c :: v)).length := by
  induction v using List.reverseRecOn with
  | nil =>
    rw [trimEnd_of_getLast? (c := c) (by simp) hc]
    simp
  | append_singleton v d ih =>
    cases hd : isBlank d with
    | true =>
      rw [← List.cons_append, ← List.append_assoc, trimEnd_append_of_blank (by simpa using hd)]
      exact ih
    | false =>
      rw [← List.cons_append, ← List.append_assoc, trimEnd_of_getLast? List.getLast?_concat hd]
      simp only [List.length_append, List.length_cons]
      omega

theorem drop_length_takeWhile (p : Char → Bool) (cs : List Char) :
    cs.drop (cs.takeWhile p).length = cs.dropWhile p := by
  induction cs with
  | nil => rfl
  | cons c cs ih =>
    by_cases hc : p c = true
    · rw [List.takeWhile_cons_of_pos hc, List.dropWhile_cons_of_pos hc]
      exact ih
    · rw [List.takeWhile_cons_of_neg hc, List.dropWhile_cons_of_neg hc]
      rfl

/-! ### Pieces of a comment -/

theorem cutDoc_cons (lineStart hasText : Bool) (c : Char) (cs : List Char) :
    cutDoc lineStart hasText (c :: cs) =
      if c = '*' ∧ cs.head? = some '/' then ⟨.docClose, 2, .php⟩
      else if c = '\n' then ⟨.docBlank, 1, .doc true false⟩
      else if c = '\r' then
        if cs.head? = some '\n' then ⟨.docBlank, 2, .doc true false⟩
        else ⟨.docBlank, 1, .doc lineStart hasText⟩
      else if c = ' ' ∨ c = '\t' then
        ⟨.docBlank, ((c :: cs).takeWhile fun d => d = ' ' || d = '\t').length, .doc lineStart hasText⟩
      else if c = '*' ∧ lineStart = true then ⟨.docStar, 1, .doc false hasText⟩
      else if c = '@' ∧ hasText = false ∧ cs.head?.any isTagStart = true then
        ⟨.docTag, 1 + (cs.takeWhile isTagChar).length, .doc false true⟩
      else ⟨.docText, docTextLength (c :: cs), .doc false true⟩ := by
  unfold cutDoc
  split
  case h_1 rest heq =>
    obtain ⟨rfl, rfl⟩ := List.cons.inj heq
    rfl
  case h_2 rest heq =>
    obtain ⟨rfl, rfl⟩ := List.cons.inj heq
    rfl
  case h_3 rest heq =>
    obtain ⟨rfl, rfl⟩ := List.cons.inj heq
    rfl
  case h_4 rest hnl heq =>
    obtain ⟨rfl, rfl⟩ := List.cons.inj heq
    have hhead : cs.head? ≠ some '\n' := by
      intro hhead
      obtain ⟨t, rfl⟩ := List.head?_eq_some_iff.1 hhead
      exact hnl t rfl
    simp [hhead]
  case h_5 d rest hclose hnl hcrlf hcr heq =>
    obtain ⟨rfl, rfl⟩ := List.cons.inj heq
    have h1 : ¬ (c = '*' ∧ cs.head? = some '/') := by
      rintro ⟨rfl, hhead⟩
      obtain ⟨t, rfl⟩ := List.head?_eq_some_iff.1 hhead
      exact hclose t rfl rfl
    have h2 : c ≠ '\n' := fun hc => hnl hc
    have h3 : c ≠ '\r' := fun hc => hcr hc
    simp [h1, h2, h3, and_assoc]
  case h_6 heq => cases heq

theorem head?_append_congr {u : List Char} (hu : u ≠ []) (v v' : List Char) :
    (u ++ v').head? = (u ++ v).head? := by
  obtain ⟨c, u, rfl⟩ := List.exists_cons_of_ne_nil hu
  rfl

theorem takeWhile_append_eq_left {p : Char → Bool} {u v : List Char} :
    (u ++ v).takeWhile p = u ↔ (∀ c ∈ u, p c = true) ∧ ∀ c, v.head? = some c → p c = false := by
  constructor
  · intro h
    have hall : ∀ c ∈ u, p c = true := by
      intro c hc
      rw [← h] at hc
      exact List.mem_takeWhile_imp hc
    refine ⟨hall, fun c hc => ?_⟩
    rw [List.takeWhile_append_of_pos hall] at h
    obtain ⟨t, rfl⟩ := List.head?_eq_some_iff.1 hc
    by_contra hp
    rw [List.takeWhile_cons_of_pos (by simpa using hp)] at h
    have hlength := congrArg List.length h
    simp at hlength
  · rintro ⟨hall, hhead⟩
    rw [List.takeWhile_append_of_pos hall]
    cases v with
    | nil => simp
    | cons c v => rw [List.takeWhile_cons_of_neg (by simp [hhead c rfl]), List.append_nil]

theorem takeWhile_append_of_length {p : Char → Bool} {u v : List Char}
    (h : ((u ++ v).takeWhile p).length = u.length) : (u ++ v).takeWhile p = u := by
  rw [List.prefix_iff_eq_take.1 (List.takeWhile_prefix p), h, List.take_left]

theorem takeWhile_congr_behind {p : Char → Bool} {u w v v' : List Char}
    (h : ((u ++ (w ++ v)).takeWhile p).length = u.length)
    (hp : w = [] → ∀ c, v'.head? = some c → p c = false) :
    (u ++ (w ++ v')).takeWhile p = (u ++ (w ++ v)).takeWhile p := by
  have hold := takeWhile_append_of_length h
  obtain ⟨hall, hhead⟩ := takeWhile_append_eq_left.1 hold
  rw [hold]
  refine takeWhile_append_eq_left.2 ⟨hall, fun d hd => ?_⟩
  cases w with
  | nil => exact hp rfl d hd
  | cons b w => exact hhead d hd

/-- Two texts that go on alike for some characters and then differ, both with no blank. -/
structure Parts (w v v' : List Char) : Prop where
  exists_eq : ∃ c z c' z', v = w ++ c :: z ∧ v' = w ++ c' :: z' ∧ isBlank c = false ∧
    isBlank c' = false ∧ ¬ (c = '*' ∧ z.head? = some '/')

theorem ne_of_not_isBlank {c d : Char} (hc : isBlank c = false) (hd : isBlank d = true) : c ≠ d := by
  rintro rfl
  rw [hc] at hd
  cases hd

theorem isTagChar_of_isTagStart {c : Char} (h : isTagStart c = true) : isTagChar c = true := by
  simp only [isTagStart, isTagChar, Char.isAlphanum, Bool.or_eq_true] at h ⊢
  tauto

theorem docTextLength_congr {a c : Char} {u w z : List Char}
    (hlength : docTextLength (a :: (u ++ (w ++ c :: z))) = (a :: u).length)
    (hlast : (a :: u ++ w).getLast? ≠ some '*') (hc : isBlank c = false)
    (hclose : ¬ (c = '*' ∧ z.head? = some '/')) (v : List Char) :
    docTextLength (a :: (u ++ (w ++ v))) = docTextLength (a :: (u ++ (w ++ c :: z))) := by
  have happend : ∀ v, a :: (u ++ (w ++ v)) = (a :: u ++ w) ++ v := fun v => by simp
  have hstop : ¬ (c = '\n' || startsWith "*/".toList (c :: z)) = true := by
    rw [Bool.or_eq_true, decide_eq_true_eq, startsWith_close]
    rintro (hnl | h)
    · exact ne_of_not_isBlank hc rfl hnl
    · exact hclose h
  have hends : (docLine ((a :: u ++ w) ++ c :: z)).length < (a :: u ++ w).length := by
    by_contra hge
    have hline := (docLine_append_of_le (Nat.not_lt.1 hge)).1
    rw [docLine, if_neg hstop] at hline
    have hlong := lt_length_trimEnd (u := a :: u ++ w) (v := docLine z) hc
    rw [happend, docTextLength, hline] at hlength
    simp only [List.length_append, List.length_cons] at hlength hlong
    omega
  rw [docTextLength, docTextLength, happend, happend, docLine_congr hends hlast]

/-- A piece ends with `u`, and is a tag or a blank if `v'` may stand right behind it; a tag does not go
on there. -/
structure PieceBefore (u w v' : List Char) (cut : Cut) : Prop where
  length_eq : cut.length = u.length
  kind : w = [] → cut.kind = .docTag ∨ cut.kind = .docBlank
  tag : w = [] → cut.kind = .docTag → ∀ c, v'.head? = some c → isTagChar c = false

/-- A piece of a comment does not see where the text behind it parts, unless that is right behind it
and goes on with the piece. -/
theorem cutDoc_congr {lineStart hasText : Bool} {u w v v' : List Char} (hu : u ≠ [])
    (h : PieceBefore u w v' (cutDoc lineStart hasText (u ++ v))) (hparts : Parts w v v')
    (hlast : (u ++ w).getLast? ≠ some '*') :
    cutDoc lineStart hasText (u ++ v') = cutDoc lineStart hasText (u ++ v) := by
  obtain ⟨c, z, c', z', rfl, rfl, hc, hc', hclose⟩ := hparts
  obtain ⟨a, u, rfl⟩ := List.exists_cons_of_ne_nil hu
  -- the texts go on alike, or they part right behind a single character
  have hhead : (u ++ (w ++ c' :: z')).head? = (u ++ (w ++ c :: z)).head? ∨ u = [] ∧ w = [] := by
    by_cases huw : u ++ w = []
    · exact .inr (List.append_eq_nil_iff.1 huw)
    · rw [← List.append_assoc, ← List.append_assoc]
      exact .inl (head?_append_congr huw _ _)
  rw [List.cons_append, cutDoc_cons] at h
  rw [List.cons_append, List.cons_append, cutDoc_cons, cutDoc_cons]
  refine iteCongr h ⟨fun hend => ?_, fun hend => ?_⟩ (fun _ _ => rfl) fun hend h =>
    iteCongr h Iff.rfl (fun _ _ => rfl) fun hnl h =>
    iteCongr h Iff.rfl (fun hreturn h => ?carriage) fun hreturn h =>
    iteCongr h Iff.rfl (fun hblank h => ?gap) fun hblank h =>
    iteCongr h Iff.rfl (fun _ _ => rfl) fun hstar h => ?text
  · rcases hhead with hhead | ⟨rfl, rfl⟩
    · rwa [← hhead]
    · exact absurd (by rw [hend.1]; rfl) hlast
  · rcases hhead with hhead | ⟨rfl, -⟩
    · rwa [hhead]
    · rw [if_pos hend] at h
      cases h.length_eq
  case carriage =>
    rcases hhead with hhead | ⟨rfl, rfl⟩
    · rw [hhead]
    · simp [ne_of_not_isBlank hc (d := '\n') rfl, ne_of_not_isBlank hc' (d := '\n') rfl]
  case gap =>
    have hgap : (c' = ' ' || c' = '\t') = false := by
      simp [ne_of_not_isBlank hc' (d := ' ') rfl, ne_of_not_isBlank hc' (d := '\t') rfl]
    have hsame := takeWhile_congr_behind (u := a :: u) h.length_eq
      fun _ d (hd : (c' :: z').head? = some d) => by cases hd; exact hgap
    rw [List.cons_append, List.cons_append] at hsame
    rw [hsame]
  case text =>
    -- neither is a tag nor a text a single character before both texts
    have hhead : (u ++ (w ++ c' :: z')).head? = (u ++ (w ++ c :: z)).head? := by
      refine hhead.resolve_right ?_
      rintro ⟨rfl, rfl⟩
      split at h
      · rename_i hat
        have hstart : isTagStart c = true := hat.2.2
        have hlength := h.length_eq
        simp [isTagChar_of_isTagStart hstart] at hlength
      · rcases h.kind rfl with hk | hk <;> cases hk
    rw [hhead]
    refine iteCongr h Iff.rfl (fun _ h => ?_) fun _ h => ?_
    · have hlength : 1 + ((u ++ (w ++ c :: z)).takeWhile isTagChar).length = u.length + 1 :=
        h.length_eq
      rw [takeWhile_congr_behind (v := c :: z) (by omega) fun hw d hd =>
        h.tag hw rfl d (by rw [hw]; exact hd)]
    · rw [docTextLength_congr h.length_eq hlast hc hclose]

/-- The lexeme is a blank on one line of a comment. -/
def IsGap (l : Kind × List Char) : Prop :=
  l.1 = .docBlank ∧ '\n' ∉ l.2

/-- The lexeme at `v` is the first behind a tag on its line, apart from blanks. -/
def BehindTag (ls : List (Kind × List Char)) (v : Nat) : Prop :=
  ∃ i, i < v ∧ (∃ name, ls[i]? = some (.docTag, name)) ∧
    ∀ k, i < k → k < v → ∃ l, ls[k]? = some l ∧ IsGap l

/-- The same, where lexemes are read in mode `m` and the tag may have come before them. -/
def OnTagLine (m : Mode) (ls : List (Kind × List Char)) (v : Nat) : Prop :=
  (m = .doc false true ∧ ∀ k < v, ∃ l, ls[k]? = some l ∧ IsGap l) ∨ BehindTag ls v

theorem cut_mode_of_docTag (s : Lexer) {cs : List Char} (hne : cs ≠ [])
    (h : (s.cut cs).kind = .docTag) : (s.cut cs).mode = .doc false true := by
  cases hmode : s.mode.isDoc with
  | false =>
    rcases s.cut_outside hmode hne with hout | ⟨hcut, -⟩
    · exact absurd h hout.not_tag
    · rw [hcut] at h
      cases h
  | true =>
    obtain ⟨lineStart, hasText, hm⟩ := exists_of_isDoc hmode
    obtain ⟨c, cs, rfl⟩ := List.exists_cons_of_ne_nil hne
    rw [cut, hm] at h ⊢
    simp only [cutDoc_cons] at h ⊢
    split_ifs at h ⊢
    rfl

theorem cut_mode_of_isGap (s : Lexer) {lineStart hasText : Bool} (hm : s.mode = .doc lineStart hasText)
    {cs : List Char} (hne : cs ≠ []) (h : IsGap ((s.cut cs).kind, cs.take (s.cut cs).length)) :
    (s.cut cs).mode = .doc lineStart hasText := by
  obtain ⟨c, cs, rfl⟩ := List.exists_cons_of_ne_nil hne
  obtain ⟨hkind, hnl⟩ := h
  rw [cut, hm] at hkind hnl ⊢
  simp only [cutDoc_cons] at hkind hnl ⊢
  split_ifs at hkind hnl ⊢ with h1 h2 h3 h4 h5
  · subst h2
    simp at hnl
  · subst h3
    obtain ⟨t, rfl⟩ := List.head?_eq_some_iff.1 h4
    simp at hnl
  · rfl
  · rfl

theorem OnTagLine.tail {s : Lexer} {cs : List Char} (hne : cs ≠ []) {v : Nat}
    (h : OnTagLine s.mode (s.run cs) (v + 1)) :
    OnTagLine (s.advance (s.cut cs)).mode ((s.advance (s.cut cs)).run (cs.drop (s.cut cs).length)) v := by
  rw [run_of_ne_nil s hne] at h
  rcases h with ⟨hm, hgaps⟩ | ⟨i, hiv, ⟨name, hi⟩, hgaps⟩
  · obtain ⟨l, hl, hgap⟩ := hgaps 0 (Nat.succ_pos v)
    cases hl
    exact .inl ⟨s.cut_mode_of_isGap hm hne hgap, fun k hk => hgaps (k + 1) (Nat.succ_lt_succ hk)⟩
  · cases i with
    | zero =>
      refine .inl ⟨?_, fun k hk => hgaps (k + 1) (Nat.succ_pos k) (Nat.succ_lt_succ hk)⟩
      exact s.cut_mode_of_docTag hne (Prod.mk.inj (Option.some.inj hi)).1
    | succ i =>
      exact .inr ⟨i, Nat.lt_of_succ_lt_succ hiv, ⟨name, hi⟩,
        fun k hik hkv => hgaps (k + 1) (Nat.succ_lt_succ hik) (Nat.succ_lt_succ hkv)⟩

theorem exists_drop_run (s : Lexer) (cs : List Char) (v : Nat) :
    ∃ t : Lexer, (s.run cs).drop v = t.run (spelled ((s.run cs).drop v)) ∧
      (OnTagLine s.mode (s.run cs) v → t.mode = .doc false true) := by
  induction v generalizing s cs with
  | zero =>
    refine ⟨s, by rw [List.drop_zero, spelled_run], ?_⟩
    rintro (⟨hm, -⟩ | ⟨i, hi, -⟩)
    · exact hm
    · cases hi
  | succ v ih =>
    by_cases hne : cs = []
    · subst hne
      refine ⟨s, by simp [run, spelled], ?_⟩
      rw [run, if_pos rfl]
      rintro (⟨-, hgaps⟩ | ⟨i, -, ⟨name, hi⟩, -⟩)
      · obtain ⟨l, hl, -⟩ := hgaps 0 (Nat.succ_pos v)
        cases hl
      · cases hi
    · obtain ⟨t, ht, hmode⟩ := ih (s.advance (s.cut cs)) (cs.drop (s.cut cs).length)
      refine ⟨t, ?_, fun hline => hmode (hline.tail hne)⟩
      rw [run_of_ne_nil s hne, List.drop_succ_cons]
      exact ht

/-- What may stand for the text `old` of a tag: it neither begins nor ends with a blank, stays on
the line, and closes the comment no more than `old` does. -/
structure Rewords (old new : List Char) : Prop where
  head : ∃ c, old.head? = some c ∧ isBlank c = false
  head_new : ∃ c, new.head? = some c ∧ isBlank c = false
  last_new : ∃ c, new.getLast? = some c ∧ isBlank c = false
  line : '\n' ∉ new
  harmless : Harmless old new

theorem cutDoc_behind_tag {c : Char} (hc : isBlank c = false) {cs : List Char}
    (hclose : ¬ (c = '*' ∧ cs.head? = some '/')) :
    cutDoc false true (c :: cs) = ⟨.docText, docTextLength (c :: cs), .doc false true⟩ := by
  have hne : ∀ {d : Char}, isBlank d = true → c ≠ d := ne_of_not_isBlank hc
  rw [cutDoc_cons, if_neg hclose, if_neg (hne rfl), if_neg (hne rfl),
    if_neg (not_or.2 ⟨hne rfl, hne rfl⟩), if_neg (by simp), if_neg (by simp)]

/-- A text that is read behind a tag: where it ends and how its line goes on. -/
structure TextCut (t : Lexer) (cs old rest : List Char) : Prop where
  eq_append : cs = old ++ rest
  cut_eq : t.cut cs = ⟨.docText, old.length, .doc false true⟩
  not_close : ∀ c z, cs = c :: z → ¬ (c = '*' ∧ z.head? = some '/')
  line : '\n' ∉ old
  last : ∀ c, old.getLast? = some c → isBlank c = false
  noClose : NoClose old
  meet : old.getLast? = some '*' → rest.head? ≠ some '/'
  blank : ∀ c ∈ docLine rest, isBlank c = true

theorem textCut_of_run {t : Lexer} (hm : t.mode = .doc false true) {old cs : List Char}
    {ls : List (Kind × List Char)} (h : t.run cs = (.docText, old) :: ls)
    (hhead : ∃ c, old.head? = some c ∧ isBlank c = false) : TextCut t cs old (spelled ls) := by
  have hne : cs ≠ [] := by
    rintro rfl
    rw [run, if_pos rfl] at h
    cases h
  have hcs : cs = old ++ spelled ls := by
    rw [← spelled_run t cs, h, spelled_cons]
  rw [run_of_ne_nil t hne] at h
  obtain ⟨hkind, htake⟩ := Prod.mk.inj (List.cons.inj h).1
  obtain ⟨c, hc, hblank⟩ := hhead
  obtain ⟨z, hz⟩ : ∃ z, cs = c :: z := by
    obtain ⟨old', rfl⟩ := List.head?_eq_some_iff.1 hc
    exact ⟨_, hcs⟩
  have hclose : ¬ (c = '*' ∧ z.head? = some '/') := by
    intro hclose
    rw [hz, cut, hm] at hkind
    simp only [cutDoc_cons, if_pos hclose] at hkind
    cases hkind
  have hcut : t.cut cs = ⟨.docText, docTextLength cs, .doc false true⟩ := by
    rw [hz, cut, hm]
    exact cutDoc_behind_tag hblank hclose
  -- the text is all of the line but for the blanks at its end
  have hstop : ¬ (c = '\n' || startsWith "*/".toList (c :: z)) = true := by
    rw [Bool.or_eq_true, decide_eq_true_eq, startsWith_close]
    exact not_or.2 ⟨ne_of_not_isBlank hblank rfl, hclose⟩
  have hline : docLine cs = c :: docLine z := by
    rw [hz, docLine, if_neg hstop]
  have hlength : docTextLength cs = (trimEnd (docLine cs)).length := by
    have hpos := lt_length_trimEnd (u := []) (v := docLine z) hblank
    rw [docTextLength, hline]
    simp only [List.nil_append, List.length_nil] at hpos
    omega
  have hsplit := dropTail_append_tail isBlank (docLine cs)
  have hold : old = trimEnd (docLine cs) := by
    have hprefix : trimEnd (docLine cs) <+: cs :=
      (List.prefix_append _ _).trans (hsplit ▸ docLine_prefix cs)
    rw [← htake, hcut, hlength]
    exact (List.prefix_iff_eq_take.1 hprefix).symm
  have hle : old.length ≤ (docLine (old ++ spelled ls)).length := by
    rw [← hcs, hold]
    exact length_dropTail_le _ _
  obtain ⟨happend, hnoClose, hmeet⟩ := docLine_append_of_le hle
  refine ⟨hcs, by rw [hcut, hlength, hold], ?_, ?_, fun d hd => ?_, hnoClose, hmeet, ?_⟩
  · rintro c' z' h'
    obtain ⟨rfl, rfl⟩ := List.cons.inj (hz.symm.trans h')
    exact hclose
  · intro hnl
    refine newline_not_mem_docLine (old ++ spelled ls) ?_
    rw [happend]
    exact List.mem_append_left _ hnl
  · rw [hold] at hd
    exact isBlank_getLast?_trimEnd hd
  · intro d hd
    rw [← hcs, hold] at happend
    have htail : docLine (spelled ls) = ((docLine cs).reverse.takeWhile isBlank).reverse :=
      List.append_cancel_left (happend.symm.trans hsplit.symm)
    rw [htail, List.mem_reverse] at hd
    exact List.mem_takeWhile_imp hd

theorem TextCut.cut_new {t : Lexer} (hm : t.mode = .doc false true) {cs old rest new : List Char}
    (h : TextCut t cs old rest) (hnew : Rewords old new) :
    t.cut (new ++ rest) = ⟨.docText, new.length, .doc false true⟩ := by
  obtain ⟨c, hc, hblank⟩ := hnew.head_new
  obtain ⟨d, hd, hlast⟩ := hnew.last_new
  have hclose := hnew.harmless.noClose h.noClose
  have hmeet : new.getLast? = some '*' → rest.head? ≠ some '/' := fun hstar =>
    h.meet (hnew.harmless.last hstar)
  have hline : trimEnd (docLine (new ++ rest)) = new := by
    rw [docLine_append hnew.line hclose hmeet, trimEnd_append_of_blank h.blank,
      trimEnd_of_getLast? hd hlast]
  obtain ⟨new, rfl⟩ := List.head?_eq_some_iff.1 hc
  have hhead : ¬ (c = '*' ∧ (new ++ rest).head? = some '/') := by
    rintro ⟨rfl, hslash⟩
    cases new with
    | nil => exact hmeet rfl hslash
    | cons b new =>
      obtain rfl : b = '/' := Option.some.inj hslash
      exact hclose [] new rfl
  rw [cut, hm, List.cons_append]
  simp only [cutDoc_behind_tag hblank hhead]
  have hmax : max 1 (c :: new).length = (c :: new).length := by
    rw [List.length_cons]
    omega
  rw [docTextLength, ← List.cons_append, hline, hmax]

theorem run_of_cut {s : Lexer} {u v : List Char} (hu : u ≠ []) {cut : Cut}
    (hcut : s.cut (u ++ v) = cut) (hlength : cut.length = u.length) :
    s.run (u ++ v) = (cut.kind, u) :: (s.advance cut).run v := by
  rw [run_of_ne_nil s (by simp [hu]), hcut, hlength, List.take_left, List.drop_left]

theorem TextCut.run_new {t : Lexer} (hm : t.mode = .doc false true) {cs old new : List Char}
    {ls : List (Kind × List Char)} (hrun : t.run cs = (.docText, old) :: ls)
    (hnew : Rewords old new) : t.run (new ++ spelled ls) = (.docText, new) :: ls := by
  have h := textCut_of_run hm hrun hnew.head
  have hne : old ≠ [] := by
    obtain ⟨c, hc, -⟩ := hnew.head
    rintro rfl
    cases hc
  have hne' : new ≠ [] := by
    obtain ⟨c, hc, -⟩ := hnew.head_new
    rintro rfl
    cases hc
  have hcut := h.cut_eq
  rw [h.eq_append] at hrun hcut
  rw [run_of_cut hne hcut rfl] at hrun
  rw [run_of_cut hne' (h.cut_new hm hnew) rfl]
  exact congrArg ((Kind.docText, new) :: ·) (List.cons.inj hrun).2

/-! ### Relexing -/

theorem spelled_set {ls : List (Kind × List Char)} {v : Nat} {l : Kind × List Char}
    (h : ls[v]? = some l) (l' : Kind × List Char) :
    spelled ls = spelled (ls.take v) ++ (l.2 ++ spelled (ls.drop (v + 1))) ∧
      spelled (ls.set v l') = spelled (ls.take v) ++ (l'.2 ++ spelled (ls.drop (v + 1))) := by
  obtain ⟨hv, rfl⟩ := List.getElem?_eq_some_iff.1 h
  constructor
  · rw [← spelled_cons, ← spelled_append, List.getElem_cons_drop, List.take_append_drop]
  · rw [List.set_eq_take_append_cons_drop, if_pos hv, spelled_append, spelled_cons]

theorem no_star_of_mem_run {s : Lexer} {cs : List Char} {l : Kind × List Char} (h : l ∈ s.run cs)
    (hkind : l.1 = .docTag ∨ l.1 = .docBlank) : '*' ∉ l.2 := by
  refine forall_mem_run (Q := fun k u => k = .docTag ∨ k = .docBlank → '*' ∉ u)
    (fun s cs hne hk => ?_) s cs l h hkind
  cases hmode : s.mode.isDoc with
  | false =>
    rcases s.cut_outside hmode hne with hout | ⟨hcut, -⟩
    · exact (hk.elim hout.not_tag hout.not_blank).elim
    · rw [hcut] at hk
      rcases hk with hk | hk <;> cases hk
  | true =>
    rcases s.cut_of_isDoc hmode hne with ⟨rest, -, hcut⟩ | hpiece
    · rw [hcut] at hk
      rcases hk with hk | hk <;> cases hk
    · exact hpiece.no_star hk

theorem slash_of_behindTag {s : Lexer} (hmode : s.mode.isDoc = false) {cs : List Char} {v : Nat}
    (h : BehindTag (s.run cs) v) : ∃ w w', spelled ((s.run cs).take v) = w ++ '/' :: w' := by
  induction v generalizing s cs with
  | zero =>
    obtain ⟨i, hi, -⟩ := h
    cases hi
  | succ v ih =>
    have hne : cs ≠ [] := by
      rintro rfl
      obtain ⟨i, -, ⟨name, hi⟩, -⟩ := h
      rw [run, if_pos rfl] at hi
      cases hi
    have htail := OnTagLine.tail hne (.inr h)
    rw [run_of_ne_nil s hne, List.take_succ_cons, spelled_cons]
    rcases s.cut_outside hmode hne with hout | ⟨hcut, -, rest, rfl, -⟩
    · rcases htail with ⟨hm, -⟩ | htail
      · have hdoc := hout.mode
        rw [show (s.cut cs).mode = .doc false true from hm] at hdoc
        cases hdoc
      · obtain ⟨w, w', hw⟩ := ih hout.mode htail
        exact ⟨cs.take (s.cut cs).length ++ w, w', by rw [hw, List.append_assoc]⟩
    · rw [hcut]
      exact ⟨[], _, rfl⟩

theorem textCut_of_behindTag {s : Lexer} {cs old : List Char} {v : Nat}
    (hline : OnTagLine s.mode (s.run cs) v) (hv : (s.run cs)[v]? = some (.docText, old))
    (hhead : ∃ c, old.head? = some c ∧ isBlank c = false) :
    ∃ t, TextCut t (spelled ((s.run cs).drop v)) old (spelled ((s.run cs).drop (v + 1))) := by
  obtain ⟨t, ht, hm⟩ := exists_drop_run s cs v
  obtain ⟨hlt, hget⟩ := List.getElem?_eq_some_iff.1 hv
  refine ⟨t, textCut_of_run (hm hline) ?_ hhead⟩
  rw [← ht, ← List.getElem_cons_drop hlt, hget]

/-- Right before a lexeme behind a tag there is the tag or a blank. -/
theorem OnTagLine.before {m : Mode} {ls : List (Kind × List Char)} {v : Nat}
    (h : OnTagLine m ls (v + 1)) : ∃ l, ls[v]? = some l ∧ (l.1 = .docTag ∨ l.1 = .docBlank) := by
  rcases h with ⟨-, hgaps⟩ | ⟨i, hiv, ⟨name, hi⟩, hgaps⟩
  · obtain ⟨l, hl, hgap⟩ := hgaps v (Nat.lt_succ_self v)
    exact ⟨l, hl, .inr hgap.1⟩
  · rcases Nat.lt_or_eq_of_le (Nat.le_of_lt_succ hiv) with hlt | rfl
    · obtain ⟨l, hl, hgap⟩ := hgaps v hlt (Nat.lt_succ_self v)
      exact ⟨l, hl, .inr hgap.1⟩
    · exact ⟨_, hi, .inl rfl⟩

theorem OnTagLine.getLast?_ne {s : Lexer} {cs : List Char} {v : Nat}
    (h : OnTagLine s.mode (s.run cs) (v + 1)) :
    (spelled ((s.run cs).take (v + 1))).getLast? ≠ some '*' := by
  obtain ⟨l, hl, hkind⟩ := h.before
  have hmem := List.mem_of_getElem? hl
  rw [List.take_add_one, hl, spelled_append, Option.toList_some, spelled_cons]
  intro hlast
  rw [List.getLast?_append_of_ne_nil _ (by simp [ne_nil_of_mem_run hmem])] at hlast
  have hstar := List.mem_of_getLast? hlast
  exact no_star_of_mem_run hmem hkind (by simpa [spelled] using hstar)

theorem spelled_take_ne_nil {s : Lexer} {cs : List Char} {v : Nat} (hv : v ≠ 0)
    (hne : s.run cs ≠ []) : spelled ((s.run cs).take v) ≠ [] := by
  cases hrun : s.run cs with
  | nil => exact absurd hrun hne
  | cons l ls =>
    obtain ⟨n, rfl⟩ := Nat.exists_eq_succ_of_ne_zero hv
    have hl : l.2 ≠ [] := ne_nil_of_mem_run (by rw [hrun]; exact List.mem_cons_self)
    rw [List.take_succ_cons, spelled_cons]
    simp [hl]

section Set

variable {s : Lexer} {cs old new : List Char} {v : Nat} {ls : List (Kind × List Char)}

theorem eq_zero_of_spelled_take (hls : (s.advance (s.cut cs)).run (cs.drop (s.cut cs).length) = ls)
    (hv : ls[v]? = some (.docText, old)) (hnil : spelled (ls.take v) = []) : v = 0 := by
  have hls_ne : ls ≠ [] := List.ne_nil_of_mem (List.mem_of_getElem? hv)
  by_contra hv0
  rw [← hls] at hnil hls_ne
  exact spelled_take_ne_nil hv0 hls_ne hnil

/-- Outside of a comment the tag is behind the opener of one, whose slash is all that is seen. -/
theorem cut_of_set_outside (hmode : s.mode.isDoc = false) (hne : cs ≠ [])
    (htail : OnTagLine (s.advance (s.cut cs)).mode ls v)
    (hls : (s.advance (s.cut cs)).run (cs.drop (s.cut cs).length) = ls)
    (hv : ls[v]? = some (.docText, old)) :
    s.cut (cs.take (s.cut cs).length ++ spelled (ls.set v (.docText, new))) = s.cut cs := by
  have hlength := s.length_take_cut hne
  obtain ⟨hold, hset⟩ := spelled_set hv (.docText, new)
  have hrest : cs.drop (s.cut cs).length = spelled ls := by rw [← hls, spelled_run]
  rcases s.cut_outside hmode hne with hout | ⟨hcut, hphp, rest, rfl, hslash⟩
  · have hbehind : BehindTag ls v := by
      rcases htail with ⟨hm, -⟩ | hbehind
      · have hdoc := hout.mode
        rw [show (s.cut cs).mode = .doc false true from hm] at hdoc
        cases hdoc
      · exact hbehind
    rw [← hls] at hbehind
    obtain ⟨w, w', hw⟩ := slash_of_behindTag hout.mode hbehind
    rw [hls] at hw
    have hcs : cs = cs.take (s.cut cs).length ++ spelled ls := by
      rw [← hrest, List.take_append_drop]
    have hu : cs.take (s.cut cs).length ≠ [] := by
      refine List.ne_nil_of_length_pos ?_
      rw [hlength]
      exact (s.cut_fits hne).pos
    rw [hw, List.append_assoc, List.cons_append] at hold hset
    rw [hset, ← List.append_assoc]
    rw [hold, ← List.append_assoc] at hcs
    rw [cut_congr s hmode (z := w' ++ (old ++ spelled (ls.drop (v + 1)))) (by simp [hu]), ← hcs]
    rw [← hcs, List.length_append, hlength]
    exact Nat.le_add_right _ _
  · have hv0 : v ≠ 0 := by
      rintro rfl
      rw [hcut] at htail
      rcases htail with ⟨hm, -⟩ | ⟨i, hi, -⟩
      · cases hm
      · cases hi
    have hne' : spelled (ls.take v) ≠ [] := fun hnil => hv0 (eq_zero_of_spelled_take hls hv hnil)
    rw [hcut] at hrest ⊢
    have hrest : rest = spelled ls := hrest
    have hhead : (spelled (ls.set v (.docText, new))).head? ≠ some '/' := by
      rw [hset, head?_append_congr hne' (old ++ spelled (ls.drop (v + 1))), ← hold, ← hrest]
      exact hslash
    exact cut_docOpen s hphp hhead

theorem parts_of_set (htail : OnTagLine (s.advance (s.cut cs)).mode ls v)
    (hls : (s.advance (s.cut cs)).run (cs.drop (s.cut cs).length) = ls)
    (hv : ls[v]? = some (.docText, old)) (hnew : Rewords old new) :
    Parts (spelled (ls.take v)) (spelled ls) (spelled (ls.set v (.docText, new))) := by
  obtain ⟨hold, hset⟩ := spelled_set hv (.docText, new)
  obtain ⟨c, hc, hblank⟩ := hnew.head
  obtain ⟨c', hc', hblank'⟩ := hnew.head_new
  obtain ⟨old', rfl⟩ := List.head?_eq_some_iff.1 hc
  obtain ⟨new', rfl⟩ := List.head?_eq_some_iff.1 hc'
  refine ⟨c, _, c', _, hold, hset, hblank, hblank', ?_⟩
  rw [← hls] at htail hv
  obtain ⟨t, htext⟩ := textCut_of_behindTag htail hv hnew.head
  rw [hls] at htext
  exact htext.not_close c _ htext.eq_append

/-- Another text behind a tag leaves the lexemes before it as they were. -/
theorem cut_of_set (hne : cs ≠ []) (hline : OnTagLine s.mode (s.run cs) (v + 1)) (hnew : Rewords old new)
    (hls : (s.advance (s.cut cs)).run (cs.drop (s.cut cs).length) = ls)
    (hv : ls[v]? = some (.docText, old))
    (hglue : v = 0 → (s.cut cs).kind = .docTag → ∀ c, new.head? = some c → isTagChar c = false) :
    s.cut (cs.take (s.cut cs).length ++ spelled (ls.set v (.docText, new))) = s.cut cs := by
  have htail := hline.tail hne
  rw [hls] at htail
  cases hmode : s.mode.isDoc with
  | false => exact cut_of_set_outside hmode hne htail hls hv
  | true =>
    obtain ⟨lineStart, hasText, hm⟩ := exists_of_isDoc hmode
    rcases s.cut_of_isDoc hmode hne with ⟨rest, rfl, hcut⟩ | hpiece
    · rw [hcut, cut, hm]
      rfl
    have hlength := s.length_take_cut hne
    have hu : cs.take (s.cut cs).length ≠ [] := by
      refine List.ne_nil_of_length_pos ?_
      rw [hlength]
      exact (s.cut_fits hne).pos
    have hlast : (cs.take (s.cut cs).length ++ spelled (ls.take v)).getLast? ≠ some '*' := by
      have hlast := hline.getLast?_ne
      rwa [run_of_ne_nil s hne, hls, List.take_succ_cons, spelled_cons] at hlast
    have hsame : cutDoc lineStart hasText (cs.take (s.cut cs).length ++ spelled ls) = s.cut cs := by
      rw [← hls, spelled_run, List.take_append_drop, cut, hm]
    have hbefore : PieceBefore (cs.take (s.cut cs).length) (spelled (ls.take v))
        (spelled (ls.set v (.docText, new))) (s.cut cs) := by
      refine ⟨hlength.symm, fun hnil => ?_, fun hnil hkind d hd => ?_⟩
      · obtain rfl := eq_zero_of_spelled_take hls hv hnil
        obtain ⟨l, hl, hkind⟩ := hline.before
        rw [run_of_ne_nil s hne] at hl
        cases hl
        exact hkind
      · refine hglue (eq_zero_of_spelled_take hls hv hnil) hkind d ?_
        obtain ⟨c, hc, -⟩ := hnew.head_new
        rw [(spelled_set hv (.docText, new)).2, hnil, List.nil_append] at hd
        rwa [← List.head?_append_of_ne_nil _ (by rintro rfl; cases hc)]
    have hcongr := cutDoc_congr hu (by rw [hsame]; exact hbefore) (parts_of_set htail hls hv hnew) hlast
    rw [hsame] at hcongr
    rw [cut, hm]
    exact hcongr

end Set

/-- With another text behind a tag, the lexer cuts the same lexemes but for that text. -/
theorem run_set (s : Lexer) (cs : List Char) {v : Nat} (hline : OnTagLine s.mode (s.run cs) v)
    {old new : List Char} (hv : (s.run cs)[v]? = some (.docText, old)) (hnew : Rewords old new)
    (hglue : ∀ i name, v = i + 1 → (s.run cs)[i]? = some (.docTag, name) →
      ∀ c, new.head? = some c → isTagChar c = false) :
    s.run (spelled ((s.run cs).set v (.docText, new))) = (s.run cs).set v (.docText, new) := by
  induction v generalizing s cs with
  | zero =>
    have hm : s.mode = .doc false true := by
      rcases hline with ⟨hm, -⟩ | ⟨i, hi, -⟩
      · exact hm
      · cases hi
    obtain ⟨ls, hrun⟩ : ∃ ls, s.run cs = (.docText, old) :: ls := by
      cases hrun : s.run cs with
      | nil => rw [hrun] at hv; cases hv
      | cons l ls =>
        rw [hrun] at hv
        cases hv
        exact ⟨ls, rfl⟩
    rw [hrun, List.set_cons_zero, spelled_cons]
    exact TextCut.run_new hm hrun hnew
  | succ v ih =>
    have hne : cs ≠ [] := by
      rintro rfl
      rw [run, if_pos rfl] at hv
      cases hv
    have htail := hline.tail hne
    have hcut := cut_of_set hne hline hnew rfl (v := v) (by
      rw [run_of_ne_nil s hne] at hv
      exact hv) (fun hzero hkind => hglue 0 (cs.take (s.cut cs).length) (by rw [hzero]) (by
        rw [run_of_ne_nil s hne, ← hkind]
        rfl))
    rw [run_of_ne_nil s hne] at hv hglue ⊢
    rw [List.set_cons_succ, spelled_cons]
    rw [run_of_cut (List.ne_nil_of_length_pos ?_) hcut (s.length_take_cut hne).symm]
    · refine congrArg (_ :: ·) (ih _ _ htail hv fun i name hi hname => ?_)
      exact hglue (i + 1) name (by rw [hi]) hname
    · rw [s.length_take_cut hne]
      exact (s.cut_fits hne).pos

end Lexer

end PhpStyle
