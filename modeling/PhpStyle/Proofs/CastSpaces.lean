import PhpStyle.Proofs.InsertedComments
import PhpStyle.Proofs.TrailingBlankLines
import PhpStyle.Rules.CastSpacing

/-!
# The space after a cast

A cast ends with a closing parenthesis, which no lexeme before it looks past, and what the cast
itself reads ends there too. So the blanks behind a cast may be exchanged for others: the rest is
lexed as before (`run_respaced`).

`Respaced` goes through the lexemes of a source from cast to cast and collects, on the way, the
lexemes with the right spaces and the fixes of the rule. What holds of a whole pass is read off it
by induction: its text (`Respaced.text`), how that is lexed (`Respaced.run`), that it is spaced
(`Respaced.allSpaced`), and that no two fixes meet (`Respaced.apart`).
-/

namespace PhpStyle

open Text

namespace Lexer

variable {s : Lexer} {c : Char} {cs u w z z' : List Char} {ls pre post : List (Kind × List Char)}

theorem cutWord_kind_ne_cast (last : Option Kind) (cs : List Char) :
    (cutWord last cs).kind ≠ .cast := by
  have hkeywords : ∀ p ∈ keywords, p.2 ≠ .cast := by decide
  unfold cutWord wordKind
  simp only
  split
  · nofun
  split
  · nofun
  split
  · nofun
  split
  · split <;> nofun
  · cases hlookup : keywords.lookup _ with
    | none => exact nofun
    | some k =>
      obtain ⟨l₁, l₂, heq, -⟩ := List.lookup_eq_some_iff.1 hlookup
      have hmem : (String.ofList (lower (cs.take (wordLength cs))), k) ∈ keywords := by
        rw [heq]
        simp
      exact hkeywords _ hmem

theorem cutOperator_kind_ne_cast (last : Option Kind) (cs : List Char) :
    (cutOperator last cs).kind ≠ .cast := by
  have hoperators : ∀ p ∈ operators, p.2 ≠ .cast := by decide
  unfold cutOperator
  split
  · rename_i text kind h
    exact hoperators _ (List.mem_of_find?_eq_some h)
  split
  · unfold signKind
    simp only
    repeat' split
    all_goals nofun
  · nofun

theorem cutNumber_kind_ne_cast (cs : List Char) : (cutNumber cs).kind ≠ .cast := by
  have hdecimal : ∀ cs, (cutDecimal cs).kind ≠ .cast := by
    intro cs
    unfold cutDecimal
    simp only
    split <;> nofun
  unfold cutNumber
  split
  · split
    · nofun
    · exact hdecimal _
  · exact hdecimal _

theorem cutPhp_paren (s : Lexer) (cs : List Char) : s.cutPhp ('(' :: cs) =
    match castLength? ('(' :: cs) with
    | some n => ⟨.cast, n, .php⟩
    | none => ⟨.openParen, 1, .php⟩ := by
  cases h : castLength? ('(' :: cs) <;> simp [cutPhp, startsWith, after?, h]

/-- Only a parenthesis starts a cast. -/
def Cut.CastFrom (c : Char) (cut : Cut) : Prop :=
  cut.kind = .cast → c = '('

theorem Cut.CastFrom.of_ne {cut : Cut} (h : cut.kind ≠ .cast) : cut.CastFrom c :=
  fun hk => absurd hk h

theorem castFrom_cutCode (s : Lexer) (c : Char) (cs : List Char) : (s.cutCode c cs).CastFrom c := by
  unfold cutCode
  refine iteInduction (fun _ => .of_ne (by simp)) fun _ => iteInduction (fun _ => .of_ne (by simp)) fun _ =>
    iteInduction (fun _ => .of_ne (by simp)) fun _ => iteInduction (fun _ => ?_) fun _ =>
    iteInduction (fun _ => .of_ne (cutNumber_kind_ne_cast _)) fun _ =>
    iteInduction (fun hc _ => hc) fun _ => iteInduction (fun _ => .of_ne (by simp)) fun _ =>
    iteInduction (fun _ => .of_ne (by simp)) fun _ => iteInduction (fun _ => .of_ne (by simp)) fun _ =>
    iteInduction (fun _ => .of_ne ?_) fun _ => iteInduction (fun _ => .of_ne ?_) fun _ =>
    iteInduction (fun _ => .of_ne (by simp)) fun _ => iteInduction (fun _ => .of_ne (by simp)) fun _ =>
    iteInduction (fun _ => .of_ne (cutWord_kind_ne_cast _ _)) fun _ =>
    .of_ne (cutOperator_kind_ne_cast _ _)
  · split
    · exact .of_ne (by simp)
    · exact .of_ne (cutOperator_kind_ne_cast _ _)
  · rcases squareKind_eq s.last with hk | hk <;> rw [hk] <;> decide
  · unfold closeSquareKind
    split <;> decide

theorem castFrom_cutPhp (s : Lexer) (c : Char) (cs : List Char) :
    (s.cutPhp (c :: cs)).CastFrom c := by
  rw [cutPhp_eq]
  exact iteInduction (fun _ => .of_ne nofun) fun _ => iteInduction (fun _ => .of_ne nofun) fun _ =>
    iteInduction (fun _ => .of_ne nofun) fun _ => iteInduction (fun _ => .of_ne nofun) fun _ =>
    iteInduction (fun _ => .of_ne nofun) fun _ => iteInduction (fun _ => .of_ne nofun) fun _ =>
    castFrom_cutCode s c cs

theorem mode_of_cast (h : (s.cut cs).kind = .cast) : s.mode = .php := by
  unfold cut at h
  cases hm : s.mode with
  | php => rfl
  | html =>
    rw [hm] at h
    simp only [cutHtml] at h
    split at h <;> cases h
  | doc lineStart hasText =>
    rw [hm] at h
    simp only at h
    unfold cutDoc at h
    split at h
    case h_5 =>
      repeat' split at h
      all_goals cases h
    all_goals cases h

theorem getElem?_of_castLength? {n : Nat} (h : castLength? cs = some n) :
    cs[n - 1]? = some ')' := by
  unfold castLength? at h
  simp only at h
  split at h
  · rename_i hc
    simp only [Bool.and_eq_true, decide_eq_true_eq] at hc
    obtain ⟨-, hclose⟩ := hc
    rw [List.drop_drop, List.head?_drop] at hclose
    rw [← hclose, ← Option.some.inj h]
    congr 1
    omega
  · cases h

/-- A text that is a cast, whatever stands behind it: it ends in a parenthesis. -/
structure IsCast (u : List Char) : Prop where
  head : ∃ w, w ≠ [] ∧ u = w ++ [')'] ∧ u.head? = some '('
  length : ∀ z, castLength? (u ++ z) = some u.length

theorem isCast_of_cut (hu : u ≠ []) (hk : (s.cut (u ++ z)).kind = .cast)
    (hlength : (s.cut (u ++ z)).length = u.length) : IsCast u := by
  obtain ⟨d, v, rfl⟩ := List.exists_cons_of_ne_nil hu
  have hphp : s.cut ((d :: v) ++ z) = s.cutPhp (d :: (v ++ z)) := by
    rw [Lexer.cut, mode_of_cast hk]
    rfl
  rw [hphp] at hk hlength
  obtain rfl : d = '(' := castFrom_cutPhp s d (v ++ z) hk
  rw [cutPhp_paren] at hk hlength
  cases hn : castLength? ('(' :: (v ++ z)) with
  | none =>
    rw [hn] at hk
    cases hk
  | some n =>
    rw [hn] at hlength
    simp only at hlength
    subst hlength
    have hlast := getElem?_of_castLength? hn
    rw [← List.cons_append, List.getElem?_append_left (by simp),
      ← List.getLast?_eq_getElem?] at hlast
    obtain ⟨w, hw⟩ := List.getLast?_eq_some_iff.1 hlast
    have hne : w ≠ [] := by
      rintro rfl
      cases hw
    refine ⟨⟨w, hne, hw, rfl⟩, fun z' => ?_⟩
    rw [← hn, ← List.cons_append, hw, List.append_assoc, List.append_assoc]
    exact castLength?_congr (fun e he => by cases he; decide) (fun e he => by cases he; decide)
      Iff.rfl hne

theorem IsCast.cut (h : IsCast u) (hmode : s.mode = .php) (z : List Char) :
    s.cut (u ++ z) = ⟨.cast, u.length, .php⟩ := by
  obtain ⟨w, -, -, hhead⟩ := h.head
  obtain ⟨v, rfl⟩ := List.head?_eq_some_iff.1 hhead
  have hlength := h.length z
  rw [List.cons_append] at hlength
  rw [Lexer.cut, hmode, List.cons_append, cutPhp_paren, hlength]

/-- The lexemes of `n` spaces. -/
def gap (n : Nat) : List (Kind × List Char) :=
  if n = 0 then [] else [(.blank, List.replicate n ' ')]

theorem spelled_gap (n : Nat) : spelled (gap n) = List.replicate n ' ' := by
  unfold gap
  split
  · rename_i h
    rw [h]
    rfl
  · simp [spelled]

theorem blankLength_replicate (n : Nat) (hc : c ∉ [' ', '\t', '\r', '\n']) (cs : List Char) :
    blankLength (List.replicate n ' ' ++ c :: cs) = n := by
  have hspaces : ∀ d ∈ List.replicate n ' ', d ∈ [' ', '\t', '\r'] := by
    intro d hd
    rw [List.eq_of_mem_replicate hd]
    decide
  rw [blankLength_append, if_pos hspaces, blankLength_eq_zero hc, Nat.add_zero, List.length_replicate]

theorem run_gap {m : Kind × List Char} (hmode : s.mode = .php) (hm : m.1 ≠ .blank)
    (h : s.run (spelled (m :: post)) = m :: post) (n : Nat) :
    s.run (spelled (gap n ++ m :: post)) = gap n ++ m :: post := by
  obtain ⟨cut, hcut, hkind, -, hne, -⟩ := cut_of_run h
  obtain ⟨c, v, hv⟩ := List.exists_cons_of_ne_nil hne
  have hc : c ∉ [' ', '\t', '\r', '\n'] := by
    intro hc
    rw [hv, List.cons_append, Lexer.cut, hmode, cutPhp_blank s hc] at hcut
    rw [hkind, ← hcut] at hm
    exact hm rfl
  unfold gap
  split
  · exact h
  · rename_i hn
    have hahead : s.BlankAhead (List.replicate n ' ') (m :: post) := by
      refine ⟨hmode, ⟨' ', List.replicate (n - 1) ' ', ?_, by decide⟩, ?_, h⟩
      · rw [← List.replicate_succ, Nat.sub_add_cancel (Nat.pos_of_ne_zero hn)]
      · rw [spelled_cons, hv, List.cons_append, blankLength_replicate n hc, List.length_replicate]
    exact hahead.run

theorem run_behind_blanks {bs : List (Kind × List Char)} (hbs : ∀ b ∈ bs, b.1 = .blank)
    (h : s.run cs = bs ++ ls) : s.run (spelled ls) = ls := by
  induction bs generalizing cs with
  | nil =>
    rw [List.nil_append] at h
    rw [← h, spelled_run]
  | cons b bs ih =>
    obtain ⟨k, v⟩ := b
    obtain ⟨hb, hrest⟩ := List.forall_mem_cons.1 hbs
    obtain rfl : k = .blank := hb
    exact ih hrest (blankAhead_of_run h).rest

/-- The blanks behind a cast may be exchanged for spaces, or taken out. -/
theorem run_respaced {bs : List (Kind × List Char)} {m : Kind × List Char}
    (hbs : ∀ b ∈ bs, b.1 = .blank) (hm : m.1 ≠ .blank) (n : Nat)
    (h : s.run cs = pre ++ (.cast, u) :: (bs ++ m :: post)) :
    s.run (spelled (pre ++ (.cast, u) :: (gap n ++ m :: post))) =
      pre ++ (.cast, u) :: (gap n ++ m :: post) := by
  obtain ⟨s', hreads, hrun⟩ := exists_reads h
  obtain ⟨cut, hcut, hkind, hlength, hne, hrest⟩ := cut_of_run hrun
  simp only at hcut hkind hlength hne
  have hkind : (s'.cut (u ++ spelled (bs ++ m :: post))).kind = .cast := by rw [hcut, hkind]
  have hmode := mode_of_cast hkind
  have hcast := isCast_of_cut hne hkind (by rw [hcut, hlength])
  obtain ⟨w, -, hw, -⟩ := hcast.head
  -- the parenthesis that ends the cast hides what is behind it
  have hretail : Reads s pre (spelled ((.cast, u) :: (gap n ++ m :: post))) s' := by
    refine hreads.retail hmode fun t l rest hphp _ hrest => ?_
    obtain ⟨hu, -, hcut⟩ := hrest.head
    rw [Lexer.cut, hphp] at hcut
    have hne : l.2 ++ (spelled rest ++ w) ≠ [] := List.append_ne_nil_of_left_ne_nil hu _
    have hcongr : t.cutPhp (l.2 ++ (spelled rest ++ w) ++ ')' :: spelled (gap n ++ m :: post)) =
        t.cutPhp (l.2 ++ (spelled rest ++ w) ++ ')' :: spelled (bs ++ m :: post)) := by
      refine t.cutPhp_hard (by decide) (by decide) hne (fun h => absurd h (by decide))
        (fun n _ _ _ => ?_) ?_
      · rw [head?_trimStart_append, head?_trimStart_append]
        rfl
      · simp only [spelled_cons, hw, List.append_assoc, List.singleton_append,
          List.length_append] at hcut ⊢
        omega
    simpa only [spelled_cons, hw, List.append_assoc, List.singleton_append] using hcongr
  rw [hcast.cut hmode] at hcut
  rw [← hcut] at hrest
  have hbehind := run_gap (s := s'.advance ⟨.cast, u.length, .php⟩) rfl hm
    (run_behind_blanks hbs hrest) n
  have hall := hretail.run
  rw [spelled_cons, run_of_cut hne (hcast.cut hmode _) rfl, hbehind] at hall
  rw [spelled_append, spelled_cons]
  exact hall

end Lexer

/-! ### Edited texts -/

open Lexer

section Edited

variable {k : Nat} {ls ls' : List (Kind × List Char)} {es es' : List Edit}

/-- The text of lexemes that start at index `k`, with edits on them. -/
def Lexer.spelledWith (k : Nat) (ls : List (Kind × List Char)) (es : List Edit) : List Char :=
  ((ls.zipIdx k).map fun p => (Edit.applyAt p.2 es (String.ofList p.1.2)).toList).flatten

theorem spelled_reworded (ls : List (Kind × List Char)) (es : List Edit) :
    spelled (reworded ls es) = spelledWith 0 ls es := by
  rw [spelled, spelledWith, reworded, List.mapIdx_eq_zipIdx_map, List.map_map]
  rfl

theorem spelledWith_cons (l : Kind × List Char) : spelledWith k (l :: ls) es =
    (Edit.applyAt k es (String.ofList l.2)).toList ++ spelledWith (k + 1) ls es := by
  rw [spelledWith, List.zipIdx_cons, List.map_cons, List.flatten_cons]
  rfl

theorem spelledWith_append : spelledWith k (ls ++ ls') es =
    spelledWith k ls es ++ spelledWith (k + ls.length) ls' es := by
  rw [spelledWith, List.zipIdx_append, List.map_append, List.flatten_append]
  rfl

theorem spelledWith_congr (h : ∀ j, k ≤ j → j < k + ls.length → ∀ t,
    Edit.applyAt j es t = Edit.applyAt j es' t) : spelledWith k ls es = spelledWith k ls es' := by
  rw [spelledWith, spelledWith]
  refine congrArg List.flatten (List.map_congr_left fun p hp => ?_)
  obtain ⟨hle, hlt, -⟩ := List.mem_zipIdx hp
  rw [h p.2 hle hlt]

theorem spelledWith_of_untouched (h : ∀ j, k ≤ j → j < k + ls.length → ¬ Edit.touches es j = true) :
    spelledWith k ls es = spelled ls := by
  induction ls generalizing k with
  | nil => rfl
  | cons l ls ih =>
    rw [List.length_cons] at h
    rw [spelledWith_cons, spelled_cons,
      Edit.applyAt_of_not_touches (h k (Nat.le_refl k) (by omega)), String.toList_ofList,
      ih fun j hj hlt => h j (by omega) (by omega)]

theorem spelledWith_removed (h : ∀ j, k ≤ j → j < k + ls.length → ∀ t, Edit.applyAt j es t = "") :
    spelledWith k ls es = [] := by
  induction ls generalizing k with
  | nil => rfl
  | cons l ls ih =>
    rw [List.length_cons] at h
    rw [spelledWith_cons, h k (Nat.le_refl k) (by omega),
      ih fun j hj hlt => h j (by omega) (by omega)]
    rfl

end Edited

namespace Rules.CastSpacing

variable {n k i j : Nat} {u : List Char} {bs ls ls' : List (Kind × List Char)}
  {m : Kind × List Char} {es : List (List Edit)}

theorem touches_edits {count : Nat} (h : Edit.touches (edits n k count) j = true) :
    k ≤ j ∧ j ≤ k + count := by
  unfold edits at h
  cases count with
  | zero =>
    have hj : k = j := by simpa [Edit.touches, Edit.index] using h
    omega
  | succ count =>
    rw [List.range'_succ] at h
    simp only [Edit.touches, List.any_cons, List.any_map, Bool.or_eq_true, List.any_eq_true,
      List.mem_range'_1, Function.comp, Edit.remove, Edit.index, beq_iff_eq] at h
    rcases h with rfl | ⟨i, hi, rfl⟩ <;> omega

theorem spelledWith_edits (l : Kind × List Char) :
    spelledWith k (l :: bs) (edits n k bs.length) = l.2 ++ List.replicate n ' ' := by
  rw [spelledWith_cons]
  cases bs with
  | nil =>
    simp [edits, spelledWith, Edit.applyAt, Edit.index, Edit.apply, spaces]
  | cons b bs =>
    have hedits : edits n k (b :: bs).length =
        [.replace (k + 1) (spaces n)] ++ (List.range' (k + 2) bs.length).map Edit.remove := rfl
    have hrest : ∀ j < k + 2,
        ¬ Edit.touches ((List.range' (k + 2) bs.length).map Edit.remove) j = true := by
      intro j hj
      rw [ArrayBlankLines.touches_map_remove, List.mem_range'_1]
      omega
    have hcast : ¬ Edit.touches (edits n k (b :: bs).length) k = true := by
      rw [hedits, Edit.touches_append, Bool.or_eq_true]
      exact not_or.2 ⟨by simp [Edit.touches, Edit.index], hrest k (by omega)⟩
    have hgone : ∀ j, k + 2 ≤ j → j < k + 2 + bs.length → ∀ t,
        Edit.applyAt j (edits n k (b :: bs).length) t = "" := by
      intro j hle hlt t
      rw [hedits, Edit.applyAt_append, Edit.applyAt_removes, if_pos]
      · rw [ArrayBlankLines.touches_map_remove, List.mem_range'_1]
        omega
      · intro e he
        obtain ⟨i, -, rfl⟩ := List.mem_map.1 he
        rfl
    rw [Edit.applyAt_of_not_touches hcast, spelledWith_cons, spelledWith_removed hgone, hedits,
      Edit.applyAt_append, Edit.applyAt_of_not_touches (hrest (k + 1) (by omega))]
    simp [Edit.applyAt, Edit.index, Edit.apply, spaces]

/-- The fix for a cast at `k` with the blanks `bs` behind it, if one is due. -/
def fixOf (n k : Nat) (bs : List (Kind × List Char)) : List (List Edit) :=
  if spelled bs = List.replicate n ' ' then [] else [edits n k bs.length]

/-- `ls'` is `ls` with `n` spaces behind each cast that something other than blanks follows, and
`es` are the fixes that bring this about, where `ls` starts at index `k`. -/
inductive Respaced (n : Nat) : Nat → List (Kind × List Char) → List (Kind × List Char) →
    List (List Edit) → Prop
  | nil (k : Nat) : Respaced n k [] [] []
  | keep {k : Nat} (l : Kind × List Char) {ls ls' : List (Kind × List Char)} {es : List (List Edit)}
      (hl : l.1 = .cast → ∀ b ∈ ls, b.1 = .blank) (h : Respaced n (k + 1) ls ls' es) :
      Respaced n k (l :: ls) (l :: ls') es
  | cast {k : Nat} (u : List Char) {bs ls ls' : List (Kind × List Char)} {m : Kind × List Char}
      {es : List (List Edit)} (hbs : ∀ b ∈ bs, b.1 = .blank) (hm : m.1 ≠ .blank)
      (h : Respaced n (k + 1 + bs.length) (m :: ls) (m :: ls') es) :
      Respaced n k ((.cast, u) :: (bs ++ m :: ls)) ((.cast, u) :: (gap n ++ m :: ls'))
        (fixOf n k bs ++ es)

theorem exists_split (ls : List (Kind × List Char)) : (∀ b ∈ ls, b.1 = .blank) ∨
    ∃ bs m rest, ls = bs ++ m :: rest ∧ (∀ b ∈ bs, b.1 = .blank) ∧ m.1 ≠ .blank := by
  induction ls with
  | nil => exact .inl (by simp)
  | cons l ls ih =>
    by_cases hl : l.1 = .blank
    · rcases ih with hall | ⟨bs, m, rest, rfl, hbs, hm⟩
      · exact .inl (List.forall_mem_cons.2 ⟨hl, hall⟩)
      · exact .inr ⟨l :: bs, m, rest, rfl, List.forall_mem_cons.2 ⟨hl, hbs⟩, hm⟩
    · exact .inr ⟨[], l, ls, rfl, by simp, hl⟩

theorem exists_respaced (n k : Nat) (ls : List (Kind × List Char)) :
    ∃ ls' es, Respaced n k ls ls' es := by
  induction hlength : ls.length using Nat.strongRecOn generalizing k ls with | _ length ih
  cases ls with
  | nil => exact ⟨[], [], .nil k⟩
  | cons l ls =>
    subst hlength
    have hkeep : (l.1 = .cast → ∀ b ∈ ls, b.1 = .blank) →
        ∃ ls' es, Respaced n k (l :: ls) ls' es := by
      intro hl
      obtain ⟨ls', es, h⟩ := ih ls.length (by simp) (k + 1) ls rfl
      exact ⟨l :: ls', es, .keep l hl h⟩
    rcases exists_split ls with hall | ⟨bs, m, rest, rfl, hbs, hm⟩
    · exact hkeep fun _ => hall
    · by_cases hl : l.1 = .cast
      · obtain ⟨k', u⟩ := l
        obtain rfl : k' = .cast := hl
        have hshort : (m :: rest).length < ((Kind.cast, u) :: (bs ++ m :: rest)).length := by
          simp only [List.length_cons, List.length_append]
          omega
        obtain ⟨ls', es, h⟩ := ih (m :: rest).length hshort (k + 1 + bs.length) (m :: rest) rfl
        obtain ⟨rest', rfl⟩ : ∃ rest', ls' = m :: rest' := by
          cases h with
          | keep => exact ⟨_, rfl⟩
          | cast => exact ⟨_, rfl⟩
        exact ⟨_, _, .cast u hbs hm h⟩
      · exact hkeep fun h => absurd h hl

theorem filter_blank_eq_nil_iff : bs.filter (·.1 != .blank) = [] ↔ ∀ b ∈ bs, b.1 = .blank := by
  simp [List.filter_eq_nil_iff]

namespace Respaced

/-- Lexing the respaced text gives the respaced lexemes. -/
theorem run {s : Lexer} (h : Respaced n k ls ls' es) (pre : List (Kind × List Char))
    (hrun : s.run (spelled (pre ++ ls)) = pre ++ ls) :
    s.run (spelled (pre ++ ls')) = pre ++ ls' := by
  induction h generalizing pre with
  | nil => exact hrun
  | keep l hl h ih =>
    have := ih (pre ++ [l])
    simp only [List.append_assoc, List.singleton_append] at this
    exact this hrun
  | cast u hbs hm h ih =>
    rename_i k bs ls ls' m es
    have := ih (pre ++ (.cast, u) :: gap n)
    simp only [List.append_assoc, List.cons_append] at this
    exact this (run_respaced hbs hm n hrun)

/-- What is no blank stays. -/
theorem ink (h : Respaced n k ls ls' es) :
    ls'.filter (·.1 != .blank) = ls.filter (·.1 != .blank) := by
  induction h with
  | nil => rfl
  | keep l hl h ih => rw [List.filter_cons, List.filter_cons, ih]
  | cast u hbs hm h ih =>
    rename_i k bs ls ls' m es
    have hgap : ∀ b ∈ gap n, b.1 = .blank := by
      unfold gap
      split <;> simp
    rw [List.filter_cons, List.filter_cons, List.filter_append, List.filter_append,
      filter_blank_eq_nil_iff.2 hbs, filter_blank_eq_nil_iff.2 hgap, ih]

end Respaced

/-- Behind every cast there are blanks only, or `n` spaces and something else. -/
def AllSpaced (n : Nat) (ls : List (Kind × List Char)) : Prop :=
  ∀ u rest, ((Kind.cast, u) :: rest) <:+ ls → (∀ b ∈ rest, b.1 = .blank) ∨
    ∃ m rest', rest = gap n ++ m :: rest' ∧ m.1 ≠ .blank

theorem suffix_of_gap {l : Kind × List Char} {rest : List (Kind × List Char)} (hl : l.1 ≠ .blank)
    (h : (l :: rest) <:+ gap n ++ ls) : (l :: rest) <:+ ls := by
  unfold gap at h
  split at h
  · exact h
  · rcases List.suffix_cons_iff.1 h with h | h
    · cases (List.cons.inj h).1
      exact absurd rfl hl
    · exact h

theorem Respaced.allSpaced (h : Respaced n k ls ls' es) : AllSpaced n ls' := by
  induction h with
  | nil =>
    intro u rest hsuffix
    cases List.suffix_nil.1 hsuffix
  | keep l hl h ih =>
    rename_i k ls ls' es
    intro u rest hsuffix
    rcases List.suffix_cons_iff.1 hsuffix with heq | hsuffix
    · obtain ⟨rfl, rfl⟩ := List.cons.inj heq
      exact .inl (filter_blank_eq_nil_iff.1 (h.ink.trans (filter_blank_eq_nil_iff.2 (hl rfl))))
    · exact ih u rest hsuffix
  | cast v hbs hm h ih =>
    intro u rest hsuffix
    rcases List.suffix_cons_iff.1 hsuffix with heq | hsuffix
    · obtain ⟨-, rfl⟩ := List.cons.inj heq
      exact .inr ⟨_, _, rfl, hm⟩
    · exact ih u rest (suffix_of_gap nofun hsuffix)

theorem touches_fixOf (h : Edit.touches (fixOf n k bs).flatten j = true) :
    k ≤ j ∧ j ≤ k + bs.length := by
  unfold fixOf at h
  split at h
  · cases h
  · rw [List.flatten_singleton] at h
    exact touches_edits h

namespace Respaced

theorem touches (h : Respaced n k ls ls' es) (hj : Edit.touches es.flatten j = true) :
    k ≤ j ∧ j < k + ls.length := by
  induction h with
  | nil => cases hj
  | keep l hl h ih =>
    have := ih hj
    rw [List.length_cons]
    omega
  | cast u hbs hm h ih =>
    rw [List.flatten_append, Edit.touches_append, Bool.or_eq_true] at hj
    simp only [List.length_cons, List.length_append] at ih ⊢
    rcases hj with hj | hj
    · have := touches_fixOf hj
      omega
    · have := ih hj
      omega

/-- The fixes give the text of the respaced lexemes. -/
theorem text (h : Respaced n k ls ls' es) : spelledWith k ls es.flatten = spelled ls' := by
  induction h with
  | nil => rfl
  | keep l hl h ih =>
    rename_i k ls ls' es
    have hnot : ¬ Edit.touches es.flatten k = true := by
      intro hk
      have := h.touches hk
      omega
    rw [spelledWith_cons, ih, spelled_cons, Edit.applyAt_of_not_touches hnot, String.toList_ofList]
  | cast u hbs hm h ih =>
    rename_i k bs ls ls' m es
    have hfix : spelledWith k ((.cast, u) :: bs) (fixOf n k bs).flatten =
        u ++ List.replicate n ' ' := by
      unfold fixOf
      split
      · rename_i heq
        rw [spelledWith_of_untouched (by simp [Edit.touches]), spelled_cons, heq]
      · rw [List.flatten_singleton, spelledWith_edits]
    have hindex : k + ((Kind.cast, u) :: bs).length = k + 1 + bs.length := by
      rw [List.length_cons]
      omega
    have hgroup : spelledWith k ((.cast, u) :: bs) ((fixOf n k bs).flatten ++ es.flatten) =
        spelledWith k ((.cast, u) :: bs) (fixOf n k bs).flatten := by
      refine spelledWith_congr fun j hle hlt t => ?_
      rw [Edit.applyAt_append, Edit.applyAt_of_not_touches]
      intro hj
      have := h.touches hj
      omega
    have hrest : spelledWith (k + 1 + bs.length) (m :: ls) ((fixOf n k bs).flatten ++ es.flatten) =
        spelledWith (k + 1 + bs.length) (m :: ls) es.flatten := by
      refine spelledWith_congr fun j hle hlt t => ?_
      have hnot : ¬ Edit.touches (fixOf n k bs).flatten j = true := by
        intro hj
        have := touches_fixOf hj
        omega
      rw [Edit.applyAt_append, Edit.applyAt_of_not_touches hnot]
    rw [← List.cons_append, spelledWith_append, hindex, List.flatten_append, hgroup, hrest, hfix,
      ih, spelled_cons (.cast, u), spelled_append, spelled_gap, List.append_assoc]

theorem ne_nil (h : Respaced n k ls ls' es) : ∀ e ∈ es, e ≠ [] := by
  induction h with
  | nil => simp
  | keep l hl h ih => exact ih
  | cast u hbs hm h ih =>
    rename_i k bs ls ls' m es
    intro e he
    rcases List.mem_append.1 he with he | he
    · unfold fixOf edits at he
      split at he
      · cases he
      · rw [List.mem_singleton.1 he]
        split <;> simp
    · exact ih e he

theorem apart (h : Respaced n k ls ls' es) : es.Pairwise Edit.Apart := by
  induction h with
  | nil => exact .nil
  | keep l hl h ih => exact ih
  | cast u hbs hm h ih =>
    rename_i k bs ls ls' m es
    refine List.pairwise_append.2 ⟨?_, ih, fun e he e' he' j hj hj' => ?_⟩
    · unfold fixOf
      split
      · exact .nil
      · exact List.pairwise_singleton _ _
    · have hleft := touches_fixOf (Edit.touches_flatten.2 ⟨e, he, hj⟩)
      have hright := h.touches (Edit.touches_flatten.2 ⟨e', he', hj'⟩)
      omega

end Respaced

/-! ### Findings -/

open Tokens

variable {source : String}

theorem lexemes_ofSource (source : String) :
    (ofSource source).items.toList.map (fun t => (t.kind, t.content.toList)) =
      ({} : Lexer).run source.toList := by
  refine List.ext_getElem? fun i => ?_
  rw [getElem?_lexemes, List.getElem?_map, Array.getElem?_toList]
  rfl

theorem size_eq_length (source : String) :
    (ofSource source).size = (({} : Lexer).run source.toList).length := by
  rw [← lexemes_ofSource, List.length_map, Array.length_toList, size]

section Behind

variable {rest : List (Kind × List Char)} {l : Kind × List Char}

theorem blanksAfter_eq (hdrop : (({} : Lexer).run source.toList).drop i = l :: (bs ++ rest))
    (hbs : ∀ b ∈ bs, b.1 = .blank) (hrest : ∀ m ∈ rest.head?, m.1 ≠ .blank) :
    blanksAfter (ofSource source) i = bs.length := by
  have hbehind : (({} : Lexer).run source.toList).drop (i + 1) = bs ++ rest := by
    rw [← List.tail_drop, hdrop, List.tail_cons]
  have hblanks : ((bs ++ rest).takeWhile fun l => l.1 == .blank) = bs := by
    rw [List.takeWhile_append_of_pos fun b hb => by simp [hbs b hb]]
    cases rest with
    | nil => simp
    | cons m rest =>
      have hm := hrest m rfl
      simp [hm]
  rw [← lexemes_ofSource, ← List.map_drop] at hbehind
  rw [blanksAfter, ← hblanks, ← hbehind, List.takeWhile_map, List.length_map]
  rfl

theorem toList_found (hdrop : (({} : Lexer).run source.toList).drop i = l :: (bs ++ rest)) :
    ((ofSource source).contentBetween (i + 1) (i + bs.length)).toList = spelled bs := by
  rw [toList_contentBetween, ← List.tail_drop, hdrop, List.tail_cons,
    show i + bs.length + 1 - (i + 1) = bs.length by omega, List.take_left]

theorem lt_size_iff (hdrop : (({} : Lexer).run source.toList).drop i = l :: (bs ++ rest)) :
    i + 1 + bs.length < (ofSource source).size ↔ rest ≠ [] := by
  have hlength := congrArg List.length hdrop
  rw [List.length_drop, List.length_cons, List.length_append] at hlength
  rw [size_eq_length, ← List.length_pos_iff]
  omega

theorem finding?_of_blanks (hdrop : (({} : Lexer).run source.toList).drop i = l :: bs)
    (hbs : ∀ b ∈ bs, b.1 = .blank) : finding? n (ofSource source) i = none := by
  rw [← List.append_nil bs] at hdrop
  have hend := mt (lt_size_iff hdrop).1 (by simp)
  rw [finding?, blanksAfter_eq hdrop hbs (by simp)]
  simp [guard, hend]

theorem found_iff (hdrop : (({} : Lexer).run source.toList).drop i = l :: (bs ++ rest)) :
    (ofSource source).contentBetween (i + 1) (i + bs.length) = spaces n ↔
      spelled bs = List.replicate n ' ' := by
  rw [← String.toList_inj, toList_found hdrop, spaces, String.toList_ofList]

theorem finding?_of_spaced
    (hdrop : (({} : Lexer).run source.toList).drop i = l :: (bs ++ m :: rest))
    (hbs : ∀ b ∈ bs, b.1 = .blank) (hm : m.1 ≠ .blank) (h : spelled bs = List.replicate n ' ') :
    finding? n (ofSource source) i = none := by
  rw [finding?, blanksAfter_eq hdrop hbs (by simpa using hm)]
  simp [guard, (found_iff hdrop).2 h]

/-- Any other cast that something follows is fixed. -/
theorem fix_of_finding? (hdrop : (({} : Lexer).run source.toList).drop i = l :: (bs ++ m :: rest))
    (hbs : ∀ b ∈ bs, b.1 = .blank) (hm : m.1 ≠ .blank) :
    (finding? n (ofSource source) i).toList.filterMap (·.fix) = fixOf n i bs := by
  unfold fixOf
  split
  · rename_i heq
    rw [finding?_of_spaced hdrop hbs hm heq]
    rfl
  · rename_i hne
    have hlt := (lt_size_iff hdrop).2 (by simp)
    rw [finding?, blanksAfter_eq hdrop hbs (by simpa using hm)]
    simp [guard, hlt, mt (found_iff hdrop).1 hne]

end Behind

/-- What is found at a token. -/
def findings (n : Nat) (site : Site) (i : Nat) : List Finding :=
  (finding? n site.tokens i).toList

/-- The fixes at one of the lexemes. -/
def fixesAt (n : Nat) (source : String) (p : (Kind × List Char) × Nat) : List (List Edit) :=
  if p.1.1 = .cast then (finding? n (ofSource source) p.2).toList.filterMap (·.fix) else []

theorem fixes_eq_flatMap {site : Site} (hsite : site.tokens = ofSource source) :
    site.fixes (findings n) (site.places info) =
      (({} : Lexer).run source.toList).zipIdx.flatMap (fixesAt n source) := by
  rw [Site.fixes, Site.places, hsite, ← lexemes_ofSource, List.zipIdx_map, List.flatMap_map]
  induction (ofSource source).items.toList.zipIdx with
  | nil => rfl
  | cons p ps ih =>
    rw [List.filter_cons, List.flatMap_cons, ← ih]
    by_cases hp : p.1.kind = .cast
    · rw [if_pos (by simp [info, hp]), List.flatMap_cons, findings, hsite, fixesAt,
        if_pos (by simpa using hp)]
      rfl
    · rw [if_neg (by simp [info, hp]), fixesAt, if_neg (by simpa using hp), List.nil_append]

theorem Respaced.flatMap_fixesAt (h : Respaced n k ls ls' es)
    (hdrop : (({} : Lexer).run source.toList).drop k = ls) :
    (ls.zipIdx k).flatMap (fixesAt n source) = es := by
  induction h with
  | nil => rfl
  | keep l hl h ih =>
    rename_i k ls ls' es
    have hnext : (({} : Lexer).run source.toList).drop (k + 1) = ls := by
      rw [← List.tail_drop, hdrop, List.tail_cons]
    rw [List.zipIdx_cons, List.flatMap_cons, ih hnext]
    by_cases hcast : l.1 = .cast
    · rw [fixesAt, if_pos hcast, finding?_of_blanks hdrop (hl hcast)]
      rfl
    · rw [fixesAt, if_neg hcast]
      rfl
  | cast u hbs hm h ih =>
    rename_i k bs ls ls' m es
    have hnext : (({} : Lexer).run source.toList).drop (k + 1 + bs.length) = m :: ls := by
      rw [← List.drop_drop, ← List.tail_drop, hdrop, List.tail_cons, List.drop_left]
    have hblanks : (bs.zipIdx (k + 1)).flatMap (fixesAt n source) = [] := by
      refine List.flatMap_eq_nil_iff.2 fun p hp => ?_
      rw [fixesAt, if_neg]
      rw [hbs p.1 (List.fst_mem_of_mem_zipIdx hp)]
      decide
    rw [List.zipIdx_cons, List.flatMap_cons, List.zipIdx_append, List.flatMap_append, hblanks,
      ih hnext, fixesAt, if_pos rfl, fix_of_finding? hdrop hbs hm]
    rfl

theorem exists_fixes {site : Site} (hsite : site.tokens = ofSource source) (n : Nat) :
    ∃ ls', Respaced n 0 (({} : Lexer).run source.toList) ls'
      (site.fixes (findings n) (site.places info)) := by
  obtain ⟨ls', es, h⟩ := exists_respaced n 0 (({} : Lexer).run source.toList)
  refine ⟨ls', ?_⟩
  rw [fixes_eq_flatMap hsite, h.flatMap_fixesAt rfl]
  exact h

theorem Respaced.placed (h : Respaced n 0 (({} : Lexer).run source.toList) ls' es) :
    ∀ e ∈ es, Edit.Placed (ofSource source) e := by
  intro e he
  refine ⟨h.ne_nil e he, fun f hf => ?_⟩
  have htouch : Edit.touches es.flatten f.index = true :=
    Edit.touches_flatten.2 ⟨e, he, List.any_eq_true.2 ⟨f, hf, by simp⟩⟩
  have hlt := (h.touches htouch).2
  rw [size_eq_length]
  omega

/-- Between the tokens at `i` and `j` there are `n` spaces and nothing else. -/
structure Spaced (n : Nat) (ts : Tokens) (i j : Nat) : Prop where
  lt : i < j
  blank : ∀ m, i < m → m < j → ts.kind? m = some .blank
  text : ts.contentBetween (i + 1) (j - 1) = spaces n

theorem mem_gap {b : Kind × List Char} (h : b ∈ gap n) : b.1 = .blank := by
  unfold gap at h
  split at h
  · cases h
  · rw [List.mem_singleton.1 h]

theorem drop_eq_cons_of_kind {k : Kind} (h : (ofSource source).kind? i = some k) :
    ∃ u, (({} : Lexer).run source.toList).drop i =
      (k, u) :: (({} : Lexer).run source.toList).drop (i + 1) := by
  rw [← getElem?_kinds] at h
  exact ⟨_, Lexer.drop_eq_cons (lexeme_of_kind h)⟩

namespace AllSpaced

theorem finding?_eq_none (h : AllSpaced n (({} : Lexer).run source.toList))
    (hi : (ofSource source).kind? i = some .cast) : finding? n (ofSource source) i = none := by
  obtain ⟨u, hdrop⟩ := drop_eq_cons_of_kind hi
  rcases h u _ (hdrop ▸ List.drop_suffix _ _) with hall | ⟨m, rest, hrest, hm⟩
  · exact finding?_of_blanks hdrop hall
  · rw [hrest] at hdrop
    exact finding?_of_spaced hdrop (fun b => mem_gap) hm (spelled_gap n)

theorem exists_spaced (h : AllSpaced n (({} : Lexer).run source.toList)) {k : Kind}
    (hi : (ofSource source).kind? i = some .cast) (hij : i < j)
    (hj : (ofSource source).kind? j = some k) (hk : k ≠ .blank) :
    ∃ m ≤ j, (∃ k, (ofSource source).kind? m = some k ∧ k ≠ .blank) ∧
      Spaced n (ofSource source) i m := by
  have hkinds : ∀ m, (ofSource source).kind? (i + 1 + m) =
      ((({} : Lexer).run source.toList).drop (i + 1))[m]?.map (·.1) := by
    intro m
    rw [← getElem?_kinds, kinds_eq_lexemes, List.getElem?_map, List.getElem?_drop]
  obtain ⟨u, hdrop⟩ := drop_eq_cons_of_kind hi
  obtain ⟨d, rfl⟩ : ∃ d, j = i + 1 + d := ⟨j - (i + 1), by omega⟩
  rw [hkinds] at hj
  obtain ⟨l, hl, rfl⟩ := Option.map_eq_some_iff.1 hj
  rcases h u _ (hdrop ▸ List.drop_suffix _ _) with hall | ⟨m, rest, hrest, hm⟩
  · exact absurd (hall l (List.mem_of_getElem? hl)) hk
  · rw [hrest] at hdrop hl hkinds
    have hle : (gap n).length ≤ d := by
      by_contra hlt
      rw [List.getElem?_append_left (by omega)] at hl
      exact hk (mem_gap (List.mem_of_getElem? hl))
    refine ⟨i + 1 + (gap n).length, by omega, ⟨m.1, ?_, hm⟩, by omega, fun x hx hlt => ?_, ?_⟩
    · rw [hkinds, List.getElem?_append_right (Nat.le_refl _), Nat.sub_self]
      rfl
    · obtain ⟨y, rfl⟩ : ∃ y, x = i + 1 + y := ⟨x - (i + 1), by omega⟩
      have hy : y < (gap n).length := by omega
      rw [hkinds, List.getElem?_append_left hy, List.getElem?_eq_getElem hy, Option.map_some,
        mem_gap (List.getElem_mem hy)]
    · rw [show i + 1 + (gap n).length - 1 = i + (gap n).length by omega]
      exact (found_iff hdrop).2 (spelled_gap n)

end AllSpaced

end Rules.CastSpacing

/-- The kinds and texts of the tokens other than blanks. -/
def Tokens.ink (ts : Tokens) : List (Kind × List Char) :=
  (ts.items.toList.map fun t => (t.kind, t.content.toList)).filter (·.1 != .blank)

namespace Analyzer

open Rules.CastSpacing

/-- A pass of the rule alone changes nothing but blanks, a further pass reports nothing, and there
are `n` spaces between each cast and what follows it. -/
theorem casts_spaced {a : Analyzer} {n : Nat} {s : Option Severity}
    (hrules : a.rules = [(Rules.CastSpacing.rule n).withSeverity s])
    (henabled : a.config.isEnabled info.name = true) (disk : Disk) {r : Round}
    (hfixing : r.fixing = true) (hon : info.name ∉ r.run.disabled)
    (hloud : Text.occurs Allowance.marker r.text.toList = false) :
    (Tokens.ofSource (a.closing disk r).desk.buffer.text).ink = (Tokens.ofSource r.text).ink ∧
    (∀ r' : Round, r'.text = (a.closing disk r).desk.buffer.text →
      (a.closing disk r').desk.violations = []) ∧
    ∀ i j k, (Tokens.ofSource (a.closing disk r).desk.buffer.text).kind? i = some .cast → i < j →
      (Tokens.ofSource (a.closing disk r).desk.buffer.text).kind? j = some k → k ≠ .blank →
      ∃ m ≤ j, (∃ k, (Tokens.ofSource (a.closing disk r).desk.buffer.text).kind? m = some k ∧
          k ≠ .blank) ∧
        Spaced n (Tokens.ofSource (a.closing disk r).desk.buffer.text) i m := by
  have hrules : a.rules = [(Rule.ofFindings info (findings n)).withSeverity s] := hrules
  obtain ⟨ls, hrespaced⟩ := exists_fixes (@tokens_siteOf a disk r) n
  have hsettled := settled_closing disk hrules henabled hfixing hon hloud hrespaced.placed
    hrespaced.apart
  have htext := hsettled.refines.text_eq
  clear hsettled
  simp only at htext
  generalize (a.closing disk r).desk.buffer.text = text at htext ⊢
  generalize (a.siteOf disk r).fixes (findings n) ((a.siteOf disk r).places info) = es at *
  have hrun : ({} : Lexer).run text.toList = ls := by
    rw [htext, Tokens.toList_edited (Tokens.contents_ofSource r.text), spelled_reworded,
      hrespaced.text]
    refine hrespaced.run [] ?_
    rw [List.nil_append, spelled_run]
  have hspaced : AllSpaced n (({} : Lexer).run text.toList) := by
    rw [hrun]
    exact hrespaced.allSpaced
  refine ⟨?_, fun r' hr' => ?_, fun i j k hi hij hj hk => hspaced.exists_spaced hi hij hj hk⟩
  · rw [Tokens.ink, Tokens.ink, lexemes_ofSource, lexemes_ofSource, hrun, hrespaced.ink]
  · refine violations_closing disk hrules fun i hi => ?_
    rw [hr'] at hi
    have hkind : (Tokens.ofSource text).kind? i = some .cast := by
      obtain ⟨k, hk, hmem⟩ := Tokens.kindIs_iff.1 hi
      rw [← Tokens.getElem?_kinds, hk]
      simpa [info] using hmem
    rw [findings, tokens_siteOf, hr', hspaced.finding?_eq_none hkind]
    rfl

/-- Casts at no distance, on another line and in a chain are spaced; the last one, with nothing
behind it, stays. -/
theorem chained_casts_spaced :
    let a : Analyzer := ⟨⟨"/"⟩, [Rules.CastSpacing.rule 1], [], {}, true, 50⟩
    let source := "<?php $a = (int)$b + (float) \n (string)$c; (bool) "
    let r : Round := ⟨⟨"a.php"⟩, source, true, a.start, []⟩
    (a.closing {} r).desk.buffer.text = "<?php $a = (int) $b + (float) (string) $c; (bool) " ∧
    ∃ m ≤ 17, Spaced 1 (Tokens.ofSource (a.closing {} r).desk.buffer.text) 12 m := by
  intro a source r
  have htext : (a.closing {} r).desk.buffer.text =
      "<?php $a = (int) $b + (float) (string) $c; (bool) " := by
    decide +kernel
  have hspaced := (casts_spaced (a := a) (n := 1) (s := none) (r := r) rfl (by decide) {} rfl
    (by decide) (by decide +kernel)).2.2 12 17 .semicolon
  rw [htext] at hspaced ⊢
  obtain ⟨m, hm, -, hspaced⟩ := hspaced (by decide +kernel) (by decide) (by decide +kernel)
    (by decide)
  exact ⟨rfl, m, hm, hspaced⟩

end Analyzer

end PhpStyle
