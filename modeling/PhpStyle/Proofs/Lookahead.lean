import PhpStyle.Proofs.EnclosedLexemes

/-!
# How far the lexer looks

`Alike` lists all that a lexeme of code may see of the text behind it; texts that look alike to it may
be exchanged (`Alike.cutPhp`). Behind the marks in `walls` hardly anything is seen (`Alike.of_wall`),
and behind a mark that is no blank almost nothing (`cutPhp_hard`), so the text behind the slash that
opens a comment may change without any lexeme before it noticing (`cut_congr`).
-/

namespace PhpStyle

open Text

namespace Lexer

variable {w y z z' : List Char} {c : Char}

/-- The lexeme at the start of a text that starts neither a tag nor an attribute nor a comment. -/
def cutCode (s : Lexer) (c : Char) (rest : List Char) : Cut :=
  if c = ' ' || c = '\t' || c = '\r' || c = '\n' then ⟨.blank, blankLength (c :: rest), .php⟩
  else if c = '$' && rest.head?.any isNameStart then
    ⟨.variableName, 1 + (rest.takeWhile isNameChar).length, .php⟩
  else if c = '\x27' || c = '\x22' || c = '\x60' then ⟨.quoted, 1 + quotedTail c rest, .php⟩
  else if startsWith "<<<".toList (c :: rest) then
    match heredocLength? (c :: rest) with
    | some n => ⟨.quoted, n, .php⟩
    | none => cutOperator s.last (c :: rest)
  else if c.isDigit || (c = '.' && rest.head?.any Char.isDigit) then cutNumber (c :: rest)
  else if c = '(' then
    match castLength? (c :: rest) with
    | some n => ⟨.cast, n, .php⟩
    | none => ⟨.openParen, 1, .php⟩
  else if c = ')' then ⟨.closeParen, 1, .php⟩
  else if c = '\x7b' then ⟨.openBrace, 1, .php⟩
  else if c = '\x7d' then ⟨.closeBrace, 1, .php⟩
  else if c = '[' then ⟨squareKind s.last, 1, .php⟩
  else if c = ']' then ⟨closeSquareKind s.squares.head?, 1, .php⟩
  else if c = ';' then ⟨.semicolon, 1, .php⟩
  else if c = ',' then ⟨.comma, 1, .php⟩
  else if c = '\\' || isNameStart c then cutWord s.last (c :: rest)
  else cutOperator s.last (c :: rest)

theorem cutPhp_eq (s : Lexer) (c : Char) (rest : List Char) : s.cutPhp (c :: rest) =
    if startsWith "?>".toList (c :: rest) then ⟨.closeTag, 2, .html⟩
    else if startsWith "#[".toList (c :: rest) then ⟨.openAttribute, 2, .php⟩
    else if startsWith "#".toList (c :: rest) || startsWith "//".toList (c :: rest) then
      ⟨.comment, lineCommentLength (c :: rest), .php⟩
    else if startsWith "/**/".toList (c :: rest) then ⟨.comment, 4, .php⟩
    else if startsWith "/**".toList (c :: rest) then ⟨.docOpen, 3, .doc false false⟩
    else if startsWith "/*".toList (c :: rest) then
      ⟨.comment, blockCommentLength (c :: rest), .php⟩
    else s.cutCode c rest := by
  have never : ∀ lead : List Char, (∀ t, c :: rest ≠ lead ++ t) →
      ¬ startsWith lead (c :: rest) = true := fun lead h => by simp [startsWith_eq_false h]
  unfold cutPhp
  split
  case h_1 heq => rw [heq]; rfl
  case h_2 heq => rw [heq]; rfl
  case h_3 rest' hattribute heq =>
    obtain ⟨rfl, rfl⟩ := List.cons.inj heq
    rw [if_neg (never "?>".toList fun t h => absurd (List.cons.inj h).1 (by decide)),
      if_neg (never "#[".toList fun t h => hattribute t (List.cons.inj h).2)]
    rfl
  case h_4 heq => rw [heq]; rfl
  case h_5 heq => rw [heq]; rfl
  case h_6 rest' hempty heq =>
    have hcomment := never "/**/".toList fun t h => hempty t (by
      rw [heq] at h
      exact (List.cons.inj (List.cons.inj (List.cons.inj h).2).2).2)
    rw [if_neg hcomment, heq]
    rfl
  case h_7 rest' hempty hdoc heq =>
    have hcomment := never "/**/".toList fun t h => hempty t (by
      rw [heq] at h
      exact (List.cons.inj (List.cons.inj h).2).2)
    have hopen := never "/**".toList fun t h => hdoc t (by
      rw [heq] at h
      exact (List.cons.inj (List.cons.inj h).2).2)
    rw [if_neg hcomment, if_neg hopen, heq]
    rfl
  case h_8 c' rest' htag hattribute hhash hslash hempty hdoc hblock heq =>
    obtain ⟨rfl, rfl⟩ := List.cons.inj heq
    change s.cutCode c rest = _
    have hline : ¬ (startsWith "#".toList (c :: rest) || startsWith "//".toList (c :: rest)) = true := by
      rw [Bool.or_eq_true, not_or]
      exact ⟨never "#".toList fun t h => hhash (List.cons.inj h).1,
        never "//".toList fun t h => hslash t (List.cons.inj h).1 (List.cons.inj h).2⟩
    rw [if_neg (never "?>".toList fun t h => htag t (List.cons.inj h).1 (List.cons.inj h).2),
      if_neg (never "#[".toList fun t h => hattribute t (List.cons.inj h).1 (List.cons.inj h).2),
      if_neg hline,
      if_neg (never "/**/".toList fun t h => hempty t (List.cons.inj h).1 (List.cons.inj h).2),
      if_neg (never "/**".toList fun t h => hdoc t (List.cons.inj h).1 (List.cons.inj h).2),
      if_neg (never "/*".toList fun t h => hblock t (List.cons.inj h).1 (List.cons.inj h).2)]
  case h_9 heq => cases heq

/-- The leads by which comments and tags are told apart. -/
def leads : List String :=
  ["?>", "#[", "#", "//", "/**/", "/**", "/*", "<<<"]

theorem leads_walls : ∀ l ∈ leads, ∀ c ∈ walls, c ∉ l.toList.tail.dropLast := by
  decide

/-- The lexemes whose kind depends on whether the character behind the blanks after them is one of
those that `p` holds of. -/
def Peeks (last : Option Kind) (u : List Char) (p : Char → Bool) : Prop :=
  lower u = "enum".toList ∧ namesMember last = false ∧ p = isNameStart ∨
    u = ['?'] ∧ precedesType last = true ∧ p = isTypeStart

/-- To a lexeme at the start of `d :: w` that ends before them, the texts `y` and `y'` look alike. -/
structure Alike (s : Lexer) (d : Char) (w y y' : List Char) : Prop where
  lead : ∀ l ∈ leads, startsWith l.toList (d :: (w ++ y')) = startsWith l.toList (d :: (w ++ y))
  blank : (d = ' ' || d = '\t' || d = '\r' || d = '\n') = true →
    blankLength (d :: (w ++ y)) ≤ w.length + 1 →
    blankLength (d :: (w ++ y')) = blankLength (d :: (w ++ y))
  name : (d = '$' || d = '\\' || isNameStart d) = true → EndsName y ∧ EndsName y'
  number : (d = '.' || d.isDigit) = true →
    (w ++ y').head?.any Char.isDigit = (w ++ y).head?.any Char.isDigit ∧
      cutNumber (d :: (w ++ y')) = cutNumber (d :: (w ++ y))
  quoted : (d = '\x27' || d = '\x22' || d = '\x60') = true → quotedTail d (w ++ y) ≤ w.length →
    quotedTail d (w ++ y') = quotedTail d (w ++ y)
  line : (startsWith "#".toList (d :: (w ++ y)) || startsWith "//".toList (d :: (w ++ y))) = true →
    lineCommentLength (d :: (w ++ y)) ≤ w.length + 1 →
    lineCommentLength (d :: (w ++ y')) = lineCommentLength (d :: (w ++ y))
  block : startsWith "/*".toList (d :: (w ++ y)) = true →
    blockCommentLength (d :: (w ++ y)) ≤ w.length + 1 →
    blockCommentLength (d :: (w ++ y')) = blockCommentLength (d :: (w ++ y))
  heredoc : startsWith "<<<".toList (d :: (w ++ y)) = true →
    (∀ n, heredocLength? (d :: (w ++ y)) = some n → n ≤ w.length + 1) →
    heredocLength? (d :: (w ++ y')) = heredocLength? (d :: (w ++ y))
  cast : d = '(' → (∀ n, castLength? (d :: (w ++ y)) = some n → n ≤ w.length + 1) →
    castLength? (d :: (w ++ y')) = castLength? (d :: (w ++ y))
  operator : (cutOperator s.last (d :: (w ++ y))).length ≤ w.length + 1 →
    ∀ o ∈ operators, startsWith o.1.toList (d :: (w ++ y')) = true → o.1.length ≤ w.length + 1
  /-- Behind the lexeme and the blanks after it the texts go on alike. -/
  view : ∀ n p, Peeks s.last ((d :: w).take n) p → n = (s.cutPhp (d :: (w ++ y))).length →
    (trimStart ((d :: w).drop n ++ y')).head?.any p = (trimStart ((d :: w).drop n ++ y)).head?.any p

section Congr

variable {s : Lexer} {d : Char}

theorem iteCongr {α : Type} {P : α → Prop} {p q : Prop} [Decidable p] [Decidable q] {a a' b b' : α}
    (h : P (if p then a else b)) (hpq : q ↔ p) (hpos : p → P a → a' = a) (hneg : ¬ p → P b → b' = b) :
    (if q then a' else b') = if p then a else b := by
  by_cases hp : p
  · rw [if_pos hp] at h
    rw [if_pos hp, if_pos (hpq.2 hp)]
    exact hpos hp h
  · rw [if_neg hp] at h
    rw [if_neg hp, if_neg (mt hpq.1 hp)]
    exact hneg hp h

theorem number_of_halts (hy : Halts y) (hy' : Halts y') :
    (w ++ y').head?.any Char.isDigit = (w ++ y).head?.any Char.isDigit ∧
      cutNumber (d :: (w ++ y')) = cutNumber (d :: (w ++ y)) := by
  have hne : d :: w ≠ [] := List.cons_ne_nil d w
  refine ⟨?_, (cutNumber_stop hy' hne).trans (cutNumber_stop hy hne).symm⟩
  rw [head?_any_stop (hy.stop isNameChar_of_isDigit), head?_any_stop (hy'.stop isNameChar_of_isDigit)]

/-- The lexeme at the start of `d :: (w ++ y)` is cut as `cut` says, and ends before `y`. -/
structure CutsBefore (s : Lexer) (d : Char) (w y : List Char) (cut : Cut) : Prop where
  cut_eq : s.cutPhp (d :: (w ++ y)) = cut
  length_le : cut.length ≤ w.length + 1

theorem Alike.cutOperator (halike : Alike s d w y y')
    (h : CutsBefore s d w y (Lexer.cutOperator s.last (d :: (w ++ y)))) :
    Lexer.cutOperator s.last (d :: (w ++ y')) = Lexer.cutOperator s.last (d :: (w ++ y)) := by
  refine cutOperator_congr (w := d :: w) s.last (List.cons_ne_nil d w) h.length_le
    (halike.operator h.length_le) fun hq hlast => ?_
  exact halike.view _ _ (.inr ⟨hq, hlast, rfl⟩) (by rw [h.cut_eq, List.cons_append])

theorem Alike.cutWord (halike : Alike s d w y y') (hword : (d = '\\' || isNameStart d) = true)
    (h : CutsBefore s d w y (Lexer.cutWord s.last (d :: (w ++ y)))) :
    Lexer.cutWord s.last (d :: (w ++ y')) = Lexer.cutWord s.last (d :: (w ++ y)) := by
  obtain ⟨hy, hy'⟩ := halike.name (by rw [Bool.or_assoc, hword, Bool.or_true])
  refine cutWord_congr (w := d :: w) s.last hy hy' (List.cons_ne_nil d w) fun henum hlast => ?_
  exact halike.view _ _ (.inl ⟨henum, hlast, rfl⟩) (by rw [h.cut_eq, List.cons_append])

theorem Alike.cutCode (halike : Alike s d w y y') (h : CutsBefore s d w y (s.cutCode d (w ++ y))) :
    s.cutCode d (w ++ y') = s.cutCode d (w ++ y) := by
  have hhere := halike.lead "<<<" (by decide)
  have hvariable : (d = '$' && (w ++ y').head?.any isNameStart) =
      (d = '$' && (w ++ y).head?.any isNameStart) := by
    by_cases hd : d = '$'
    · obtain ⟨hy, hy'⟩ := halike.name (by simp [hd])
      rw [head?_any_stop (hy.stop isNameChar_of_isNameStart),
        head?_any_stop (hy'.stop isNameChar_of_isNameStart)]
    · simp [hd]
  have hnumber : (d = '.' && (w ++ y').head?.any Char.isDigit) =
      (d = '.' && (w ++ y).head?.any Char.isDigit) := by
    by_cases hd : d = '.'
    · rw [(halike.number (by simp [hd])).1]
    · simp [hd]
  unfold Lexer.cutCode at h ⊢
  refine iteCongr h Iff.rfl (fun hblank h => ?blank) fun _ h =>
    iteCongr h (by rw [hvariable]) (fun hdollar h => ?variableName) fun _ h =>
    iteCongr h Iff.rfl (fun hquote h => ?quoted) fun _ h =>
    iteCongr h (by rw [hhere]) (fun hdoc h => ?heredoc) fun _ h =>
    iteCongr h (by rw [hnumber]) (fun hdigit h => ?number) fun _ h =>
    iteCongr h Iff.rfl (fun hparen h => ?cast) fun _ h =>
    iteCongr h Iff.rfl (fun _ _ => rfl) fun _ h => iteCongr h Iff.rfl (fun _ _ => rfl) fun _ h =>
    iteCongr h Iff.rfl (fun _ _ => rfl) fun _ h => iteCongr h Iff.rfl (fun _ _ => rfl) fun _ h =>
    iteCongr h Iff.rfl (fun _ _ => rfl) fun _ h => iteCongr h Iff.rfl (fun _ _ => rfl) fun _ h =>
    iteCongr h Iff.rfl (fun _ _ => rfl) fun _ h => iteCongr h Iff.rfl halike.cutWord
      fun _ h => halike.cutOperator h
  case blank => rw [halike.blank hblank h.length_le]
  case variableName =>
    obtain ⟨hy, hy'⟩ := halike.name (by simp [(Bool.and_eq_true _ _ ▸ hdollar).1])
    rw [takeWhile_stop (hy.stop fun _ => id), takeWhile_stop (hy'.stop fun _ => id)]
  case quoted =>
    have htail : 1 + quotedTail d (w ++ y) ≤ w.length + 1 := h.length_le
    rw [halike.quoted hquote (by omega)]
  case heredoc =>
    have hlength : ∀ n, heredocLength? (d :: (w ++ y)) = some n → n ≤ w.length + 1 := by
      intro n hn
      rw [hn] at h
      exact h.length_le
    rw [halike.heredoc hdoc hlength]
    cases hhead : heredocLength? (d :: (w ++ y)) with
    | some n => rfl
    | none =>
      rw [hhead] at h
      exact halike.cutOperator h
  case number =>
    refine (halike.number ?_).2
    rcases Bool.or_eq_true_iff.1 hdigit with hd | hd
    · simp [hd]
    · simp [(Bool.and_eq_true _ _ ▸ hd).1]
  case cast =>
    have hlength : ∀ n, castLength? (d :: (w ++ y)) = some n → n ≤ w.length + 1 := by
      intro n hn
      rw [hn] at h
      exact h.length_le
    rw [halike.cast hparen hlength]

/-- What looks alike to a lexeme does not change it. -/
theorem Alike.cutPhp (halike : Alike s d w y y') (h : (s.cutPhp (d :: (w ++ y))).length ≤ w.length + 1) :
    s.cutPhp (d :: (w ++ y')) = s.cutPhp (d :: (w ++ y)) := by
  have h : CutsBefore s d w y (s.cutPhp (d :: (w ++ y))) := ⟨rfl, h⟩
  have hlead : ∀ l ∈ leads, startsWith l.toList (d :: (w ++ y')) = true ↔
      startsWith l.toList (d :: (w ++ y)) = true := fun l hl => by rw [halike.lead l hl]
  rw [cutPhp_eq, cutPhp_eq]
  rw [cutPhp_eq] at h
  refine iteCongr h (hlead "?>" (by decide)) (fun _ _ => rfl) fun _ h =>
    iteCongr h (hlead "#[" (by decide)) (fun _ _ => rfl) fun _ h =>
    iteCongr h ?line (fun hline h => by rw [halike.line hline h.length_le]) fun _ h =>
    iteCongr h (hlead "/**/" (by decide)) (fun _ _ => rfl) fun _ h =>
    iteCongr h (hlead "/**" (by decide)) (fun _ _ => rfl) fun _ h =>
    iteCongr h (hlead "/*" (by decide)) (fun hblock h => by rw [halike.block hblock h.length_le])
      fun _ h => halike.cutCode h
  rw [Bool.or_eq_true, Bool.or_eq_true, hlead "#" (by decide), hlead "//" (by decide)]

end Congr

/-! ### Walls -/

theorem length_of_heredoc {d : Char} (hc : c ∈ walls)
    (h : startsWith "<<<".toList (d :: (w ++ c :: z)) = true) : 3 ≤ (d :: w).length := by
  obtain ⟨t, ht⟩ := exists_eq_append_of_startsWith h
  obtain ⟨-, ht⟩ := List.cons.inj ht
  match w with
  | [] =>
    obtain ⟨rfl, -⟩ := List.cons.inj ht
    exact absurd hc (by decide)
  | [e] =>
    obtain ⟨-, ht⟩ := List.cons.inj ht
    obtain ⟨rfl, -⟩ := List.cons.inj ht
    exact absurd hc (by decide)
  | e :: f :: w => simp

/-- Behind a wall a lexeme sees the type and the closing parenthesis of a cast, the first line of a
heredoc, and the first character behind the blanks after a word or a question mark. -/
theorem Alike.of_wall {s : Lexer} {d : Char} (hc : c ∈ walls) (htag : c = '?' → z.head? ≠ some '>')
    (hcarriage : c = '\r' → (startsWith "#".toList (d :: (w ++ c :: z)) ||
      startsWith "//".toList (d :: (w ++ c :: z))) = true →
      lineCommentLength (d :: (w ++ c :: z)) < w.length + 1)
    (hcast : d = '(' → (∀ n, castLength? (d :: (w ++ c :: z)) = some n → n ≤ w.length + 1) →
      castLength? (d :: (w ++ c :: z')) = castLength? (d :: (w ++ c :: z)))
    (hheredoc : startsWith "<<<".toList (d :: w) = true → '\n' ∉ d :: w →
      (∀ n, heredocLength? (d :: (w ++ c :: z)) = some n → n ≤ w.length + 1) →
      heredocLength? (d :: (w ++ c :: z')) = heredocLength? (d :: (w ++ c :: z)))
    (hview : ∀ n p, Peeks s.last ((d :: w).take n) p → n = (s.cutPhp (d :: (w ++ c :: z))).length →
      (trimStart ((d :: w).drop n ++ c :: z')).head?.any p =
        (trimStart ((d :: w).drop n ++ c :: z)).head?.any p) :
    Alike s d w (c :: z) (c :: z') where
  lead l hl := startsWith_stop (w := d :: w) (List.cons_ne_nil d w) (leads_walls l hl c hc)
  blank _ h := blankLength_congr (w := d :: w) h
  name _ := ⟨(halts_of_wall hc z).endsName, (halts_of_wall hc z').endsName⟩
  number _ := number_of_halts (halts_of_wall hc z) (halts_of_wall hc z')
  quoted _ h := quotedTail_congr w h _
  line hs h := lineCommentLength_congr (w := d :: w) (ne_of_wall hc) htag (fun hr => hcarriage hr hs) h
  block hs h := by
    have hlength : 2 ≤ (d :: w).length := by
      cases w with
      | nil =>
        obtain ⟨t, ht⟩ := exists_eq_append_of_startsWith hs
        obtain ⟨-, ht⟩ := List.cons.inj ht
        obtain ⟨rfl, -⟩ := List.cons.inj ht
        exact absurd hc (by decide)
      | cons e w => simp
    exact blockCommentLength_congr (w := d :: w) hlength h _
  heredoc hs h := by
    have hthree : "<<<".toList.length ≤ (d :: w).length := length_of_heredoc hc hs
    by_cases hline : '\n' ∈ d :: w
    · have hname := (halts_of_wall hc z c rfl).1
      exact heredocLength?_congr (w := d :: w) (by rintro e ⟨⟩; exact hname)
        (by rintro e ⟨⟩; exact hname) hline fun n hn =>
          ⟨h n hn, fun hnil => absurd hnil (List.cons_ne_nil c z)⟩
    · rw [← List.cons_append, startsWith_append_of_le hthree] at hs
      exact hheredoc hs hline h
  cast := hcast
  operator h o ho hs := length_le_of_wall (w := d :: w) hc (List.cons_ne_nil d w) h ho hs
  view := hview

/-- The parts of a cast end where neither a letter nor a gap follows. -/
theorem castLength?_congr (hy : ∀ c, y.head? = some c → c.isAlpha = false ∧ c ∉ [' ', '\t'])
    (hy' : ∀ c, y'.head? = some c → c.isAlpha = false ∧ c ∉ [' ', '\t'])
    (hclose : y'.head? = some ')' ↔ y.head? = some ')') (hne : w ≠ []) :
    castLength? (w ++ y') = castLength? (w ++ y) := by
  obtain ⟨d, w, rfl⟩ := List.exists_cons_of_ne_nil hne
  generalize hgap : (fun d : Char => d == ' ' || d == '\t') = isGap
  -- each part is read off what the parts before it have left of `w`
  have hparts : ∀ y : List Char, (∀ c, y.head? = some c → c.isAlpha = false ∧ c ∉ [' ', '\t']) →
      castLength? (d :: (w ++ y)) =
        let word := (w.drop (w.takeWhile isGap).length).takeWhile Char.isAlpha
        let rest := w.drop ((w.takeWhile isGap).length + word.length)
        if castTypes.contains (String.ofList (lower word)) &&
            (rest.drop (rest.takeWhile isGap).length ++ y).head? = some ')' then
          some ((w.takeWhile isGap).length + word.length + (rest.takeWhile isGap).length + 2)
        else none := by
    intro y hy
    have hdrop : ∀ n ≤ w.length, (d :: (w ++ y)).drop (1 + n) = w.drop n ++ y := by
      intro n hn
      rw [Nat.add_comm, List.drop_succ_cons, List.drop_append_of_le_length hn]
    have hnogap : ∀ c, y.head? = some c → isGap c = false := by
      intro c hc
      have := (hy c hc).2
      simp only [List.mem_cons, not_or] at this
      simp [← hgap, this]
    have hlead := length_takeWhile_le isGap w
    have hword := length_takeWhile_le Char.isAlpha (w.drop (w.takeWhile isGap).length)
    rw [List.length_drop] at hword
    simp only [castLength?, hgap, List.drop_succ_cons, List.drop_zero]
    rw [takeWhile_stop hnogap, hdrop _ hlead, takeWhile_stop fun c hc => (hy c hc).1, Nat.add_assoc,
      hdrop _ (by omega), takeWhile_stop hnogap,
      List.drop_append_of_le_length (length_takeWhile_le _ _)]
  have hhead : ∀ u : List Char, (u ++ y').head? = some ')' ↔ (u ++ y).head? = some ')' := by
    intro u
    cases u with
    | nil => exact hclose
    | cons e u => rfl
  rw [List.cons_append, List.cons_append, hparts y hy, hparts y' hy']
  simp only [hhead]

/-- No name, number, cast or tag goes on with the first character of the text. -/
structure Stops (y : List Char) : Prop where
  halts : Halts y
  head : ∀ c, y.head? = some c → c ∉ [' ', '\t', ')', '>', '[']

/-- The lexemes of code that may go on behind a stop. -/
inductive Crosses (s : Lexer) : List Char → Cut → Prop
  | lineComment (c cs) : Crosses s (c :: cs) ⟨.comment, lineCommentLength (c :: cs), .php⟩
  | emptyComment (cs) : Crosses s ('/' :: '*' :: '*' :: '/' :: cs) ⟨.comment, 4, .php⟩
  | docOpen (cs) : Crosses s ('/' :: '*' :: '*' :: cs) ⟨.docOpen, 3, .doc false false⟩
  | blockComment (cs) :
      Crosses s ('/' :: '*' :: cs) ⟨.comment, blockCommentLength ('/' :: '*' :: cs), .php⟩
  | blank (c cs) : Crosses s (c :: cs) ⟨.blank, blankLength (c :: cs), .php⟩
  | quoted (c cs) : Crosses s (c :: cs) ⟨.quoted, 1 + quotedTail c cs, .php⟩
  | heredoc (cs n) (h : heredocLength? cs = some n) : Crosses s cs ⟨.quoted, n, .php⟩
  | operator (c cs) : Crosses s (c :: cs) (cutOperator s.last (c :: cs))

theorem length_cutWord_le (last : Option Kind) (hhalts : Halts y) (hne : w ≠ []) :
    (cutWord last (w ++ y)).length ≤ w.length := by
  have hle := wordLength_le w
  have hpos := List.length_pos_iff.2 hne
  unfold cutWord
  simp only [wordLength_stop hhalts.endsName hne]
  repeat' split
  all_goals
    simp only
    omega

theorem length_cutNumber_le {d : Char} (hhalts : Halts y)
    (h : (d.isDigit || (d = '.' && (w ++ y).head?.any Char.isDigit)) = true) :
    (cutNumber (d :: (w ++ y))).length ≤ w.length + 1 := by
  rw [head?_any_stop (hhalts.stop isNameChar_of_isDigit)] at h
  have hstop := cutNumber_stop hhalts (List.cons_ne_nil d w)
  rw [List.cons_append] at hstop
  rw [hstop]
  exact (cutNumber_fits h).le

theorem castLength?_le (hy : Stops y) (hne : w ≠ []) {n : Nat} (h : castLength? (w ++ y) = some n) :
    n ≤ w.length := by
  have hhead : ∀ c, y.head? = some c → c.isAlpha = false ∧ c ∉ [' ', '\t'] := by
    intro c hc
    refine ⟨hy.halts.stop isNameChar_of_isAlpha c hc, fun hgap => hy.head c hc ?_⟩
    exact (by decide : ∀ c ∈ [' ', '\t'], c ∈ [' ', '\t', ')', '>', '[']) c hgap
  have hclose : y.head? ≠ some ')' := fun hc => hy.head ')' hc (by decide)
  rw [castLength?_congr (y := []) nofun hhead (by simp [hclose]) hne, List.append_nil] at h
  exact (castLength?_bounds h).2

/-- Of the lexemes of code only blanks, comments, quoted texts and operators go on behind a stop. -/
theorem PhpCut.crosses {s : Lexer} {cut : Cut} (h : PhpCut s (w ++ y) cut) (hne : w ≠ [])
    (hy : Stops y) (hlt : w.length < cut.length) : Crosses s (w ++ y) cut := by
  obtain ⟨d, w, rfl⟩ := List.exists_cons_of_ne_nil hne
  -- a lexeme of two marks has its second where the text stops
  have htwo : ∀ {a b : Char} {t : List Char}, d :: w ++ y = a :: b :: t → (d :: w).length < 2 →
      b ∉ [' ', '\t', ')', '>', '['] := by
    intro a b t heq hlength
    obtain rfl : w = [] := List.length_eq_zero_iff.1 (Nat.lt_one_iff.1 (Nat.lt_of_succ_lt_succ hlength))
    have hy' : y = b :: t := (List.cons.inj heq).2
    exact hy.head b (by rw [hy']; rfl)
  generalize htext : d :: w ++ y = text at h
  cases h with
  | lineComment c cs => exact .lineComment c cs
  | emptyComment cs => exact .emptyComment cs
  | docOpen cs => exact .docOpen cs
  | blockComment cs => exact .blockComment cs
  | blank c cs => exact .blank c cs
  | quoted c cs => exact .quoted c cs
  | heredoc _ n h => exact .heredoc _ n h
  | operator c cs => exact .operator c cs
  | closeTag cs => exact absurd (by decide) (htwo htext hlt)
  | openAttribute cs => exact absurd (by decide) (htwo htext hlt)
  | mark | openSquare | closeSquare =>
    simp only [List.length_cons] at hlt
    omega
  | variableName cs =>
    obtain rfl : w ++ y = cs := (List.cons.inj htext).2
    have hle := length_takeWhile_le isNameChar w
    simp only [takeWhile_stop (hy.halts.stop fun _ => id), List.length_cons] at hlt
    omega
  | number c cs hdigit =>
    obtain ⟨rfl, rfl⟩ := List.cons.inj htext
    exact absurd hlt (Nat.not_lt.2 (length_cutNumber_le hy.halts hdigit))
  | cast _ n hcast =>
    rw [← htext] at hcast
    exact absurd hlt (Nat.not_lt.2 (castLength?_le hy hne hcast))
  | word c cs =>
    rw [← htext] at hlt
    exact absurd hlt (Nat.not_lt.2 (length_cutWord_le s.last hy.halts hne))

theorem heredocLength?_hard (hc : c ∈ walls) (hhard : c ∉ [' ', '\t', '\r']) (hline : '\n' ∉ w)
    (hw : 3 ≤ w.length) (h : ∀ n, heredocLength? (w ++ c :: z) = some n → n ≤ w.length) (z' : List Char) :
    heredocLength? (w ++ c :: z') = heredocLength? (w ++ c :: z) := by
  by_cases hfeed : c = '\n'
  · subst hfeed
    simp only [heredocLength?_line hline] at h ⊢
    split
    · rfl
    · rename_i hlabel
      rw [if_neg hlabel] at h
      have := h _ rfl
      omega
  · have hmark : isNameChar c = false ∧ isBlank c = false ∧ isQuoteMark c = false := by
      have hall : ∀ c ∈ walls, c ∉ [' ', '\t', '\r'] → c ≠ '\n' →
          isNameChar c = false ∧ isBlank c = false ∧ isQuoteMark c = false := by decide
      exact hall c hc hhard hfeed
    have hnone : ∀ z, heredocLength? (w ++ c :: z) = none := by
      intro z
      have hmem : c ∈ ((w ++ c :: z).takeWhile (· ≠ '\n')).drop 3 := by
        rw [takeWhile_line hline, List.drop_append_of_le_length hw]
        simp [hfeed]
      exact heredocLength?_eq_none hmark.1 (mem_trimBoth (mem_trim hmem hmark.2.1) hmark.2.2)
    rw [hnone, hnone]

/-- Of a wall that is no blank a lexeme sees hardly anything. -/
theorem cutPhp_hard (s : Lexer) (hc : c ∈ walls) (hhard : c ∉ [' ', '\t', '\r']) (hne : w ≠ [])
    (htag : c = '?' → z.head? ≠ some '>')
    (hview : ∀ n p, Peeks s.last (w.take n) p → n = (s.cutPhp (w ++ c :: z)).length →
      (trimStart (w.drop n ++ c :: z')).head?.any p = (trimStart (w.drop n ++ c :: z)).head?.any p)
    (h : (s.cutPhp (w ++ c :: z)).length ≤ w.length) :
    s.cutPhp (w ++ c :: z') = s.cutPhp (w ++ c :: z) := by
  obtain ⟨d, w, rfl⟩ := List.exists_cons_of_ne_nil hne
  have hall : ∀ c ∈ walls, c ∉ [' ', '\t', '\r'] → c.isAlpha = false ∧ c ∉ [' ', '\t'] := by
    decide
  have hcast : castLength? (d :: (w ++ c :: z')) = castLength? (d :: (w ++ c :: z)) :=
    castLength?_congr (w := d :: w) (fun e he => by cases he; exact hall c hc hhard)
      (fun e he => by cases he; exact hall c hc hhard) Iff.rfl hne
  refine Alike.cutPhp (.of_wall hc htag (fun hr => absurd hhard (by simp [hr])) (fun _ _ => hcast)
    (fun hs hline hn => ?_) hview) h
  · have hthree := length_le_of_startsWith hs
    exact heredocLength?_hard hc hhard hline hthree hn z'

theorem openTagLength?_congr (hne : w ≠ []) :
    openTagLength? (w ++ '/' :: z') = openTagLength? (w ++ '/' :: z) := by
  have htag : lower ((w ++ '/' :: z').take 5) = "<?php".toList ↔
      lower ((w ++ '/' :: z).take 5) = "<?php".toList := by
    by_cases hlength : 5 ≤ w.length
    · rw [List.take_append_of_le_length hlength, List.take_append_of_le_length hlength]
    · -- the slash would be one of the five
      have hslash : ∀ z, '/' ∈ lower ((w ++ '/' :: z).take 5) := fun z =>
        List.mem_map_of_mem (f := Char.toLower) (mem_take_of_length_lt (Nat.lt_of_not_le hlength))
      have hno : '/' ∉ "<?php".toList := by decide
      exact ⟨fun h => absurd (h ▸ hslash z') hno, fun h => absurd (h ▸ hslash z) hno⟩
  have hecho : startsWith "<?=".toList (w ++ '/' :: z') = startsWith "<?=".toList (w ++ '/' :: z) :=
    startsWith_stop hne (by decide)
  simp only [openTagLength?, htag, hecho]

theorem htmlLength_congr (h : htmlLength (w ++ '/' :: z) ≤ w.length) :
    htmlLength (w ++ '/' :: z') = htmlLength (w ++ '/' :: z) := by
  induction w with
  | nil =>
    have hnone : openTagLength? ('/' :: z) = none := by
      simp [openTagLength?, lower, startsWith, after?]
    have := htmlLength_pos hnone
    simp only [List.nil_append, List.length_nil] at h
    omega
  | cons c w ih =>
    rw [List.cons_append, htmlLength, ← List.cons_append] at h
    rw [List.cons_append, List.cons_append, htmlLength, htmlLength, ← List.cons_append,
      ← List.cons_append, openTagLength?_congr (z := z) (List.cons_ne_nil c w)]
    split
    · rfl
    · rename_i hopen
      rw [if_neg hopen, List.length_cons] at h
      rw [ih (by omega)]

theorem cutHtml_congr (hne : w ≠ []) (h : (cutHtml (w ++ '/' :: z)).length ≤ w.length) :
    cutHtml (w ++ '/' :: z') = cutHtml (w ++ '/' :: z) := by
  unfold cutHtml at h ⊢
  rw [openTagLength?_congr (z := z) hne]
  split
  · rfl
  · rename_i hnone
    rw [hnone] at h
    rw [htmlLength_congr h]

def Mode.isDoc : Mode → Bool
  | doc _ _ => true
  | _ => false

/-- Outside of doc comments, a lexeme that ends before a slash is the same whatever follows it. -/
theorem cut_congr (s : Lexer) (hmode : s.mode.isDoc = false) (hne : w ≠ [])
    (h : (s.cut (w ++ '/' :: z)).length ≤ w.length) :
    s.cut (w ++ '/' :: z') = s.cut (w ++ '/' :: z) := by
  unfold cut at h ⊢
  split
  · rename_i hm
    rw [hm] at h
    exact cutHtml_congr hne h
  · rename_i hm
    rw [hm] at h
    refine cutPhp_hard s (by decide) (by decide) hne (fun h => absurd h (by decide)) (fun n _ _ _ => ?_) h
    rw [head?_trimStart_append, head?_trimStart_append]
    rfl
  · rename_i hm
    rw [hm] at hmode
    cases hmode

end Lexer

end PhpStyle
