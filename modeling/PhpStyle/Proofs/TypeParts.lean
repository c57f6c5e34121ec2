import PhpStyle.Proofs.DocFixes
import PhpStyle.Proofs.TypeReader

/-!
# Alternatives read back

A type that was read from a tag is made of alternatives, each read from a text of its own. Such
alternatives, joined again in any selection, are read as they were: the reader of a tag's text goes
over all of them (`Reader.run_joined`), and the reader of types splits the text where it was joined
(`parseChars_joined`). What can come between are the variable that a text seems to start with, an
open quote, and a return type that is still awaited (`Legible`).
-/

namespace PhpStyle

open Text

namespace DocType

theorem joinWith_cons (sep p : List Char) (ps : List (List Char)) :
    joinWith sep (p :: ps) = p ++ ps.flatMap (sep ++ ·) := by
  induction ps generalizing p with
  | nil => simp [joinWith]
  | cons q qs ih =>
    rw [joinWith, ih, List.flatMap_cons, List.append_assoc, List.append_assoc]
    exact nofun

theorem joinWith_prepend {sep : List Char} {c : Char} {ps : List (List Char)} (h : ps ≠ []) :
    joinWith sep (prepend c ps) = c :: joinWith sep ps := by
  obtain ⟨p, ps, rfl⟩ := List.exists_cons_of_ne_nil h
  rw [prepend, joinWith_cons, joinWith_cons, List.cons_append]

theorem joinWith_splitTop (sep : Char) (depth : Int) (quote : Option Char) (cs : List Char) :
    joinWith [sep] (splitTop sep depth quote cs) = cs := by
  induction cs generalizing depth quote with
  | nil => rfl
  | cons c cs ih =>
    have hprepend : ∀ depth quote,
        joinWith [sep] (prepend c (splitTop sep depth quote cs)) = c :: cs := by
      intro depth quote
      rw [joinWith_prepend (Reader.splitTop_ne_nil sep depth quote cs), ih]
    cases quote with
    | some q => exact hprepend _ _
    | none =>
      rw [splitTop]
      split_ifs with hquote hopens hcloses hsep
      · exact hprepend _ _
      · exact hprepend _ _
      · exact hprepend _ _
      · simp only [Bool.and_eq_true, decide_eq_true_eq] at hsep
        obtain ⟨p, ps, hps⟩ := List.exists_cons_of_ne_nil (Reader.splitTop_ne_nil sep 0 none cs)
        have hcs := ih 0 none
        rw [hps, joinWith_cons] at hcs
        rw [hps, joinWith_cons, List.flatMap_cons, hsep.1, List.nil_append, List.append_assoc, hcs]
        rfl
      · exact hprepend _ _

theorem splitTop_eq_singleton {sep : Char} {depth : Int} {quote : Option Char} {cs : List Char}
    (h : ¬ 1 < (splitTop sep depth quote cs).length) : splitTop sep depth quote cs = [cs] := by
  have hcs := joinWith_splitTop sep depth quote cs
  obtain ⟨p, ps, hps⟩ := List.exists_cons_of_ne_nil (Reader.splitTop_ne_nil sep depth quote cs)
  rw [hps] at h hcs ⊢
  obtain rfl : ps = [] := List.eq_nil_of_length_eq_zero (by simpa using h)
  rw [joinWith] at hcs
  rw [hcs]

theorem joined_eq_joinWith (sep : Char) (ms : List DocType) :
    joined sep ms = joinWith [sep] (ms.map chars) := by
  cases ms with
  | nil => rfl
  | cons m ms =>
    rw [joined_cons, List.map_cons, joinWith_cons]
    rfl

theorem length_flatMap_map_le (sep : List Char) {f : List Char → List Char} {ps : List (List Char)}
    (h : ∀ p ∈ ps, (f p).length ≤ p.length) :
    ((ps.map f).flatMap (sep ++ ·)).length ≤ (ps.flatMap (sep ++ ·)).length := by
  induction ps with
  | nil => exact Nat.le_refl 0
  | cons p ps ih =>
    obtain ⟨hp, hps⟩ := List.forall_mem_cons.1 h
    have := ih hps
    simp only [List.map_cons, List.flatMap_cons, List.length_append]
    omega

theorem length_joinWith_map_le {sep : List Char} {f : List Char → List Char} {ps : List (List Char)}
    (h : ∀ p ∈ ps, (f p).length ≤ p.length) :
    (joinWith sep (ps.map f)).length ≤ (joinWith sep ps).length := by
  cases ps with
  | nil => exact Nat.le_refl 0
  | cons p ps =>
    obtain ⟨hp, hps⟩ := List.forall_mem_cons.1 h
    have := length_flatMap_map_le sep hps
    rw [List.map_cons, joinWith_cons, joinWith_cons, List.length_append, List.length_append]
    omega

theorem eq_of_joinWith_map_eq (sep : List Char) {f : List Char → List Char} {ps : List (List Char)}
    (h : ∀ p ∈ ps, (f p).length ≤ p.length) (heq : joinWith sep (ps.map f) = joinWith sep ps) :
    ∀ p ∈ ps, f p = p := by
  induction ps with
  | nil => simp
  | cons p ps ih =>
    obtain ⟨hp, hps⟩ := List.forall_mem_cons.1 h
    have hrest := length_flatMap_map_le sep hps
    rw [List.map_cons, joinWith_cons, joinWith_cons] at heq
    have hlength := congrArg List.length heq
    rw [List.length_append, List.length_append] at hlength
    obtain ⟨hfirst, hlater⟩ := List.append_inj heq (by omega)
    refine List.forall_mem_cons.2 ⟨hfirst, ih hps ?_⟩
    cases ps with
    | nil => rfl
    | cons q qs =>
      rw [List.map_cons, List.flatMap_cons, List.flatMap_cons, List.append_assoc,
        List.append_assoc] at hlater
      rw [List.map_cons, joinWith_cons, joinWith_cons]
      exact List.append_cancel_left hlater

theorem length_argChars_le {ps : List (List Char)} {t : DocType} {p : List Char}
    (hp : t.chars.length ≤ p.length)
    (h : ∀ q ∈ ps, (parseUnion (trimStart q)).chars.length ≤ (trimStart q).length) :
    (argChars (t :: ps.map fun q => parseUnion (trimStart q))
      (ps.map fun q => String.ofList (',' :: q.takeWhile isBlank))).length ≤
        (joinWith [','] (p :: ps)).length := by
  induction ps generalizing t p with
  | nil => simpa [argChars, joinWith] using hp
  | cons q qs ih =>
    obtain ⟨hq, hqs⟩ := List.forall_mem_cons.1 h
    have hlater := ih hq hqs
    have hblanks : (q.takeWhile isBlank).length + (trimStart q).length = q.length := by
      rw [trimStart, ← List.length_append, List.takeWhile_append_dropWhile]
    rw [joinWith_cons, List.length_append] at hlater
    rw [List.map_cons, List.map_cons, argChars, joinWith_cons, List.flatMap_cons]
    · simp only [List.length_append, List.headD_cons, String.toList_ofList, List.length_cons,
        List.tail_cons, List.length_nil]
      omega
    · exact List.cons_ne_nil _ _

theorem length_parseAtom_le {cs : List Char} (hatom : ∀ ds : List Char, ds.length < cs.length →
      (parseAtom ds).chars.length ≤ ds.length)
    (hunion : ∀ ds : List Char, ds.length < cs.length → (parseUnion ds).chars.length ≤ ds.length) :
    (parseAtom cs).chars.length ≤ cs.length := by
  by_cases hhead : cs.head? = some '?'
  · obtain ⟨ds, rfl⟩ := List.head?_eq_some_iff.1 hhead
    rw [parseAtom_nullable, chars, List.length_cons]
    exact Nat.succ_le_succ (hatom ds (Nat.lt_succ_self _))
  · rw [parseAtom_eq hhead]
    split
    · rename_i inner hinner
      have hlength := length_arrayElement? hinner
      have hle := hatom inner (by omega)
      simp only [chars, List.length_append, List.length_cons, List.length_nil]
      omega
    split
    · rename_i inner hinner
      have hlength := length_parenthesized? hinner
      have hle := hunion inner (by omega)
      simp only [chars, List.length_append, List.length_cons, List.length_nil]
      omega
    split
    · rename_i base inner hparts
      have hlength := length_genericParts? hparts
      have hargs : ∀ q ∈ splitTop ',' 0 none inner,
          (parseUnion (trimStart q)).chars.length ≤ (trimStart q).length := by
        intro q hq
        have hpiece := length_le_of_mem_splitTop q hq
        have htrim := length_trimStart_le q
        exact hunion _ (by omega)
      have hinner := joinWith_splitTop ',' 0 none inner
      obtain ⟨p, ps, hps⟩ := List.exists_cons_of_ne_nil (Reader.splitTop_ne_nil ',' 0 none inner)
      rw [hps] at hargs hinner
      obtain ⟨hp, hps'⟩ := List.forall_mem_cons.1 hargs
      have hle := length_argChars_le (hp.trans (length_trimStart_le p)) hps'
      rw [hinner] at hle
      simp only [hps, List.map_cons, List.tail_cons, chars, List.length_append, List.length_cons,
        List.length_nil, String.toList_ofList]
      omega
    · split <;> simp [chars]

theorem length_parse_le (n : Nat) : ∀ cs : List Char, cs.length ≤ n →
    (parseAtom cs).chars.length ≤ cs.length ∧ (parseIntersection cs).chars.length ≤ cs.length ∧
      (parseUnion cs).chars.length ≤ cs.length := by
  induction n using Nat.strong_induction_on with
  | _ n ih =>
    have hatom : ∀ cs : List Char, cs.length ≤ n → (parseAtom cs).chars.length ≤ cs.length := by
      intro cs hcs
      exact length_parseAtom_le (fun ds hds => (ih _ (hds.trans_le hcs) ds (Nat.le_refl _)).1)
        fun ds hds => (ih _ (hds.trans_le hcs) ds (Nat.le_refl _)).2.2
    have hjoined : ∀ (sep : Char) (cs : List Char) (f : List Char → DocType), cs.length ≤ n →
        (∀ ds : List Char, ds.length ≤ n → (f ds).chars.length ≤ ds.length) →
          (joined sep ((splitTop sep 0 none cs).map f)).length ≤ cs.length := by
      intro sep cs f hcs hf
      nth_rewrite 2 [← joinWith_splitTop sep 0 none cs]
      rw [joined_eq_joinWith, List.map_map]
      exact length_joinWith_map_le fun p hp => hf p ((length_le_of_mem_splitTop p hp).trans hcs)
    have hintersection : ∀ cs : List Char, cs.length ≤ n →
        (parseIntersection cs).chars.length ≤ cs.length := by
      intro cs hcs
      rw [parseIntersection_eq]
      split
      · exact hjoined '&' cs parseAtom hcs hatom
      · exact hatom cs hcs
    intro cs hcs
    refine ⟨hatom cs hcs, hintersection cs hcs, ?_⟩
    rw [parseUnion_eq]
    split
    · exact hjoined '|' cs parseIntersection hcs hintersection
    · exact hintersection cs hcs

/-- An alternative of a type, read from a text of its own. -/
structure Alternative (m : DocType) : Prop where
  single : splitTop '|' 0 none m.chars = [m.chars]
  read : parseIntersection m.chars = m
  run : ∃ r, ({} : Reader).run m.chars = some r ∧ r.depth = 0

theorem parseAtom_ne_union (cs : List Char) (ms : List DocType) : parseAtom cs ≠ .union ms := by
  by_cases hhead : cs.head? = some '?'
  · obtain ⟨ds, rfl⟩ := List.head?_eq_some_iff.1 hhead
    rw [parseAtom_nullable]
    nofun
  · rw [parseAtom_eq hhead]
    split
    · nofun
    split
    · nofun
    split
    · nofun
    · split <;> nofun

theorem parseIntersection_ne_union (cs : List Char) (ms : List DocType) :
    parseIntersection cs ≠ .union ms := by
  rw [parseIntersection_eq]
  split
  · nofun
  · exact parseAtom_ne_union cs ms

theorem Alternative.members {m : DocType} (h : Alternative m) : m.members = [m] := by
  unfold DocType.members
  split
  · rename_i ms
    exact absurd h.read (parseIntersection_ne_union _ ms)
  · rfl

theorem members_ofMembers {ms : List DocType} (h : ∀ m ∈ ms, Alternative m) :
    (ofMembers ms).members = ms := by
  unfold ofMembers
  split
  · exact (h _ List.mem_cons_self).members
  · rfl

/-- Alternatives are read from the pieces between the bars, and written as they were. -/
theorem parseChars_eq_union {cs : List Char} {ms : List DocType} (h : parseChars cs = .union ms) :
    ms = (splitTop '|' 0 none cs).map parseIntersection ∧
      ∀ p ∈ splitTop '|' 0 none cs, (parseIntersection p).chars = p := by
  have hchars := chars_parseChars cs
  rw [h, chars] at hchars
  unfold parseChars at h
  simp only at h
  split at h
  · rw [parseUnion_eq] at h
    split at h
    · cases h
      refine ⟨rfl, eq_of_joinWith_map_eq ['|'] (fun p _ => ?_) ?_⟩
      · exact (length_parse_le _ p (Nat.le_refl _)).2.1
      · rw [joined_eq_joinWith, List.map_map] at hchars
        rw [joinWith_splitTop]
        exact hchars
    · exact absurd h (parseIntersection_ne_union cs ms)
  · cases h

theorem parseChars_eq_nullable {cs : List Char} {t : DocType} (h : parseChars cs = .nullable t) :
    cs = '?' :: t.chars ∧ splitTop '|' 0 none t.chars = [t.chars] ∧ parseIntersection t.chars = t := by
  have hchars := chars_parseChars cs
  rw [h, chars] at hchars
  subst hchars
  -- a question mark makes no difference to where a text is split
  have hsplit : ∀ sep : Char, sep ≠ '?' →
      (splitTop sep 0 none ('?' :: t.chars)).length = (splitTop sep 0 none t.chars).length := by
    intro sep hsep
    have hprepend : splitTop sep 0 none ('?' :: t.chars) = prepend '?' (splitTop sep 0 none t.chars) := by
      rw [splitTop]
      simp [isQuote, opens, closes, hsep.symm]
    obtain ⟨p, ps, hps⟩ := List.exists_cons_of_ne_nil (Reader.splitTop_ne_nil sep 0 none t.chars)
    rw [hprepend, hps]
    rfl
  unfold parseChars at h
  simp only at h
  split at h
  · rw [parseUnion_eq, hsplit '|' (by decide)] at h
    split at h
    · cases h
    · rename_i hbars
      rw [parseIntersection_eq, hsplit '&' (by decide)] at h
      split at h
      · cases h
      · rename_i hamps
        rw [parseAtom_nullable] at h
        refine ⟨rfl, splitTop_eq_singleton hbars, ?_⟩
        rw [parseIntersection_eq, if_neg hamps]
        exact DocType.nullable.inj h
  · cases h

theorem alternative_null : Alternative (name "null") := by
  have hname : isTypeName ['n', 'u', 'l', 'l'] = true := by decide +kernel
  have hsplit : ∀ sep : Char, sep = '|' ∨ sep = '&' →
      splitTop sep 0 none ['n', 'u', 'l', 'l'] = [['n', 'u', 'l', 'l']] := by
    rintro sep (rfl | rfl) <;> decide
  refine ⟨hsplit '|' (.inl rfl), ?_, ⟨0, none, ['l', 'l', 'u', 'n']⟩, by decide +kernel, rfl⟩
  show parseIntersection ['n', 'u', 'l', 'l'] = name "null"
  rw [parseIntersection_eq, hsplit '&' (.inr rfl), if_neg (by simp), parseAtom_name hname]

theorem splitTop_alternatives {ms : List DocType} (hne : ms ≠ []) (h : ∀ m ∈ ms, Alternative m)
    (hquotes : ∀ m ∈ ms, openQuote m.chars = none) :
    splitTop '|' 0 none (joined '|' ms) = ms.map chars := by
  induction ms with
  | nil => exact absurd rfl hne
  | cons m ms ih =>
    obtain ⟨hm, hms⟩ := List.forall_mem_cons.1 h
    obtain ⟨hquote, hquotes⟩ := List.forall_mem_cons.1 hquotes
    cases ms with
    | nil => exact hm.single
    | cons m' ms =>
      obtain ⟨r, hrun, hdepth⟩ := hm.run
      have hclosed : r.quote = none := (Reader.quote_of_run hrun).trans hquote
      rw [joined, Reader.splitTop_append_bar hrun hdepth hclosed hm.single,
        ih (List.cons_ne_nil m' ms) hms hquotes]
      · rfl
      · exact List.cons_ne_nil m' ms

/-- Alternatives are read as they were where their text is split between them. -/
theorem parseChars_of_split {ms : List DocType} (hne : ms ≠ [])
    (hsplit : splitTop '|' 0 none (joined '|' ms) = ms.map chars)
    (hread : ∀ m ∈ ms, parseIntersection m.chars = m) : parseChars (joined '|' ms) = ofMembers ms := by
  have hunion : parseUnion (joined '|' ms) = ofMembers ms := by
    rw [parseUnion_eq, hsplit, List.length_map]
    cases ms with
    | nil => exact absurd rfl hne
    | cons m ms =>
      cases ms with
      | nil =>
        rw [if_neg (by simp)]
        exact hread m List.mem_cons_self
      | cons m' ms =>
        rw [if_pos (by simp), List.map_map]
        refine congrArg DocType.union ?_
        exact (List.map_congr_left fun m hm => hread m hm).trans (List.map_id _)
  rw [parseChars, hunion, chars_ofMembers]
  exact if_pos rfl

/-- Alternatives with closed quotes are read as they were. -/
theorem parseChars_joined {ms : List DocType} (hne : ms ≠ []) (h : ∀ m ∈ ms, Alternative m)
    (hquotes : ∀ m ∈ ms, openQuote m.chars = none) : parseChars (joined '|' ms) = ofMembers ms :=
  parseChars_of_split hne (splitTop_alternatives hne h hquotes) fun m hm => (h m hm).read

/-- The reader goes over alternatives, and ends as behind the last of them. -/
theorem Reader.run_joined {ms : List DocType} {m : DocType} (hlast : ms.getLast? = some m)
    (h : ∀ m ∈ ms, Alternative m) (hquotes : ∀ m ∈ ms, openQuote m.chars = none) {r s : Reader}
    (hr : Alike {} r) (hs : ({} : Reader).run m.chars = some s) :
    ∃ s', r.run (joined '|' ms) = some s' ∧ s.Alike s' := by
  induction ms generalizing r with
  | nil => cases hlast
  | cons m' ms ih =>
    obtain ⟨hm, hms⟩ := List.forall_mem_cons.1 h
    obtain ⟨hquote, hquotes⟩ := List.forall_mem_cons.1 hquotes
    cases ms with
    | nil =>
      cases hlast
      exact hr.run hs
    | cons m'' ms =>
      obtain ⟨t, ht, hdepth⟩ := hm.run
      obtain ⟨t', ht', halike⟩ := hr.run ht
      have hclosed : t'.quote = none := halike.quote.trans ((quote_of_run ht).trans hquote)
      obtain ⟨r', hbar, hr'⟩ := step_bar (halike.depth.trans hdepth) hclosed
      obtain ⟨s', hs', hend⟩ := ih hlast hms hquotes hr'
      refine ⟨s', ?_, hend⟩
      rw [joined]
      · exact run_append_eq_some.2 ⟨t', ht', run_cons_eq_some.2 ⟨r', hbar, hs'⟩⟩
      · exact List.cons_ne_nil m'' ms

/-! ### Alternatives in tags -/

/-- What can come between alternatives in front of `rest` and their reader. -/
structure Legible (ms : List DocType) (rest : List Char) : Prop where
  /-- The text does not seem to start with a variable. -/
  dollar : (TypedText.dropMarks (joined '|' ms ++ rest)).head? ≠ some '$'
  /-- No quote is open at a bar. -/
  quotes : ∀ m ∈ ms.dropLast, openQuote m.chars = none
  /-- Where the text goes on, no return type is awaited. -/
  result : rest ≠ [] → ∀ m, ms.getLast? = some m → ¬ [')', ':'] <:+ trimEnd m.chars

theorem isBlank_of_step {c : Char} {r : Reader} (h : ({} : Reader).step c = some r) :
    isBlank c = false := by
  by_contra hblank
  rw [Bool.not_eq_false] at hblank
  simp [Reader.step, isInert_iff.1 (Reader.isInert_of_isBlank hblank), hblank] at h

theorem parseTyped_joined {ms : List DocType} (hne : joined '|' ms ≠ [])
    (h : ∀ m ∈ ms, Alternative m) (hquotes : ∀ m ∈ ms, openQuote m.chars = none) {rest : List Char}
    (hrest : rest.head?.all isBlank = true) (hlegible : Legible ms rest) (role : TypeRole) :
    TagValue.parseTyped role (joined '|' ms ++ rest) =
      .typed role ⟨ofMembers ms, String.ofList rest⟩ := by
  have hms : ms ≠ [] := by
    rintro rfl
    exact hne rfl
  obtain ⟨m, hm⟩ := List.getLast?_isSome.2 hms |> Option.isSome_iff_exists.1
  have hmem := List.mem_of_getLast? hm
  obtain ⟨s, hs, hdepth⟩ := (h m hmem).run
  obtain ⟨s', hrun, hend⟩ := Reader.run_joined hm h hquotes ⟨rfl, rfl, Iff.rfl, Iff.rfl⟩ hs
  have hlength : typeLength 0 none [] (joined '|' ms ++ rest) = ((joined '|' ms).length, 0) := by
    refine Reader.typeLength_of_end hrun (hend.depth.trans hdepth) hrest fun hnil => ⟨?_, ?_⟩
    · exact hend.quote.trans ((Reader.quote_of_run hs).trans (hquotes m hmem))
    · intro hawaits
      exact hlegible.result hnil m hm ((Reader.suffix_of_awaits hs).2 (hend.awaits.1 hawaits))
  have hsplit : splitType (joined '|' ms ++ rest) = ⟨joined '|' ms, rest, 0⟩ := by
    rw [splitType, hlength]
    simp
  obtain ⟨c, cs, hcs⟩ := List.exists_cons_of_ne_nil hne
  have hc : isBlank c = false := by
    rw [hcs] at hrun
    obtain ⟨r, hr, -⟩ := Reader.run_cons_eq_some.1 hrun
    exact isBlank_of_step hr
  have htrim : trimStart (joined '|' ms ++ rest) = joined '|' ms ++ rest := by
    rw [hcs, List.cons_append]
    exact trimStart_blanks (List.forall_mem_nil _) hc
  have hnil : (joined '|' ms ++ rest).isEmpty = false := by
    rw [hcs]
    rfl
  unfold TagValue.parseTyped
  simp only [htrim, hnil, hlegible.dollar, hsplit, parseChars_joined hms h hquotes, ne_eq,
    not_true_eq_false, decide_false, Bool.or_self, Bool.false_eq_true, if_false]

end DocType

namespace TagValue

theorem parse_eq_typed {name body : String} {role : TypeRole} {v : TypedText}
    (h : parse name body = .typed role v) :
    roleOf? (plainName (baseName name)) = some role ∧
      DocType.parseChars v.type.chars = v.type ∧
      ∃ r, ({} : DocType.Reader).run v.type.chars = some r ∧ r.depth = 0 ∧
        (v.rest.toList ≠ [] → r.quote = none ∧ ¬ r.Awaits) := by
  unfold parse at h
  simp only at h
  split at h
  · rename_i role' hrole
    unfold parseTyped at h
    simp only at h
    split at h
    · cases h
    split at h
    · cases h
    · rename_i hdepth
      cases h
      refine ⟨hrole, ?_, ?_⟩
      · rw [DocType.chars_parseChars]
      · obtain ⟨r, hrun, hr, hend⟩ := DocType.Reader.run_typeLength (r := {}) (Decidable.not_not.1 hdepth)
        rw [DocType.chars_parseChars, String.toList_ofList]
        exact ⟨r, hrun, hr, hend⟩
  · split at h
    · cases h
    · cases h

variable {name body : String} {role : TypeRole} {v : TypedText}

theorem parse_retyped (h : parse name body = .typed role v) {ms : List DocType}
    (hne : DocType.joined '|' ms ≠ []) (hms : ∀ m ∈ ms, m.Alternative)
    (hquotes : ∀ m ∈ ms, DocType.openQuote m.chars = none)
    (hlegible : DocType.Legible ms v.rest.toList) :
    parse name (TypedText.mk (.ofMembers ms) v.rest).text = .typed role ⟨.ofMembers ms, v.rest⟩ := by
  have hrest := (parse_typed? (congrArg typed? h)).2
  have htext : (TypedText.mk (.ofMembers ms) v.rest).text.toList =
      DocType.joined '|' ms ++ v.rest.toList := by
    rw [TypedText.text, String.toList_append, DocType.text, String.toList_ofList,
      DocType.chars_ofMembers]
  rw [DocType.parseTag_of_role (parse_eq_typed h).1, htext,
    DocType.parseTyped_joined hne hms hquotes hrest hlegible role, String.ofList_toList]

/-- The type after a question mark is an alternative. -/
theorem alternative_of_nullable (h : parse name body = .typed role v) {t : DocType}
    (ht : v.type = .nullable t) : t.Alternative := by
  obtain ⟨-, hread, r, hrun, hdepth, -⟩ := parse_eq_typed h
  obtain ⟨hchars, hsingle, hinner⟩ := DocType.parseChars_eq_nullable (hread.trans ht)
  rw [hchars] at hrun
  -- behind the question mark the reader stands as at the start
  obtain ⟨s, hs, hrun⟩ := DocType.Reader.run_cons_eq_some.1 hrun
  have hstart : DocType.Reader.Alike s {} := by
    cases hs
    exact ⟨rfl, rfl, by simp, by simp [DocType.Reader.Awaits]⟩
  obtain ⟨r', hrun', halike⟩ := hstart.run hrun
  exact ⟨hsingle, hinner, r', hrun', halike.depth.trans hdepth⟩

/-- A nullable type with `null` as an alternative instead. -/
theorem parse_expanded (h : parse name body = .typed role v) {t : DocType}
    (ht : v.type = .nullable t) (hlegible : DocType.Legible (t.members ++ [.name "null"]) v.rest.toList) :
    parse name (TypedText.mk (.ofMembers (t.members ++ [.name "null"])) v.rest).text =
        .typed role ⟨.ofMembers (t.members ++ [.name "null"]), v.rest⟩ ∧
      (DocType.ofMembers (t.members ++ [.name "null"])).members = t.members ++ [.name "null"] := by
  have hinner := alternative_of_nullable h ht
  rw [hinner.members] at hlegible ⊢
  refine ⟨parse_retyped h ?_ ?_ ?_ hlegible, rfl⟩
  · simp [DocType.joined]
  · simpa using ⟨hinner, DocType.alternative_null⟩
  · simpa using ⟨hlegible.quotes t List.mem_cons_self, by decide +kernel⟩

/-- Some of the alternatives of a type, in front of more text. -/
theorem parse_filtered (h : parse name body = .typed role v) (hrest : v.rest.toList ≠ [])
    {keep : DocType → Bool} (hdropped : ∃ m ∈ v.type.members, keep m = false)
    (hkept : DocType.joined '|' (v.type.members.filter keep) ≠ [])
    (hlegible : DocType.Legible (v.type.members.filter keep) v.rest.toList) :
    parse name (TypedText.mk (.ofMembers (v.type.members.filter keep)) v.rest).text =
        .typed role ⟨.ofMembers (v.type.members.filter keep), v.rest⟩ ∧
      (DocType.ofMembers (v.type.members.filter keep)).members = v.type.members.filter keep := by
  obtain ⟨-, hread, r, hrun, hdepth, hquote⟩ := parse_eq_typed h
  have hms : ∀ m ∈ v.type.members, m.Alternative ∧ DocType.openQuote m.chars = none := by
    cases htype : v.type with
    | union ms =>
      rw [htype] at hread hrun
      obtain ⟨hparts, hchars⟩ := DocType.parseChars_eq_union hread
      have hrunParts := DocType.Reader.run_of_mem_splitTop ⟨rfl, rfl, Iff.rfl, Iff.rfl⟩ hrun hdepth
      intro m hm
      obtain ⟨p, hp, rfl⟩ := List.mem_map.1 (hparts ▸ hm : m ∈ List.map _ _)
      obtain ⟨hsingle, r', hrun', hdepth', hquote'⟩ := hrunParts p hp
      have hopen := (DocType.Reader.quote_of_run hrun').symm.trans (hquote' (hquote hrest).1)
      refine ⟨⟨?_, ?_, r', ?_, hdepth'⟩, ?_⟩
      all_goals rw [hchars p hp]
      · exact hsingle
      · exact hrun'
      · exact hopen
    | _ =>
      -- a single alternative was dropped, and none is left
      exfalso
      rw [htype] at hdropped hkept
      obtain ⟨m, hm, hdrop⟩ := hdropped
      obtain rfl := List.mem_singleton.1 hm
      simp [DocType.members, hdrop, DocType.joined] at hkept
  have hkeep : ∀ m ∈ v.type.members.filter keep, m.Alternative ∧ DocType.openQuote m.chars = none :=
    fun m hm => hms m (List.mem_of_mem_filter hm)
  exact ⟨parse_retyped h hkept (fun m hm => (hkeep m hm).1) (fun m hm => (hkeep m hm).2) hlegible,
    DocType.members_ofMembers fun m hm => (hkeep m hm).1⟩

/-- The start of a text that was read as a type. -/
theorem start_of_typed (h : parse name body = .typed role v) :
    trimStart body.toList = body.toList ∧ body.toList ≠ [] ∧
      (TypedText.dropMarks body.toList).head? ≠ some '$' := by
  rw [DocType.parseTag_of_role (parse_eq_typed h).1, parseTyped] at h
  simp only at h
  split at h
  · cases h
  · rename_i hstart
    simp only [Bool.or_eq_true, not_or, decide_eq_true_eq, Decidable.not_not] at hstart
    obtain ⟨⟨hne, hdollar⟩, hlength⟩ := hstart
    have htrim : trimStart body.toList = body.toList :=
      (List.dropWhile_suffix isBlank).eq_of_length hlength
    rw [htrim] at hne hdollar
    exact ⟨htrim, fun hnil => hne (by rw [hnil]; rfl), hdollar⟩

/-- What was read as a type was legible. -/
theorem legible_of_parse (h : parse name body = .typed role v) :
    DocType.Legible v.type.members v.rest.toList := by
  obtain ⟨hrole, hread, r, hrun, hdepth, hend⟩ := parse_eq_typed h
  obtain ⟨hbody, -⟩ := parse_typed? (congrArg typed? h)
  have hjoined : DocType.joined '|' v.type.members = v.type.chars := by
    cases v.type <;> rfl
  refine ⟨?_, ?_, fun hne m hm hsuffix => ?_⟩
  · rw [hjoined, ← hbody]
    exact (start_of_typed h).2.2
  · cases htype : v.type with
    | union ms =>
      rw [htype] at hread hrun
      obtain ⟨hparts, hchars⟩ := DocType.parseChars_eq_union hread
      have hquotes := DocType.Reader.openQuote_of_mem_dropLast ⟨rfl, rfl, Iff.rfl, Iff.rfl⟩ hrun
      intro m hm
      have hm : m ∈ ms.dropLast := hm
      rw [hparts, ← List.map_dropLast] at hm
      obtain ⟨p, hp, rfl⟩ := List.mem_map.1 hm
      rw [hchars p ((List.dropLast_sublist _).subset hp)]
      exact hquotes p hp
    | _ => exact nofun
  · -- what the last alternative ends in, the whole type ends in
    obtain ⟨hquote, hawaits⟩ := hend hne
    refine hawaits (DocType.Reader.awaits_of_suffix hrun hdepth hquote ?_)
    obtain ⟨ms, hms⟩ := List.getLast?_eq_some_iff.1 hm
    obtain ⟨cs, hcs⟩ := DocType.exists_joined_append '|' ms m
    have hnil : trimEnd m.chars ≠ [] := by
      intro hnil
      rw [hnil] at hsuffix
      cases List.suffix_nil.1 hsuffix
    rw [← hjoined, hms, hcs, Lexer.trimEnd_append_of_ne_nil cs hnil]
    exact hsuffix.trans (List.suffix_append cs _)

end TagValue

end PhpStyle
