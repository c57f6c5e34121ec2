import PhpStyle.Proofs.TypeParts

/-!
# Selected alternatives

A text is split at the bars outside its brackets and quotes, and no bracket depth is lost there: a
piece in front of a bar ends where a bar follows, whatever comes behind it (`EndsAt`). So a selection
of the pieces, joined by bars again, is split into the same pieces, even though the last piece of the
text may leave brackets or a quote open: where it is selected, it is last again. A type made of some
of the alternatives of another one is therefore read back from its text (`parse_selected`).
-/

namespace PhpStyle

open Text

namespace DocType

variable {sep c : Char} {depth : Int} {quote : Option Char} {p cs : List Char} {ps : List (List Char)}

theorem splitTop_step (sep : Char) (depth : Int) (quote : Option Char) (c : Char) :
    (∃ d q, ∀ cs, splitTop sep depth quote (c :: cs) = prepend c (splitTop sep d q cs)) ∨
      c = sep ∧ ∀ cs, splitTop sep depth quote (c :: cs) = [] :: splitTop sep 0 none cs := by
  cases quote with
  | some q => exact .inl ⟨depth, if c = q then none else some q, fun _ => by rw [splitTop]⟩
  | none =>
    by_cases hquote : isQuote c = true
    · exact .inl ⟨depth, some c, fun _ => by rw [splitTop, if_pos hquote]⟩
    by_cases hopen : opens c = true
    · exact .inl ⟨depth + 1, none, fun _ => by rw [splitTop, if_neg hquote, if_pos hopen]⟩
    by_cases hclose : closes c = true
    · exact .inl ⟨depth - 1, none, fun _ => by
        rw [splitTop, if_neg hquote, if_neg hopen, if_pos hclose]⟩
    by_cases hsep : (decide (c = sep) && decide (depth = 0)) = true
    · refine .inr ⟨by simp at hsep; exact hsep.1, fun _ => ?_⟩
      rw [splitTop, if_neg hquote, if_neg hopen, if_neg hclose, if_pos hsep]
    · exact .inl ⟨depth, none, fun _ => by
        rw [splitTop, if_neg hquote, if_neg hopen, if_neg hclose, if_neg hsep]⟩

/-- A piece ends where a separator follows it, whatever comes behind that. -/
def EndsAt (sep : Char) (depth : Int) (quote : Option Char) (p : List Char) : Prop :=
  ∀ cs, splitTop sep depth quote (p ++ sep :: cs) = p :: splitTop sep 0 none cs

theorem splitTop_first (sep : Char) (depth : Int) (quote : Option Char) (cs : List Char) :
    splitTop sep depth quote cs = [cs] ∨ ∃ p w, cs = p ++ sep :: w ∧
      splitTop sep depth quote p = [p] ∧ EndsAt sep depth quote p := by
  induction cs generalizing depth quote with
  | nil => exact .inl rfl
  | cons c cs ih =>
    rcases splitTop_step sep depth quote c with ⟨d, q, hstep⟩ | ⟨rfl, hstep⟩
    · rcases ih d q with hone | ⟨p, w, rfl, hsingle, hends⟩
      · exact .inl (by rw [hstep, hone, prepend])
      · refine .inr ⟨c :: p, w, rfl, by rw [hstep, hsingle, prepend], fun v => ?_⟩
        rw [List.cons_append, hstep, hends, prepend]
    · exact .inr ⟨[], cs, rfl, rfl, hstep⟩

theorem splitTop_of_mem (cs : List Char) : ∀ p ∈ splitTop sep 0 none cs, splitTop sep 0 none p = [p] := by
  rcases splitTop_first sep 0 none cs with hone | ⟨p, w, hcs, hsingle, hends⟩
  · rw [hone]
    exact List.forall_mem_singleton.2 hone
  · have hshort : w.length < cs.length := by
      rw [hcs, List.length_append, List.length_cons]
      omega
    rw [hcs, hends]
    exact List.forall_mem_cons.2 ⟨hsingle, splitTop_of_mem w⟩
termination_by cs.length

theorem endsAt_of_mem_dropLast (cs : List Char) :
    ∀ p ∈ (splitTop sep 0 none cs).dropLast, EndsAt sep 0 none p := by
  rcases splitTop_first sep 0 none cs with hone | ⟨p, w, hcs, -, hends⟩
  · rw [hone]
    exact nofun
  · have hshort : w.length < cs.length := by
      rw [hcs, List.length_append, List.length_cons]
      omega
    rw [hcs, hends, List.dropLast_cons_of_ne_nil (Reader.splitTop_ne_nil _ _ _ _)]
    exact List.forall_mem_cons.2 ⟨hends, endsAt_of_mem_dropLast w⟩
termination_by cs.length

theorem splitTop_joinWith (hne : ps ≠ []) (hsingle : ∀ p ∈ ps, splitTop sep 0 none p = [p])
    (hends : ∀ p ∈ ps.dropLast, EndsAt sep 0 none p) :
    splitTop sep 0 none (joinWith [sep] ps) = ps := by
  induction ps with
  | nil => exact absurd rfl hne
  | cons p ps ih =>
    cases ps with
    | nil => exact hsingle p List.mem_cons_self
    | cons q qs =>
      rw [List.dropLast_cons_of_ne_nil (List.cons_ne_nil q qs)] at hends
      obtain ⟨hp, hends⟩ := List.forall_mem_cons.1 hends
      rw [joinWith, List.append_assoc, List.singleton_append, hp,
        ih (List.cons_ne_nil q qs) (List.forall_mem_cons.1 hsingle).2 hends]
      exact List.cons_ne_nil q qs

theorem splitTop_of_sublist (hne : ps ≠ []) (h : ps.Sublist (splitTop sep 0 none cs)) :
    splitTop sep 0 none (joinWith [sep] ps) = ps := by
  have hlast : ps.dropLast.Sublist (splitTop sep 0 none cs).dropLast := by
    have htail := h.reverse.tail
    rw [List.tail_reverse, List.tail_reverse] at htail
    exact List.reverse_sublist.1 htail
  exact splitTop_joinWith hne (fun p hp => splitTop_of_mem cs p (h.subset hp))
    fun p hp => endsAt_of_mem_dropLast cs p (hlast.subset hp)

theorem joinWith_eq_intercalate (sep : List Char) (ps : List (List Char)) :
    joinWith sep ps = sep.intercalate ps := by
  induction ps with
  | nil => rfl
  | cons p ps ih =>
    cases ps with
    | nil => simp [joinWith]
    | cons q qs =>
      rw [joinWith, ih, List.intercalate_cons_cons]
      exact List.cons_ne_nil q qs

theorem filterMap_getElem?_sublist {α : Type} (xs : List α) {positions : List Nat}
    (hascending : positions.Pairwise (· < ·)) (hpositions : ∀ i ∈ positions, i < xs.length) :
    (positions.filterMap (xs[·]?)).Sublist xs := by
  have hmap : positions.filterMap (xs[·]?) =
      (positions.pmap Fin.mk hpositions).map fun i => xs[i] := by
    rw [List.map_pmap]
    clear hascending
    induction positions with
    | nil => rfl
    | cons i is ih =>
      obtain ⟨hi, his⟩ := List.forall_mem_cons.1 hpositions
      rw [List.filterMap_cons_some (List.getElem?_eq_getElem hi), ih his]
      rfl
  rw [hmap]
  exact List.map_getElem_sublist (hascending.pmap hpositions fun _ _ _ _ h => h)

theorem members_parseChars (cs : List Char) : (parseChars cs).members = [parseChars cs] ∨
    (parseChars cs).members = (splitTop '|' 0 none cs).map parseIntersection ∧
      ∀ p ∈ splitTop '|' 0 none cs, (parseIntersection p).chars = p := by
  cases h : parseChars cs with
  | union ms => exact .inr (parseChars_eq_union h)
  | _ => exact .inl rfl

theorem parseChars_of_sublist {ms : List DocType} (hne : ms ≠ [])
    (h : ms.Sublist (parseChars cs).members) : parseChars (ofMembers ms).chars = ofMembers ms := by
  rcases members_parseChars cs with hone | ⟨hparts, hchars⟩
  · rw [hone] at h
    obtain rfl := (List.sublist_singleton.1 h).resolve_left hne
    rw [ofMembers, chars_parseChars]
  · rw [hparts] at h
    obtain ⟨ps, hps, rfl⟩ := List.sublist_map_iff.1 h
    have htext : (ps.map parseIntersection).map chars = ps := by
      rw [List.map_map]
      exact (List.map_congr_left fun p hp => hchars p (hps.subset hp)).trans (List.map_id _)
    rw [chars_ofMembers]
    refine parseChars_of_split hne ?_ fun m hm => ?_
    · rw [joined_eq_joinWith, htext]
      exact splitTop_of_sublist (by simpa using hne) hps
    · obtain ⟨p, hp, rfl⟩ := List.mem_map.1 hm
      rw [hchars p (hps.subset hp)]

theorem text_ofMembers (ms : List DocType) :
    (ofMembers ms).text = "|".intercalate (ms.map DocType.text) := by
  have hchars : ms.map chars = (ms.map DocType.text).map String.toList := by
    simp [DocType.text, Function.comp_def]
  rw [DocType.text, chars_ofMembers, joined_eq_joinWith, joinWith_eq_intercalate, hchars]
  exact String.toList_inj.1 (by rw [String.toList_ofList, String.toList_intercalate]; rfl)

/-- Some alternatives of a type that was read, at ascending positions: the type made of them is
written as they are, with bars in between, and read back from that. -/
theorem parse_selected (text : String) (positions : List Nat) (hne : positions ≠ [])
    (hascending : positions.Pairwise (· < ·))
    (hpositions : ∀ i ∈ positions, i < (parse text).members.length) :
    (ofMembers (positions.filterMap ((parse text).members[·]?))).text =
        "|".intercalate (positions.filterMap (((parse text).members.map DocType.text)[·]?)) ∧
      parse (ofMembers (positions.filterMap ((parse text).members[·]?))).text =
        ofMembers (positions.filterMap ((parse text).members[·]?)) := by
  have hselected : positions.filterMap ((parse text).members[·]?) ≠ [] := by
    obtain ⟨i, hi⟩ := List.exists_mem_of_ne_nil _ hne
    have hmem : (parse text).members.get ⟨i, hpositions i hi⟩ ∈
        positions.filterMap ((parse text).members[·]?) :=
      List.mem_filterMap.2 ⟨i, hi, List.getElem?_eq_getElem (hpositions i hi)⟩
    exact List.ne_nil_of_mem hmem
  constructor
  · rw [text_ofMembers, List.map_filterMap]
    simp only [List.getElem?_map]
  · have hsub := filterMap_getElem?_sublist (parse text).members hascending hpositions
    rw [parse, DocType.text, String.toList_ofList]
    exact parseChars_of_sublist hselected hsub

/-- An empty alternative, and a last one that leaves a bracket and a quote open. -/
theorem parse_selected_open_end :
    ([1, 2] : List Nat) ≠ [] ∧ ([1, 2] : List Nat).Pairwise (· < ·) ∧
    (∀ i ∈ ([1, 2] : List Nat), i < (parse "int||array<'a").members.length) ∧
    (ofMembers (([1, 2] : List Nat).filterMap ((parse "int||array<'a").members[·]?))).text =
      "|array<'a" ∧
    parse "|array<'a" =
      ofMembers (([1, 2] : List Nat).filterMap ((parse "int||array<'a").members[·]?)) := by
  have hpositions : ∀ i ∈ ([1, 2] : List Nat), i < (parse "int||array<'a").members.length := by
    decide +kernel
  obtain ⟨htext, hread⟩ :=
    parse_selected "int||array<'a" [1, 2] (by decide) (by decide) hpositions
  have hmembers : "|".intercalate (([1, 2] : List Nat).filterMap
      (((parse "int||array<'a").members.map DocType.text)[·]?)) = "|array<'a" := by
    decide +kernel
  rw [hmembers] at htext
  rw [htext] at hread
  exact ⟨by decide, by decide, hpositions, htext, hread⟩

end DocType

end PhpStyle
