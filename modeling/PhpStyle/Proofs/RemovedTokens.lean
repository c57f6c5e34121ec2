import PhpStyle.Proofs.BlankLexemes
import PhpStyle.Proofs.RewordedDocs

/-!
# Tokens taken out of a text

Edits that remove tokens leave the text of the others (`Tokens.toList_edited_removes`). When lexing
it gives the tokens that are left, each of them stands for one of the tokens before
(`Lexer.oldPlace`), in the same order, and if no bracket is removed the pairs of brackets are those
before (`oldPlace_pairs`).
-/

namespace PhpStyle

open Lexer

/-- Every edit removes its token. -/
def Edit.Removes (es : List Edit) : Prop :=
  ∀ e ∈ es, e = .remove e.index

theorem Edit.applyAt_removes {es : List Edit} (h : Removes es) (i : Nat) (s : String) :
    applyAt i es s = if touches es i then "" else s := by
  split
  · rename_i htouch
    induction es using List.reverseRecOn with
    | nil => cases htouch
    | append_singleton es e ih =>
      have he := h e (List.mem_append_right es List.mem_cons_self)
      have hes : Removes es := fun e he => h e (List.mem_append_left _ he)
      rw [applyAt_append]
      by_cases hi : e.index = i
      · subst hi
        rw [applyAt_singleton_self, he]
        rfl
      · have hnot : ¬ touches [e] i = true := by simp [touches, hi]
        rw [touches_append, Bool.or_eq_true] at htouch
        rw [applyAt_of_not_touches hnot, ih hes (htouch.resolve_right hnot)]
  · rename_i htouch
    exact applyAt_of_not_touches htouch s

theorem Tokens.toList_edited_removes (source : String) {es : List Edit} (h : Edit.Removes es) :
    ((ofSource source).edited es).toList =
      spelled (without (Edit.touches es) (({} : Lexer).run source.toList)) := by
  rw [toList_edited (contents_ofSource source), reworded, List.mapIdx_eq_zipIdx_map, without, left]
  induction (({} : Lexer).run source.toList).zipIdx with
  | nil => rfl
  | cons p ps ih =>
    obtain ⟨l, i⟩ := p
    rw [List.map_cons, spelled_cons, ih, List.filter_cons]
    simp only [Edit.applyAt_removes h]
    cases Edit.touches es i with
    | true => rfl
    | false => simp

namespace Lexer

variable {gone : Nat → Bool} {ls : List (Kind × List Char)}

/-- Where the lexeme stood that is at `k` now. -/
def oldPlace (gone : Nat → Bool) (ls : List (Kind × List Char)) (k : Nat) : Nat :=
  ((left gone ls)[k]?.map (·.2)).getD 0

theorem getElem?_left {k : Nat} {l : Kind × List Char} (h : (without gone ls)[k]? = some l) :
    (left gone ls)[k]? = some (l, oldPlace gone ls k) := by
  rw [without, List.getElem?_map] at h
  obtain ⟨p, hp, rfl⟩ := Option.map_eq_some_iff.1 h
  rw [oldPlace, hp]
  rfl

theorem getElem?_oldPlace {k : Nat} {l : Kind × List Char} (h : (without gone ls)[k]? = some l) :
    ls[oldPlace gone ls k]? = some l ∧ gone (oldPlace gone ls k) = false := by
  have hmem := List.mem_of_getElem? (getElem?_left h)
  obtain ⟨hmem, hkept⟩ := List.mem_filter.1 hmem
  exact ⟨List.mem_zipIdx_iff_getElem?.1 hmem, by simpa using hkept⟩

theorem exists_oldPlace {j : Nat} {l : Kind × List Char} (h : ls[j]? = some l) (hj : gone j = false) :
    ∃ k, (without gone ls)[k]? = some l ∧ oldPlace gone ls k = j := by
  have hmem : (l, j) ∈ left gone ls :=
    List.mem_filter.2 ⟨List.mem_zipIdx_iff_getElem?.2 h, by simp [hj]⟩
  obtain ⟨k, hk⟩ := List.mem_iff_getElem?.1 hmem
  refine ⟨k, ?_, ?_⟩
  · rw [without, List.getElem?_map, hk]
    rfl
  · rw [oldPlace, hk]
    rfl

theorem pairwise_left (gone : Nat → Bool) (ls : List (Kind × List Char)) :
    (left gone ls).Pairwise fun p q => p.2 < q.2 := by
  refine List.Pairwise.filter _ (List.pairwise_map.1 ?_)
  rw [List.zipIdx_map_snd]
  exact List.pairwise_lt_range'

theorem oldPlace_lt {k k' : Nat} {l' : Kind × List Char} (hlt : k < k')
    (h : (without gone ls)[k']? = some l') : oldPlace gone ls k < oldPlace gone ls k' := by
  obtain ⟨hk', heq'⟩ := List.getElem?_eq_some_iff.1 (getElem?_left h)
  have hk : k < (left gone ls).length := by omega
  have hpair := List.pairwise_iff_getElem.1 (pairwise_left gone ls) k k' hk hk' hlt
  rw [heq'] at hpair
  rwa [oldPlace, List.getElem?_eq_getElem hk]

theorem lt_of_oldPlace_lt {k k' : Nat} {l l' : Kind × List Char}
    (h : (without gone ls)[k]? = some l) (h' : (without gone ls)[k']? = some l')
    (hlt : oldPlace gone ls k < oldPlace gone ls k') : k < k' := by
  rcases Nat.lt_trichotomy k k' with hk | rfl | hk
  · exact hk
  · omega
  · have := oldPlace_lt hk h
    omega

end Lexer

/-- The bracket pairs in a list of kinds with their places, given the brackets open before. -/
def placedPairs (stack : List (Nat × Kind)) : List (Kind × Nat) → List (Nat × Nat)
  | [] => []
  | p :: ps =>
    if p.1.isOpener then placedPairs ((p.2, p.1) :: stack) ps
    else if p.1.isCloser then
      match stack.dropWhile fun o => o.2.closer? != some p.1 with
      | (o, _) :: rest => (o, p.2) :: placedPairs rest ps
      | [] => placedPairs stack ps
    else placedPairs stack ps

theorem bracketPairs_eq (i : Nat) (stack : List (Nat × Kind)) (ks : List Kind) :
    bracketPairs i stack ks = placedPairs stack (ks.zipIdx i) := by
  induction ks generalizing i stack with
  | nil => rfl
  | cons k ks ih =>
    rw [List.zipIdx_cons, bracketPairs, placedPairs]
    refine if_congr Iff.rfl (ih ..) (if_congr Iff.rfl ?_ (ih ..))
    cases stack.dropWhile fun o => o.2.closer? != some k with
    | nil => exact ih ..
    | cons o rest => exact congrArg _ (ih ..)

theorem placedPairs_filter {p : Kind × Nat → Bool} {ps : List (Kind × Nat)}
    (h : ∀ q ∈ ps, q.1.isBracket = true → p q = true) (stack : List (Nat × Kind)) :
    placedPairs stack (ps.filter p) = placedPairs stack ps := by
  induction ps generalizing stack with
  | nil => rfl
  | cons q ps ih =>
    obtain ⟨hq, hps⟩ := List.forall_mem_cons.1 h
    rw [List.filter_cons]
    split
    · rw [placedPairs, placedPairs]
      simp only [ih hps]
    · rename_i hnot
      have hplain : ¬ q.1.isOpener = true ∧ ¬ q.1.isCloser = true := by
        have := mt hq hnot
        simpa [Kind.isBracket] using this
      rw [placedPairs, if_neg hplain.1, if_neg hplain.2, ih hps]

theorem placedPairs_map (f : Nat → Nat) (stack : List (Nat × Kind)) (ps : List (Kind × Nat)) :
    placedPairs (stack.map fun o => (f o.1, o.2)) (ps.map fun p => (p.1, f p.2)) =
      (placedPairs stack ps).map fun q => (f q.1, f q.2) := by
  induction ps generalizing stack with
  | nil => rfl
  | cons p ps ih =>
    rw [List.map_cons, placedPairs, placedPairs]
    split
    · exact ih ((p.2, p.1) :: stack)
    split
    · have hdrop : (stack.map fun o => (f o.1, o.2)).dropWhile (fun o => o.2.closer? != some p.1) =
          (stack.dropWhile fun o => o.2.closer? != some p.1).map fun o => (f o.1, o.2) := by
        rw [List.dropWhile_map]
        rfl
      rw [hdrop]
      cases stack.dropWhile fun o => o.2.closer? != some p.1 with
      | nil => exact ih stack
      | cons o rest => exact congrArg (_ :: ·) (ih rest)
    · exact ih stack

/-- If no bracket is gone, the pairs of brackets are those before. -/
theorem oldPlace_pairs {gone : Nat → Bool} {ls : List (Kind × List Char)}
    (h : ∀ j l, ls[j]? = some l → l.1.isBracket = true → gone j = false) {i c : Nat}
    (hpair : (i, c) ∈ bracketPairs 0 [] ((without gone ls).map (·.1))) :
    (oldPlace gone ls i, oldPlace gone ls c) ∈ bracketPairs 0 [] (ls.map (·.1)) := by
  have hplaces : ((without gone ls).map (·.1)).zipIdx.map (fun p => (p.1, oldPlace gone ls p.2)) =
      (ls.map (·.1)).zipIdx.filter fun p => !gone p.2 := by
    have hkinds : ((ls.map (·.1)).zipIdx.filter fun p => !gone p.2) =
        (left gone ls).map fun p => (p.1.1, p.2) := by
      rw [left, List.zipIdx_map, List.filter_map]
      rfl
    rw [hkinds]
    refine List.ext_getElem? fun k => ?_
    simp only [without, List.map_map, List.getElem?_map, List.getElem?_zipIdx, oldPlace, Nat.zero_add]
    cases hk : (left gone ls)[k]? with
    | none => rfl
    | some p => simp [hk]
  have hmap := placedPairs_map (oldPlace gone ls) [] ((without gone ls).map (·.1)).zipIdx
  rw [List.map_nil, hplaces, placedPairs_filter ?_] at hmap
  · rw [bracketPairs_eq] at hpair ⊢
    rw [hmap]
    exact List.mem_map.2 ⟨(i, c), hpair, rfl⟩
  · intro q hq hbracket
    have hq := List.mem_zipIdx_iff_getElem?.1 hq
    rw [List.getElem?_map] at hq
    obtain ⟨l, hl, hk⟩ := Option.map_eq_some_iff.1 hq
    rw [h q.2 l hl (by rw [hk]; exact hbracket)]
    rfl

end PhpStyle
