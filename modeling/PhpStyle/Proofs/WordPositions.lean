import Mathlib.Algebra.Ring.Nat
import Mathlib.Data.List.Sort
import Mathlib.Order.Bounds.Basic
import PhpStyle.Proofs.CheckedReads

/-!
# Searching from 64-bit positions

Searches may start and end anywhere, and positions are words of 64 bits: one more than the last word
and one less than zero are faults, as is a token looked up past the end (`Checked`). In these terms
every search from every position has the answer of its total form (`Checked.findNextWord_eq`,
`Checked.findPreviousWord_eq`), and that is the least or the greatest match within the bounds, or
nothing when there is none (`Tokens.scanUp_least`, `Tokens.scanDown_greatest`). The one place where
positions run out is behind the last word, and there the search for the next effective token fails
(`Tokens.searches_words`).
-/

namespace PhpStyle

/-- What a search upwards should find in a set of positions. -/
def LeastIn (s : Set Nat) : Option Nat → Prop
  | some i => IsLeast s i
  | none => s = ∅

/-- What a search downwards should find in a set of positions. -/
def GreatestIn (s : Set Nat) : Option Nat → Prop
  | some i => IsGreatest s i
  | none => s = ∅

namespace Tokens

variable {ts : Tokens}

/-- There is a token at `i`, and it satisfies `p`. -/
def Matches (ts : Tokens) (p : Token → Bool) (i : Nat) : Prop :=
  (ts.get? i).any p = true

theorem Matches.lt_size {p : Token → Bool} {i : Nat} (h : ts.Matches p i) : i < ts.size :=
  lt_size_of_any h

theorem scanUp_least (ts : Tokens) (p : Token → Bool) (i n : Nat) :
    LeastIn {j | i ≤ j ∧ j < i + n ∧ ts.Matches p j} (ts.scanUp p i n) := by
  cases h : ts.scanUp p i n with
  | none =>
    rw [LeastIn, Set.eq_empty_iff_forall_notMem]
    rintro j ⟨hij, hjn, hj⟩
    exact scanUp_eq_none h j hij hjn hj
  | some j =>
    obtain ⟨hij, hj, hno⟩ := scanUp_eq_some h
    refine ⟨⟨hij, scanUp_lt h, hj⟩, ?_⟩
    rintro k ⟨hik, -, hk⟩
    by_contra hlt
    exact hno k hik (by omega) hk

theorem scanDown_greatest (ts : Tokens) (p : Token → Bool) (i n : Nat) :
    GreatestIn {j | j ≤ i ∧ i < j + n ∧ ts.Matches p j} (ts.scanDown p i n) := by
  cases h : ts.scanDown p i n with
  | none =>
    rw [GreatestIn, Set.eq_empty_iff_forall_notMem]
    rintro j ⟨hji, hin, hj⟩
    exact scanDown_eq_none h j hji hin hj
  | some j =>
    obtain ⟨hji, hj, hno⟩ := scanDown_eq_some h
    refine ⟨⟨hji, lt_of_scanDown h, hj⟩, ?_⟩
    rintro k ⟨hki, -, hk⟩
    by_contra hlt
    exact hno k (by omega) hki hk

theorem findNext_least (ts : Tokens) (p : Token → Bool) (start : Nat) (stop? : Option Nat) :
    LeastIn {i | start ≤ i ∧ i < min (stop?.getD ts.size) ts.size ∧ ts.Matches p i}
      (ts.findNext p start stop?) := by
  have hset : {i | start ≤ i ∧ i < min (stop?.getD ts.size) ts.size ∧ ts.Matches p i} =
      {i | start ≤ i ∧ i < start + (min (stop?.getD ts.size) ts.size - start) ∧
        ts.Matches p i} := by
    ext i
    refine and_congr_right fun hi => and_congr_left fun _ => ?_
    omega
  rw [hset]
  exact ts.scanUp_least p _ _

theorem findPrevious_greatest (ts : Tokens) (p : Token → Bool) (start : Nat) (stop? : Option Nat) :
    GreatestIn {i | stop?.getD 0 ≤ i ∧ i ≤ min start (ts.size - 1) ∧ ts.Matches p i}
      (ts.findPrevious p start stop?) := by
  have hset : {i | stop?.getD 0 ≤ i ∧ i ≤ min start (ts.size - 1) ∧ ts.Matches p i} =
      {i | i ≤ min start (ts.size - 1) ∧
        min start (ts.size - 1) < i + (min start (ts.size - 1) + 1 - stop?.getD 0) ∧
        ts.Matches p i} := by
    ext i
    simp only [Set.mem_ofPred_eq, ← and_assoc]
    refine and_congr_left fun _ => ?_
    omega
  rw [hset]
  exact ts.scanDown_greatest p _ _

theorem nextEffective_least (ts : Tokens) (i : Nat) :
    LeastIn {j | i < j ∧ ts.Matches isEffective j} (ts.nextEffective i) := by
  have hset : {j | i < j ∧ ts.Matches isEffective j} =
      {j | i + 1 ≤ j ∧ j < min ((none : Option Nat).getD ts.size) ts.size ∧
        ts.Matches isEffective j} := by
    ext j
    refine and_congr_right fun _ => ?_
    simp only [Option.getD_none, min_self]
    exact ⟨fun h => ⟨h.lt_size, h⟩, fun h => h.2⟩
  rw [hset]
  exact ts.findNext_least isEffective (i + 1) none

theorem previousEffective_greatest (ts : Tokens) (i : Nat) :
    GreatestIn {j | j < i ∧ ts.Matches isEffective j} (ts.previousEffective i) := by
  rw [previousEffective]
  split
  · subst i
    rw [GreatestIn, Set.eq_empty_iff_forall_notMem]
    exact fun j hj => Nat.not_lt_zero j hj.1
  · have hset : {j | j < i ∧ ts.Matches isEffective j} =
        {j | (none : Option Nat).getD 0 ≤ j ∧ j ≤ min (i - 1) (ts.size - 1) ∧
          ts.Matches isEffective j} := by
      ext j
      simp only [Set.mem_ofPred_eq, Option.getD_none, Nat.zero_le, true_and]
      refine and_congr_left fun h => ?_
      have := h.lt_size
      omega
    rw [hset]
    exact ts.findPrevious_greatest isEffective (i - 1) none

/-- The positions from `first` through `last` at which there are tokens. -/
def indicesBetween (ts : Tokens) (first last : Nat) : List Nat :=
  (List.range ts.size).filter fun i => first ≤ i ∧ i ≤ last

theorem indicesBetween_eq (ts : Tokens) (first last : Nat) :
    ts.indicesBetween first last = ((List.range ts.size).drop first).take (last + 1 - first) := by
  have hleft : (ts.indicesBetween first last).Pairwise (· < ·) := List.pairwise_lt_range.filter _
  have hright : (((List.range ts.size).drop first).take (last + 1 - first)).Pairwise (· < ·) :=
    List.pairwise_lt_range.sublist ((List.take_sublist _ _).trans (List.drop_sublist _ _))
  have hperm := (List.perm_ext_iff_of_nodup (hleft.imp Nat.ne_of_lt) (hright.imp Nat.ne_of_lt)).2
  refine (hperm fun i => ?_).eq_of_pairwise' hleft hright
  simp only [indicesBetween, List.mem_filter, List.mem_range, decide_eq_true_eq, List.mem_take_iff_getElem,
    List.getElem_drop, List.getElem_range, List.length_drop, List.length_range]
  constructor
  · rintro ⟨hsize, hfirst, hlast⟩
    exact ⟨i - first, by omega, by omega⟩
  · rintro ⟨k, hk, rfl⟩
    omega

theorem contents_eq (ts : Tokens) :
    ts.items.toList.map (·.content) = (List.range ts.size).map ts.content := by
  refine List.ext_getElem (by simp [size]) fun i h _ => ?_
  have hi : i < ts.items.size := by simpa using h
  simp [content, get?, hi]

theorem contentBetween_eq (ts : Tokens) (first last : Nat) :
    ts.contentBetween first last = String.join ((ts.indicesBetween first last).map ts.content) := by
  rw [contentBetween, indicesBetween_eq, List.map_take, List.map_drop, contents_eq, List.map_take,
    List.map_drop]

end Tokens

namespace Checked

variable (ts : Tokens)

/-- The position behind `i`. -/
def behind (i : UInt64) : Checked UInt64 :=
  if i.toNat + 1 < 2 ^ 64 then pure (i + 1) else throw .overflow

/-- The position before `i`. -/
def before (i : UInt64) : Checked UInt64 :=
  if i = 0 then throw .underflow else pure (i - 1)

/-- The number of tokens. -/
def count : UInt64 :=
  UInt64.ofNat ts.size

noncomputable section

/-- The first token from `i` up to `stop` that satisfies `p`. -/
def searchUpWord (p : Token → Bool) (i stop : UInt64) : Checked (Option UInt64) :=
  loop (fun i => do
    if i < stop then
      let t ← token ts i.toNat
      if p t then return .stop (some i) else return .again (← behind i)
    else return .stop none) i

/-- The last token from `i` down to `stop` that satisfies `p`. -/
def searchDownWord (p : Token → Bool) (stop i : UInt64) : Checked (Option UInt64) :=
  loop (fun i => do
    let t ← token ts i.toNat
    if p t then return .stop (some i)
    else if i = stop then return .stop none
    else return .again (← before i)) i

def findNextWord (p : Token → Bool) (start : UInt64) (stop? : Option UInt64) :
    Checked (Option UInt64) :=
  searchUpWord ts p start (match stop? with
    | some stop => if stop < count ts then stop else count ts
    | none => count ts)

def findPreviousWord (p : Token → Bool) (start : UInt64) (stop? : Option UInt64) :
    Checked (Option UInt64) := do
  if ts.size = 0 then return none
  else
    let last ← before (count ts)
    let first := if start < last then start else last
    if first < stop?.getD 0 then return none
    else searchDownWord ts p (stop?.getD 0) first

def previousEffectiveWord (i : UInt64) : Checked (Option UInt64) := do
  if i = 0 then return none
  else findPreviousWord ts Tokens.isEffective (← before i) none

def nextEffectiveWord (i : UInt64) : Checked (Option UInt64) := do
  findNextWord ts Tokens.isEffective (← behind i) none

def contentBetweenWord (first last : UInt64) : Checked String := do
  if last < first ∨ count ts ≤ first then return ""
  else
    let final ← before (count ts)
    let pieces ← slice ts first.toNat ((if last < final then last else final).toNat + 1)
    return String.join (pieces.map (·.content))

end

theorem searchUpWord_turn (p : Token → Bool) (i stop : UInt64) : searchUpWord ts p i stop = (do
    if i < stop then
      let t ← token ts i.toNat
      if p t then return some i else searchUpWord ts p (← behind i) stop
    else return none) := by
  rw [searchUpWord, loop_eq]
  split
  · rw [bind_assoc]
    refine bind_congr fun t => ?_
    split
    · rfl
    · rw [bind_assoc]
      rfl
  · rfl

theorem searchDownWord_turn (p : Token → Bool) (stop i : UInt64) : searchDownWord ts p stop i = (do
    let t ← token ts i.toNat
    if p t then return some i
    else if i = stop then return none
    else searchDownWord ts p stop (← before i)) := by
  rw [searchDownWord, loop_eq, bind_assoc]
  refine bind_congr fun t => ?_
  split
  · rfl
  split
  · rfl
  · rw [bind_assoc]
    rfl

/-! ### Words and numbers -/

variable {ts : Tokens} {i : UInt64}

theorem toNat_count (hsize : ts.size < 2 ^ 64) : (count ts).toNat = ts.size :=
  UInt64.toNat_ofNat_of_lt hsize

theorem behind_eq (h : i.toNat + 1 < 2 ^ 64) : ∃ j, behind i = pure j ∧ j.toNat = i.toNat + 1 := by
  refine ⟨i + 1, if_pos h, ?_⟩
  rw [UInt64.toNat_add]
  exact Nat.mod_eq_of_lt h

theorem before_eq (h : 0 < i.toNat) : ∃ j, before i = pure j ∧ j.toNat = i.toNat - 1 := by
  have hne : ¬ i = 0 := by
    rintro rfl
    exact absurd h (Nat.lt_irrefl 0)
  refine ⟨i - 1, if_neg hne, UInt64.toNat_sub_of_le _ _ ?_⟩
  rw [UInt64.le_iff_toNat_le]
  exact h

theorem toNat_ite_lt (a b : UInt64) : (if a < b then a else b).toNat = min a.toNat b.toNat := by
  split
  · rename_i h
    rw [UInt64.lt_iff_toNat_lt] at h
    omega
  · rename_i h
    rw [UInt64.lt_iff_toNat_lt] at h
    omega

theorem searchUpWord_eq (p : Token → Bool) (i : UInt64) {stop : UInt64} (hstop : stop.toNat ≤ ts.size) :
    Option.map UInt64.toNat <$> searchUpWord ts p i stop =
      pure (ts.scanUp p i.toNat (stop.toNat - i.toNat)) := by
  generalize hn : stop.toNat - i.toNat = n
  induction n generalizing i with
  | zero =>
    have hle : ¬ i < stop := by
      rw [UInt64.lt_iff_toNat_lt]
      omega
    rw [searchUpWord_turn, if_neg hle]
    rfl
  | succ n ih =>
    have hlt : i < stop := by
      rw [UInt64.lt_iff_toNat_lt]
      omega
    have := stop.toNat_lt
    obtain ⟨t, ht⟩ := exists_get? (show i.toNat < ts.size by omega)
    obtain ⟨j, hj, hij⟩ := behind_eq (show i.toNat + 1 < 2 ^ 64 by omega)
    rw [searchUpWord_turn, if_pos hlt, token_eq ht, pure_bind, Tokens.scanUp, ht, Option.any_some]
    split
    · rfl
    · rw [hj, pure_bind, ih j (by omega), hij]

theorem searchDownWord_eq (p : Token → Bool) {stop i : UInt64} (hstop : stop.toNat ≤ i.toNat)
    (hi : i.toNat < ts.size) : Option.map UInt64.toNat <$> searchDownWord ts p stop i =
      pure (ts.scanDown p i.toNat (i.toNat + 1 - stop.toNat)) := by
  generalize hn : i.toNat - stop.toNat = n
  induction n generalizing i with
  | zero =>
    obtain ⟨t, ht⟩ := exists_get? hi
    obtain rfl : i = stop := UInt64.toNat_inj.1 (by omega)
    rw [searchDownWord_turn, token_eq ht, pure_bind, Nat.add_sub_cancel_left, Tokens.scanDown, ht,
      Option.any_some, if_pos (rfl : i = i)]
    split <;> rfl
  | succ n ih =>
    have hne : ¬ i = stop := by
      rintro rfl
      omega
    obtain ⟨t, ht⟩ := exists_get? hi
    obtain ⟨j, hj, hji⟩ := before_eq (show 0 < i.toNat by omega)
    have hcount : i.toNat + 1 - stop.toNat = (j.toNat + 1 - stop.toNat) + 1 := by omega
    rw [searchDownWord_turn, token_eq ht, pure_bind, if_neg hne, hcount, Tokens.scanDown, ht,
      Option.any_some]
    split
    · rfl
    · rw [hj, pure_bind, ih (by omega) (by omega) (by omega), hji]

theorem findNextWord_eq (hsize : ts.size < 2 ^ 64) (p : Token → Bool) (start : UInt64)
    (stop? : Option UInt64) : Option.map UInt64.toNat <$> findNextWord ts p start stop? =
      pure (ts.findNext p start.toNat (stop?.map UInt64.toNat)) := by
  have hcount := toNat_count hsize
  cases stop? with
  | none =>
    rw [findNextWord, searchUpWord_eq p start hcount.le, hcount, Tokens.findNext]
    simp
  | some stop =>
    have hbound : (if stop < count ts then stop else count ts).toNat = min stop.toNat ts.size := by
      rw [toNat_ite_lt, hcount]
    rw [findNextWord, searchUpWord_eq p start (by omega), hbound]
    rfl

theorem findPreviousWord_eq (hsize : ts.size < 2 ^ 64) (p : Token → Bool) (start : UInt64)
    (stop? : Option UInt64) : Option.map UInt64.toNat <$> findPreviousWord ts p start stop? =
      pure (ts.findPrevious p start.toNat (stop?.map UInt64.toNat)) := by
  have hcount := toNat_count hsize
  have hstop : (stop?.getD 0).toNat = (stop?.map UInt64.toNat).getD 0 := by cases stop? <;> rfl
  rw [findPreviousWord]
  rcases Nat.eq_zero_or_pos ts.size with hempty | hpos
  · rw [if_pos hempty, ← Checked.findPrevious_eq, findPrevious, if_pos hempty]
    rfl
  · obtain ⟨last, hlast, hbefore⟩ := before_eq (show 0 < (count ts).toNat by omega)
    rw [if_neg (by omega), hlast, pure_bind, Tokens.findPrevious, ← hstop]
    have hfirst : (if start < last then start else last).toNat = min start.toNat (ts.size - 1) := by
      rw [toNat_ite_lt, hbefore, hcount]
    generalize (if start < last then start else last) = first at hfirst ⊢
    simp only [← hfirst]
    split
    · rename_i hlt
      rw [UInt64.lt_iff_toNat_lt] at hlt
      have hzero : first.toNat + 1 - (stop?.getD 0).toNat = 0 := by omega
      rw [hzero]
      rfl
    · rename_i hge
      rw [UInt64.lt_iff_toNat_lt] at hge
      exact searchDownWord_eq p (by omega) (by omega)

theorem previousEffectiveWord_eq (hsize : ts.size < 2 ^ 64) (i : UInt64) :
    Option.map UInt64.toNat <$> previousEffectiveWord ts i = pure (ts.previousEffective i.toNat) := by
  rw [previousEffectiveWord, Tokens.previousEffective]
  by_cases hi : i = 0
  · subst hi
    rfl
  · have hpos : 0 < i.toNat := by
      rw [Nat.pos_iff_ne_zero]
      exact fun h => hi (UInt64.toNat_inj.1 h)
    obtain ⟨j, hj, hji⟩ := before_eq hpos
    rw [if_neg hi, if_neg (by omega), hj, pure_bind, findPreviousWord_eq hsize, hji]
    rfl

theorem nextEffectiveWord_eq (hsize : ts.size < 2 ^ 64) (hi : i.toNat + 1 < 2 ^ 64) :
    Option.map UInt64.toNat <$> nextEffectiveWord ts i = pure (ts.nextEffective i.toNat) := by
  obtain ⟨j, hj, hij⟩ := behind_eq hi
  rw [nextEffectiveWord, hj, pure_bind, findNextWord_eq hsize, hij]
  rfl

theorem contentBetweenWord_eq (hsize : ts.size < 2 ^ 64) (first last : UInt64) :
    contentBetweenWord ts first last = pure (ts.contentBetween first.toNat last.toNat) := by
  have hcount := toNat_count hsize
  have hlength : ts.items.toList.length = ts.size := Array.length_toList
  rw [contentBetweenWord, Tokens.contentBetween]
  split
  · rename_i hout
    rw [UInt64.lt_iff_toNat_lt, UInt64.le_iff_toNat_le, hcount] at hout
    have hnil : (ts.items.toList.drop first.toNat).take (last.toNat + 1 - first.toNat) = [] := by
      rw [List.take_eq_nil_iff, List.drop_eq_nil_iff]
      omega
    rw [hnil]
    rfl
  · rename_i hin
    rw [UInt64.lt_iff_toNat_lt, UInt64.le_iff_toNat_le, hcount] at hin
    obtain ⟨final, hfinal, hbefore⟩ := before_eq (show 0 < (count ts).toNat by omega)
    have hstop : (if last < final then last else final).toNat = min last.toNat (ts.size - 1) := by
      rw [toNat_ite_lt, hbefore, hcount]
    -- what lies past the last token adds nothing
    have htake : (ts.items.toList.drop first.toNat).take
          (min last.toNat (ts.size - 1) + 1 - first.toNat) =
        (ts.items.toList.drop first.toNat).take (last.toNat + 1 - first.toNat) := by
      rw [List.take_eq_take_iff, List.length_drop]
      omega
    rw [hfinal, pure_bind, hstop, slice_eq (by omega) (by omega), pure_bind, htake]

end Checked

namespace Tokens

/-- The last position. -/
def lastWord : UInt64 :=
  UInt64.ofNat (2 ^ 64 - 1)

/-- Each search ends without a fault from every position, and with what is asked for; only the one
for the next effective token has no position behind the last. -/
structure Searches (ts : Tokens) : Prop where
  next : ∀ (p : Token → Bool) (start : UInt64) (stop? : Option UInt64),
    Option.map UInt64.toNat <$> Checked.findNextWord ts p start stop? =
        pure (ts.findNext p start.toNat (stop?.map UInt64.toNat)) ∧
      LeastIn {i | start.toNat ≤ i ∧ i < min ((stop?.map UInt64.toNat).getD ts.size) ts.size ∧
        ts.Matches p i} (ts.findNext p start.toNat (stop?.map UInt64.toNat))
  previous : ∀ (p : Token → Bool) (start : UInt64) (stop? : Option UInt64),
    Option.map UInt64.toNat <$> Checked.findPreviousWord ts p start stop? =
        pure (ts.findPrevious p start.toNat (stop?.map UInt64.toNat)) ∧
      GreatestIn {i | (stop?.map UInt64.toNat).getD 0 ≤ i ∧ i ≤ min start.toNat (ts.size - 1) ∧
        ts.Matches p i} (ts.findPrevious p start.toNat (stop?.map UInt64.toNat))
  previousEffective : ∀ i : UInt64,
    Option.map UInt64.toNat <$> Checked.previousEffectiveWord ts i =
        pure (ts.previousEffective i.toNat) ∧
      GreatestIn {j | j < i.toNat ∧ ts.Matches isEffective j} (ts.previousEffective i.toNat)
  nextEffective : ∀ i : UInt64, i ≠ lastWord → ∃ next?,
    ts.effectiveAfter i = .ok next? ∧
      Option.map UInt64.toNat <$> Checked.nextEffectiveWord ts i = pure next? ∧
      LeastIn {j | i.toNat < j ∧ ts.Matches isEffective j} next?
  /-- Behind the last position there is none to search from. -/
  overflow : ts.effectiveAfter lastWord = .error .overflow ∧
    Checked.nextEffectiveWord ts lastWord = throw .overflow
  content : ∀ first last : UInt64,
    Checked.contentBetweenWord ts first last =
        pure (ts.contentBetween first.toNat last.toNat) ∧
      ts.contentBetween first.toNat last.toNat =
        String.join ((ts.indicesBetween first.toNat last.toNat).map ts.content)

/-- Searches and texts between positions, from any 64-bit position in any sequence of tokens that
these can count. -/
theorem searches_words (ts : Tokens) (hsize : ts.size < 2 ^ 64) : ts.Searches where
  next p start stop? :=
    ⟨Checked.findNextWord_eq hsize p start stop?, ts.findNext_least p start.toNat _⟩
  previous p start stop? :=
    ⟨Checked.findPreviousWord_eq hsize p start stop?, ts.findPrevious_greatest p start.toNat _⟩
  previousEffective i :=
    ⟨Checked.previousEffectiveWord_eq hsize i, ts.previousEffective_greatest i.toNat⟩
  nextEffective i hi := by
    have hlt : i.toNat + 1 < 2 ^ 64 := by
      have hne : i.toNat ≠ 2 ^ 64 - 1 := fun h => hi (UInt64.toNat_inj.1 h)
      have := i.toNat_lt
      omega
    exact ⟨_, if_pos hlt, Checked.nextEffectiveWord_eq hsize hlt, ts.nextEffective_least i.toNat⟩
  overflow := ⟨rfl, rfl⟩
  content first last :=
    ⟨Checked.contentBetweenWord_eq hsize first last, ts.contentBetween_eq first.toNat last.toNat⟩

/-- The tokens of a short source, few enough to be counted. -/
theorem searches_words_of_variable : (ofSource "<?php $a;").size < 2 ^ 64 ∧
    (ofSource "<?php $a;").Searches :=
  have hsize : (ofSource "<?php $a;").size < 2 ^ 64 := by decide +kernel
  ⟨hsize, searches_words _ hsize⟩

/-- No token is behind the last position, and the search there does not say so. -/
theorem effectiveAfter_lastWord_fails :
    (ofSource "<?php $a;").effectiveAfter lastWord = .error .overflow ∧
      LeastIn {j | lastWord.toNat < j ∧ (ofSource "<?php $a;").Matches isEffective j} none := by
  refine ⟨rfl, ?_⟩
  rw [LeastIn, Set.eq_empty_iff_forall_notMem]
  rintro j ⟨hj, hmatch⟩
  have hsize : (ofSource "<?php $a;").size < lastWord.toNat := by decide +kernel
  have := hmatch.lt_size
  omega

end Tokens

end PhpStyle
