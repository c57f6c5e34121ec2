import PhpStyle.Proofs.ParenOwners

/-!
# Reads that may fault

A token looked up past the end, a slice that ends before it begins or past the end, and one taken
from a counter at zero are faults; a loop need not end (`Checked`, `Checked.loop`). A query told in
these terms has the answer of its total form if it ends without a fault. Searches do so from
everywhere and with every bound (`findNext_eq`, `findPrevious_eq`): they never leave the sequence.
-/

namespace PhpStyle

/-- What can go wrong at a read. -/
inductive Fault where
  /-- An index past the end. -/
  | index
  /-- A slice with bounds out of order or past the end. -/
  | slice
  /-- One less than zero. -/
  | underflow
  /-- One more than the last position. -/
  | overflow
  deriving DecidableEq, Repr

/-- A computation that may fault, and that may never end. -/
abbrev Checked (α : Type) :=
  ExceptT Fault Option α

namespace Checked

section Loops

variable {σ α : Type}

/-- What a turn of a loop comes to: what the next one starts with, or the answer. -/
inductive Turn (σ α : Type) where
  | again (s : σ)
  | stop (a : α)

/-- A turn without an answer goes on. -/
def Turn.goOn (next : σ → Checked α) : Turn σ α → Checked α
  | .again s => next s
  | .stop a => pure a

/-- A loop that is given up after `n` turns, as if it did not end. -/
def loopWithin (turn : σ → Checked (Turn σ α)) : Nat → σ → Checked α
  | 0, _ => Option.none
  | n + 1, s => turn s >>= Turn.goOn (loopWithin turn n)

open Classical in
/-- A loop takes as many turns as it needs. It does not end if no number of them is enough. -/
noncomputable def loop (turn : σ → Checked (Turn σ α)) (s : σ) : Checked α :=
  if h : ∃ n, loopWithin turn n s ≠ Option.none then loopWithin turn h.choose s else Option.none

variable {turn : σ → Checked (Turn σ α)} {s : σ} {r : Except Fault α} {n m : Nat}

theorem goOn_eq_some {x : Checked (Turn σ α)} {next next' : σ → Checked α}
    (h : ∀ s, next s = some r → next' s = some r) (hx : x >>= Turn.goOn next = some r) :
    x >>= Turn.goOn next' = some r := by
  match x, hx with
  | some (.error _), hx => exact hx
  | some (.ok (.again s)), hx => exact h s hx
  | some (.ok (.stop _)), hx => exact hx

theorem loopWithin_le (hnm : n ≤ m) (h : loopWithin turn n s = some r) :
    loopWithin turn m s = some r := by
  induction n generalizing s m with
  | zero => cases h
  | succ n ih =>
    obtain ⟨m, rfl⟩ : ∃ k, m = k + 1 := ⟨m - 1, by omega⟩
    exact goOn_eq_some (fun s => ih (Nat.le_of_succ_le_succ hnm)) h

theorem loop_eq_some : loop turn s = some r ↔ ∃ n, loopWithin turn n s = some r := by
  rw [loop]
  constructor
  · split
    · exact fun h => ⟨_, h⟩
    · exact fun h => nomatch h
  · rintro ⟨n, hn⟩
    have hends : ∃ n, loopWithin turn n s ≠ Option.none := ⟨n, by rw [hn]; exact Option.some_ne_none r⟩
    rw [dif_pos hends]
    obtain ⟨r', hr'⟩ := Option.ne_none_iff_exists'.1 hends.choose_spec
    have hsame := loopWithin_le (Nat.le_max_left _ n) hr'
    rw [loopWithin_le (Nat.le_max_right _ n) hn] at hsame
    rw [hr', hsame]

theorem exists_of_goOn {x : Checked (Turn σ α)} (hx : x >>= Turn.goOn (loop turn) = some r) :
    ∃ n, x >>= Turn.goOn (loopWithin turn n) = some r := by
  match x, hx with
  | some (.error _), hx => exact ⟨0, hx⟩
  | some (.ok (.again _)), hx => exact loop_eq_some.1 hx
  | some (.ok (.stop _)), hx => exact ⟨0, hx⟩

/-- A loop takes its first turn, and goes on. -/
theorem loop_eq (turn : σ → Checked (Turn σ α)) (s : σ) :
    loop turn s = turn s >>= Turn.goOn (loop turn) := by
  apply Option.ext
  intro r
  constructor
  · intro h
    obtain ⟨n, hn⟩ := loop_eq_some.1 h
    cases n with
    | zero => cases hn
    | succ n => exact goOn_eq_some (fun s h => loop_eq_some.2 ⟨n, h⟩) hn
  · intro h
    obtain ⟨n, hn⟩ := exists_of_goOn h
    exact loop_eq_some.2 ⟨n + 1, hn⟩

end Loops

variable (ts : Tokens)

/-- The token at `i`. -/
def token (i : Nat) : Checked Token :=
  match ts.get? i with
  | some t => pure t
  | none => throw .index

/-- The tokens from `first` up to `stop`. -/
def slice (first stop : Nat) : Checked (List Token) :=
  if first ≤ stop ∧ stop ≤ ts.size then pure ((ts.items.toList.drop first).take (stop - first))
  else throw .slice

/-- One less than a counter. -/
def oneLess : Nat → Checked Nat
  | 0 => throw .underflow
  | n + 1 => pure n

/-- Whether there is an index and the kind of the token there satisfies `p`. -/
def testKind (p : Kind → Bool) : Option Nat → Checked Bool
  | some i => return p (← token ts i).kind
  | none => return false

noncomputable section

/-- The first token from `i` up to `stop` that satisfies `p`. -/
def searchUp (p : Token → Bool) (i stop : Nat) : Checked (Option Nat) :=
  loop (fun i => do
    if i < stop then
      let t ← token ts i
      if p t then return .stop (some i) else return .again (i + 1)
    else return .stop none) i

/-- The last token below `i`, and not before `stop`, that satisfies `p`. -/
def searchDown (p : Token → Bool) (stop i : Nat) : Checked (Option Nat) :=
  loop (fun i => do
    if stop < i then
      let j ← oneLess i
      let t ← token ts j
      if p t then return .stop (some j) else return .again j
    else return .stop none) i

def findNext (p : Token → Bool) (start : Nat) (stop : Option Nat) : Checked (Option Nat) :=
  searchUp ts p start (min (stop.getD ts.size) ts.size)

def findPrevious (p : Token → Bool) (start : Nat) (stop : Option Nat) : Checked (Option Nat) := do
  if ts.size = 0 then return none
  else
    let last ← oneLess ts.size
    let first := min start last
    if first < stop.getD 0 then return none
    else searchDown ts p (stop.getD 0) (first + 1)

def findNextEffective (start : Nat) (stop : Option Nat) : Checked (Option Nat) :=
  findNext ts Tokens.isEffective start stop

def previousEffective (i : Nat) : Checked (Option Nat) :=
  if i = 0 then return none else findPrevious ts Tokens.isEffective (i - 1) none

def nextEffective (i : Nat) : Checked (Option Nat) :=
  findNextEffective ts (i + 1) none

end

theorem searchUp_turn (p : Token → Bool) (i stop : Nat) : searchUp ts p i stop = (do
    if i < stop then
      let t ← token ts i
      if p t then return some i else searchUp ts p (i + 1) stop
    else return none) := by
  rw [searchUp, loop_eq]
  split
  · rw [bind_assoc]
    refine bind_congr fun t => ?_
    split <;> rfl
  · rfl

theorem searchDown_turn (p : Token → Bool) (stop i : Nat) : searchDown ts p stop i = (do
    if stop < i then
      let j ← oneLess i
      let t ← token ts j
      if p t then return some j else searchDown ts p stop j
    else return none) := by
  rw [searchDown, loop_eq]
  split
  · rw [bind_assoc]
    refine bind_congr fun j => ?_
    rw [bind_assoc]
    refine bind_congr fun t => ?_
    split <;> rfl
  · rfl

variable {ts : Tokens} {t : Token} {i : Nat}

theorem token_eq (h : ts.get? i = some t) : token ts i = pure t := by
  rw [token, h]

theorem exists_get? (h : i < ts.size) : ∃ t, ts.get? i = some t :=
  ⟨_, Array.getElem?_eq_getElem h⟩

theorem slice_eq {first stop : Nat} (hle : first ≤ stop) (hstop : stop ≤ ts.size) :
    slice ts first stop = pure ((ts.items.toList.drop first).take (stop - first)) := by
  rw [slice, if_pos ⟨hle, hstop⟩]

theorem testKind_eq {p : Kind → Bool} {i? : Option Nat} (h : ∀ i ∈ i?, i < ts.size) :
    testKind ts p i? = pure (i?.any (ts.kindIs p)) := by
  cases i? with
  | none => rfl
  | some i =>
    obtain ⟨t, ht⟩ := exists_get? (h i rfl)
    rw [testKind, token_eq ht, Option.any_some, Tokens.kindIs, Tokens.kind?, ht]
    rfl

theorem mapM_eq {α β : Type} {f : α → Checked β} {g : α → β} {xs : List α}
    (h : ∀ x ∈ xs, f x = pure (g x)) : xs.mapM f = pure (xs.map g) := by
  induction xs with
  | nil => rfl
  | cons x xs ih =>
    rw [List.forall_mem_cons] at h
    rw [List.mapM_cons, h.1, pure_bind, ih h.2, pure_bind]
    rfl

theorem searchUp_eq (p : Token → Bool) (i : Nat) {stop : Nat} (hstop : stop ≤ ts.size) :
    searchUp ts p i stop = pure (ts.scanUp p i (stop - i)) := by
  generalize hn : stop - i = n
  induction n generalizing i with
  | zero =>
    rw [searchUp_turn, if_neg (by omega)]
    rfl
  | succ n ih =>
    obtain ⟨t, ht⟩ := exists_get? (show i < ts.size by omega)
    rw [searchUp_turn, if_pos (by omega), token_eq ht, pure_bind, Tokens.scanUp, ht, Option.any_some]
    split
    · rfl
    · exact ih (i + 1) (by omega)

theorem searchDown_eq (p : Token → Bool) (stop : Nat) {i : Nat} (hi : i ≤ ts.size) :
    searchDown ts p stop i = pure (ts.scanDown p (i - 1) (i - stop)) := by
  generalize hn : i - stop = n
  induction n generalizing i with
  | zero =>
    rw [searchDown_turn, if_neg (by omega)]
    rfl
  | succ n ih =>
    obtain ⟨j, rfl⟩ : ∃ j, i = j + 1 := ⟨i - 1, by omega⟩
    obtain ⟨t, ht⟩ := exists_get? (show j < ts.size by omega)
    rw [searchDown_turn, if_pos (by omega), oneLess, pure_bind, token_eq ht, pure_bind, Nat.add_sub_cancel,
      Tokens.scanDown, ht, Option.any_some]
    split
    · rfl
    · exact ih (by omega) (by omega)

/-- A search upwards answers, whatever its start and bound. -/
theorem findNext_eq (p : Token → Bool) (start : Nat) (stop : Option Nat) :
    findNext ts p start stop = pure (ts.findNext p start stop) :=
  searchUp_eq p start (Nat.min_le_right _ _)

/-- A search downwards answers, whatever its start and bound. -/
theorem findPrevious_eq (p : Token → Bool) (start : Nat) (stop : Option Nat) :
    findPrevious ts p start stop = pure (ts.findPrevious p start stop) := by
  rw [findPrevious, Tokens.findPrevious]
  rcases Nat.eq_zero_or_pos ts.size with hsize | hsize
  · have hnone : ∀ i n, ts.scanDown p i n = none := by
      intro i n
      by_contra hsome
      obtain ⟨j, hj⟩ := Option.ne_none_iff_exists'.1 hsome
      obtain ⟨-, hj, -⟩ := Tokens.scanDown_eq_some hj
      have := Tokens.lt_size_of_any hj
      omega
    rw [if_pos hsize, hnone]
  · obtain ⟨last, hlast⟩ : ∃ last, ts.size = last + 1 := ⟨ts.size - 1, by omega⟩
    have hone : oneLess ts.size = pure last := by rw [hlast, oneLess]
    rw [if_neg (by omega), hone, pure_bind, hlast, Nat.add_sub_cancel]
    simp only
    split
    · have hzero : min start last + 1 - stop.getD 0 = 0 := by omega
      rw [hzero, Tokens.scanDown]
    · rw [searchDown_eq p _ (by omega), Nat.add_sub_cancel]

theorem findNextEffective_eq (start : Nat) (stop : Option Nat) :
    findNextEffective ts start stop = pure (ts.findNextEffective start stop) :=
  findNext_eq _ _ _

theorem previousEffective_eq (i : Nat) :
    previousEffective ts i = pure (ts.previousEffective i) := by
  rw [previousEffective, Tokens.previousEffective]
  split
  · rfl
  · exact findPrevious_eq _ _ _

theorem nextEffective_eq (i : Nat) : nextEffective ts i = pure (ts.nextEffective i) :=
  findNextEffective_eq _ _

theorem lt_size_of_findNext {p : Token → Bool} {start j : Nat} {stop? : Option Nat}
    (h : ts.findNext p start stop? = some j) : j < ts.size := by
  obtain ⟨-, hj, -⟩ := Tokens.scanUp_eq_some h
  exact Tokens.lt_size_of_any hj

theorem lt_size_of_findPrevious {p : Token → Bool} {start j : Nat} {stop? : Option Nat}
    (h : ts.findPrevious p start stop? = some j) : j < ts.size := by
  obtain ⟨-, hj, -⟩ := Tokens.scanDown_eq_some h
  exact Tokens.lt_size_of_any hj

theorem lt_size_of_previousEffective {j : Nat} (h : ts.previousEffective i = some j) :
    j < ts.size := by
  obtain ⟨⟨k, hk, -⟩, -⟩ := Tokens.gap_of_previousEffective h
  exact Tokens.lt_size_of_kinds hk

end Checked

end PhpStyle
