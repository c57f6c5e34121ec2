import PhpStyle.Proofs.StatementBounds
import PhpStyle.Proofs.SwappedLexemes

/-!
# Where the operands of a comparison begin and end

The search for the end of the right operand stops before a token that ends operands or at a bracket
around the comparison, with all brackets of the operand closed (`OperandScan`). That it also stops
at the end of the statement makes no difference (`operandEnd?_eq`). Before a left operand that is no
array stands a bracket or a token behind which operands start (`exists_lead`), also where the rule
takes the operand because the statement starts with it.
-/

namespace PhpStyle

section Segments

variable {α : Type*} {ls : List α} {x : α} {a b c : Nat}

theorem extract_append_drop (h : a ≤ b) : ls.extract a b ++ ls.drop b = ls.drop a := by
  have hdrop : ls.drop b = (ls.drop a).drop (b - a) := by
    rw [List.drop_drop, Nat.add_sub_of_le h]
  rw [hdrop, List.take_append_drop]

theorem mem_extract (h : x ∈ ls.extract a b) : ∃ i, a ≤ i ∧ i < b ∧ ls[i]? = some x := by
  obtain ⟨n, hn⟩ := List.mem_iff_getElem?.1 h
  rw [List.getElem?_take] at hn
  split at hn
  · rw [List.getElem?_drop] at hn
    exact ⟨a + n, by omega, by omega, hn⟩
  · cases hn

theorem extract_self (ls : List α) (a : Nat) : ls.extract a a = [] := by
  simp

theorem extract_eq_cons (ha : ls[a]? = some x) (hab : a < b) :
    ls.extract a b = x :: ls.extract (a + 1) b := by
  obtain ⟨hlt, rfl⟩ := List.getElem?_eq_some_iff.1 ha
  rw [List.extract_eq_take_drop, List.drop_eq_getElem_cons hlt,
    show b - a = b - (a + 1) + 1 by omega, List.take_succ_cons]

theorem length_extract (hb : b ≤ ls.length) : (ls.extract a b).length = b - a := by
  rw [List.length_take, List.length_drop]
  omega

theorem extract_ne_nil (hab : a < b) (hb : b ≤ ls.length) : ls.extract a b ≠ [] := by
  refine List.ne_nil_of_length_pos ?_
  rw [length_extract hb]
  omega

theorem extract_append (hab : a ≤ b) (hbc : b ≤ c) :
    ls.extract a b ++ ls.extract b c = ls.extract a c := by
  simp only [List.extract_eq_take_drop]
  rw [show c - a = (b - a) + (c - b) by omega, List.take_add, List.drop_drop, Nat.add_sub_of_le hab]

theorem extract_succ (hab : a ≤ b) (hb : ls[b]? = some x) :
    ls.extract a (b + 1) = ls.extract a b ++ [x] := by
  rw [← extract_append hab (Nat.le_succ b), extract_eq_cons hb (Nat.lt_succ_self b), extract_self]

end Segments

namespace Lexer

theorem levelAfter_append (depth : Nat) (ks ks' : List Kind) :
    levelAfter depth (ks ++ ks') = (levelAfter depth ks).bind (levelAfter · ks') := by
  induction ks generalizing depth with
  | nil => rfl
  | cons k ks ih =>
    rw [List.cons_append, levelAfter, levelAfter]
    repeat' split
    all_goals first | exact ih _ | rfl

theorem levelAfter_of_gap {ks : List Kind} {a b : Nat} (h : Gap ks a b) (depth : Nat) :
    levelAfter depth (ks.extract (a + 1) b) = some depth := by
  refine levelAfter_of_plain (fun k hk => ?_) depth
  obtain ⟨m, ham, hmb, hm⟩ := mem_extract hk
  have htrivia := h.isTrivia ham hmb hm
  revert htrivia
  cases k <;> decide

variable {s t : Lexer} {cs z : List Char} {ls : List (Kind × List Char)}

theorem mode_of_closeTag (hne : cs ≠ []) (h : (s.cut cs).kind = .closeTag) :
    (s.cut cs).mode = .html := by
  obtain ⟨c, cs, rfl⟩ := List.exists_cons_of_ne_nil hne
  have hphp : s.mode = .php := mode_of_isCode (by rw [h]; rfl)
  rw [Lexer.cut, hphp] at h ⊢
  have hspelling := @spelling_of_cutPhp s c cs (by rw [h]; decide)
  rw [h] at hspelling
  have hsplit := List.take_append_drop (s.cutPhp (c :: cs)).length (c :: cs)
  rw [List.mem_singleton.1 hspelling] at hsplit
  rw [← hsplit]
  rfl

theorem Reads.last_code (h : Reads s ls z t) (ht : t.mode ≠ .html) :
    ((∀ l ∈ ls, l.1.isTrivia = true) ∧ s.mode ≠ .html) ∨
      ∃ pre l post, ls = pre ++ l :: post ∧ (∀ l ∈ post, l.1.isTrivia = true) ∧
        l.1.isEffective = true ∧ l.1 ≠ .closeTag := by
  induction h with
  | nil s z => exact .inl ⟨by simp, ht⟩
  | cons hu hcut hlength hrest ih =>
    rename_i s t cut u z ls
    rcases ih ht with ⟨htrivia, hmode⟩ | ⟨pre, l, post, rfl, hpost, hl, htag⟩
    · cases hk : cut.kind.isTrivia with
      | true =>
        refine .inl ⟨List.forall_mem_cons.2 ⟨hk, htrivia⟩, fun hhtml => ?_⟩
        rw [← hcut, Lexer.cut, hhtml] at hk
        simp only [cutHtml] at hk
        split at hk <;> cases hk
      | false =>
        refine .inr ⟨[], (cut.kind, u), ls, rfl, htrivia, by simp [Kind.isEffective, hk], ?_⟩
        intro htag
        refine hmode ?_
        rw [← hcut] at htag ⊢
        exact mode_of_closeTag (List.append_ne_nil_of_left_ne_nil hu _) htag
    · exact .inr ⟨(cut.kind, u) :: pre, l, post, rfl, hpost, hl, htag⟩

end Lexer

namespace Rules.Yoda

open Tokens Lexer

variable {ts : Tokens} {i j depth last n st : Nat} {lo lo' r : Option Nat} {k : Kind} {o : Operands}

def stopsOperand (depth : Nat) (k : Kind) : Bool :=
  depth == 0 && (k.isCloser || endsOperand k)

def depthAfter (depth : Nat) (k : Kind) : Nat :=
  if k.isOpener then depth + 1 else if k.isCloser then depth - 1 else depth

theorem operandEndFrom_succ (hk : ts.kind? j = some k) :
    operandEndFrom ts j depth lo (n + 1) = if stopsOperand depth k then lo else
      operandEndFrom ts (j + 1) (depthAfter depth k) (if k.isTrivia then lo else some j) n := by
  have hexclusive : (k.isTrivia = true → k.isOpener = false ∧ k.isCloser = false ∧
      endsOperand k = false) ∧
      (k.isOpener = true → k.isCloser = false ∧ endsOperand k = false) ∧
      (k.isCloser = true → endsOperand k = false) := by
    cases k <;> decide
  obtain ⟨htrivia, hopen, hclose⟩ := hexclusive
  rw [operandEndFrom, hk]
  simp only [stopsOperand, depthAfter]
  by_cases h₁ : k.isTrivia = true
  · simp [h₁, htrivia h₁]
  by_cases h₂ : k.isOpener = true
  · simp [h₁, h₂, hopen h₂]
  by_cases h₃ : k.isCloser = true
  · simp [h₁, h₂, h₃]
  · simp [h₁, h₂, h₃]

theorem statementEndFrom_succ (hk : ts.kind? j = some k) :
    ts.statementEndFrom j depth last (n + 1) =
      if depth = 0 ∧ k.isCloser = true then last
      else if depth = 0 ∧ endsStatement k = true then j
      else ts.statementEndFrom (j + 1) (depthAfter depth k)
        (if k.isEffective then j else last) n := by
  have hexclusive : (k.isOpener = true → k.isCloser = false ∧ endsStatement k = false) ∧
      (k.isCloser = true → endsStatement k = false) := by
    cases k <;> decide
  obtain ⟨hopen, hclose⟩ := hexclusive
  simp only [statementEndFrom, hk, depthAfter]
  by_cases h₁ : k.isOpener = true
  · simp [h₁, hopen h₁]
  by_cases h₂ : k.isCloser = true
  · by_cases hdepth : depth = 0 <;> simp [h₁, h₂, hclose h₂, hdepth]
  · simp [h₁, h₂]

theorem levelAfter_cons (h : stopsOperand depth k = false) (ks : List Kind) :
    levelAfter depth (k :: ks) = levelAfter (depthAfter depth k) ks := by
  rw [levelAfter, depthAfter]
  by_cases hopen : k.isOpener = true
  · rw [if_pos hopen, if_pos hopen]
  by_cases hclose : k.isCloser = true
  · have hdepth : depth ≠ 0 := by
      rintro rfl
      simp [stopsOperand, hclose] at h
    rw [if_neg hopen, if_neg hopen, if_pos hclose, if_pos hclose, if_neg hdepth]
  · rw [if_neg hopen, if_neg hopen, if_neg hclose, if_neg hclose]

/-- What a search from `j` on has seen that stops at `st`. -/
structure OperandScan (ts : Tokens) (j depth : Nat) (lo r : Option Nat) (st : Nat) : Prop where
  le : j ≤ st
  level : ∃ d, levelAfter depth (ts.kinds.extract j st) = some d ∧
    (st = ts.size ∨ ∃ k, ts.kinds[st]? = some k ∧ stopsOperand d k = true)
  last : (r = lo ∧ ∀ m, j ≤ m → m < st → ¬ EffectiveAt ts.kinds m) ∨
    ∃ m, r = some m ∧ j ≤ m ∧ EffectiveAt ts.kinds m ∧ Gap ts.kinds m st

namespace OperandScan

theorem stop (h : j = ts.size ∨ ∃ k, ts.kinds[j]? = some k ∧ stopsOperand depth k = true) :
    OperandScan ts j depth lo lo j where
  le := Nat.le_refl j
  level := ⟨depth, by rw [extract_self]; rfl, h⟩
  last := .inl ⟨rfl, fun m hle hlt => absurd hle (Nat.not_le.2 hlt)⟩

/-- One token before. -/
theorem step (hk : ts.kinds[j]? = some k) (hgoes : stopsOperand depth k = false)
    (h : OperandScan ts (j + 1) (depthAfter depth k) (if k.isTrivia then lo else some j) r st) :
    OperandScan ts j depth lo r st where
  le := (Nat.le_succ j).trans h.le
  level := by
    rw [extract_eq_cons hk h.le, levelAfter_cons hgoes]
    exact h.level
  last := by
    rcases h.last with ⟨hr, htrivia⟩ | ⟨m, hm, hjm, heffective, hgap⟩
    · by_cases hkind : k.isTrivia = true
      · refine .inl ⟨by rw [hr, if_pos hkind], fun m hjm hm => ?_⟩
        rcases Nat.lt_or_eq_of_le hjm with hjm | rfl
        · exact htrivia m hjm hm
        · rintro ⟨k', hk', heffective⟩
          obtain rfl := Option.some.inj (hk.symm.trans hk')
          rw [Kind.isEffective, hkind] at heffective
          cases heffective
      · refine .inr ⟨j, by rw [hr, if_neg hkind], Nat.le_refl j, ⟨k, hk, ?_⟩, h.le, htrivia⟩
        simpa [Kind.isEffective] using hkind
    · exact .inr ⟨m, hm, Nat.le_of_succ_le hjm, heffective, hgap⟩

end OperandScan

theorem operandEndFrom_spec (n : Nat) (hn : j + n = ts.size) :
    ∃ st, OperandScan ts j depth lo (operandEndFrom ts j depth lo n) st := by
  induction n generalizing j depth lo with
  | zero => exact ⟨j, .stop (.inl hn)⟩
  | succ n ih =>
    obtain ⟨k, hk⟩ := @exists_kind? ts j (by omega)
    have hkind : ts.kinds[j]? = some k := by rwa [getElem?_kinds]
    rw [operandEndFrom_succ hk]
    cases hstop : stopsOperand depth k with
    | true => exact ⟨j, .stop (.inr ⟨k, hkind, hstop⟩)⟩
    | false =>
      obtain ⟨st, h⟩ :=
        @ih (j + 1) (depthAfter depth k) (if k.isTrivia then lo else some j) (by omega)
      exact ⟨st, h.step hkind hstop⟩

theorem statementEndFrom_bounds (hlast : last ≤ j) (hn : j + n = ts.size) (hpos : last < ts.size) :
    last ≤ ts.statementEndFrom j depth last n ∧ ts.statementEndFrom j depth last n < ts.size := by
  induction n generalizing j depth last with
  | zero => exact ⟨Nat.le_refl last, hpos⟩
  | succ n ih =>
    obtain ⟨k, hk⟩ := @exists_kind? ts j (by omega)
    rw [statementEndFrom_succ hk]
    have hlast' : last ≤ (if k.isEffective then j else last) ∧
        (if k.isEffective then j else last) ≤ j := by
      split <;> omega
    generalize (if k.isEffective then j else last) = last' at hlast' ⊢
    have hnext := @ih (j + 1) (depthAfter depth k) last' (by omega) (by omega) (by omega)
    split
    · omega
    · split <;> omega

/-- The end of an operand is found before the end of the statement. -/
theorem operandEndFrom_limit (hlast : last < j) (hn : j + n = ts.size) :
    operandEndFrom ts j depth lo (ts.statementEndFrom j depth last n + 1 - j) =
      operandEndFrom ts j depth lo n := by
  induction n generalizing j depth lo last with
  | zero => rw [statementEndFrom, Nat.sub_eq_zero_of_le hlast]
  | succ n ih =>
    obtain ⟨k, hk⟩ := @exists_kind? ts j (by omega)
    have hends : endsStatement k = true → endsOperand k = true := by
      cases k <;> decide
    rw [operandEndFrom_succ hk, statementEndFrom_succ hk]
    split
    · rename_i hclose
      rw [Nat.sub_eq_zero_of_le hlast, operandEndFrom, if_pos (by simp [stopsOperand, hclose])]
    split
    · rename_i hterminator
      have hstops : stopsOperand depth k = true := by
        simp [stopsOperand, hterminator.1, hends hterminator.2]
      rw [Nat.add_sub_cancel_left, operandEndFrom_succ hk, if_pos hstops, if_pos hstops]
    have hlast' : (if k.isEffective then j else last) < j + 1 := by
      split <;> omega
    have hnext := @ih (j + 1) (depthAfter depth k) (if k.isEffective then j else last)
      (if k.isTrivia then lo else some j) hlast' (by omega)
    have hbounds := @statementEndFrom_bounds ts (j + 1) (depthAfter depth k)
      (if k.isEffective then j else last) n hlast'.le (by omega) (by omega)
    generalize ts.statementEndFrom (j + 1) (depthAfter depth k)
      (if k.isEffective then j else last) n = e at hnext hbounds ⊢
    by_cases hje : j ≤ e
    · rw [show e + 1 - j = e + 1 - (j + 1) + 1 by omega, operandEndFrom_succ hk, hnext]
    · -- only blanks and comments are left before a bracket that closes
      have htrivia : k.isTrivia = true := by
        by_contra heffective
        rw [if_pos (by simpa [Kind.isEffective] using heffective)] at hbounds
        omega
      have hgoes : stopsOperand depth k = false := by
        have hplain : k.isCloser = false ∧ endsOperand k = false := by
          revert htrivia
          cases k <;> decide
        simp [stopsOperand, hplain]
      rw [Nat.sub_eq_zero_of_le (by omega), operandEndFrom, if_pos htrivia] at hnext
      rw [Nat.sub_eq_zero_of_le (by omega), operandEndFrom, hgoes, if_pos htrivia, ← hnext]
      rfl

theorem operandEnd?_eq (hk : ts.kind? i = some k) (hequality : k.isEquality = true) :
    operandEnd? ts i (ts.statementAt i).last =
      operandEndFrom ts (i + 1) 0 none (ts.size - (i + 1)) := by
  have hsize : i < ts.size := by
    rw [← getElem?_kinds] at hk
    simpa [kinds, size] using (List.getElem?_eq_some_iff.1 hk).1
  have hplain : k.isCloser = false ∧ endsStatement k = false ∧ k.isEffective = true ∧
      depthAfter 0 k = 0 := by
    revert hequality
    cases k <;> decide
  have hstatement : (ts.statementAt i).last =
      ts.statementEndFrom (i + 1) 0 i (ts.size - (i + 1)) := by
    rw [statementAt, statementEnd, show ts.size - i = ts.size - (i + 1) + 1 by omega,
      statementEndFrom_succ hk]
    simp [hplain]
  have hbounds := @statementEndFrom_bounds ts (i + 1) 0 i (ts.size - (i + 1)) (by omega) (by omega)
    hsize
  rw [operandEnd?, hstatement, Nat.min_eq_left hbounds.2,
    operandEndFrom_limit (by omega) (by omega)]

theorem gap_of_nextEffective_eq_none (h : ts.nextEffective i = none) (hi : i < ts.size) :
    Gap ts.kinds i ts.size := by
  refine ⟨hi, fun j hlt hj heffective => ?_⟩
  exact scanUp_eq_none h j hlt (by simp only [Option.getD_none]; omega)
    (any_isEffective_iff.2 heffective)

/-- The right operand of a comparison ends before a token that ends operands or closes a bracket
around the comparison, with its own brackets closed, or the file ends behind it. -/
theorem right_bounds (h : Compares ts i o) (hk : ts.kind? i = some k)
    (hequality : k.isEquality = true) :
    o.rightFirst ≤ o.rightLast ∧ EffectiveAt ts.kinds o.rightLast ∧
      ∃ depth, levelAfter 0 (ts.kinds.extract o.rightFirst (o.rightLast + 1)) = some depth ∧
        ∀ st, ts.nextEffective o.rightLast = some st → depth = 0 ∧
          ∃ k, ts.kinds[st]? = some k ∧ (endsOperand k = true ∨ k.isCloser = true) := by
  have hsize : i < ts.size := by
    rw [← getElem?_kinds] at hk
    simpa [kinds, size] using (List.getElem?_eq_some_iff.1 hk).1
  obtain ⟨hfirst, hgap⟩ := gap_of_nextEffective h.rightFirst
  obtain ⟨st', hscan⟩ := @operandEndFrom_spec ts (i + 1) 0 none (ts.size - (i + 1)) (by omega)
  rw [← operandEnd?_eq hk hequality, h.rightLast] at hscan
  obtain ⟨d, hlevel, hends⟩ := hscan.level
  rcases hscan.last with ⟨hnone, -⟩ | ⟨m, hm, him, heffective, hgapm⟩
  · cases hnone
  obtain rfl := Option.some.inj hm
  have hle : o.rightFirst ≤ o.rightLast := by
    by_contra hlt
    exact hgap.trivia _ him (by omega) heffective
  have hafter := hgapm.lt
  rw [← extract_append (b := o.rightFirst) hgap.lt (by omega),
    ← extract_append (b := o.rightLast + 1) (by omega) hafter, levelAfter_append,
    levelAfter_of_gap hgap, Option.bind_some, levelAfter_append] at hlevel
  obtain ⟨depth, hd, hbehind⟩ := Option.bind_eq_some_iff.1 hlevel
  obtain rfl : depth = d := by
    rw [levelAfter_of_gap hgapm] at hbehind
    exact Option.some.inj hbehind
  refine ⟨hle, heffective, depth, hd, fun st hnext => ?_⟩
  obtain ⟨hstop, hgap'⟩ := gap_of_nextEffective hnext
  rcases hends with rfl | ⟨k', hk', hstops⟩
  · have hlt : st < ts.size := by
      obtain ⟨k', hk', -⟩ := hstop
      simpa [kinds, size] using (List.getElem?_eq_some_iff.1 hk').1
    exact absurd hstop (hgapm.trivia st hgap'.lt hlt)
  · simp only [stopsOperand, Bool.and_eq_true, beq_iff_eq, Bool.or_eq_true] at hstops
    have hk'effective : k'.isEffective = true := by
      obtain ⟨-, hstops⟩ := hstops
      revert hstops
      cases k' <;> decide
    obtain rfl := hgapm.unique hgap' ⟨k', hk', hk'effective⟩ hstop
    exact ⟨hstops.1, k', hk', hstops.2.symm⟩

/-! ### The start of the statement -/

/-- The kinds that end the search for the start of a statement or lead it into brackets. -/
def boundsStatement (k : Kind) : Bool :=
  k.isBracket || precedesStatement k

theorem statementStartFrom_le {first : Nat} (h : j ≤ first) :
    ts.statementStartFrom depth first j ≤ first := by
  induction j generalizing depth first with
  | zero => exact Nat.le_refl first
  | succ j ih =>
    have hfirst := fun depth => @ih depth first (Nat.le_of_succ_le h)
    have hself := fun depth => (@ih depth j (Nat.le_refl j)).trans (Nat.le_of_succ_le h)
    rw [statementStartFrom]
    repeat' split
    all_goals first | exact Nat.le_refl first | exact hfirst _ | exact hself _

theorem statementStartFrom_succ {first : Nat} (hk : ts.kinds[j]? = some k)
    (hplain : boundsStatement k = false) : ts.statementStartFrom 0 first (j + 1) =
      ts.statementStartFrom 0 (if k.isEffective then j else first) j := by
  have hkinds : k ≠ .closeBrace ∧ k.isCloser = false ∧ k.isOpener = false ∧
      precedesStatement k = false := by
    revert hplain
    cases k <;> decide
  rw [getElem?_kinds] at hk
  simp [statementStartFrom, hk, hkinds]

theorem statementStartFrom_plain {a first : Nat} (ha : EffectiveAt ts.kinds a) (haj : a < j)
    (hplain : ∀ m, a ≤ m → m < j → ∃ k, ts.kinds[m]? = some k ∧ boundsStatement k = false) :
    ts.statementStartFrom 0 first j = ts.statementStartFrom 0 a a := by
  induction j generalizing first with
  | zero => omega
  | succ j ih =>
    obtain ⟨k, hk, hkind⟩ := hplain j (by omega) (Nat.lt_succ_self j)
    rw [statementStartFrom_succ hk hkind]
    rcases Nat.lt_or_eq_of_le (Nat.le_of_lt_succ haj) with haj | rfl
    · exact ih haj fun m ham hm => hplain m ham (by omega)
    · obtain ⟨k', hk', heffective⟩ := ha
      obtain rfl := Option.some.inj (hk.symm.trans hk')
      rw [if_pos heffective]

/-- Before the first token of a statement stands a token that bounds statements. -/
theorem boundsStatement_of_start {first p : Nat} (hle : j ≤ first)
    (htrivia : ∀ m, j ≤ m → m < first → ¬ EffectiveAt ts.kinds m)
    (hstart : ts.statementStartFrom 0 first j = first)
    (hp : ts.previousEffective first = some p) :
    ∃ k, ts.kinds[p]? = some k ∧ boundsStatement k = true := by
  obtain ⟨hpeffective, hgap⟩ := gap_of_previousEffective hp
  induction j with
  | zero => exact absurd hpeffective (htrivia p (Nat.zero_le p) hgap.lt)
  | succ j ih =>
    have hpj : p ≤ j := by
      by_contra hlt
      exact htrivia p (by omega) hgap.lt hpeffective
    rcases Nat.lt_or_eq_of_le hpj with hpj | rfl
    · have hj : ¬ EffectiveAt ts.kinds j := hgap.trivia j hpj hle
      have hrest : ts.statementStartFrom 0 first j = first := by
        cases hk : ts.kinds[j]? with
        | none =>
          rw [getElem?_kinds] at hk
          simpa [statementStartFrom, hk] using hstart
        | some k =>
          have htrivial : k.isEffective = false := by
            by_contra heffective
            exact hj ⟨k, hk, by simpa using heffective⟩
          have hplain : boundsStatement k = false := by
            revert htrivial
            cases k <;> decide
          rwa [statementStartFrom_succ hk hplain, htrivial] at hstart
      refine ih (Nat.le_of_succ_le hle) (fun m hjm hm => ?_) hrest
      rcases Nat.lt_or_eq_of_le hjm with hjm | rfl
      · exact htrivia m hjm hm
      · exact hj
    · obtain ⟨k, hk, heffective⟩ := hpeffective
      refine ⟨k, hk, ?_⟩
      by_contra hplain
      -- the search would have gone on to this token
      rw [statementStartFrom_succ hk (by simpa using hplain), if_pos heffective] at hstart
      have hself := @statementStartFrom_le ts p 0 p (Nat.le_refl p)
      omega

variable {source : String} {a b : Nat}

theorem trivia_of_gap (h : Gap (ofSource source).kinds a b) :
    ∀ l ∈ (({} : Lexer).run source.toList).extract (a + 1) b, l.1.isTrivia = true := by
  intro l hl
  obtain ⟨m, ham, hmb, hm⟩ := mem_extract hl
  exact h.isTrivia ham hmb (by rw [kinds_eq_lexemes, List.getElem?_map, hm, Option.map_some])

theorem Constant.bounds (h : Constant ts a b) : a ≤ b := by
  cases h with
  | literal => exact Nat.le_refl a
  | named => exact Nat.le_refl a
  | member _ _ _ hleft hright => exact (hleft.lt.trans hright.lt).le
  | array hpair => exact (lt_of_mem_pairs hpair).le

theorem Constant.lexemes (h : Constant (ofSource source) a b) :
    ConstantLexemes ((({} : Lexer).run source.toList).extract a (b + 1)) := by
  cases h with
  | literal hi hk =>
    rw [extract_eq_cons (lexeme_of_kind hi) (Nat.lt_succ_self a), extract_self]
    exact .single _ (.inr hk)
  | named hi =>
    rw [extract_eq_cons (lexeme_of_kind hi) (Nat.lt_succ_self a), extract_self]
    exact .single _ (.inl rfl)
  | member hmark hfirst hlast hleft hright =>
    rename_i mark
    have hlt := hleft.lt
    have hlt' := hright.lt
    obtain ⟨k, hk, hclass⟩ : ∃ k, (ofSource source).kinds[a]? = some k ∧
        (k = .name ∨ k = .kwStatic) := by
      rcases hfirst with h | h
      · exact ⟨_, h, .inl rfl⟩
      · exact ⟨_, h, .inr rfl⟩
    rw [extract_succ (by omega) (lexeme_of_kind hlast),
      extract_eq_cons (lexeme_of_kind hk) (by omega),
      ← extract_append (b := mark) hlt (by omega), extract_eq_cons (lexeme_of_kind hmark) hlt',
      List.cons_append, List.append_assoc, List.cons_append]
    exact .member hclass (trivia_of_gap hleft) rfl (trivia_of_gap hright) rfl
  | array hpair hfirst hlast =>
    have hlt := lt_of_mem_pairs hpair
    rw [extract_succ hlt.le (lexeme_of_kind hlast), extract_eq_cons (lexeme_of_kind hfirst) hlt]
    exact .array rfl rfl

theorem previousEffective_eq {a b : Nat} (ha : EffectiveAt ts.kinds a) (hgap : Gap ts.kinds a b) :
    ts.previousEffective b = some a := by
  have hlt := hgap.lt
  have hsize : a < ts.size := by
    obtain ⟨k, hk, -⟩ := ha
    simpa [kinds, size] using (List.getElem?_eq_some_iff.1 hk).1
  rw [previousEffective, if_neg (by omega)]
  refine scanDown_eq_of (by omega) (by simp; omega) (any_isEffective_iff.2 ha) fun m ham hm => ?_
  rw [any_isEffective_iff]
  exact hgap.trivia m ham (by omega)

/-- Of the lexemes before `p` the last effective one is the token before `p`. -/
theorem previousEffective_of_lexemes {p : Nat} {a b : List (Kind × List Char)}
    {l : Kind × List Char} (hsplit : (({} : Lexer).run source.toList).extract 0 p = a ++ l :: b)
    (hl : l.1.isEffective = true) (hb : ∀ l ∈ b, l.1.isTrivia = true) :
    ((ofSource source).previousEffective p).bind (ofSource source).kind? = some l.1 := by
  have hkinds : ∀ m < p, (ofSource source).kinds[m]? = (a ++ l :: b)[m]?.map (·.1) := by
    intro m hm
    rw [← hsplit, List.extract_eq_take_drop, List.drop_zero, List.getElem?_take, if_pos (by omega),
      kinds_eq_lexemes, List.getElem?_map]
  have hlt : a.length < p := by
    have hlength := congrArg List.length hsplit
    simp only [List.length_take, List.length_append, List.length_cons] at hlength
    omega
  have hkind : (ofSource source).kinds[a.length]? = some l.1 := by
    simp [hkinds _ hlt]
  have hgap : Gap (ofSource source).kinds a.length p := by
    refine ⟨hlt, fun m ham hm heffective => ?_⟩
    obtain ⟨k, hk, heffective⟩ := heffective
    obtain ⟨n, rfl⟩ : ∃ n, m = a.length + (n + 1) := ⟨m - a.length - 1, by omega⟩
    rw [hkinds _ hm, List.getElem?_append_right (by omega), Nat.add_sub_cancel_left,
      List.getElem?_cons_succ] at hk
    obtain ⟨x, hx, rfl⟩ := Option.map_eq_some_iff.1 hk
    rw [Kind.isEffective, hb x (List.mem_of_getElem? hx)] at heffective
    cases heffective
  rw [previousEffective_eq ⟨l.1, hkind, hl⟩ hgap, Option.bind_some, ← getElem?_kinds, hkind]

theorem plain_of_gap (h : Gap ts.kinds a b) (hb : b ≤ ts.kinds.length) (hk : ts.kinds[a]? = some k)
    (hplain : boundsStatement k = false) :
    ∀ m, a ≤ m → m < b → ∃ k, ts.kinds[m]? = some k ∧ boundsStatement k = false := by
  intro m ham hmb
  rcases Nat.lt_or_eq_of_le ham with ham | rfl
  · have hm := List.getElem?_eq_getElem (Nat.lt_of_lt_of_le hmb hb)
    refine ⟨_, hm, ?_⟩
    have htrivia := h.isTrivia ham hmb hm
    revert htrivia
    cases ts.kinds[m] <;> decide
  · exact ⟨k, hk, hplain⟩

/-- A constant other than an array holds nothing that bounds statements. -/
theorem Constant.plain (h : Constant ts a b) (harray : ts.kinds[a]? ≠ some .openArray)
    (hgap : Gap ts.kinds b i) (hi : i ≤ ts.kinds.length) :
    (∃ k, ts.kinds[a]? = some k ∧ k.isCode = true ∧ k.isEffective = true) ∧
      ∀ m, a ≤ m → m < i → ∃ k, ts.kinds[m]? = some k ∧ boundsStatement k = false := by
  cases h with
  | @literal k ha hk =>
    have hkind : k.isCode = true ∧ k.isEffective = true ∧ boundsStatement k = false := by
      revert hk
      cases k <;> decide
    exact ⟨⟨k, ha, hkind.1, hkind.2.1⟩, plain_of_gap hgap hi ha hkind.2.2⟩
  | named ha => exact ⟨⟨_, ha, rfl, rfl⟩, plain_of_gap hgap hi ha rfl⟩
  | member hmark hfirst hlast hleft hright =>
    rename_i mark
    obtain ⟨k, hk, hkind⟩ : ∃ k, ts.kinds[a]? = some k ∧
        k.isCode = true ∧ k.isEffective = true ∧ boundsStatement k = false := by
      rcases hfirst with hfirst | hfirst
      · exact ⟨_, hfirst, rfl, rfl, rfl⟩
      · exact ⟨_, hfirst, rfl, rfl, rfl⟩
    have hlt := hright.lt
    have hlt' := hgap.lt
    refine ⟨⟨k, hk, hkind.1, hkind.2.1⟩, fun m ham hm => ?_⟩
    rcases Nat.lt_or_ge m mark with hmark' | hmark'
    · exact plain_of_gap hleft (by omega) hk hkind.2.2 m ham hmark'
    rcases Nat.lt_or_ge m b with hb | hb
    · exact plain_of_gap hright (by omega) hmark rfl m hmark' hb
    · exact plain_of_gap hgap hi hlast rfl m hb hm
  | array _ hfirst => exact absurd hfirst harray

theorem exists_previous_of_code (hk : (ofSource source).kinds[a]? = some k)
    (hcode : k.isCode = true) :
    ∃ p k', (ofSource source).previousEffective a = some p ∧
      (ofSource source).kinds[p]? = some k' ∧ k' ≠ .closeTag := by
  have hlexeme := lexeme_of_kind hk
  obtain ⟨l, hl, hlk⟩ : ∃ l, (({} : Lexer).run source.toList)[a]? = some l ∧ l.1 = k :=
    ⟨_, hlexeme, rfl⟩
  have hsplit : ({} : Lexer).run source.toList =
      (({} : Lexer).run source.toList).extract 0 a ++ [l] ++
        (({} : Lexer).run source.toList).drop (a + 1) := by
    rw [← extract_succ (Nat.zero_le a) hl, extract_append_drop (Nat.zero_le _), List.drop_zero]
  obtain ⟨t, hreads, -⟩ := exists_reads hsplit
  obtain ⟨m, hbefore, hself⟩ := hreads.of_append
  have hphp : m.mode = .php := mode_of_isCode (by rw [hself.head.2.1, hlk]; exact hcode)
  rcases hbefore.last_code (by rw [hphp]; decide) with
    ⟨-, hhtml⟩ | ⟨pre, l', post, hpre, hpost, hl', htag⟩
  · exact absurd rfl hhtml
  · have hprevious := previousEffective_of_lexemes hpre hl' hpost
    obtain ⟨p, hp, hkind⟩ := Option.bind_eq_some_iff.1 hprevious
    exact ⟨p, l'.1, hp, (getElem?_kinds _ p).trans hkind, htag⟩

/-- The token before a comparison whose left operand is no array. -/
theorem exists_lead (h : Compares (ofSource source) i o) (hi : i ≤ (ofSource source).kinds.length)
    (harray : (ofSource source).kinds[o.leftFirst]? ≠ some .openArray) :
    ∃ p k, (ofSource source).previousEffective o.leftFirst = some p ∧
      (ofSource source).kinds[p]? = some k ∧ (precedesOperand k = true ∨ k.isBracket = true) := by
  obtain ⟨-, hgap⟩ := gap_of_previousEffective h.leftLast
  obtain ⟨⟨k, hk, hcode, heffective⟩, hplain⟩ :=
    (constant_of_constantStart? h.leftFirst).plain harray hgap hi
  have hlt := Nat.lt_of_le_of_lt (constant_of_constantStart? h.leftFirst).bounds hgap.lt
  obtain ⟨p, k', hp, hk', htag⟩ := exists_previous_of_code hk hcode
  refine ⟨p, k', hp, hk', ?_⟩
  rcases h.starts with hstarts | hprecedes
  · have hstatement : ((ofSource source).statementAt i).first =
        (ofSource source).statementStartFrom 0 o.leftFirst o.leftFirst :=
      statementStartFrom_plain ⟨k, hk, heffective⟩ hlt hplain
    have hstart : (ofSource source).statementStartFrom 0 o.leftFirst o.leftFirst = o.leftFirst :=
      Nat.le_antisymm (statementStartFrom_le (Nat.le_refl _)) (hstatement ▸ hstarts)
    obtain ⟨k'', hk'', hbounds⟩ := boundsStatement_of_start (Nat.le_refl _)
      (fun m hle hlt => absurd hle (Nat.not_le.2 hlt)) hstart hp
    obtain rfl := Option.some.inj (hk'.symm.trans hk'')
    revert hbounds htag
    cases k' <;> decide
  · rw [hp, Option.all_some] at hprecedes
    obtain ⟨k'', hk'', hprecedes⟩ := kindIs_iff.1 hprecedes
    obtain rfl := Option.some.inj (hk'.symm.trans hk'')
    exact .inl hprecedes

end Rules.Yoda

end PhpStyle
