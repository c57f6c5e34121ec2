import Mathlib.Data.List.Lex
import Mathlib.Data.Prod.Lex
import Mathlib.Data.String.Basic
import PhpStyle.Report

/-!
# The order of a report

`Report.violationLe` compares keys of a linear order: the components of the file, the line and the
column (`Report.violationLe_iff`). Sorting by it is therefore stable, and what is left of a sorted
report after dropping some violations is the sorted rest (`Report.filter_mergeSort`). Nor does it
matter whether parts are sorted before they are put together (`List.mergeSort_flatMap_mergeSort`).
-/

namespace List

variable {α : Type*} {le : α → α → Bool}

theorem append_cons_inj_of_not_le (le : α → α → Bool) {a : α} {l₁ l₂ m₁ m₂ : List α} (h : l₁ ++ l₂ = m₁ ++ m₂)
    (hl₁ : ∀ b ∈ l₁, ¬ le a b = true) (hl₂ : ∀ b ∈ l₂, le a b = true)
    (hm₁ : ∀ b ∈ m₁, ¬ le a b = true) (hm₂ : ∀ b ∈ m₂, le a b = true) :
    l₁ ++ a :: l₂ = m₁ ++ a :: m₂ := by
  rcases List.append_eq_append_iff.1 h with ⟨k, rfl, rfl⟩ | ⟨k, rfl, rfl⟩
  · cases k with
    | nil => simp
    | cons b k => exact absurd (hl₂ b (by simp)) (hm₁ b (by simp))
  · cases k with
    | nil => simp
    | cons b k => exact absurd (hm₂ b (by simp)) (hl₁ b (by simp))

/-- A stable sort commutes with dropping elements. -/
theorem filter_mergeSort (trans : ∀ a b c, le a b = true → le b c = true → le a c = true)
    (total : ∀ a b, (le a b || le b a) = true) (p : α → Bool) (l : List α) :
    (l.mergeSort le).filter p = (l.filter p).mergeSort le := by
  induction l with
  | nil => simp
  | cons a l ih =>
    obtain ⟨l₁, l₂, hal, hl, hl₁⟩ := mergeSort_cons trans total a l
    have hsorted := pairwise_mergeSort trans total (a :: l)
    rw [hal, List.pairwise_append, List.pairwise_cons] at hsorted
    rw [hl, filter_append] at ih
    rw [hal, filter_append, filter_cons]
    by_cases hp : p a = true
    · rw [if_pos hp, filter_cons, if_pos hp]
      obtain ⟨m₁, m₂, ham, hm, hm₁⟩ := mergeSort_cons trans total a (l.filter p)
      have hsorted' := pairwise_mergeSort trans total (a :: l.filter p)
      rw [ham, List.pairwise_append, List.pairwise_cons] at hsorted'
      rw [ham]
      refine append_cons_inj_of_not_le le (ih.trans hm) ?_ ?_ ?_ hsorted'.2.1.1
      · exact fun b hb => by simpa using hl₁ b (mem_of_mem_filter hb)
      · exact fun b hb => hsorted.2.1.1 b (mem_of_mem_filter hb)
      · exact fun b hb => by simpa using hm₁ b hb
    · rw [if_neg hp, filter_cons, if_neg hp]
      exact ih

/-- A sorted list is determined by the elements that are equal in the order to each given one. -/
theorem eq_of_filter_eq (refl : ∀ a, le a a = true) {l m : List α}
    (hl : l.Pairwise fun a b => le a b = true) (hm : m.Pairwise fun a b => le a b = true)
    (h : ∀ a, l.filter (fun b => le a b && le b a) = m.filter (fun b => le a b && le b a)) :
    l = m := by
  have hmem : ∀ {l m : List α},
      (∀ a, l.filter (fun b => le a b && le b a) = m.filter (fun b => le a b && le b a)) →
        ∀ a ∈ l, a ∈ m := by
    intro l m h a ha
    have hin : a ∈ l.filter fun b => le a b && le b a := mem_filter.2 ⟨ha, by simp [refl]⟩
    exact mem_of_mem_filter (h a ▸ hin)
  induction l generalizing m with
  | nil =>
    cases m with
    | nil => rfl
    | cons b m => exact absurd (hmem (fun a => (h a).symm) b mem_cons_self) not_mem_nil
  | cons a l ih =>
    cases m with
    | nil => exact absurd (hmem h a mem_cons_self) not_mem_nil
    | cons b m =>
      -- each head is in the other list, so the two are equal in the order, and both come first
      have hab : le a b = true := by
        rcases mem_cons.1 (hmem (fun c => (h c).symm) b mem_cons_self) with rfl | hb
        · exact refl b
        · exact (pairwise_cons.1 hl).1 b hb
      have hba : le b a = true := by
        rcases mem_cons.1 (hmem h a mem_cons_self) with rfl | ha
        · exact refl a
        · exact (pairwise_cons.1 hm).1 a ha
      have hheads := h a
      rw [filter_cons_of_pos (by simp [refl]), filter_cons_of_pos (by simp [hab, hba])] at hheads
      obtain rfl : a = b := (cons.inj hheads).1
      refine congrArg (a :: ·) (ih hl.of_cons hm.of_cons fun c => ?_)
      have hc := h c
      rw [filter_cons, filter_cons] at hc
      split at hc
      · exact (cons.inj hc).2
      · exact hc

/-- Sorting parts before they are put together and sorted makes no difference. -/
theorem mergeSort_flatMap_mergeSort {β : Type*}
    (trans : ∀ a b c, le a b = true → le b c = true → le a c = true)
    (total : ∀ a b, (le a b || le b a) = true) (f : β → List α) (l : List β) :
    (l.flatMap fun x => (f x).mergeSort le).mergeSort le = (l.flatMap f).mergeSort le := by
  have hclass : ∀ (a : α) (m : List α), (m.mergeSort le).filter (fun b => le a b && le b a) =
      m.filter fun b => le a b && le b a := by
    intro a m
    rw [filter_mergeSort trans total]
    refine mergeSort_of_pairwise (pairwise_of_forall_mem_list fun b hb c hc => ?_)
    have hb := (mem_filter.1 hb).2
    have hc := (mem_filter.1 hc).2
    rw [Bool.and_eq_true] at hb hc
    exact trans b a c hb.2 hc.1
  refine eq_of_filter_eq (fun a => by simpa using total a a) (pairwise_mergeSort trans total _)
    (pairwise_mergeSort trans total _) fun a => ?_
  rw [hclass, hclass, filter_flatMap, filter_flatMap]
  exact flatMap_congr fun x _ => hclass a (f x)

end List

namespace PhpStyle

namespace Path

/-- A component as its rank and its name: the root, `.` and `..` come before all names. -/
def Component.key : Component → ℕ ×ₗ String
  | .root => toLex (0, "")
  | .current => toLex (1, "")
  | .parent => toLex (2, "")
  | .normal s => toLex (3, s)

theorem Component.key_injective : Function.Injective Component.key := by
  intro a b h
  cases a <;> cases b <;> simp_all [Component.key]

theorem Component.le_iff (a b : Component) : a.le b = true ↔ a.key ≤ b.key := by
  cases a <;> cases b <;> simp [Component.le, Component.le.rank, Component.key, Prod.Lex.le_iff]

theorem componentsLe_iff (as bs : List Component) :
    componentsLe as bs = true ↔ as.map Component.key ≤ bs.map Component.key := by
  induction as generalizing bs with
  | nil => exact iff_of_true rfl (not_lt.1 (List.not_lt_nil _))
  | cons a as ih =>
    cases bs with
    | nil => exact iff_of_false Bool.false_ne_true (not_le.2 (List.nil_lt_cons _ _))
    | cons b bs =>
      have hcons : a.key :: as.map Component.key ≤ b.key :: bs.map Component.key ↔
          a.key < b.key ∨ a.key = b.key ∧ as.map Component.key ≤ bs.map Component.key := by
        rw [← not_lt, ← not_lt (a := bs.map Component.key)]
        exact (not_congr List.cons_lt_cons_iff).trans (by grind)
      rw [componentsLe, List.map_cons, List.map_cons, hcons]
      by_cases hab : a = b
      · simp [hab, ih]
      · have hne : a.key ≠ b.key := fun h => hab (Component.key_injective h)
        simp [hab, Component.le_iff, hne, hne.le_iff_lt]

theorem le_trans (p q r : Path) (hpq : p.le q = true) (hqr : q.le r = true) : p.le r = true := by
  rw [le, componentsLe_iff] at *
  exact hpq.trans hqr

theorem le_total (p q : Path) : (p.le q || q.le p) = true := by
  rw [Bool.or_eq_true, le, le, componentsLe_iff, componentsLe_iff]
  exact LinearOrder.le_total _ _

end Path

namespace Report

/-- What violations are ordered by. -/
def violationKey (v : Violation) : List (ℕ ×ₗ String) ×ₗ ℕ ×ₗ ℕ :=
  toLex (v.location.file.components.map Path.Component.key,
    toLex (v.location.line, v.location.column))

theorem violationLe_iff (v w : Violation) :
    violationLe v w = true ↔ violationKey v ≤ violationKey w := by
  have hinj : ∀ p q : Path, p.same q = true ↔
      p.components.map Path.Component.key = q.components.map Path.Component.key := fun p q => by
    rw [Path.same, beq_iff_eq, (List.map_injective_iff.2 Path.Component.key_injective).eq_iff]
  unfold violationLe violationKey
  rw [Prod.Lex.le_iff, Prod.Lex.le_iff]
  by_cases hfile : v.location.file.same w.location.file = true
  · rw [if_pos hfile]
    have hkey := (hinj _ _).1 hfile
    by_cases hline : v.location.line = w.location.line
    · simp [hkey, hline]
    · simp [hkey, hline, lt_iff_le_and_ne]
  · rw [if_neg hfile]
    have hkey := mt (hinj _ _).2 hfile
    simp [Path.le, Path.componentsLe_iff, hkey, lt_iff_le_and_ne]

theorem violationLe_trans (u v w : Violation) (huv : violationLe u v = true)
    (hvw : violationLe v w = true) : violationLe u w = true := by
  rw [violationLe_iff] at *
  exact huv.trans hvw

theorem violationLe_total (v w : Violation) : (violationLe v w || violationLe w v) = true := by
  rw [Bool.or_eq_true, violationLe_iff, violationLe_iff]
  exact le_total _ _

/-- Dropping violations from a sorted report leaves the sorted rest. -/
theorem filter_mergeSort (p : Violation → Bool) (vs : List Violation) :
    (vs.mergeSort violationLe).filter p = (vs.filter p).mergeSort violationLe :=
  List.filter_mergeSort violationLe_trans violationLe_total p vs

end Report

end PhpStyle
