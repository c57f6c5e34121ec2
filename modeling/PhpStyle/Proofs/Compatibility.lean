import Mathlib.Tactic.ByContra
import PhpStyle.Rules.ParamDoc

/-!
# Documented and declared types that have values in common

`valuesOf` reads a type name as the kinds of value that it stands for. A documented alternative is
accepted when it has one of them in common with a declared name, apart from the pairs of names of
`isUnseen` (`isCompatible_iff_common_value`). There the tables of the rule disagree: what accepts
objects is not what documents them, `true` and `false` are no part of `bool`, nor arrays and
strings of `iterable` and `callable`.
-/

namespace PhpStyle.Rules.ParamDoc

open Text

/-- The kinds of value. -/
inductive Value where
  | int | float | string | litTrue | litFalse | null | array | resource | object
  deriving DecidableEq, Repr

/-- What type names stand for. -/
def readings : List (List String × List Value) :=
  [(["int", "integer", "positive-int", "negative-int", "non-negative-int", "non-positive-int",
      "non-zero-int"], [.int]),
   (["float", "double"], [.float]),
   (["string", "non-empty-string", "numeric-string", "literal-string", "lowercase-string",
      "class-string", "callable-string", "trait-string", "interface-string", "enum-string"],
      [.string]),
   (["bool", "boolean"], [.litTrue, .litFalse]),
   (["true"], [.litTrue]),
   (["false"], [.litFalse]),
   (["null", "void"], [.null]),
   (["array", "list", "non-empty-array", "non-empty-list", "associative-array", "callable-array"],
      [.array]),
   (["resource", "closed-resource", "open-resource"], [.resource]),
   (["array-key"], [.int, .string]),
   (["numeric"], [.int, .float, .string]),
   (["scalar"], [.int, .float, .string, .litTrue, .litFalse]),
   (["iterable"], [.array, .object]),
   (["callable"], [.string, .array, .object]),
   (["object", "self", "static", "parent", "$this", "closure"], [.object]),
   (["mixed"], [.int, .float, .string, .litTrue, .litFalse, .null, .array, .resource, .object])]

/-- The values of a type name. A class stands for objects, and any other unknown name for nothing. -/
def valuesOf (name : String) : List Value :=
  match readings.find? fun row => row.1.contains name with
  | some row => row.2
  | none => if DocType.isClassName name then [.object] else []

/-- The values that a declared name takes: `float` takes integers as well. -/
def takenValues (native : String) : List Value :=
  if native = "float" then .int :: valuesOf native else valuesOf native

/-- The names in a declared type, and `null` if the parameter is nullable. -/
def natives (declared : String) (nullable : Bool) : List String :=
  (declared.toList.splitOnP fun c => c == '|' || c == '&').map
    (fun p => normalize (trimBoth (fun c => c == '(' || c == ')') p)) ++
  if nullable then ["null"] else []

def HaveCommon (documented native : String) : Prop :=
  ∃ v ∈ valuesOf documented, v ∈ takenValues native

/-- Refined and alternative names, which the rule knows as documented but not as declared ones. -/
def aliases : List String :=
  ["integer", "positive-int", "negative-int", "non-negative-int", "non-positive-int",
   "non-zero-int", "double", "non-empty-string", "numeric-string", "literal-string",
   "lowercase-string", "class-string", "callable-string", "trait-string", "interface-string",
   "enum-string", "boolean", "void", "list", "non-empty-array", "non-empty-list",
   "associative-array", "callable-array", "closed-resource", "open-resource", "array-key", "numeric",
   "scalar"]

/-- Whether the rule does not see what a documented and a declared name have in common. -/
def isUnseen (documented native : String) : Bool :=
  aliases.contains native ||
  (["bool", "boolean", "scalar"].contains documented && ["true", "false"].contains native) ||
  (["iterable", "callable"].contains documented && ["array", "string"].contains native) ||
  (["parent", "$this", "closure"].contains native && documented != native)

/-- The kinds of value that belong to a category. -/
def Category.values : Category → List Value
  | int => [.int]
  | float => [.float]
  | string => [.string]
  | bool => [.litTrue, .litFalse]
  | litTrue => [.litTrue]
  | litFalse => [.litFalse]
  | array => [.array]
  | null => [.null]
  | resource => [.resource]

theorem valuesOf_of_mem : ∀ row ∈ readings, ∀ n ∈ row.1, valuesOf n = row.2 := by
  decide

theorem valuesOf_of_not_known {n : String} (h : ∀ row ∈ readings, n ∉ row.1) :
    valuesOf n = if DocType.isClassName n then [.object] else [] := by
  have hnone : (readings.find? fun row => row.1.contains n) = none := by
    rw [List.find?_eq_none]
    intro row hrow hn
    exact h row hrow (List.contains_iff_mem.1 hn)
  rw [valuesOf, hnone]

/-- The names that take values which are no objects. -/
def plainNames : List String :=
  ["int", "float", "string", "bool", "true", "false", "null", "array", "resource", "iterable",
   "callable", "mixed"]

def Category.all : List Category :=
  [int, float, string, bool, litTrue, litFalse, array, null, resource]

theorem takesCategory_of_mem : ∀ n ∈ plainNames, ∀ c ∈ Category.all,
    takesCategory n c = true ↔ (∃ v ∈ c.values, v ∈ takenValues n) ∧
      ¬ (c = .bool ∧ n ∈ ["true", "false"]) := by
  decide

theorem aliases_spec : ∀ n ∈ aliases, n ∉ plainNames ∧ takesObject n = false := by
  decide

theorem readings_spec : ∀ row ∈ readings, ∀ n ∈ row.1,
    n ∈ plainNames ∨ n ∈ aliases ∨ row.2 = [.object] := by
  decide

theorem takesObject_of_mem : ∀ row ∈ readings, ∀ n ∈ row.1,
    takesObject n = true ↔ Value.object ∈ row.2 ∧ n ∉ ["parent", "$this", "closure"] := by
  decide

theorem categoryNames_spec : ∀ row ∈ categoryNames, ∀ m ∈ row.1,
    valuesOf m = row.2.flatMap Category.values ∧ m ∉ ["iterable", "callable"] ∧
      (.bool ∈ row.2 ↔ m ∈ ["bool", "boolean", "scalar"]) ∧
      (.bool ∈ row.2 → .litTrue ∉ row.2 ∧ .litFalse ∉ row.2) := by
  decide

theorem categories?_eq_none : ∀ row ∈ readings, ∀ m ∈ row.1, categories? m = none →
    m ∈ ["object", "self", "static", "$this", "closure", "iterable", "callable", "mixed", "parent"] := by
  decide

theorem Category.mem_all (c : Category) : c ∈ all := by
  cases c <;> decide

theorem Category.object_not_mem_values (c : Category) : Value.object ∉ c.values := by
  cases c <;> decide

theorem known_or_not (n : String) :
    (∃ row ∈ readings, n ∈ row.1) ∨ ∀ row ∈ readings, n ∉ row.1 := by
  by_cases h : ∃ row ∈ readings, n ∈ row.1
  · exact .inl h
  · exact .inr fun row hrow hn => h ⟨row, hrow, hn⟩

theorem takenValues_of_ne {n : String} (h : n ≠ "float") : takenValues n = valuesOf n :=
  if_neg h

theorem takenValues_subset {n : String} (hplain : n ∉ plainNames) (halias : n ∉ aliases) :
    takenValues n ⊆ [.object] := by
  have hfloat : n ≠ "float" := by
    rintro rfl
    exact hplain (by decide)
  rw [takenValues_of_ne hfloat]
  rcases known_or_not n with ⟨row, hrow, hn⟩ | hunknown
  · rw [valuesOf_of_mem row hrow n hn]
    rcases readings_spec row hrow n hn with h | h | h
    · exact absurd h hplain
    · exact absurd h halias
    · rw [h]
      exact List.Subset.refl _
  · rw [valuesOf_of_not_known hunknown]
    split
    · exact List.Subset.refl _
    · exact List.nil_subset _

theorem takesCategory_eq_false {n : String} (h : n ∉ plainNames) (c : Category) :
    takesCategory n c = false := by
  have hlabel : c.label ∈ plainNames := by cases c <;> decide
  unfold takesCategory
  split
  case h_6 =>
    rw [beq_eq_false_iff_ne]
    rintro rfl
    exact h hlabel
  all_goals exact absurd (by decide) h

theorem takesCategory_iff {n : String} (halias : n ∉ aliases) (c : Category) :
    takesCategory n c = true ↔ (∃ v ∈ c.values, v ∈ takenValues n) ∧
      ¬ (c = .bool ∧ n ∈ ["true", "false"]) := by
  by_cases hplain : n ∈ plainNames
  · exact takesCategory_of_mem n hplain c c.mem_all
  · rw [takesCategory_eq_false hplain]
    refine iff_of_false Bool.false_ne_true ?_
    rintro ⟨⟨v, hv, hn⟩, -⟩
    have hobject := takenValues_subset hplain halias hn
    rw [List.mem_singleton.1 hobject] at hv
    exact c.object_not_mem_values hv

theorem takesObject_iff (n : String) :
    takesObject n = true ↔ Value.object ∈ takenValues n ∧ n ∉ ["parent", "$this", "closure"] := by
  rcases known_or_not n with ⟨row, hrow, hn⟩ | hunknown
  · have htaken : Value.object ∈ takenValues n ↔ Value.object ∈ row.2 := by
      rw [← valuesOf_of_mem row hrow n hn, takenValues]
      split <;> simp
    rw [takesObject_of_mem row hrow n hn, htaken]
  · have hnames : ∀ m ∈ ["mixed", "object", "iterable", "callable", "self", "static", "parent", "$this",
        "closure", "float"], n ≠ m := by
      rintro m hm rfl
      have hknown : ∀ m ∈ ["mixed", "object", "iterable", "callable", "self", "static", "parent",
          "$this", "closure", "float"], ∃ row ∈ readings, m ∈ row.1 := by decide
      obtain ⟨row, hrow, hn⟩ := hknown n hm
      exact hunknown row hrow hn
    simp only [List.forall_mem_cons, List.not_mem_nil, false_imp_iff, implies_true, and_true] at hnames
    rw [takenValues_of_ne (by simp [hnames]), valuesOf_of_not_known hunknown, takesObject]
    cases DocType.isClassName n <;> simp [hnames]

/-! ### Judging a documented name -/

theorem isUnseen_eq_false_iff {m n : String} : isUnseen m n = false ↔ n ∉ aliases ∧
    ¬ (m ∈ ["bool", "boolean", "scalar"] ∧ n ∈ ["true", "false"]) ∧
    ¬ (m ∈ ["iterable", "callable"] ∧ n ∈ ["array", "string"]) ∧
    ¬ (n ∈ ["parent", "$this", "closure"] ∧ m ≠ n) := by
  simp only [isUnseen, Bool.or_eq_false_iff, Bool.and_eq_false_iff, List.contains_eq_mem,
    decide_eq_false_iff_not, bne_eq_false_iff_eq, not_and_or, Decidable.not_not, and_assoc, ne_eq]

theorem categories?_eq_some {m : String} {cs : List Category} (h : categories? m = some cs) :
    ∃ row ∈ categoryNames, m ∈ row.1 ∧ row.2 = cs := by
  obtain ⟨row, hfind, rfl⟩ := Option.map_eq_some_iff.1 h
  have hm := List.find?_some hfind
  exact ⟨row, List.mem_of_find?_eq_some hfind, List.contains_iff_mem.1 hm, rfl⟩

/-- A name of categories is accepted where one of them is taken. -/
theorem any_takesCategory_iff {m : String} {cs : List Category} (h : categories? m = some cs)
    (n : String) :
    (cs.any fun c => takesCategory n c) = true ↔ HaveCommon m n ∧ isUnseen m n = false := by
  obtain ⟨row, hrow, hm, rfl⟩ := categories?_eq_some h
  obtain ⟨hvalues, hspecial, hbool, hliterals⟩ := categoryNames_spec row hrow m hm
  simp only [List.any_eq_true, HaveCommon, hvalues, List.mem_flatMap, isUnseen_eq_false_iff]
  constructor
  · rintro ⟨c, hc, htakes⟩
    have halias : n ∉ aliases := by
      intro halias
      rw [takesCategory_eq_false (aliases_spec n halias).1] at htakes
      cases htakes
    obtain ⟨⟨v, hv, hn⟩, hnot⟩ := (takesCategory_iff halias c).1 htakes
    refine ⟨⟨v, ⟨c, hc, hv⟩, hn⟩, halias, ?_, fun hm => hspecial hm.1, ?_⟩
    · rintro ⟨hm, hliteral⟩
      -- only `bool` itself could meet a literal here
      obtain ⟨htrue, hfalse⟩ := hliterals (hbool.2 hm)
      have hc' : c = .bool := by
        have hpair : v = .litTrue ∨ v = .litFalse := by
          have htaken : takenValues "true" = [.litTrue] ∧ takenValues "false" = [.litFalse] := by
            decide
          simp only [List.mem_cons, List.not_mem_nil, or_false] at hliteral
          rcases hliteral with rfl | rfl
          · rw [htaken.1] at hn
            exact .inl (List.mem_singleton.1 hn)
          · rw [htaken.2] at hn
            exact .inr (List.mem_singleton.1 hn)
        cases c <;> simp_all [Category.values]
      exact hnot ⟨hc', hliteral⟩
    · rintro ⟨hobject, -⟩
      have hplain : ∀ n ∈ ["parent", "$this", "closure"], n ∉ plainNames := by decide
      have hv' := takenValues_subset (hplain n hobject) halias hn
      rw [List.mem_singleton.1 hv'] at hv
      exact c.object_not_mem_values hv
  · rintro ⟨⟨v, ⟨c, hc, hv⟩, hn⟩, halias, htrue, -, -⟩
    refine ⟨c, hc, (takesCategory_iff halias c).2 ⟨⟨v, hv, hn⟩, ?_⟩⟩
    rintro ⟨rfl, hn⟩
    exact htrue ⟨hbool.1 hc, hn⟩

theorem valuesOf_of_no_categories {m : String} (h : categories? m = none) (hmixed : m ≠ "mixed")
    {v : Value} (hv : v ∈ valuesOf m) :
    v = .object ∨ m ∈ ["iterable", "callable"] ∧ (v = .array ∨ v = .string) := by
  rcases known_or_not m with ⟨row, hrow, hm⟩ | hunknown
  · have hnames := categories?_eq_none row hrow m hm h
    have hvalues : ∀ m ∈ ["object", "self", "static", "$this", "closure", "iterable", "callable",
        "parent"], ∀ v ∈ valuesOf m,
        v = .object ∨ m ∈ ["iterable", "callable"] ∧ (v = .array ∨ v = .string) := by
      decide
    refine hvalues m ?_ v hv
    simp only [List.mem_cons, List.not_mem_nil, or_false] at hnames ⊢
    simpa [hmixed] using hnames
  · rw [valuesOf_of_not_known hunknown] at hv
    split at hv
    · exact .inl (List.mem_singleton.1 hv)
    · cases hv

/-- A name for objects is accepted where objects are taken, and where it is declared itself. -/
theorem takesObject_or_eq_iff {m : String} (h : categories? m = none) (hmixed : m ≠ "mixed")
    (hobject : .object ∈ valuesOf m) (n : String) :
    takesObject n = true ∨ n = m ↔ HaveCommon m n ∧ isUnseen m n = false := by
  have hnamed : ∀ m ∈ aliases ++ ["bool", "boolean", "scalar"], categories? m ≠ none := by
    decide
  have hm : m ∉ aliases ++ ["bool", "boolean", "scalar"] := fun hmem => hnamed m hmem h
  rw [List.mem_append, not_or] at hm
  rw [isUnseen_eq_false_iff]
  constructor
  · rintro (htakes | rfl)
    · have hplain : ∀ n ∈ ["array", "string"], takesObject n = false := by decide
      obtain ⟨htaken, hnot⟩ := (takesObject_iff n).1 htakes
      refine ⟨⟨.object, hobject, htaken⟩, fun halias => ?_, fun hn => hm.2 hn.1, fun hn => ?_,
        fun hn => hnot hn.1⟩
      · rw [(aliases_spec n halias).2] at htakes
        cases htakes
      · rw [hplain n hn.2] at htakes
        cases htakes
    · have hdisjoint : ∀ n ∈ ["iterable", "callable"], n ∉ ["array", "string"] := by decide
      refine ⟨⟨.object, hobject, ?_⟩, hm.1, fun hn => hm.2 hn.1, fun hn => hdisjoint n hn.1 hn.2,
        fun hn => hn.2 rfl⟩
      rw [takenValues]
      split
      · exact List.mem_cons_of_mem _ hobject
      · exact hobject
  · rintro ⟨⟨v, hv, hn⟩, halias, -, harray, hself⟩
    by_cases htaken : .object ∈ takenValues n
    · by_cases hnot : n ∈ ["parent", "$this", "closure"]
      · exact .inr (Decidable.not_not.1 fun hne => hself ⟨hnot, Ne.symm hne⟩)
      · exact .inl ((takesObject_iff n).2 ⟨htaken, hnot⟩)
    · -- what is in common is an array or a string, which is declared by its own name
      exfalso
      have hplain : n ∈ plainNames := by
        by_contra hplain
        rw [List.mem_singleton.1 (takenValues_subset hplain halias hn)] at hn
        exact htaken hn
      have hnames : ∀ n ∈ plainNames, .object ∉ takenValues n →
          (Value.array ∈ takenValues n ∨ Value.string ∈ takenValues n) → n ∈ ["array", "string"] := by
        decide
      rcases valuesOf_of_no_categories h hmixed hv with rfl | ⟨hiter, hv⟩
      · exact htaken hn
      · refine harray ⟨hiter, hnames n hplain htaken ?_⟩
        rcases hv with rfl | rfl
        · exact .inl hn
        · exact .inr hn

/-- The names without categories that are accepted where they are declared themselves. -/
def objectNames : List String :=
  ["object", "self", "static", "$this", "closure", "iterable", "callable"]

theorem object_mem_of_no_categories {m : String} (h : categories? m = none) (hmixed : m ≠ "mixed")
    (hparent : m ≠ "parent") (hread : valuesOf m ≠ []) :
    .object ∈ valuesOf m ∧ (objectNames.contains m = true ∨
      objectNames.contains m = false ∧ DocType.isClassName m = true) := by
  rcases known_or_not m with ⟨row, hrow, hm⟩ | hunknown
  · have hnames := categories?_eq_none row hrow m hm h
    have hspecial : m ∈ objectNames := by
      simp only [objectNames, List.mem_cons, List.not_mem_nil, or_false] at hnames ⊢
      simpa [hmixed, hparent] using hnames
    have hobject : ∀ m ∈ objectNames, .object ∈ valuesOf m := by decide
    exact ⟨hobject m hspecial, .inl (List.contains_iff_mem.2 hspecial)⟩
  · have hknown : ∀ m ∈ objectNames, ∃ row ∈ readings, m ∈ row.1 := by decide
    have hspecial : m ∉ objectNames := by
      intro hspecial
      obtain ⟨row, hrow, hm⟩ := hknown m hspecial
      exact hunknown row hrow hm
    have hclass : DocType.isClassName m = true := by
      rw [valuesOf_of_not_known hunknown] at hread
      by_contra hnot
      exact hread (if_neg hnot)
    rw [valuesOf_of_not_known hunknown, if_pos hclass]
    exact ⟨List.mem_singleton_self _, .inr ⟨by simpa using hspecial, hclass⟩⟩

/-- A documented name is accepted if it is always, or beside a declared name with which it is seen to
have values in common. -/
theorem isCompatibleName_iff {m : String} (hread : valuesOf m ≠ []) (ns : List String) (p : Parameter) :
    isCompatibleName m ns p = true ↔ m = "null" ∧ p.default = .null ∨ m = "mixed" ∨ m = "parent" ∨
      ∃ n ∈ ns, HaveCommon m n ∧ isUnseen m n = false := by
  by_cases hnull : m = "null" ∧ p.default = .null
  · simp [isCompatibleName, hnull]
  have hguard : (m == "null" && p.default == .null) = false := by
    rw [Bool.and_eq_false_iff, beq_eq_false_iff_ne, beq_eq_false_iff_ne]
    exact not_and_or.1 hnull
  rw [isCompatibleName, hguard, if_neg Bool.false_ne_true, or_iff_right hnull]
  cases hcs : categories? m with
  | some cs =>
    have hnames : ∀ m ∈ ["mixed", "parent"], categories? m = none := by decide
    have hmixed : m ≠ "mixed" := by
      rintro rfl
      rw [hnames _ (by decide)] at hcs
      cases hcs
    have hparent : m ≠ "parent" := by
      rintro rfl
      rw [hnames _ (by decide)] at hcs
      cases hcs
    rw [or_iff_right hmixed, or_iff_right hparent]
    simp only [List.any_eq_true]
    constructor
    · rintro ⟨c, hc, n, hn, htakes⟩
      exact ⟨n, hn, (any_takesCategory_iff hcs n).1 (List.any_eq_true.2 ⟨c, hc, htakes⟩)⟩
    · rintro ⟨n, hn, hcommon⟩
      obtain ⟨c, hc, htakes⟩ := List.any_eq_true.1 ((any_takesCategory_iff hcs n).2 hcommon)
      exact ⟨c, hc, n, hn, htakes⟩
  | none =>
    by_cases hmixed : m = "mixed"
    · simp [hmixed]
    by_cases hparent : m = "parent"
    · have hnot : objectNames.contains "parent" = false ∧ DocType.isClassName "parent" = false := by
        decide
      simp only [objectNames] at hnot
      simp [hparent, hnot]
    rw [or_iff_right hmixed, or_iff_right hparent]
    simp only [beq_eq_false_iff_ne.2 hmixed, Bool.false_eq_true, if_false]
    obtain ⟨hobject, hcases⟩ := object_mem_of_no_categories hcs hmixed hparent hread
    simp only [← takesObject_or_eq_iff hcs hmixed hobject]
    rcases hcases with hspecial | ⟨hspecial, hclass⟩
    · simp only [objectNames] at hspecial
      simp only [hspecial, if_true, List.any_eq_true, Bool.or_eq_true, beq_iff_eq]
      refine exists_congr fun n => and_congr_right fun _ => ⟨?_, .inl⟩
      rintro (h | rfl)
      · exact h
      · exact .inl (by decide)
    · have hself : takesObject m = true := by simp [takesObject, hclass]
      simp only [objectNames] at hspecial
      simp only [hspecial, hclass, Bool.false_eq_true, if_false, if_true, List.any_eq_true]
      refine exists_congr fun n => and_congr_right fun _ => ⟨.inl, ?_⟩
      rintro (h | rfl)
      · exact h
      · exact hself

theorem mem_nativeMembers {declared : String} {nullable : Bool} {n : String} :
    n ∈ nativeMembers declared nullable ↔ n ∈ natives declared nullable ∧ n ≠ "" := by
  unfold nativeMembers natives
  simp only
  generalize (declared.toList.splitOnP fun c => c == '|' || c == '&').map
    (fun p => normalize (trimBoth (fun c => c == '(' || c == ')') p)) = names
  cases nullable with
  | false => simp
  | true =>
    by_cases hnull : "null" ∈ names
    · have hcontains : (names.filter (· ≠ "")).contains "null" = true := by simpa using hnull
      simp only [hcontains, Bool.not_true, Bool.and_false, Bool.false_eq_true, if_false, if_true,
        List.mem_append, List.mem_singleton, List.mem_filter, decide_eq_true_eq]
      grind
    · have hcontains : (names.filter (· ≠ "")).contains "null" = false := by simpa using hnull
      simp only [hcontains, Bool.not_false, Bool.and_self, if_true, List.mem_append,
        List.mem_singleton, List.mem_filter, decide_eq_true_eq]
      grind

/-- A documented alternative with known values is accepted exactly if its name is `null` beside a
default of `null`, or `mixed` or `parent`, or if it is seen to have values in common with a name in
the declared type. -/
theorem isCompatible_iff_common_value {member : DocType} {m : String}
    (hname : judgedName? member = some m) (hread : valuesOf m ≠ []) (declared : String)
    (nullable : Bool) (p : Parameter) :
    isCompatible (nativeMembers declared nullable) p member = true ↔
      m = "null" ∧ p.default = .null ∨ m = "mixed" ∨ m = "parent" ∨
      ∃ n ∈ natives declared nullable, HaveCommon m n ∧ isUnseen m n = false := by
  have hempty : takenValues "" = [] := by decide
  rw [isCompatible, hname, isCompatibleName_iff hread]
  simp only [mem_nativeMembers]
  have hnatives : (∃ n, (n ∈ natives declared nullable ∧ n ≠ "") ∧ HaveCommon m n ∧
      isUnseen m n = false) ↔ ∃ n ∈ natives declared nullable, HaveCommon m n ∧ isUnseen m n = false := by
    constructor
    · rintro ⟨n, ⟨hn, -⟩, hcommon⟩
      exact ⟨n, hn, hcommon⟩
    · rintro ⟨n, hn, hcommon⟩
      refine ⟨n, ⟨hn, ?_⟩, hcommon⟩
      rintro rfl
      obtain ⟨⟨v, -, hv⟩, -⟩ := hcommon
      rw [hempty] at hv
      cases hv
  rw [hnatives]

/-- A list is seen to be an array, which `iterable` takes. -/
theorem list_accepted_for_iterable :
    let p : Parameter := ⟨0, "$x", some ⟨"iterable|\\Foo", false⟩, .none, false, false, false⟩
    isCompatible (nativeMembers "iterable|\\Foo" p.nullable) p (.generic "list" [.name "int"] []) = true := by
  intro p
  have hname : judgedName? (.generic "list" [.name "int"] []) = some "list" := by decide
  have hread : valuesOf "list" ≠ [] := by decide
  refine (isCompatible_iff_common_value hname hread "iterable|\\Foo" p.nullable p).2 ?_
  refine .inr (.inr (.inr ⟨"iterable", ?_, ⟨.array, ?_, ?_⟩, ?_⟩))
  all_goals decide

/-- `bool` is refused where `false` is declared, which is one of its values. -/
theorem bool_refused_for_false :
    let p : Parameter := ⟨0, "$x", some ⟨"int|false", false⟩, .none, false, false, false⟩
    "false" ∈ natives "int|false" p.nullable ∧ HaveCommon "bool" "false" ∧
      isCompatible (nativeMembers "int|false" p.nullable) p (.name "bool") = false := by
  intro p
  refine ⟨by decide, ⟨.litFalse, by decide, by decide⟩, by decide⟩

end PhpStyle.Rules.ParamDoc
