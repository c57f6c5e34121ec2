import Mathlib.Data.Option.Basic
import PhpStyle.RuleSet

/-!
# Rules with the options of their entries

`Rules.Configured entry r` tells which options a rule takes from its entry in the configuration,
under which keys, from values of which kind, and what stands in for those that are not given.
`Rules.byName?_eq_some_iff`: the rule that is built under a name is the one that its entry
configures, as severe as the entry says.
-/

namespace PhpStyle

namespace Toml

/-- A date-time may stand where a text is asked for. -/
inductive IsText : Toml → String → Prop
  | string (s : String) : IsText (.string s) s
  | dateTime (d : DateTime) : IsText (.dateTime d) d.text

/-- The strings among some items, in order. -/
inductive StringsAmong : List Toml → List String → Prop
  | nil : StringsAmong [] []
  | string {s : String} {items : List Toml} {ss : List String} (h : StringsAmong items ss) :
      StringsAmong (.string s :: items) (s :: ss)
  | other {v : Toml} {items : List Toml} {ss : List String} (hv : ∀ s, v ≠ .string s)
      (h : StringsAmong items ss) : StringsAmong (v :: items) ss

/-- An array is asked for the strings among its items, and says nothing without one. -/
inductive IsNames : Toml → List String → Prop
  | array {items : List Toml} {ss : List String} (h : StringsAmong items ss) (hne : ss ≠ []) :
      IsNames (.array items) ss

variable {v : Toml}

theorem isText_iff {s : String} : IsText v s ↔ v.text? = some s := by
  constructor
  · rintro (s | d) <;> rfl
  · intro h
    unfold text? at h
    split at h <;> cases h
    exacts [.string _, .dateTime _]

theorem stringsAmong_iff {items : List Toml} {ss : List String} :
    StringsAmong items ss ↔ ss = items.filterMap string? := by
  constructor
  · intro h
    induction h with
    | nil => rfl
    | string _ ih => rw [ih, List.filterMap_cons_some (f := string?) rfl]
    | @other v items ss hv _ ih =>
      have hnone : v.string? = none := by
        cases v with
        | string s => exact absurd rfl (hv s)
        | _ => rfl
      rw [ih, List.filterMap_cons_none hnone]
  · rintro rfl
    induction items with
    | nil => exact .nil
    | cons v items ih =>
      cases v with
      | string s => exact .string ih
      | _ => exact .other nofun ih

/-- The strings among the items of an array that has some. -/
def names? : Toml → Option (List String)
  | array items =>
    if (items.filterMap string?).isEmpty then none else some (items.filterMap string?)
  | _ => none

theorem isNames_iff {ss : List String} : IsNames v ss ↔ v.names? = some ss := by
  constructor
  · rintro ⟨h, hne⟩
    obtain rfl := stringsAmong_iff.1 h
    rw [names?, if_neg (mt List.isEmpty_iff.1 hne)]
  · intro h
    cases v with
    | array items =>
      obtain ⟨hne, hsome⟩ := Option.ite_none_left_eq_some.1 h
      obtain rfl := Option.some.inj hsome
      exact .array (stringsAmong_iff.2 rfl) (mt List.isEmpty_iff.2 hne)
    | _ => cases h

theorem boolean?_eq_some_iff {b : Bool} : v.boolean? = some b ↔ v = .boolean b := by
  cases v <;> simp [boolean?]

theorem natural?_eq_some_iff {n : Nat} : v.natural? = some n ↔ v = .integer n := by
  cases v with
  | integer k => simp only [natural?, Option.ite_none_right_eq_some, integer.injEq]; grind
  | _ => simp [natural?]

end Toml

namespace Rules

section Option

variable {α : Type}

/-- The option `key` of a rule: what its entry says there, if that means something, else
`default`. -/
inductive OptionIs (entry : Option RuleConfig) (key : String) (means : Toml → α → Prop)
    (default : α) : α → Prop
  | given {c : RuleConfig} {v : Toml} {x : α} (hentry : entry = some c)
      (hkey : c.options.lookup key = some v) (hmeans : means v x) :
      OptionIs entry key means default x
  | absent (h : ∀ c v x, entry = some c → c.options.lookup key = some v → ¬ means v x) :
      OptionIs entry key means default default

theorem optionIs_iff {entry : Option RuleConfig} {key : String} {means : Toml → α → Prop}
    {read? : Toml → Option α} {default x : α} (hread : ∀ v x, read? v = some x ↔ means v x) :
    OptionIs entry key means default x ↔
      (((entry.getD {}).option? key).bind read?).getD default = x := by
  have hoption : (entry.getD {}).option? key = entry.bind (·.options.lookup key) := by
    cases entry <;> rfl
  rw [hoption]
  constructor
  · rintro (⟨rfl, hkey, hmeans⟩ | h)
    · rw [Option.bind_some, hkey, Option.bind_some, (hread _ _).2 hmeans, Option.getD_some]
    · have hnone : (entry.bind (·.options.lookup key)).bind read? = none := by
        simp only [Option.eq_none_iff_forall_ne_some, ne_eq, Option.bind_eq_some_iff, not_exists,
          not_and]
        rintro x v ⟨c, hentry, hkey⟩ hx
        exact h c v x hentry hkey ((hread v x).1 hx)
      rw [hnone, Option.getD_none]
  · rintro rfl
    cases hvalue : (entry.bind (·.options.lookup key)).bind read? with
    | none =>
      refine .absent fun c v x hentry hkey hmeans => ?_
      rw [hentry, Option.bind_some, hkey, Option.bind_some, (hread v x).2 hmeans] at hvalue
      cases hvalue
    | some x =>
      obtain ⟨v, hv, hx⟩ := Option.bind_eq_some_iff.1 hvalue
      obtain ⟨c, hentry, hkey⟩ := Option.bind_eq_some_iff.1 hv
      exact .given hentry hkey ((hread v x).1 hx)

end Option

/-- The rules that there are, each with the options that it takes from its entry. -/
inductive Configured (entry : Option RuleConfig) : Rule → Prop
  | nullableDoc : Configured entry NullableDoc.rule
  | paramDoc : Configured entry ParamDoc.rule
  | arrayBlankLines : Configured entry ArrayBlankLines.rule
  | enumCase : Configured entry EnumCase.rule
  | functionDoc {skip inTests : Bool}
      (hskip : OptionIs entry "skip_fully_typed" (fun v b => v = .boolean b) true skip)
      (htests : OptionIs entry "allow_in_tests" (fun v b => v = .boolean b) true inTests) :
      Configured entry (FunctionDoc.rule { skipFullyTyped := skip, allowInTests := inTests })
  | castSpacing {n : Nat} (hn : OptionIs entry "spacing" (fun v (n : Nat) => v = .integer n) 1 n) :
      Configured entry (CastSpacing.rule n)
  | psr4 {base : Option Path} {manifest : String}
      (hbase : OptionIs entry "base_path" (fun v p => ∃ s, v.IsText s ∧ some ⟨s⟩ = p) none base)
      (hmanifest : OptionIs entry "manifest" Toml.IsText "composer.json" manifest) :
      Configured entry (Psr4.rule { base := base, manifest := manifest })
  | licenseHeader {fileNames : List String} {text : Option String}
      (hnames : OptionIs entry "file_names" Toml.IsNames ["LICENSE_HEADER", ".license-header"]
        fileNames)
      (htext : OptionIs entry "text" (fun v t => ∃ s, v.IsText s ∧ some s = t) none text) :
      Configured entry (LicenseHeader.rule { fileNames := fileNames, text := text })
  | yoda : Configured entry Yoda.rule

variable {entry : Option RuleConfig} {key n : String} {r : Rule}

theorem optionIs_flag_iff {default b : Bool} :
    OptionIs entry key (fun v b => v = .boolean b) default b ↔
      (entry.getD {}).flag key default = b :=
  optionIs_iff fun _ _ => Toml.boolean?_eq_some_iff

theorem optionIs_natural_iff {default n : Nat} :
    OptionIs entry key (fun v (n : Nat) => v = .integer n) default n ↔
      ((entry.getD {}).natural? key).getD default = n :=
  optionIs_iff fun _ _ => Toml.natural?_eq_some_iff

theorem optionIs_text_iff {default s : String} :
    OptionIs entry key Toml.IsText default s ↔
      ((entry.getD {}).text? key).getD default = s :=
  optionIs_iff fun _ _ => Toml.isText_iff.symm

theorem optionIs_some_text_iff {α : Type} {f : String → α} {x : Option α} :
    OptionIs entry key (fun v x => ∃ s, v.IsText s ∧ some (f s) = x) none x ↔
      ((entry.getD {}).text? key).map f = x := by
  have hread : ∀ (v : Toml) (x : Option α),
      (v.text?.map fun s => some (f s)) = some x ↔ ∃ s, v.IsText s ∧ some (f s) = x := fun v x => by
    simp only [Option.map_eq_some_iff, Toml.isText_iff]
  rw [optionIs_iff hread, RuleConfig.text?]
  cases h : (entry.getD {}).option? key with
  | none => rfl
  | some v => cases h' : v.text? <;> simp [h']

theorem optionIs_names_iff {default ss : List String} :
    OptionIs entry key Toml.IsNames default ss ↔
      (if ((entry.getD {}).stringItems key).isEmpty then default
        else (entry.getD {}).stringItems key) = ss := by
  rw [optionIs_iff fun _ _ => Toml.isNames_iff.symm, RuleConfig.stringItems]
  cases (entry.getD {}).option? key with
  | none => rfl
  | some v =>
    cases v with
    | array items =>
      rw [Option.bind_some, Toml.names?, apply_ite (Option.getD · default)]
      rfl
    | _ => rfl

/-- What is built under a name is what the entry configures, as severe as the entry says. -/
theorem byName?_eq_some_iff : byName? n entry = some r ↔
    ∃ base, Configured entry base ∧ base.name = n ∧
      r = { base with severity := (entry.bind (·.severity)).getD base.severity } := by
  have hseverity : (entry.getD {}).severity = entry.bind (·.severity) := by cases entry <;> rfl
  rw [byName?, Option.map_eq_some_iff, hseverity]
  constructor
  · rintro ⟨base, hfind, rfl⟩
    refine ⟨base, ?_, by simpa using List.find?_some hfind, rfl⟩
    have hmem := List.mem_of_find?_eq_some hfind
    simp only [List.mem_cons, List.not_mem_nil, or_false] at hmem
    obtain rfl | rfl | rfl | rfl | rfl | rfl | rfl | rfl | rfl := hmem
    · exact .nullableDoc
    · exact .paramDoc
    · exact .arrayBlankLines
    · exact .enumCase
    · exact .functionDoc (optionIs_flag_iff.2 rfl) (optionIs_flag_iff.2 rfl)
    · exact .castSpacing (optionIs_natural_iff.2 rfl)
    · exact .psr4 (optionIs_some_text_iff.2 rfl) (optionIs_text_iff.2 rfl)
    · exact .licenseHeader (optionIs_names_iff.2 rfl) (optionIs_some_text_iff.2 Option.map_id')
    · exact .yoda
  · rintro ⟨base, hbase, rfl, rfl⟩
    refine ⟨base, ?_, rfl⟩
    cases hbase with
    | functionDoc hskip htests =>
      obtain rfl := optionIs_flag_iff.1 hskip
      obtain rfl := optionIs_flag_iff.1 htests
      rfl
    | castSpacing hn =>
      obtain rfl := optionIs_natural_iff.1 hn
      rfl
    | psr4 hbase hmanifest =>
      obtain rfl := optionIs_some_text_iff.1 hbase
      obtain rfl := optionIs_text_iff.1 hmanifest
      rfl
    | licenseHeader hnames htext =>
      obtain rfl := optionIs_names_iff.1 hnames
      obtain rfl := optionIs_some_text_iff.1 htext
      rw [Option.map_id']
      rfl
    | _ => rfl

theorem isSome_byName?_iff (n : String) (entry : Option RuleConfig) :
    (byName? n entry).isSome = true ↔ n ∈ names := by
  rw [byName?, Option.isSome_map, List.find?_isSome]
  simp only [beq_iff_eq]
  exact List.mem_map.symm

theorem name_of_byName? (h : byName? n entry = some r) : r.name = n := by
  obtain ⟨base, -, rfl, rfl⟩ := byName?_eq_some_iff.1 h
  rfl

theorem names_nodup : names.Nodup := by
  decide

end Rules

end PhpStyle
