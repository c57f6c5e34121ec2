import Mathlib.Data.List.Lookmap
import Mathlib.Data.List.Sort
import Mathlib.Data.String.Basic
import PhpStyle.Proofs.ConfiguredRules

/-!
# The rules that a configuration asks for

`Config.Selects c rs`: the rules `rs` are those of the preset in its order, and then, in ascending
order, the known ones outside of it that are switched on, each with the options and the severity
of its own entry. A configuration selects one list of rules (`Config.Selects.unique`), which is the
one that it gets (`Config.selects_ruleSet`); since nothing but the preset and the look-up of entries
comes in, the order in which the entries are kept makes no difference (`Config.ruleSet_canonical`).
-/

namespace PhpStyle

section Lookup

variable {α : Type} {l l' : List (String × α)}

theorem lookup_eq_some_iff_mem (hl : (l.map (·.1)).Nodup) {k : String} {v : α} :
    l.lookup k = some v ↔ (k, v) ∈ l := by
  induction l with
  | nil => simp
  | cons e l ih =>
    obtain ⟨key, value⟩ := e
    rw [List.map_cons, List.nodup_cons] at hl
    by_cases hk : k = key
    · subst hk
      have hnot : (k, v) ∉ l := fun hmem => hl.1 (List.mem_map_of_mem (f := (·.1)) hmem)
      simp [hnot, eq_comm]
    · have hne : (k == key) = false := by simpa using hk
      rw [List.lookup_cons, hne, ih hl.2]
      simp [hk]

theorem lookup_eq_of_perm (hl : (l.map (·.1)).Nodup) (h : l'.Perm l) (k : String) :
    l'.lookup k = l.lookup k := by
  have hl' : (l'.map (·.1)).Nodup := (h.map _).nodup_iff.2 hl
  refine Option.ext fun v => ?_
  rw [lookup_eq_some_iff_mem hl', lookup_eq_some_iff_mem hl, h.mem_iff]

end Lookup

namespace Preset

/-- The name under which a preset is asked for. -/
def label : Preset → String
  | recommended => "recommended"
  | strict => "strict"
  | minimal => "minimal"

theorem ofName?_eq_some_iff {s : String} {p : Preset} : ofName? s = some p ↔ s = p.label := by
  constructor
  · intro h
    unfold ofName? at h
    split at h <;> cases h <;> rfl
  · rintro rfl
    cases p <;> rfl

theorem ruleNames_sublist (p : Preset) : p.ruleNames.Sublist Rules.names := by
  cases p <;> decide

end Preset

namespace Config

variable {c c' : Config} {rs rs' : List Rule} {n : String}

/-- A known rule outside the preset is switched on by its own entry. -/
def SwitchesOn (c : Config) (n : String) : Prop :=
  n ∈ Rules.names ∧ n ∉ c.chosenPreset.ruleNames ∧
    ∃ entry, c.rules.lookup n = some entry ∧ entry.enabled = some true

structure Selects (c : Config) (rs : List Rule) : Prop where
  /-- First the preset, in its order, then what is switched on, in ascending order. -/
  names : ∃ extra : List String, rs.map (·.name) = c.chosenPreset.ruleNames ++ extra ∧
    extra.Pairwise (· < ·) ∧ ∀ n, n ∈ extra ↔ c.SwitchesOn n
  /-- Each rule has the options and the severity of the entry under its name. -/
  built : ∀ r ∈ rs, ∃ base, Rules.Configured (c.rules.lookup r.name) base ∧
    r = { base with
      severity := ((c.rules.lookup r.name).bind (·.severity)).getD base.severity }

theorem Selects.byName? (h : c.Selects rs) {r : Rule} (hr : r ∈ rs) :
    Rules.byName? r.name (c.rules.lookup r.name) = some r := by
  obtain ⟨base, hbase, heq⟩ := h.built r hr
  exact Rules.byName?_eq_some_iff.2 ⟨base, hbase, (congrArg (·.name) heq).symm, heq⟩

theorem Selects.nodup (h : c.Selects rs) : (rs.map (·.name)).Nodup := by
  obtain ⟨extra, hnames, hextra, hmem⟩ := h.names
  rw [hnames, List.nodup_append']
  refine ⟨Rules.names_nodup.sublist c.chosenPreset.ruleNames_sublist, hextra.imp String.ne_of_lt, ?_⟩
  exact fun n hbase hn => ((hmem n).1 hn).2.1 hbase

/-- A configuration selects one list of rules, by its preset and its entries alone. -/
theorem Selects.unique (h : c.Selects rs) (h' : c'.Selects rs')
    (hpreset : c'.chosenPreset = c.chosenPreset)
    (hentries : ∀ n, c'.rules.lookup n = c.rules.lookup n) :
    rs' = rs := by
  obtain ⟨extra, hnames, hextra, hmem⟩ := h.names
  obtain ⟨extra', hnames', hextra', hmem'⟩ := h'.names
  have hswitches : ∀ n, c'.SwitchesOn n ↔ c.SwitchesOn n := fun n => by
    rw [SwitchesOn, SwitchesOn, hpreset, hentries]
  have hperm : extra'.Perm extra :=
    (List.perm_ext_iff_of_nodup (hextra'.imp String.ne_of_lt) (hextra.imp String.ne_of_lt)).2
      fun n => by rw [hmem', hmem, hswitches]
  have heq : extra' = extra := hperm.eq_of_pairwise' hextra' hextra
  have hsame : rs'.map (·.name) = rs.map (·.name) := by rw [hnames', hnames, hpreset, heq]
  -- both lists are what is built from the same entries under the same names
  have hbuilt : ∀ {c : Config} {rs : List Rule}, c.Selects rs →
      (rs.map (·.name)).map (fun n => Rules.byName? n (c.rules.lookup n)) = rs.map some := by
    intro c rs h
    rw [List.map_map]
    exact List.map_congr_left fun r hr => h.byName? hr
  have hsome : rs'.map some = rs.map some := by
    rw [← hbuilt h', ← hbuilt h, hsame]
    exact List.map_congr_left fun n _ => by rw [hentries]
  exact List.map_injective_iff.2 (Option.some_injective _) hsome

theorem map_name_filterMap (c : Config) (ns : List String) :
    (ns.filterMap fun n => Rules.byName? n (c.rule? n)).map (·.name) =
      ns.filter fun n => n ∈ Rules.names := by
  induction ns with
  | nil => rfl
  | cons n ns ih =>
    cases h : Rules.byName? n (c.rule? n) with
    | none =>
      have hn : n ∉ Rules.names := by
        rw [← Rules.isSome_byName?_iff n (c.rule? n), h]
        exact Bool.false_ne_true
      rw [List.filterMap_cons_none (f := fun n => Rules.byName? n (c.rule? n)) h, ih,
        List.filter_cons_of_neg (by simpa using hn)]
    | some r =>
      have hn : n ∈ Rules.names := by
        rw [← Rules.isSome_byName?_iff n (c.rule? n), h]
        rfl
      rw [List.filterMap_cons_some (f := fun n => Rules.byName? n (c.rule? n)) h, List.map_cons, ih,
        Rules.name_of_byName? h, List.filter_cons_of_pos (by simpa using hn)]

theorem mem_extraRuleNames_iff (hkeys : (c.rules.map (·.1)).Nodup) : n ∈ c.extraRuleNames ↔
    n ∉ c.chosenPreset.ruleNames ∧
      ∃ entry, c.rules.lookup n = some entry ∧ entry.enabled = some true := by
  simp only [extraRuleNames, List.mem_mergeSort, List.mem_map, List.mem_filter,
    lookup_eq_some_iff_mem hkeys, Bool.and_eq_true, beq_iff_eq, Bool.not_eq_true',
    List.contains_eq_mem, decide_eq_false_iff_not]
  constructor
  · rintro ⟨⟨name, entry⟩, ⟨hmem, hon, hout⟩, rfl⟩
    exact ⟨hout, entry, hmem, hon⟩
  · rintro ⟨hout, entry, hmem, hon⟩
    exact ⟨(n, entry), ⟨hmem, hon, hout⟩, rfl⟩

theorem pairwise_extraRuleNames (hkeys : (c.rules.map (·.1)).Nodup) :
    c.extraRuleNames.Pairwise (· < ·) := by
  have hsorted : c.extraRuleNames.Pairwise (· ≤ ·) := by
    have htrans : ∀ a b d : String, decide (a ≤ b) = true → decide (b ≤ d) = true →
        decide (a ≤ d) = true := fun a b d => by simpa using String.le_trans
    have htotal : ∀ a b : String, (decide (a ≤ b) || decide (b ≤ a)) = true :=
      fun a b => by simpa using String.le_total a b
    simpa [extraRuleNames] using List.pairwise_mergeSort htrans htotal _
  have hnodup : c.extraRuleNames.Nodup :=
    (List.mergeSort_perm _ _).nodup_iff.2 (hkeys.sublist (List.filter_sublist.map _))
  exact hsorted.imp₂ (fun a b hle hne => lt_of_le_of_ne hle hne) hnodup

theorem selects_ruleSet (hkeys : (c.rules.map (·.1)).Nodup) : c.Selects c.ruleSet where
  names := by
    refine ⟨c.extraRuleNames.filter fun n => n ∈ Rules.names, ?_,
      (pairwise_extraRuleNames hkeys).filter _, fun n => ?_⟩
    · have hbase : c.chosenPreset.ruleNames.filter (fun n => n ∈ Rules.names) =
          c.chosenPreset.ruleNames :=
        List.filter_eq_self.2 fun n hn => decide_eq_true (c.chosenPreset.ruleNames_sublist.subset hn)
      rw [ruleSet, map_name_filterMap, List.filter_append, hbase]
    · rw [List.mem_filter, decide_eq_true_eq, mem_extraRuleNames_iff hkeys, SwitchesOn, and_comm]
  built := by
    intro r hr
    obtain ⟨n, -, hn⟩ := List.mem_filterMap.1 hr
    obtain rfl := Rules.name_of_byName? hn
    obtain ⟨base, hbase, -, heq⟩ := Rules.byName?_eq_some_iff.1 hn
    exact ⟨base, hbase, heq⟩

/-- The rules of a configuration that has no entry twice: those of the preset that it asks for, by
default and for want of a known name the recommended one, then those switched on, no name twice;
each as its own entry says; and the same in whatever order the entries are kept. -/
theorem ruleSet_canonical (c : Config) (hkeys : (c.rules.map (·.1)).Nodup) :
    (∀ p : Preset, c.preset = some p.label → c.chosenPreset = p) ∧
      ((∀ p : Preset, c.preset ≠ some p.label) → c.chosenPreset = .recommended) ∧
      c.Selects c.ruleSet ∧ (c.ruleSet.map (·.name)).Nodup ∧
      ∀ rules, rules.Perm c.rules → ({ c with rules := rules } : Config).ruleSet = c.ruleSet := by
  have hselects : c.Selects c.ruleSet := selects_ruleSet hkeys
  refine ⟨fun p hp => ?_, fun hnone => ?_, hselects, hselects.nodup, fun rules hperm => ?_⟩
  · rw [chosenPreset, hp, Option.bind_some, Preset.ofName?_eq_some_iff.2 rfl, Option.getD_some]
  · have hunknown : c.preset.bind Preset.ofName? = none := by
      rw [Option.eq_none_iff_forall_ne_some]
      intro p hp
      obtain ⟨s, hs, hname⟩ := Option.bind_eq_some_iff.1 hp
      exact hnone p (hs.trans (congrArg some (Preset.ofName?_eq_some_iff.1 hname)))
    rw [chosenPreset, hunknown, Option.getD_none]
  · have hkeys' : (rules.map (·.1)).Nodup := (hperm.map _).nodup_iff.2 hkeys
    have hselects' := selects_ruleSet (c := { c with rules := rules }) hkeys'
    exact hselects.unique hselects' rfl fun n => lookup_eq_of_perm hkeys hperm n

/-- A minimal choice with one rule switched on, one of its own made a warning that asks for two
spaces, and a name that no rule has. -/
theorem ruleSet_canonical_of_minimal :
    let entries : List (String × RuleConfig) :=
      [("no-such-rule", { enabled := some true }), ("license-header", { enabled := some true }),
       ("cast-spacing", { severity := some .warning, options := [("spacing", .integer 2)] })]
    let c : Config := { preset := some "minimal", rules := entries }
    (c.rules.map (·.1)).Nodup ∧ c.chosenPreset = .minimal ∧
      c.ruleSet.map (·.name) = ["doc-nullable-type", "cast-spacing", "license-header"] ∧
      { Rules.CastSpacing.rule 2 with severity := .warning } ∈ c.ruleSet ∧
      ({ c with rules := entries.reverse } : Config).ruleSet = c.ruleSet := by
  intro entries c
  have hkeys : (c.rules.map (·.1)).Nodup := by decide
  have hcanonical := c.ruleSet_canonical hkeys
  have hchosen : (c.rules.filter fun r => r.2.enabled == some true &&
      !c.chosenPreset.ruleNames.contains r.1).map (·.1) = ["no-such-rule", "license-header"] := by
    decide
  have hextra : c.extraRuleNames = ["license-header", "no-such-rule"] := by
    rw [extraRuleNames, hchosen]
    simp [List.mergeSort, List.MergeSort.Internal.splitInTwo]
  have hset : c.ruleSet = [Rules.NullableDoc.rule,
      { Rules.CastSpacing.rule 2 with severity := .warning }, Rules.LicenseHeader.rule {}] := by
    rw [ruleSet, hextra]
    rfl
  refine ⟨hkeys, hcanonical.1 .minimal rfl, ?_, ?_, ?_⟩
  · rw [hset]
    rfl
  · rw [hset]
    exact List.mem_cons_of_mem _ List.mem_cons_self
  · exact hcanonical.2.2.2.2 entries.reverse (List.reverse_perm entries)

end Config

end PhpStyle
