import Mathlib.Data.List.Basic
import PhpStyle.Proofs.PathTexts
import PhpStyle.Rules.Psr4

/-!
# Class names and the files they lead to

The look-up for a file takes, of the mapped directories that lead to it, one with the most components
(`covering?_eq_some`, `covering?_eq_none_iff`). The class name that is expected in the file leads back
to it: below that directory, with slashes for the backslashes and with the extension of the file
(`expectedName?_leads_back`).
-/

namespace PhpStyle.NamespaceMap

open Text

variable {map : NamespaceMap} {names : List String} {e : String × List String}

/-- One more directory beside the best one so far. -/
def further (best : Option (String × List String)) (p : String × List String) :
    Option (String × List String) :=
  match best with
  | some b => if p.2.length < b.2.length then some b else some p
  | none => some p

theorem further_eq (best : Option (String × List String)) (p : String × List String) :
    ∃ b, further best p = some b ∧ (b = p ∨ best = some b) ∧ p.2.length ≤ b.2.length ∧
      ∀ b' ∈ best, b'.2.length ≤ b.2.length := by
  cases best with
  | none => exact ⟨p, rfl, .inl rfl, Nat.le_refl _, nofun⟩
  | some b =>
    rw [further]
    split_ifs with hshorter
    · refine ⟨b, rfl, .inr rfl, hshorter.le, fun b' hb' => ?_⟩
      cases hb'
      exact Nat.le_refl _
    · refine ⟨p, rfl, .inl rfl, Nat.le_refl _, fun b' hb' => ?_⟩
      cases hb'
      exact Nat.not_lt.1 hshorter

theorem foldl_further (ps : List (String × List String)) (best : Option (String × List String)) :
    (ps.foldl further best = none ↔ ps = [] ∧ best = none) ∧
      ∀ e, ps.foldl further best = some e → (e ∈ ps ∨ best = some e) ∧
        (∀ p ∈ ps, p.2.length ≤ e.2.length) ∧ ∀ b ∈ best, b.2.length ≤ e.2.length := by
  induction ps generalizing best with
  | nil =>
    refine ⟨by simp, fun e he => ⟨.inr he, nofun, fun b hb => ?_⟩⟩
    cases hb.symm.trans he
    exact Nat.le_refl _
  | cons p ps ih =>
    obtain ⟨b, hb, hfrom, hp, hbest⟩ := further_eq best p
    rw [List.foldl_cons, hb]
    obtain ⟨hnone, hsome⟩ := ih (some b)
    refine ⟨by simp [hnone], fun e he => ?_⟩
    obtain ⟨hmem, hps, hbound⟩ := hsome e he
    have hbe := hbound b rfl
    refine ⟨?_, List.forall_mem_cons.2 ⟨hp.trans hbe, hps⟩, fun b' hb' => (hbest b' hb').trans hbe⟩
    rcases hmem with hmem | heq
    · exact .inl (List.mem_cons_of_mem _ hmem)
    · cases heq
      refine hfrom.imp_left ?_
      rintro rfl
      exact List.mem_cons_self

theorem covering?_eq_foldl : map.covering? names =
    (map.pairs.filter fun p => p.2.isPrefixOf names).foldl further none :=
  rfl

theorem covering?_eq_none_iff : map.covering? names = none ↔ ∀ e ∈ map.pairs, ¬ e.2 <+: names := by
  rw [covering?_eq_foldl, (foldl_further _ none).1, List.filter_eq_nil_iff]
  simp only [List.isPrefixOf_iff_prefix, and_true]

theorem covering?_eq_some (h : map.covering? names = some e) : e ∈ map.pairs ∧ e.2 <+: names ∧
    ∀ e' ∈ map.pairs, e'.2 <+: names → e'.2.length ≤ e.2.length := by
  obtain ⟨hmem, hlongest, -⟩ := (foldl_further _ none).2 e h
  obtain ⟨hpair, hprefix⟩ := List.mem_filter.1 (hmem.resolve_right nofun)
  exact ⟨hpair, List.isPrefixOf_iff_prefix.1 hprefix, fun e' he' hprefix' =>
    hlongest e' (List.mem_filter.2 ⟨he', List.isPrefixOf_iff_prefix.2 hprefix'⟩)⟩

/-- A name within a namespace, which may have backslashes around it. -/
def qualify (space name : String) : String :=
  let space := trimBoth (· == '\\') space.toList
  if space.isEmpty then name else String.ofList space ++ "\\" ++ name

/-- A name with slashes for its backslashes. -/
def slashed (name : String) : String :=
  String.ofList (name.toList.map fun c => if c = '\\' then '/' else c)

/-- The file that a name leads to below a directory. -/
def fileOf (dir : List String) (name : String) (extension? : Option String) : Path :=
  (Path.ofSegments false dir).join ⟨slashed name ++ extension?.elim "" ("." ++ ·)⟩

theorem expectedName?_of_covering {space : String} {dir below : List String}
    (h : map.covering? (dir ++ below) = some (space, dir)) :
    map.expectedName? (dir ++ below) = below.getLast?.map fun file =>
      qualify space ("\\".intercalate (below.dropLast ++ [(Path.splitName file).1])) := by
  rw [expectedName?, h]
  simp only [Option.bind_eq_bind, Option.bind_some, List.drop_left]
  cases below.getLast? with
  | none => rfl
  | some file => rfl

theorem map_intercalate (f : Char → Char) (sep : List Char) (xs : List (List Char)) :
    (sep.intercalate xs).map f = (sep.map f).intercalate (xs.map (List.map f)) := by
  induction xs with
  | nil => rfl
  | cons x xs ih =>
    cases xs with
    | nil => simp
    | cons x' xs =>
      rw [List.intercalate_cons_cons, List.map_append, List.map_append, ih]
      simp only [List.map_cons, List.intercalate_cons_cons]

theorem intercalate_concat (sep : List Char) (xs : List (List Char)) (x y : List Char) :
    sep.intercalate (xs ++ [x]) ++ y = sep.intercalate (xs ++ [x ++ y]) := by
  induction xs with
  | nil => simp
  | cons x' xs ih =>
    have hne : ∀ z : List Char, xs ++ [z] ≠ [] := fun z => by simp
    rw [List.cons_append, List.cons_append, List.intercalate_cons_of_ne_nil (hne x),
      List.intercalate_cons_of_ne_nil (hne _), List.append_assoc, ih]

theorem slashed_intercalate {dirs : List String} {file : String} (hdirs : ∀ n ∈ dirs, '\\' ∉ n.toList)
    (hfile : '\\' ∉ file.toList) :
    slashed ("\\".intercalate (dirs ++ [(Path.splitName file).1])) ++
      (Path.splitName file).2.elim "" ("." ++ ·) = (Path.ofSegments false (dirs ++ [file])).text := by
  have hsplit := Path.splitName_append file
  generalize (Path.splitName file).1 = stem, (Path.splitName file).2.elim "" ("." ++ ·) = ending at *
  subst hsplit
  have hstem : '\\' ∉ stem.toList := fun h => hfile (by simp [h])
  have hnames : (dirs ++ [stem]).map (List.map (fun c => if c = '\\' then '/' else c) ∘ String.toList) =
      (dirs ++ [stem]).map String.toList := by
    refine List.map_congr_left fun n hn => ?_
    refine (List.map_congr_left fun c hc => if_neg ?_).trans (List.map_id _)
    rintro rfl
    rcases List.mem_append.1 hn with hn | hn
    · exact hdirs n hn hc
    · exact hstem (List.mem_singleton.1 hn ▸ hc)
  refine String.toList_inj.1 ?_
  have hsep : "\\".toList.map (fun c => if c = '\\' then '/' else c) = ['/'] := rfl
  rw [String.toList_append, slashed, String.toList_ofList, String.toList_intercalate, map_intercalate,
    hsep, List.map_map, hnames, Path.toList_ofSegments]
  rw [List.map_append, List.map_singleton, intercalate_concat, List.map_append, List.map_singleton,
    String.toList_append]

theorem components_fileOf {dir dirs : List String} {file : String}
    (hdir : ∀ n ∈ dir, Path.IsName n) (hbelow : ∀ n ∈ dirs ++ [file], Path.IsName n)
    (hback : ∀ n ∈ dirs ++ [file], '\\' ∉ n.toList) :
    (fileOf dir ("\\".intercalate (dirs ++ [(Path.splitName file).1]))
      (Path.splitName file).2).components = (dir ++ (dirs ++ [file])).map .normal := by
  have htext := slashed_intercalate (fun n hn => hback n (List.mem_append_left _ hn))
    (hback file (by simp))
  rw [fileOf, htext]
  exact Path.components_join_ofSegments hdir hbelow

/-- The name that is expected in a file leads back to it. -/
theorem expectedName?_leads_back (map : NamespaceMap) (p : Path)
    (hnames : p.components = p.names.map .normal) (hback : ∀ n ∈ p.names, '\\' ∉ n.toList) :
    (map.expectedName? p.names = none ↔
      (∀ e ∈ map.pairs, ¬ e.2 <+: p.names) ∨ ∃ e ∈ map.pairs, e.2 = p.names) ∧
    ∀ name, map.expectedName? p.names = some name → ∃ e ∈ map.pairs, e.2 <+: p.names ∧
      (∀ e' ∈ map.pairs, e'.2 <+: p.names → e'.2.length ≤ e.2.length) ∧
      ∃ rest, name = qualify e.1 rest ∧
        (fileOf e.2 rest p.extension?).components = p.components := by
  have hisName : ∀ n ∈ p.names, Path.IsName n := fun n hn => Path.isName_of_mem_names hn
  have hextension : p.extension? = p.names.getLast?.bind fun file => (Path.splitName file).2 := by
    rw [Path.extension?, Path.fileName?, hnames, List.getLast?_map]
    cases p.names.getLast? <;> rfl
  rw [hextension, hnames]
  generalize p.names = names at hback hisName ⊢
  cases hcovering : map.covering? names with
  | none =>
    have hnone : map.expectedName? names = none := by rw [expectedName?, hcovering]; rfl
    rw [hnone]
    exact ⟨⟨fun _ => .inl (covering?_eq_none_iff.1 hcovering), fun _ => rfl⟩, nofun⟩
  | some e =>
    obtain ⟨space, dir⟩ := e
    obtain ⟨hpair, hprefix, hlongest⟩ := covering?_eq_some hcovering
    obtain ⟨below, rfl⟩ := hprefix
    dsimp only at hback hisName hlongest hcovering ⊢
    rw [expectedName?_of_covering hcovering]
    rcases List.eq_nil_or_concat' below with rfl | ⟨dirs, file, rfl⟩
    · refine ⟨⟨fun _ => .inr ⟨_, hpair, (List.append_nil dir).symm⟩, fun _ => rfl⟩, nofun⟩
    · rw [List.getLast?_concat, List.dropLast_concat, Option.map_some]
      refine ⟨⟨nofun, ?_⟩, fun name hname => ⟨_, hpair, List.prefix_append _ _, hlongest, ?_⟩⟩
      · rintro (hnone | ⟨e, he, hwhole⟩)
        · exact absurd (List.prefix_append _ _) (hnone _ hpair)
        · -- a directory that is the whole path would have been chosen
          have hlength := hlongest e he (hwhole ▸ List.prefix_refl _)
          rw [hwhole, List.length_append, List.length_append, List.length_singleton] at hlength
          omega
      · cases hname
        refine ⟨_, rfl, ?_⟩
        rw [← List.append_assoc, List.getLast?_concat, List.append_assoc]
        exact components_fileOf (fun n hn => hisName n (List.mem_append_left _ hn))
          (fun n hn => hisName n (List.mem_append_right _ hn))
          fun n hn => hback n (List.mem_append_right _ hn)

/-- Of three nested directories the innermost counts, and a file name may have several points. -/
theorem nested_directory_leads_back :
    (⟨"lib/util//Str.inc.php"⟩ : Path).components =
      (⟨"lib/util//Str.inc.php"⟩ : Path).names.map .normal ∧
    (∀ n ∈ (⟨"lib/util//Str.inc.php"⟩ : Path).names, '\\' ∉ n.toList) ∧
    expectedName? [("App\\", [[], ["lib"]]), ("\\Lib\\Util\\", [["lib", "util"]])]
      (⟨"lib/util//Str.inc.php"⟩ : Path).names = some "Lib\\Util\\Str.inc" ∧
    ∃ e ∈ pairs [("App\\", [[], ["lib"]]), ("\\Lib\\Util\\", [["lib", "util"]])],
      e.2 <+: (⟨"lib/util//Str.inc.php"⟩ : Path).names ∧
      (∀ e' ∈ pairs [("App\\", [[], ["lib"]]), ("\\Lib\\Util\\", [["lib", "util"]])],
        e'.2 <+: (⟨"lib/util//Str.inc.php"⟩ : Path).names → e'.2.length ≤ e.2.length) ∧
      ∃ rest, "Lib\\Util\\Str.inc" = qualify e.1 rest ∧
        (fileOf e.2 rest (⟨"lib/util//Str.inc.php"⟩ : Path).extension?).components =
          (⟨"lib/util//Str.inc.php"⟩ : Path).components := by
  have hnames : (⟨"lib/util//Str.inc.php"⟩ : Path).components =
      (⟨"lib/util//Str.inc.php"⟩ : Path).names.map .normal := by decide +kernel
  have hback : ∀ n ∈ (⟨"lib/util//Str.inc.php"⟩ : Path).names, '\\' ∉ n.toList := by decide +kernel
  have hname : expectedName? [("App\\", [[], ["lib"]]), ("\\Lib\\Util\\", [["lib", "util"]])]
      (⟨"lib/util//Str.inc.php"⟩ : Path).names = some "Lib\\Util\\Str.inc" := by decide +kernel
  exact ⟨hnames, hback, hname, (expectedName?_leads_back _ _ hnames hback).2 _ hname⟩

end PhpStyle.NamespaceMap
