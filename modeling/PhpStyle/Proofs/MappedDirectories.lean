import PhpStyle.Proofs.PathTexts
import PhpStyle.Rules.Psr4

/-!
# Mapped directories and the files below them

The look-up of mapped directories goes by names and passes over every `..`. So a file can be taken for
one below a directory although it is not: below `/w` the names of `../lib` lead to `lib/A.php`
(`not_below_of_parent`). The place of a path, with `.` and `..` taken away, tells when this cannot be.
Where each `..` of the file takes back a name behind those of the directory, the file is at the
directory or below it exactly if the directory is where its names say (`covers_iff_place`), and so it
is when no name of the directory comes after a `..`.
-/

namespace PhpStyle

namespace Path

variable {p : Path} {cs : List Component}

/-- Where a component leads from a place. -/
def stepFrom (start : Place) : Component → Place
  | .root => []
  | .current => start
  | .parent => start.dropLast
  | .normal n => start ++ [n]

/-- Where a path leads to by its text alone, with `.` and `..` taken away. -/
def place (p : Path) : Place :=
  p.components.foldl stepFrom []

/-- What can follow the start of a path. -/
def Component.IsStep (c : Component) : Prop :=
  c = .parent ∨ ∃ n, c = .normal n

theorem isStep_of_ofSegment? {s : String} {c : Component} (h : ofSegment? s = some c) : c.IsStep := by
  unfold ofSegment? at h
  split_ifs at h
  · cases h
    exact .inl rfl
  · cases h
    exact .inr ⟨s, rfl⟩

theorem isStep_of_mem_steps {text : List Char} {c : Component} (h : c ∈ steps text) : c.IsStep := by
  obtain ⟨s, -, hs⟩ := List.mem_filterMap.1 h
  exact isStep_of_ofSegment? hs

theorem foldl_stepFrom_names (names : List String) (start : Place) :
    (names.map .normal).foldl stepFrom start = start ++ names := by
  induction names generalizing start with
  | nil => exact (List.append_nil start).symm
  | cons n names ih =>
    rw [List.map_cons, List.foldl_cons, ih, stepFrom, List.append_assoc]
    rfl

theorem length_foldl_stepFrom (hcs : ∀ c ∈ cs, c.IsStep) (start : Place) :
    (cs.foldl stepFrom start).length ≤ start.length + (cs.filterMap Component.name?).length := by
  induction cs generalizing start with
  | nil => exact Nat.le_refl _
  | cons c cs ih =>
    rw [List.forall_mem_cons] at hcs
    obtain ⟨hc, hcs⟩ := hcs
    refine (ih hcs _).trans ?_
    rcases hc with rfl | ⟨n, rfl⟩
    · have hnames : (Component.parent :: cs).filterMap Component.name? =
          cs.filterMap Component.name? := rfl
      rw [hnames, stepFrom, List.length_dropLast]
      omega
    · have hnames : (Component.normal n :: cs).filterMap Component.name? =
          n :: cs.filterMap Component.name? := rfl
      rw [hnames, stepFrom, List.length_append, List.length_singleton, List.length_cons]
      omega

/-- Whether no name comes after a `..`. -/
def ParentsLast (cs : List Component) : Prop :=
  cs.Pairwise fun a b => a = .parent → b = .parent

instance (cs : List Component) : Decidable (ParentsLast cs) :=
  inferInstanceAs (Decidable (cs.Pairwise fun a b => a = .parent → b = .parent))

theorem foldl_stepFrom_parents (hcs : ∀ c ∈ cs, c = .parent) (start : Place) :
    cs.foldl stepFrom start <+: start := by
  induction cs generalizing start with
  | nil => exact List.prefix_refl start
  | cons c cs ih =>
    rw [List.forall_mem_cons] at hcs
    obtain ⟨rfl, hcs⟩ := hcs
    exact (ih hcs _).trans (List.dropLast_prefix start)

theorem foldl_stepFrom_of_parentsLast (hlast : ParentsLast cs) (hcs : ∀ c ∈ cs, c.IsStep)
    (start : Place) : cs.foldl stepFrom start <+: start ++ cs.filterMap Component.name? := by
  induction cs generalizing start with
  | nil => exact List.prefix_append _ _
  | cons c cs ih =>
    rw [List.forall_mem_cons] at hcs
    obtain ⟨hc, hcs⟩ := hcs
    rw [ParentsLast, List.pairwise_cons] at hlast
    obtain ⟨hhead, hlast⟩ := hlast
    rcases hc with rfl | ⟨n, rfl⟩
    · have hparents : ∀ c ∈ Component.parent :: cs, c = .parent :=
        List.forall_mem_cons.2 ⟨rfl, fun c hc => hhead c hc rfl⟩
      exact (foldl_stepFrom_parents hparents start).trans (List.prefix_append _ _)
    · have hrest := ih hlast hcs (start ++ [n])
      rwa [List.append_assoc] at hrest

/-- Whether each `..` takes back a name behind the first `n` ones, from a place that is `depth` names
down. -/
def StaysBehind (n : Nat) : Nat → List Component → Prop
  | _, [] => True
  | depth, .parent :: cs => n < depth ∧ StaysBehind n (depth - 1) cs
  | depth, .normal _ :: cs => StaysBehind n (depth + 1) cs
  | depth, _ :: cs => StaysBehind n depth cs

instance StaysBehind.instDecidable (n : Nat) :
    (depth : Nat) → (cs : List Component) → Decidable (StaysBehind n depth cs)
  | _, [] => inferInstanceAs (Decidable True)
  | depth, .parent :: cs =>
    have := StaysBehind.instDecidable n (depth - 1) cs
    inferInstanceAs (Decidable (n < depth ∧ StaysBehind n (depth - 1) cs))
  | depth, .normal _ :: cs => StaysBehind.instDecidable n (depth + 1) cs
  | depth, .root :: cs => StaysBehind.instDecidable n depth cs
  | depth, .current :: cs => StaysBehind.instDecidable n depth cs

theorem foldl_stepFrom_of_staysBehind {dir rest : Place} (hcs : ∀ c ∈ cs, c.IsStep)
    (hstays : StaysBehind dir.length (dir.length + rest.length) cs) (start : Place) :
    start ++ dir <+: cs.foldl stepFrom (start ++ dir ++ rest) := by
  induction cs generalizing rest with
  | nil => exact List.prefix_append _ _
  | cons c cs ih =>
    rw [List.forall_mem_cons] at hcs
    obtain ⟨hc, hcs⟩ := hcs
    rcases hc with rfl | ⟨n, rfl⟩
    · obtain ⟨hdepth, hstays⟩ := hstays
      have hne : rest ≠ [] := List.ne_nil_of_length_pos (by omega)
      have hlength : dir.length + rest.length - 1 = dir.length + rest.dropLast.length := by
        rw [List.length_dropLast]
        omega
      rw [hlength] at hstays
      have hdrop : stepFrom (start ++ dir ++ rest) .parent = start ++ dir ++ rest.dropLast :=
        List.dropLast_append_of_ne_nil hne
      rw [List.foldl_cons, hdrop]
      exact ih hcs hstays
    · have hstep : stepFrom (start ++ dir ++ rest) (.normal n) = start ++ dir ++ (rest ++ [n]) :=
        List.append_assoc _ _ _
      rw [List.foldl_cons, hstep]
      refine ih hcs ?_
      rw [List.length_append, List.length_singleton]
      exact hstays

theorem exists_of_staysBehind {dir : List String} {depth : Nat} (hcs : ∀ c ∈ cs, c.IsStep)
    (hdir : dir <+: cs.filterMap Component.name?)
    (hstays : StaysBehind (depth + dir.length) depth cs) :
    ∃ rest, cs = dir.map .normal ++ rest ∧
      StaysBehind (depth + dir.length) (depth + dir.length) rest := by
  induction dir generalizing cs depth with
  | nil => exact ⟨cs, rfl, hstays⟩
  | cons n dir ih =>
    have hlength : depth + (n :: dir).length = depth + 1 + dir.length := by
      rw [List.length_cons]
      omega
    rw [hlength] at hstays ⊢
    cases cs with
    | nil => simp at hdir
    | cons c cs =>
      rw [List.forall_mem_cons] at hcs
      obtain ⟨hc, hcs⟩ := hcs
      rcases hc with rfl | ⟨n', rfl⟩
      · have := hstays.1
        omega
      · obtain ⟨rfl, hdir'⟩ := List.cons_prefix_cons.1 hdir
        obtain ⟨rest, rfl, hrest⟩ := ih hcs hdir' hstays
        exact ⟨rest, rfl, hrest⟩

theorem prefix_foldl_of_staysBehind {dir : List String} (hcs : ∀ c ∈ cs, c.IsStep)
    (hdir : dir <+: cs.filterMap Component.name?) (hstays : StaysBehind dir.length 0 cs)
    (start : Place) : start ++ dir <+: cs.foldl stepFrom start := by
  rw [← Nat.zero_add dir.length] at hstays
  obtain ⟨rest, rfl, hrest⟩ := exists_of_staysBehind hcs hdir hstays
  have hbehind : StaysBehind dir.length (dir.length + ([] : Place).length) rest := by
    rwa [Nat.zero_add] at hrest
  have hfrom := foldl_stepFrom_of_staysBehind (fun c hc => hcs c (List.mem_append_right _ hc))
    hbehind start
  rw [List.append_nil] at hfrom
  rwa [List.foldl_append, foldl_stepFrom_names]

end Path

namespace Rules.Psr4

open PhpStyle.Path

variable {disk : Disk} {base p : Path} {dir : String} {below : List String}

/-- The components of a file behind those of the base. -/
def stepsBelow (base p : Path) : List Component :=
  p.components.drop base.components.length

theorem components_of_namesBelow? (hbase : base.isAbsolute = true) (hp : p.isAbsolute = true)
    (h : namesBelow? disk base p = some below) :
    p.components = base.components ++ stepsBelow base p ∧
      below = (stepsBelow base p).filterMap Component.name? := by
  have habsolute : disk.absolute p = p := by rw [Disk.absolute, join, hp, Bool.true_or, if_pos rfl]
  rw [namesBelow?, habsolute, Option.map_eq_some_iff] at h
  obtain ⟨q, hq, rfl⟩ := h
  obtain ⟨cs, hcs, hnames⟩ := components_of_relativeTo? hbase hp hq
  have hbelow : stepsBelow base p = cs := by rw [stepsBelow, hcs, List.drop_left]
  rw [hbelow]
  exact ⟨hcs, hnames⟩

theorem isStep_of_mem_stepsBelow (hbase : base.isAbsolute = true) (hp : p.isAbsolute = true) :
    ∀ c ∈ stepsBelow base p, c.IsStep := by
  intro c hc
  rw [stepsBelow, components_eq base, components_eq p, lead, lead, if_pos (by simpa [isAbsolute] using hbase),
    if_pos (by simpa [isAbsolute] using hp), List.singleton_append, List.singleton_append,
    List.length_cons, List.drop_succ_cons] at hc
  exact isStep_of_mem_steps (List.mem_of_mem_drop hc)

/-- A file with the names of a mapped directory is below it if the directory is where its names
say. -/
theorem covers_iff_place (disk : Disk) (base p : Path) (dir : String) (below : List String)
    (hbase : base.isAbsolute = true) (hp : p.isAbsolute = true)
    (hbelow : namesBelow? disk base p = some below) (hcovers : (⟨dir⟩ : Path).names <+: below)
    (hstays : StaysBehind (⟨dir⟩ : Path).names.length 0 (stepsBelow base p)) :
    ((⟨base.text ++ "/" ++ dir⟩ : Path).place <+: p.place ↔
      (⟨base.text ++ "/" ++ dir⟩ : Path).place <+: base.place ++ (⟨dir⟩ : Path).names) ∧
    (ParentsLast (⟨dir⟩ : Path).components →
      (⟨base.text ++ "/" ++ dir⟩ : Path).place <+: p.place) := by
  obtain ⟨hcomponents, rfl⟩ := components_of_namesBelow? hbase hp hbelow
  have hfile : base.place ++ (⟨dir⟩ : Path).names <+: p.place := by
    rw [place, place, hcomponents, List.foldl_append]
    exact prefix_foldl_of_staysBehind (isStep_of_mem_stepsBelow hbase hp) hcovers hstays _
  have hsteps : ∀ c ∈ steps dir.toList, c.IsStep := fun c hc => isStep_of_mem_steps hc
  have hdir : (⟨base.text ++ "/" ++ dir⟩ : Path).place =
      (steps dir.toList).foldl stepFrom base.place := by
    rw [place, components_append (text_ne_empty hbase), List.foldl_append, place]
  rw [hdir, names_eq_steps] at *
  refine ⟨⟨fun h => ?_, fun h => h.trans hfile⟩, fun hlast => ?_⟩
  · refine List.prefix_of_prefix_length_le h hfile ?_
    rw [List.length_append]
    exact length_foldl_stepFrom hsteps _
  · rw [components_eq, ParentsLast, List.pairwise_append] at hlast
    exact (foldl_stepFrom_of_parentsLast hlast.2.1 hsteps _).trans hfile

/-- Both the directory and the file may have `..` in them. -/
theorem covers_iff_place_with_parents :
    namesBelow? {} ⟨"/w"⟩ ⟨"/w/./lib//sub/x/../A.php"⟩ = some ["lib", "sub", "x", "A.php"] ∧
    (⟨"lib/./sub/.."⟩ : Path).names <+: ["lib", "sub", "x", "A.php"] ∧
    StaysBehind (⟨"lib/./sub/.."⟩ : Path).names.length 0
      (stepsBelow ⟨"/w"⟩ ⟨"/w/./lib//sub/x/../A.php"⟩) ∧
    ParentsLast (⟨"lib/./sub/.."⟩ : Path).components ∧
    (⟨"/w/lib/./sub/.."⟩ : Path).place = ["w", "lib"] ∧
    (⟨"/w/./lib//sub/x/../A.php"⟩ : Path).place = ["w", "lib", "sub", "A.php"] ∧
    (⟨"/w/lib/./sub/.."⟩ : Path).place <+: (⟨"/w/./lib//sub/x/../A.php"⟩ : Path).place := by
  have hbelow : namesBelow? {} ⟨"/w"⟩ ⟨"/w/./lib//sub/x/../A.php"⟩ =
      some ["lib", "sub", "x", "A.php"] := by decide +kernel
  have hcovers : (⟨"lib/./sub/.."⟩ : Path).names <+: ["lib", "sub", "x", "A.php"] := by decide +kernel
  have hstays : StaysBehind (⟨"lib/./sub/.."⟩ : Path).names.length 0
      (stepsBelow ⟨"/w"⟩ ⟨"/w/./lib//sub/x/../A.php"⟩) := by decide +kernel
  have hlast : ParentsLast (⟨"lib/./sub/.."⟩ : Path).components := by decide +kernel
  exact ⟨hbelow, hcovers, hstays, hlast, by decide +kernel, by decide +kernel,
    (covers_iff_place {} ⟨"/w"⟩ ⟨"/w/./lib//sub/x/../A.php"⟩ "lib/./sub/.." _ rfl rfl hbelow
      hcovers hstays).2 hlast⟩

/-- A directory beside the base is taken for one below it, and a file beside a directory for one
below it. -/
theorem not_below_of_parent :
    (namesBelow? {} ⟨"/w"⟩ ⟨"/w/lib/A.php"⟩ = some ["lib", "A.php"] ∧
      (⟨"../lib"⟩ : Path).names <+: ["lib", "A.php"] ∧
      NamespaceMap.expectedName? [("App\\", [(⟨"../lib"⟩ : Path).names])] ["lib", "A.php"] =
        some "App\\A" ∧
      ¬ (⟨"/w/../lib"⟩ : Path).place <+: (⟨"/w/lib/A.php"⟩ : Path).place) ∧
    (namesBelow? {} ⟨"/w"⟩ ⟨"/w/lib/../src/A.php"⟩ = some ["lib", "src", "A.php"] ∧
      (⟨"lib"⟩ : Path).names <+: ["lib", "src", "A.php"] ∧
      ¬ (⟨"/w/lib"⟩ : Path).place <+: (⟨"/w/lib/../src/A.php"⟩ : Path).place) := by
  decide +kernel

end Rules.Psr4

end PhpStyle
