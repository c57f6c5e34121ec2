import PhpStyle.Proofs.PathSpellings
import PhpStyle.Rules.LicenseHeader
import PhpStyle.Rules.Psr4
import PhpStyle.Token.Linking

/-!
# What rules remember of the disk

The rules that read files remember what they have read: the header for each directory, and the table of
a manifest. Over files that stay as they are, what is remembered is what would be read again, from
whatever working directory (`Rules.LicenseHeader.Kept`, `Rules.Psr4.Kept`), because a directory is kept
as an absolute path, and because a failure is never kept. So a rule that is called again and again,
while the working directory changes, does what a rule would do that remembers nothing
(`Rules.lookUps_transparent`).
-/

namespace PhpStyle

open PhpStyle.Path Disk

namespace Rule

/-- What happens to a rule: the working directory changes, or the rule is called for a token. -/
inductive Event
  | moved (path : Path)
  | called (file : SourceFile) (tokens : Tokens) (i : Nat)

/-- The disk, as seen from the working directory, and what the rule remembers. -/
def step (rule : Rule) (s : Disk × Memory) : Event → Disk × Memory
  | .moved path => (s.1.seenFrom (s.1.cwd.join path), s.2)
  | .called file tokens i => (s.1, (rule.process ⟨file, tokens, s.1⟩ i s.2).2)

/-- Where a rule comes to that remembers nothing at first. -/
def after (rule : Rule) (disk : Disk) (events : List Event) : Disk × Memory :=
  events.foldl rule.step (disk, {})

theorem after_keeps (rule : Rule) {disk : Disk} {kept : Memory → Prop}
    (hcwd : disk.cwd.isAbsolute = true) (hnothing : kept {})
    (hcalled : ∀ {cwd : Path} {m : Memory}, cwd.isAbsolute = true → kept m → ∀ (file : SourceFile)
      (tokens : Tokens) (i : Nat), kept (rule.process ⟨file, tokens, disk.seenFrom cwd⟩ i m).2)
    (events : List Event) : ∃ cwd m, cwd.isAbsolute = true ∧ kept m ∧
      rule.after disk events = (disk.seenFrom cwd, m) := by
  have hsteps : ∀ (cwd : Path) (m : Memory), cwd.isAbsolute = true → kept m →
      ∃ cwd' m', cwd'.isAbsolute = true ∧ kept m' ∧
        events.foldl rule.step (disk.seenFrom cwd, m) = (disk.seenFrom cwd', m') := by
    induction events with
    | nil => exact fun cwd m hcwd hm => ⟨cwd, m, hcwd, hm, rfl⟩
    | cons event events ih =>
      intro cwd m hcwd hm
      cases event with
      | moved path => exact ih (cwd.join path) m (isAbsolute_join hcwd path) hm
      | called file tokens i => exact ih cwd _ hcwd (hcalled hcwd hm file tokens i)
  exact hsteps disk.cwd {} hcwd hnothing

end Rule

namespace Rules.Psr4

variable {disk : Disk} {base base' cwd : Path} {name : String} {m : Memory}

/-- A table that is remembered is read from its path. -/
def Kept (disk : Disk) (name : String) (m : Memory) : Prop :=
  ∀ p map, m.manifest = some (p, map) →
    ∃ base : Path, base.isAbsolute = true ∧ p = base.joinName name ∧ load disk p = .ok map

theorem load_of_resolve {p q : Path} {map : NamespaceMap}
    (h : (disk.seenFrom cwd).resolve q = disk.resolve p) (hload : load disk p = .ok map) :
    load (disk.seenFrom cwd) q = .ok map := by
  rw [load] at hload ⊢
  rw [readText_of_resolve h]
  cases htext : disk.readText p with
  | error e =>
    rw [htext] at hload
    cases hload
  | ok text =>
    rw [htext] at hload
    simp only at hload ⊢
    cases hparse : Json.parse? text with
    | none =>
      rw [hparse] at hload
      cases hload
    | some json =>
      rw [hparse] at hload
      exact hload

theorem resolve_of_same (hbase : base.isAbsolute = true) (hbase' : base'.isAbsolute = true)
    (hsame : (base.joinName name).same (base'.joinName name) = true) (cwd : Path) :
    (disk.seenFrom cwd).resolve (base'.joinName name) = disk.resolve (base.joinName name) := by
  have habsolute : (base'.joinName name).isAbsolute = true := isAbsolute_join hbase' ⟨name⟩
  rw [resolve_seenFrom disk cwd habsolute]
  by_cases hname : (⟨name⟩ : Path).isAbsolute = true
  · rw [joinName, joinName, join_of_isAbsolute _ hname, join_of_isAbsolute _ hname]
  · rw [Bool.not_eq_true] at hname
    have hcomponents := beq_iff_eq.1 hsame
    rw [joinName, joinName, components_join (text_ne_empty hbase) hname,
      components_join (text_ne_empty hbase') hname] at hcomponents
    exact (resolve_join disk ⟨hbase, hbase', List.append_cancel_right hcomponents⟩ ⟨name⟩).symm

theorem Kept.nothing (disk : Disk) (name : String) : Kept disk name {} :=
  fun _ _ hp => nomatch hp

theorem isAbsolute_directory (o : Options) (disk : Disk) (hcwd : cwd.isAbsolute = true) :
    (o.directory (disk.seenFrom cwd)).isAbsolute = true := by
  unfold Options.directory
  split
  · exact isAbsolute_join hcwd _
  · exact hcwd

theorem Kept.lookUp (h : Kept disk name m) (hbase : base.isAbsolute = true) (cwd : Path) :
    (lookUp (disk.seenFrom cwd) (base.joinName name) m).1 =
        load (disk.seenFrom cwd) (base.joinName name) ∧
      Kept disk name (lookUp (disk.seenFrom cwd) (base.joinName name) m).2 := by
  unfold Psr4.lookUp
  split
  · next p map hfilter =>
    obtain ⟨hp, hsame⟩ := Option.filter_eq_some_iff.1 hfilter
    obtain ⟨base', hbase', rfl, hload⟩ := h p map hp
    exact ⟨(load_of_resolve (resolve_of_same hbase' hbase hsame cwd) hload).symm, h⟩
  · cases hload : load (disk.seenFrom cwd) (base.joinName name) with
    | error e => exact ⟨rfl, h⟩
    | ok map =>
      refine ⟨rfl, ?_⟩
      rintro p map' hp
      cases hp
      have hself : (base.joinName name).same (base.joinName name) = true := beq_self_eq_true _
      have hkept : load ((disk.seenFrom cwd).seenFrom disk.cwd) (base.joinName name) = .ok map :=
        load_of_resolve (resolve_of_same hbase hbase hself disk.cwd) hload
      exact ⟨base, hbase, rfl, hkept⟩

theorem Kept.process {o : Options} (h : Kept disk o.manifest m) (hcwd : cwd.isAbsolute = true)
    (file : SourceFile) (tokens : Tokens) (i : Nat) :
    (process o ⟨file, tokens, disk.seenFrom cwd⟩ i m).1 =
        (process o ⟨file, tokens, disk.seenFrom cwd⟩ i {}).1 ∧
      Kept disk o.manifest (process o ⟨file, tokens, disk.seenFrom cwd⟩ i m).2 := by
  unfold Psr4.process
  cases nameIndex? tokens i with
  | none => exact ⟨rfl, h⟩
  | some n =>
    have hbase := isAbsolute_directory o disk hcwd
    obtain ⟨hmap, hkept⟩ := h.lookUp hbase cwd
    have hread := ((Kept.nothing disk o.manifest).lookUp hbase cwd).1
    dsimp only at hmap hkept hread ⊢
    generalize Psr4.lookUp (disk.seenFrom cwd) _ m = found at hmap hkept ⊢
    generalize Psr4.lookUp (disk.seenFrom cwd) _ {} = found' at hread ⊢
    obtain ⟨result, m'⟩ := found
    obtain ⟨result', m''⟩ := found'
    obtain rfl : result = result' := hmap.trans hread.symm
    cases result with
    | error e => exact ⟨rfl, hkept⟩
    | ok map => exact ⟨rfl, hkept⟩

end Rules.Psr4

theorem rel_find? {α : Type} {r : α → α → Prop} {p q : α → Bool} (hpq : ∀ a b, r a b → p a = q b)
    {as bs : List α} (h : List.Forall₂ r as bs) : Option.Rel r (as.find? p) (bs.find? q) := by
  induction h with
  | nil => exact .none
  | @cons a b as bs hab _ ih =>
    rw [List.find?_cons, List.find?_cons, ← hpq a b hab]
    cases p a with
    | true => exact .some hab
    | false => exact ih

namespace Rules.LicenseHeader

variable {disk : Disk} {dir dir' cwd : Path} {names : List String} {m : Memory}

/-- A header that is remembered is that of its directory. -/
def Kept (disk : Disk) (names : List String) (m : Memory) : Prop :=
  ∀ e ∈ m.headers, e.1.isAbsolute = true ∧ search disk names e.1 = .ok e.2

theorem forall₂_candidates (h : Respells dir dir') (names : List String) (cwd : Path) :
    List.Forall₂ (fun p q => (disk.seenFrom cwd).resolve q = disk.resolve p)
      (dir.ancestors.flatMap fun above => names.map above.joinName)
      (dir'.ancestors.flatMap fun above => names.map above.joinName) := by
  refine List.rel_flatMap (forall₂_ancestors h) fun p q hpq => ?_
  rw [List.forall₂_map_left_iff, List.forall₂_map_right_iff, List.forall₂_same]
  intro name _
  have habsolute : (q.joinName name).isAbsolute = true := isAbsolute_join hpq.right ⟨name⟩
  rw [resolve_seenFrom disk cwd habsolute]
  exact (resolve_join disk hpq ⟨name⟩).symm

theorem search_of_respells (h : Respells dir dir') (cwd : Path) {header : Option String}
    (hsearch : search disk names dir = .ok header) :
    search (disk.seenFrom cwd) names dir' = .ok header := by
  have hfile : ∀ p q, (disk.seenFrom cwd).resolve q = disk.resolve p →
      disk.isFile p = (disk.seenFrom cwd).isFile q := fun p q hpq => (isFile_of_resolve hpq).symm
  have hfind := rel_find? hfile (forall₂_candidates h names cwd)
  rw [search] at hsearch ⊢
  generalize List.find? disk.isFile _ = found at hfind hsearch
  generalize List.find? (disk.seenFrom cwd).isFile _ = found' at hfind ⊢
  cases hfind with
  | none => exact hsearch
  | @some p q hpq =>
    simp only at hsearch ⊢
    rw [readText_of_resolve hpq]
    cases htext : disk.readText p with
    | error e =>
      rw [htext] at hsearch
      cases hsearch
    | ok text =>
      rw [htext] at hsearch
      exact hsearch

theorem Kept.nothing (disk : Disk) (names : List String) : Kept disk names {} :=
  fun _ he => nomatch he

theorem Kept.refresh (h : Kept disk names m) (cwd : Path) : Kept disk names (refresh cwd m) := by
  unfold LicenseHeader.refresh
  split
  · exact h
  · exact .nothing disk names

theorem lookUp_nothing {o : Options} (htext : o.text = none) (disk : Disk) (file : Path) :
    (lookUp o disk file {}).1 =
      search disk o.fileNames (disk.cwd.join (file.parent?.getD ⟨""⟩)) := by
  have hheaders : (refresh disk.cwd {}).headers = [] := by
    unfold LicenseHeader.refresh
    split <;> rfl
  unfold lookUp
  rw [htext]
  simp only [hheaders, List.find?_nil]
  split <;> simp_all

theorem Kept.lookUp {o : Options} (h : Kept disk o.fileNames m) (hcwd : cwd.isAbsolute = true)
    (file : Path) :
    (lookUp o (disk.seenFrom cwd) file m).1 = (lookUp o (disk.seenFrom cwd) file {}).1 ∧
      Kept disk o.fileNames (lookUp o (disk.seenFrom cwd) file m).2 := by
  cases htext : o.text with
  | some text =>
    simp only [LicenseHeader.lookUp, htext]
    exact ⟨trivial, h⟩
  | none =>
    have hdir : (cwd.join (file.parent?.getD ⟨""⟩)).isAbsolute = true := isAbsolute_join hcwd _
    have hkept := h.refresh cwd
    rw [lookUp_nothing htext]
    simp only [LicenseHeader.lookUp, htext, cwd_seenFrom]
    generalize cwd.join (file.parent?.getD ⟨""⟩) = dir at hdir ⊢
    generalize LicenseHeader.refresh cwd m = m at hkept ⊢
    cases hfind : m.headers.find? fun e => e.1.same dir with
    | some e =>
      obtain ⟨habsolute, hsearch⟩ := hkept e (List.mem_of_find?_eq_some hfind)
      have hsame : e.1.same dir = true := by simpa using List.find?_some hfind
      have hrespells : Respells e.1 dir := ⟨habsolute, hdir, beq_iff_eq.1 hsame⟩
      exact ⟨(search_of_respells hrespells cwd hsearch).symm, hkept⟩
    | none =>
      cases hsearch : search (disk.seenFrom cwd) o.fileNames dir with
      | error e => exact ⟨rfl, hkept⟩
      | ok header =>
        have hstored : search ((disk.seenFrom cwd).seenFrom disk.cwd) o.fileNames dir = .ok header :=
          search_of_respells ⟨hdir, hdir, rfl⟩ disk.cwd hsearch
        exact ⟨rfl, List.forall_mem_cons.2 ⟨⟨hdir, hstored⟩, hkept⟩⟩

theorem Kept.process {o : Options} (h : Kept disk o.fileNames m) (hcwd : cwd.isAbsolute = true)
    (file : SourceFile) (tokens : Tokens) (i : Nat) :
    (process o ⟨file, tokens, disk.seenFrom cwd⟩ i m).1 =
        (process o ⟨file, tokens, disk.seenFrom cwd⟩ i {}).1 ∧
      Kept disk o.fileNames (process o ⟨file, tokens, disk.seenFrom cwd⟩ i m).2 := by
  unfold LicenseHeader.process
  split
  · obtain ⟨hheader, hkept⟩ := h.lookUp hcwd file.path
    dsimp only at hheader hkept ⊢
    generalize LicenseHeader.lookUp o (disk.seenFrom cwd) file.path m = found at hheader hkept ⊢
    generalize LicenseHeader.lookUp o (disk.seenFrom cwd) file.path {} = found' at hheader ⊢
    obtain ⟨result, m'⟩ := found
    obtain ⟨result', m''⟩ := found'
    obtain rfl : result = result' := hheader
    cases result with
    | error e => exact ⟨rfl, hkept⟩
    | ok header =>
      cases header with
      | none => exact ⟨rfl, hkept⟩
      | some header => exact ⟨rfl, hkept⟩
  · exact ⟨rfl, h⟩

end Rules.LicenseHeader

/-- The rule does what it would do if it remembered nothing. -/
def Rule.Transparent (rule : Rule) (s : Disk × Memory) : Prop :=
  ∀ (file : SourceFile) (tokens : Tokens) (i : Nat),
    (rule.process ⟨file, tokens, s.1⟩ i s.2).1 = (rule.process ⟨file, tokens, s.1⟩ i {}).1

namespace Rules

/-- However often rules are called, and from whatever working directories, a header that is looked up
is the one that a new rule would find there, and a table is the one that its manifest holds. -/
theorem lookUps_transparent (o : LicenseHeader.Options) (o' : Psr4.Options) (disk : Disk)
    (hcwd : disk.cwd.isAbsolute = true) (events : List Rule.Event) :
    let h := (LicenseHeader.rule o).after disk events
    let t := (Psr4.rule o').after disk events
    let manifest := (o'.directory t.1).joinName o'.manifest
    (LicenseHeader.rule o).Transparent h ∧ (Psr4.rule o').Transparent t ∧
      (∀ file, (LicenseHeader.lookUp o h.1 file h.2).1 = (LicenseHeader.lookUp o h.1 file {}).1) ∧
      (Psr4.lookUp t.1 manifest t.2).1 = Psr4.load t.1 manifest := by
  obtain ⟨cwd, m, hcwd', hkept, hafter⟩ := Rule.after_keeps (LicenseHeader.rule o) hcwd
    (LicenseHeader.Kept.nothing disk o.fileNames)
    (fun hcwd hkept file tokens i => (hkept.process hcwd file tokens i).2) events
  obtain ⟨cwd', m', hcwd'', hkept', hafter'⟩ := Rule.after_keeps (Psr4.rule o') hcwd
    (Psr4.Kept.nothing disk o'.manifest)
    (fun hcwd hkept file tokens i => (hkept.process hcwd file tokens i).2) events
  rw [hafter, hafter']
  exact ⟨fun file tokens i => (hkept.process hcwd' file tokens i).1,
    fun file tokens i => (hkept'.process hcwd'' file tokens i).1,
    fun file => (hkept.lookUp hcwd' file).1,
    (hkept'.lookUp (Psr4.isAbsolute_directory o' disk hcwd'') cwd').1⟩

/-- Calls from two directories, by two spellings of one of them. In the first there is no manifest,
which is not remembered. -/
theorem lookUps_transparent_between_directories :
    let disk : Disk :=
      { files := [(["w", "LICENSE_HEADER"], "A".toUTF8), (["w", "src", "a.php"], "".toUTF8),
          (["w", "composer.json"], "\x7b\x7d".toUTF8)]
        cwd := ⟨"/w/src"⟩ }
    let call (path : String) (i : Nat) : Rule.Event :=
      .called ⟨⟨path⟩, "<?php class A \x7b\x7d", ⟨"/w"⟩⟩ (Tokens.ofSource "<?php class A \x7b\x7d") i
    let events := [call "a.php" 0, call "a.php" 2, .moved ⟨".."⟩, call "./src//a.php" 0,
      call "src/a.php" 2, .moved ⟨"/w/./src"⟩, call "a.php" 0]
    let h := (LicenseHeader.rule {}).after disk events
    let t := (Psr4.rule {}).after disk events
    disk.cwd.isAbsolute = true ∧ h.2.headers = [(⟨"/w/./src/"⟩, some "/*\n * A\n */")] ∧
      t.2.manifest = some (⟨"/w/src/../composer.json"⟩, []) ∧
      (LicenseHeader.rule {}).Transparent h ∧ (Psr4.rule {}).Transparent t := by
  intro disk call events h t
  have hcwd : disk.cwd.isAbsolute = true := by decide +kernel
  have hall := lookUps_transparent {} {} disk hcwd events
  exact ⟨hcwd, by decide +kernel, by decide +kernel, hall.1, hall.2.1⟩

end Rules

end PhpStyle
