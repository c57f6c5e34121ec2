import PhpStyle.CommandLine.Run

/-!
The program itself: it takes a snapshot of the files that a run can look at, runs on the snapshot,
and writes the files that changed.
-/

namespace PhpStyle.Snapshot

/-- The place that a path names, with every `..` taking back the name before it. -/
def placeOf (disk : Disk) (p : Path) : Place :=
  (disk.absolute p).components.foldl
    (fun place c => match c with
      | .normal name => place ++ [name]
      | .parent => place.dropLast
      | .root | .current => place)
    []

/-- Adds the directories that a path leads through. -/
def lookAlong (disk : Disk) (p : Path) : IO Disk :=
  (disk.absolute p).ancestors.foldlM (fun d q => do
    let file := (← IO.currentDir) / q.text
    return if ← file.isDir then d.putDirectory (placeOf d q) else d) disk

/-- Adds the file at a path, if there is one that can be read. -/
def lookAt (disk : Disk) (p : Path) : IO Disk := do
  let disk ← lookAlong disk p
  try
    return disk.putFile (placeOf disk p) (← IO.FS.readBinFile (disk.absolute p).text)
  catch _ => return disk

/-- What is looked at in a directory and in all above it. -/
def lookAbove (disk : Disk) (p : Path) (names : List String) : IO Disk :=
  ((disk.absolute p).ancestors.flatMap fun dir => names.map dir.joinName).foldlM lookAt disk

/-- Adds all that is below a directory. Links are not followed, and of what belongs to git only the
ignore file is read. -/
partial def lookBelow (disk : Disk) (dir : Path) : IO Disk := do
  let disk ← lookAlong disk dir
  let file := (← IO.currentDir) / dir.text
  let entries ← try file.readDir catch _ => pure #[]
  entries.foldlM (fun d e => do
    let p := dir.joinName e.fileName
    if e.fileName == ".git" then lookAt d (p.joinName "info/exclude")
    else match (← e.path.symlinkMetadata).type with
      | .dir => lookBelow d p
      | .file => lookAt d p
      | _ => return d) disk

/-- The files that decide where a project starts, how it is configured, and what is ignored. -/
def projectNames : List String :=
  Project.configNames ++
    [Project.manifestName, ".git", ".git/info/exclude", ".ignore", ".gitignore"]

/-- The files that the rules look at besides the sources. -/
def lookForRules (disk : Disk) (start : Path) (c : Config) : IO Disk := do
  let header := Rules.licenseHeaderOptions ((c.rule? Rules.LicenseHeader.info.name).getD {})
  let manifest := Rules.psr4Options ((c.rule? Rules.Psr4.info.name).getD {})
  let disk ← lookAbove disk start header.fileNames
  lookAt disk ((manifest.directory disk).joinName manifest.manifest)

/-- A snapshot for checking a path. -/
def forCheck (disk : Disk) (e : CommandLine.Environment) (config : Option Path) (path : Path) :
    IO Disk := do
  let start ← try pure ⟨(← IO.FS.realPath path.text).toString⟩ catch _ => pure path
  let disk ← lookAbove disk start projectNames
  let disk ← lookAbove disk path projectNames
  let disk ← config.toList.foldlM lookAt disk
  let disk ← (e.userDirectory.map (·.joinName "config.toml")).toList.foldlM lookAt disk
  let disk ← lookAt disk path
  let disk ← lookBelow disk path
  match (Project.discover disk path config e.userDirectory).loadConfig disk with
  | .ok c => lookForRules disk path c
  | .error _ => return disk

/-- What a run with the given arguments can look at. -/
def forArguments (e : CommandLine.Environment) (args : List String) : IO Disk := do
  let disk : Disk := { cwd := ⟨(← IO.currentDir).toString⟩ }
  match CommandLine.parse args with
  | .ok { config, command := .check o } => forCheck disk e config o.path
  | .ok { config := _, command := .init _ } => lookAt disk ⟨CommandLine.configName⟩
  | _ => return disk

/-- Writes the files in which two snapshots differ. -/
def writeChanges (before after : Disk) : IO Unit :=
  after.files.forM fun (place, bytes) =>
    if before.fileAt? place == some bytes then pure ()
    else IO.FS.writeBinFile (Disk.pathOf place).text bytes

end PhpStyle.Snapshot

open PhpStyle in
def main (args : List String) : IO UInt32 := do
  let env : CommandLine.Environment :=
    { home := (← IO.getEnv "HOME").map PhpStyle.Path.mk
      configDirectory := (← IO.getEnv "SNIFFKIT_CONFIG_DIR").map PhpStyle.Path.mk }
  let disk ← Snapshot.forArguments env args
  let ending := CommandLine.run env disk args
  Snapshot.writeChanges disk ending.disk
  IO.print ending.stdout
  match ending.error with
  | some message => IO.eprintln message
  | none => pure ()
  return ending.code.toUInt32
