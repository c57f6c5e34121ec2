import PhpStyle.Disk
import PhpStyle.RuleSet

/-!
The project that a checked path belongs to, and its configuration. The root of a project is the
nearest directory above the path that holds a configuration, a manifest or a `.git`.
-/

namespace PhpStyle

structure Project where
  root : Path
  /-- Whether the root holds a manifest. -/
  hasManifest : Bool
  /-- The file to read the configuration from; without one, the defaults hold. -/
  configFile : Option Path
  deriving DecidableEq, Repr

namespace Project

/-- The names of configuration files, the first that exists counts. -/
def configNames : List String :=
  ["sniffkit.toml", ".sniffkit.toml"]

def manifestName : String :=
  "composer.json"

variable (disk : Disk)

/-- The directory to start from: that of a file, or else the path itself. -/
def startDirectory (path : Path) : Path :=
  let full := match disk.canonical path with
    | .ok p => p
    | .error _ => path
  if disk.isFile full then full.parent?.getD ⟨""⟩ else full

def isRoot (dir : Path) : Bool :=
  configNames.any (fun n => disk.isFile (dir.joinName n)) ||
    disk.isFile (dir.joinName manifestName) || disk.pathExists (dir.joinName ".git")

/-- Finds the project of a path. A configuration file that is asked for counts before that of the
project, and that before the one in the user's own directory. -/
def discover (path : Path) (explicit userDirectory : Option Path) : Project :=
  let start := startDirectory disk path
  let root := (start.ancestors.find? (isRoot disk)).getD start
  let own := (configNames.map root.joinName).find? disk.isFile
  let user := (userDirectory.map (·.joinName "config.toml")).filter disk.isFile
  { root := root
    hasManifest := disk.isFile (root.joinName manifestName)
    configFile := (explicit.or own).or user }

/-- Sets an option of a rule. -/
def setOption (rule key : String) (value : Toml) (c : Config) : Config :=
  let old := (c.rule? rule).getD {}
  let new := { old with options := old.options.filter (·.1 ≠ key) ++ [(key, value)] }
  { c with rules := c.rules.filter (·.1 ≠ rule) ++ [(rule, new)] }

/-- Where the manifest is looked for: below the root of the project, if a directory is configured or
the root holds a manifest. -/
def manifestDirectory? (p : Project) (c : Config) : Option Path :=
  match (c.rule? Rules.Psr4.info.name).bind (·.text? "base_path") with
  | some base => some (p.root.joinName base)
  | none => if p.hasManifest then some p.root else none

def resolve (p : Project) (c : Config) : Config :=
  match p.manifestDirectory? c with
  | some dir => setOption Rules.Psr4.info.name "base_path" (.string dir.text) c
  | none => c

/-- The configuration of a project, or the file that it cannot be read from. -/
def loadConfig (p : Project) : Except Path Config :=
  match p.configFile with
  | none => .ok (p.resolve {})
  | some file =>
    match disk.readText file with
    | .error _ => .error file
    | .ok text => match Config.parse? text with
      | some c => .ok (p.resolve c)
      | none => .error file

end Project

end PhpStyle
