import PhpStyle.Analyzer.Basic
import PhpStyle.CommandLine.Help
import PhpStyle.CommandLine.Output
import PhpStyle.CommandLine.Project

/-!
The commands, from their arguments to what they print and write.
-/

namespace PhpStyle.CommandLine

/-- What the program is told by its surroundings. -/
structure Environment where
  home : Option Path := none
  /-- The directory of the user's own configuration, if it is not the usual one. -/
  configDirectory : Option Path := none
  deriving DecidableEq, Repr

def Environment.userDirectory (e : Environment) : Option Path :=
  e.configDirectory.or (e.home.map (·.joinName ".sniffkit"))

/-- Why a command failed. -/
inductive CommandError where
  | config (file : Path)
  | build
  | analysis
  | write (file : Path)
  | configExists
  | disk (cause : DiskError)
  deriving DecidableEq, Repr

def configName : String :=
  "sniffkit.toml"

def CommandError.message : CommandError → String
  | config file => "Failed to load config: " ++ file.text
  | build => "Failed to build analyzer"
  | analysis => "Analysis failed"
  | write file => "Failed to write " ++ file.text
  | configExists =>
    "Configuration file already exists at " ++ configName ++ ". Use --force to overwrite."
  | disk cause => cause.message

/-- How a run ended. -/
structure Ending where
  code : Nat
  stdout : String := ""
  error : Option String := none
  /-- The files after the run. -/
  disk : Disk

/-! ### check -/

/-- The rules with the given names or codes; unknown ones are passed over. -/
def namedRules (names : List String) (c : Config) : List Rule :=
  names.filterMap fun name => do
    let info ← Rules.infos.find? fun r => r.name == name || Text.sameLetters r.code name
    Rules.byName? info.name (c.rule? info.name)

def chosenRules (o : CheckOptions) (c : Config) : List Rule :=
  match o.rules with
  | some list =>
    namedRules ((Text.splitAt ',' list.toList).map fun n => String.ofList (Text.trim n)) c
  | none => c.ruleSet

/-- Writes the fixed files in order. -/
def writeFixes (disk : Disk) (r : Report) : Except CommandError Disk :=
  r.files.foldlM (fun d f => match f.fixedSource with
    | none => .ok d
    | some text => (d.writeText f.file text).mapError fun _ => .write f.file) disk

def checkRequest (o : CheckOptions) (c : Config) : AnalyzerRequest where
  config := c
  rules := chosenRules o c
  root := some o.path
  exclude := o.exclude
  fixing := o.fix

/-- Checks a path, and writes what was fixed. The run succeeds when no violation remains that fails
it, and no rule failed. -/
def check (e : Environment) (disk : Disk) (config : Option Path) (o : CheckOptions) :
    Except CommandError Ending := do
  let project := Project.discover disk o.path config e.userDirectory
  let c ← (project.loadConfig disk).mapError .config
  let a ← (Analyzer.build disk (checkRequest o c)).mapError fun _ => .build
  let r ← (a.analyze disk a.start.memories).1.mapError fun _ => .analysis
  let disk ← if o.fix then writeFixes disk r else .ok disk
  return {
    code := if r.failsAt c.failOn || !r.failures.isEmpty then 1 else 0
    stdout := render o.format r
    disk := disk }

/-! ### list-rules -/

/-- A text filled up with blanks. -/
def padded (width : Nat) (s : String) : String :=
  s ++ String.ofList (List.replicate (width - s.length) ' ')

def ruleRow (code name fixable description : String) : String :=
  padded 8 code ++ " " ++ padded 28 name ++ " " ++ padded 8 fixable ++ " " ++ description

def ruleList : String :=
  unlines
    (["Available rules:",
      "",
      ruleRow "Code" "Name" "Fixable" "Description",
      String.ofList (List.replicate 96 '-')] ++
     Rules.infos.map (fun r =>
      ruleRow r.code r.name (if r.fixable then "yes" else "no") r.description) ++
     ["",
      "Presets:",
      "  recommended  - SK001, SK002, SK003, SK004, SK006, SK009 (default)",
      "  strict       - All rules, including those reading project files",
      "  minimal      - SK001, SK006 (for gradual adoption)",
      "",
      "Use --rules to filter specific rules, e.g.:",
      "  sniffkit check --rules cast-spacing,doc-nullable-type",
      "  sniffkit check --fix --rules SK001,SK006"])

/-! ### init -/

def defaultConfig : String :=
  unlines
    ["# sniffkit configuration",
     "",
     "# Rule preset: \"recommended\", \"strict\" or \"minimal\"",
     "preset = \"recommended\"",
     "",
     "[analyzer]",
     "# Root directory to analyze (default: current directory)",
     "# root = \"./src\"",
     "",
     "# Glob patterns to exclude from analysis",
     "exclude = [",
     "    \"**/vendor/**\",",
     "    \"**/node_modules/**\",",
     "    \"**/cache/**\",",
     "]",
     "",
     "# File extensions to analyze",
     "extensions = [\"php\", \"inc\"]",
     "",
     "# Respect .gitignore files",
     "respect_gitignore = true",
     "",
     "# Ceiling on fix passes per file",
     "max_passes = 50",
     "",
     "# Unfixed violations at or above this severity fail the run",
     "fail_on = \"error\"",
     "",
     "# Rule configurations",
     "# Each rule can be enabled/disabled and have its severity overridden",
     "",
     "[rules.cast-spacing]",
     "enabled = true",
     "# severity = \"warning\"  # Override default severity",
     "spacing = 1",
     "",
     "[rules.require-function-doc]",
     "enabled = false",
     "skip_fully_typed = true",
     "",
     "# [rules.psr4-autoload-consistency]",
     "# enabled = true",
     "# base_path = \".\"",
     "",
     "# [rules.license-header]",
     "# enabled = true",
     "# file_names = [\"LICENSE_HEADER\", \".license-header\"]"]

/-- Writes a configuration file with the defaults. -/
def init (disk : Disk) (force : Bool) : Except CommandError Ending := do
  if disk.pathExists ⟨configName⟩ && !force then throw .configExists
  let disk ← (disk.writeText ⟨configName⟩ defaultConfig).mapError .disk
  return {
    code := 0
    stdout := unlines
      ["Created sniffkit.toml",
       "",
       "Next steps:",
       "  1. Edit sniffkit.toml to configure rules",
       "  2. Run: sniffkit check",
       "  3. Apply fixes: sniffkit check --fix"]
    disk := disk }

/-! ### All of them -/

def execute (e : Environment) (disk : Disk) (r : Request) : Except CommandError Ending :=
  match r.command with
  | .check o => check e disk r.config o
  | .listRules => .ok { code := 0, stdout := ruleList, disk := disk }
  | .init force => init disk force

/-- Runs the program on its arguments. -/
def run (e : Environment) (disk : Disk) (args : List String) : Ending :=
  match parse args with
  | .error .usage => { code := 2, disk := disk }
  | .error (.help topic long) => { code := 0, stdout := helpText topic long, disk := disk }
  | .error .version => { code := 0, stdout := version, disk := disk }
  | .ok r => match execute e disk r with
    | .ok ending => ending
    | .error cause => { code := 1, error := some ("Error: " ++ cause.message), disk := disk }

end PhpStyle.CommandLine
