import PhpStyle.Json
import PhpStyle.Rule.Basic
import PhpStyle.Text.Blank
import PhpStyle.Token.Search

/-!
The name of a class follows from the place of its file, by the PSR-4 table of the project's
manifest. Files outside of all mapped directories are not checked. Without a manifest the rule
cannot work.
-/

namespace PhpStyle

namespace NamespaceMap

open Text

/-- The directories of one entry of the table, or nothing when they are neither a text nor a list. -/
def directories? : Json → Option (List (List String))
  | .string dir => some [(⟨dir⟩ : Path).names]
  | .array dirs => some ((dirs.filterMap Json.string?).map fun dir => (⟨dir⟩ : Path).names)
  | _ => none

/-- The entries of one section of a manifest. -/
def ofSection (manifest : Json) (name : String) : NamespaceMap :=
  match (manifest.get? name).bind (·.get? "psr-4") with
  | some table => table.entries.filterMap fun e => (directories? e.2).map fun dirs => (e.1, dirs)
  | none => []

def ofManifest (manifest : Json) : NamespaceMap :=
  ofSection manifest "autoload" ++ ofSection manifest "autoload-dev"

/-- Each namespace with each of its directories. -/
def pairs (map : NamespaceMap) : List (String × List String) :=
  map.flatMap fun e => e.2.map fun dir => (e.1, dir)

/-- The pair whose directory leads furthest towards `names`; of equal ones the last. -/
def covering? (map : NamespaceMap) (names : List String) : Option (String × List String) :=
  (map.pairs.filter fun p => p.2.isPrefixOf names).foldl
    (fun best p => match best with
      | some b => if p.2.length < b.2.length then some b else some p
      | none => some p)
    none

/-- The full class name for the file that `names` lead to. -/
def expectedName? (map : NamespaceMap) (names : List String) : Option String := do
  let (space, dir) ← map.covering? names
  let below := names.drop dir.length
  let file ← below.getLast?
  let segments := below.dropLast ++ [(Path.splitName file).1]
  let space := trimBoth (· == '\\') space.toList
  let name := "\\".intercalate segments
  return if space.isEmpty then name else String.ofList space ++ "\\" ++ name

end NamespaceMap

namespace Rules.Psr4

open Text

def info : RuleInfo where
  name := "psr4-autoload-consistency"
  code := "SK007"
  description := "Requires class names to match the PSR-4 autoload map of composer.json"
  severity := .error
  fixable := false
  kinds := [.kwClass, .kwInterface, .kwTrait, .kwEnum]

structure Options where
  /-- The directory of the manifest, by default the working directory. -/
  base : Option Path := none
  /-- The manifest, seen from there. -/
  manifest : String := "composer.json"
  deriving DecidableEq, Repr

def Options.directory (o : Options) (disk : Disk) : Path :=
  match o.base with
  | some path => disk.cwd.join path
  | none => disk.cwd

def load (disk : Disk) (manifest : Path) : Except RuleError NamespaceMap :=
  match disk.readText manifest with
  | .error e => .error (.config ("cannot read " ++ manifest.text ++ ": " ++ e.message))
  | .ok text => match Json.parse? text with
    | none => .error (.config ("cannot parse " ++ manifest.text))
    | some json => .ok (NamespaceMap.ofManifest json)

/-- The table of a manifest, read only if it is not the one remembered. -/
def lookUp (disk : Disk) (manifest : Path) (memory : Memory) :
    Except RuleError NamespaceMap × Memory :=
  match memory.manifest.filter fun m => m.1.same manifest with
  | some (_, map) => (.ok map, memory)
  | none => match load disk manifest with
    | .ok map => (.ok map, { memory with manifest := some (manifest, map) })
    | .error e => (.error e, memory)

/-- The names that lead from `base` to a file below it. -/
def namesBelow? (disk : Disk) (base path : Path) : Option (List String) :=
  ((disk.absolute path).relativeTo? base).map Path.names

/-- The name declared after the keyword at `i`, unless the class is anonymous. -/
def nameIndex? (ts : Tokens) (i : Nat) : Option Nat := do
  guard !((ts.previousEffective i).any (ts.kindIs (· == .kwNew)))
  (ts.nextEffective i).filter (ts.kindIs (· == .name))

/-- The namespace declared last before `i`. -/
def namespaceAt? (ts : Tokens) (i : Nat) : Option String := do
  let keyword ← ts.findPrevious (fun t => t.kind == .kwNamespace) i none
  let n ← (ts.nextEffective keyword).filter (ts.kindIs (· == .name))
  return String.ofList ((ts.content n).toList.dropWhile (· == '\\'))

def finding? (site : Site) (base : Path) (map : NamespaceMap) (i name : Nat) : Option Finding := do
  let names ← namesBelow? site.disk base site.file.path
  let expected ← map.expectedName? names
  let short := site.tokens.content name
  let actual := match namespaceAt? site.tokens i with
    | some space => space ++ "\\" ++ short
    | none => short
  guard (actual ≠ expected)
  return {
    index := name
    message := "Class name \"" ++ actual ++ "\" does not match the PSR-4 expected name \"" ++
      expected ++ "\"" }

def process (o : Options) (site : Site) (i : Nat) (memory : Memory) : RuleScript × Memory :=
  match nameIndex? site.tokens i with
  | none => (.done, memory)
  | some name =>
    let base := o.directory site.disk
    match lookUp site.disk (base.joinName o.manifest) memory with
    | (.error e, memory) => (.fail e, memory)
    | (.ok map, memory) => (.ofFindings (finding? site base map i name).toList, memory)

def rule (o : Options) : Rule where
  toRuleInfo := info
  process := process o

end Rules.Psr4

end PhpStyle
