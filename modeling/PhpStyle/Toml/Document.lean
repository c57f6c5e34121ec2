import PhpStyle.Toml.Scalar

/-!
Reading TOML documents. A document is read into statements; these are then put into one table, where
the rules on what may be defined twice apply.
-/

namespace PhpStyle.Toml

open Reader

/-! ### The table under construction -/

/-- How a table came to be. -/
inductive Origin where
  /-- It has a header or a value of its own. -/
  | header
  /-- It is on the way to another one's header. -/
  | implied
  /-- It is on the way of a dotted key. -/
  | dotted
  deriving DecidableEq, Repr

/-- What a key stands for so far. -/
inductive Node where
  | value (value : Toml)
  | table (origin : Origin) (entries : List (String × Node))
  /-- An array of tables; the last one can still grow. -/
  | tables (items : List (List (String × Node)))

abbrev Entries := List (String × Node)

mutual

def Node.toToml : Node → Toml
  | .value v => v
  | .table _ es => .table (entriesToToml es)
  | .tables items => .array (itemsToToml items)

def entriesToToml : List (String × Node) → List (String × Toml)
  | [] => []
  | (k, n) :: es => (k, n.toToml) :: entriesToToml es

def itemsToToml : List (List (String × Node)) → List Toml
  | [] => []
  | es :: rest => .table (entriesToToml es) :: itemsToToml rest

end

/-- Sets what a key stands for. -/
def setNode (key : String) (n : Node) (es : Entries) : Entries :=
  es.filter (·.1 ≠ key) ++ [(key, n)]

/-- Changes the table that a path leads to, making the tables on the way if they are missing. `f` is
also told how that table came to be. A dotted path leads through no table with a header. -/
def modifyAt (dotted : Bool) (f : Origin → Entries → Option Entries) :
    List String → Origin → Entries → Option Entries
  | [], origin, es => f origin es
  | key :: path, _, es =>
    match es.lookup key with
    | none =>
      let origin := if dotted then Origin.dotted else .implied
      (modifyAt dotted f path origin []).map fun t => setNode key (.table origin t) es
    | some (.value _) => none
    | some (.table origin t) =>
      if dotted && origin == .header then none
      else (modifyAt dotted f path origin t).map fun t => setNode key (.table origin t) es
    | some (.tables items) =>
      match items.getLast? with
      | none => none
      | some t => (modifyAt dotted f path .header t).map fun t =>
          setNode key (.tables (items.dropLast ++ [t])) es

/-- A key with its value. -/
structure Entry where
  path : List String
  key : String
  value : Toml

/-- Adds a key, which must be new. Behind a dotted key is always a table made by dotted keys. -/
def addEntry (es : Entries) (e : Entry) : Option Entries :=
  modifyAt true (fun origin t =>
      if (origin == .dotted) == e.path.isEmpty || (t.lookup e.key).isSome then none
      else some (t ++ [(e.key, .value e.value)]))
    e.path .header es

def addEntries (es : Entries) (new : List Entry) : Option Entries :=
  new.foldlM addEntry es

/-- A header with the entries below it. -/
structure Section where
  /-- Whether the header adds a table to an array. -/
  isItem : Bool
  path : List String
  key : String
  entries : List Entry

/-- Adds a section. A header can only name a table that has had none. -/
def addSection (root : Entries) (s : Section) : Option Entries :=
  modifyAt false (fun _ parent =>
      if s.isItem then
        match parent.lookup s.key with
        | none => do return parent ++ [(s.key, .tables [← addEntries [] s.entries])]
        | some (.tables items) => do
          return setNode s.key (.tables (items ++ [← addEntries [] s.entries])) parent
        | some _ => none
      else
        match parent.lookup s.key with
        | none => do return parent ++ [(s.key, .table .header (← addEntries [] s.entries))]
        | some (.table .implied t) => do
          return setNode s.key (.table .header (← addEntries t s.entries)) parent
        | some _ => none)
    s.path .implied root

namespace Reading

/-! ### Keys and values -/

/-- The number of nested brackets, and of parts of a key, that is too large. -/
def depthLimit : Nat :=
  80

def isBareKeyChar (c : Char) : Bool :=
  c.isAlphanum || c == '-' || c == '_'

def simpleKey : Reader String := do
  return String.ofList (← orElse basicString (orElse literalString (run1 isBareKeyChar)))

/-- The parts of a dotted key. -/
def dottedKey : Reader (List String) := do
  let parts ← sepBy1 (do spaces; let k ← simpleKey; spaces; return k) (text ".")
  guard (parts.length < depthLimit)
  return parts

/-- An entry, `value` reading what is after its equals sign. -/
def entry (value : Reader Toml) : Reader Entry := do
  let parts ← dottedKey
  text "="
  spaces
  return ⟨parts.dropLast, parts.getLast?.getD "", ← value⟩

def comment : Reader Unit := do
  text "#"
  let _ ← run isCommentChar

/-- The blanks, line feeds and comments between the items of an array. -/
def filler : Reader Unit := do
  let _ ← many (orElse (do let _ ← run1 isSpace) (orElse newline comment))

def arrayItems (value : Reader Toml) : Reader (List Toml) := do
  text "["
  let items ← attempt (sepBy1 (do filler; let v ← value; filler; return v) (text ","))
  if items.isSome then
    let _ ← attempt (text ",")
  filler
  text "]"
  return items.getD []

def inlineEntries (value : Reader Toml) : Reader (List Entry) := do
  text "\x7b"
  let entries ← sepBy (do let e ← entry value; spaces; return e) (text ",")
  spaces
  text "\x7d"
  return entries

/-- A value with at most `depth` brackets open at once. -/
def value : Nat → Reader Toml
  | 0 => do
    match ← peek with
    | some '[' | some '\x7b' => failure
    | _ => scalar
  | depth + 1 => do
    match ← peek with
    | some '[' => return .array (← arrayItems (value depth))
    | some '\x7b' =>
      match addEntries [] (← inlineEntries (value depth)) with
      | some es => return .table (entriesToToml es)
      | none => failure
    | _ => scalar

/-! ### Documents -/

/-- The end of a line, with a comment before it. -/
def lineEnd : Reader Unit := do
  spaces
  let _ ← attempt comment
  if (← ahead).isEmpty then return () else newline

def blankLine : Reader Unit := do
  spaces
  orElse newline (do comment; lineEnd)

def blankLines : Reader Unit := do
  let _ ← many blankLine

def entryLine : Reader Entry := do
  blankLines
  spaces
  let e ← entry (value (depthLimit - 1))
  lineEnd
  return e

/-- The key of a header, and whether it has two brackets. -/
def header : Reader (Bool × List String) := do
  let isItem := (← attempt (text "[[")).isSome
  if !isItem then text "["
  let parts ← dottedKey
  text (if isItem then "]]" else "]")
  return (isItem, parts)

def sectionLines : Reader Section := do
  blankLines
  spaces
  let (isItem, parts) ← header
  lineEnd
  return ⟨isItem, parts.dropLast, parts.getLast?.getD "", ← many entryLine⟩

def document : Reader (List Entry × List Section) := do
  let _ ← attempt (text "\uFEFF")
  let entries ← many entryLine
  let sections ← many sectionLines
  blankLines
  spaces
  return (entries, sections)

end Reading

/-- Reads a document into its table. -/
def parse? (s : String) : Option (List (String × Toml)) := do
  let (entries, sections) ← whole? Reading.document s
  let root ← addEntries [] entries
  return entriesToToml (← sections.foldlM addSection root)

end PhpStyle.Toml
