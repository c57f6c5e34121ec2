import PhpStyle.Rule.Basic
import PhpStyle.Text.Blank
import PhpStyle.Token.Search

/-!
A file starts with the license header of its project: a given text, or that of the nearest header
file in the directories above. A missing header is put in; another comment in its place is only
reported.
-/

namespace PhpStyle.Rules.LicenseHeader

open Text

def info : RuleInfo where
  name := "license-header"
  code := "SK008"
  description := "Requires the project license header after the opening tag"
  severity := .error
  fixable := true
  kinds := [.openTag]

structure Options where
  /-- The names of header files, tried in order in each directory. -/
  fileNames : List String := ["LICENSE_HEADER", ".license-header"]
  /-- A header text, instead of a file. -/
  text : Option String := none
  deriving DecidableEq, Repr

def commentLine (line : List Char) : List Char :=
  if (trim line).isEmpty then " *\n".toList else " * ".toList ++ trimEnd line ++ ['\n']

/-- A header text as a block comment; one that is a comment stays as it is. -/
def comment (text : String) : String :=
  let body := trimEnd text.toList
  String.ofList <|
    if startsWith "/*".toList (trimStart body) then trimStart body
    else "/*\n".toList ++ (lines body).flatMap commentLine ++ " */".toList

/-- The header of a directory: that of the first header file in it or above it. -/
def search (disk : Disk) (fileNames : List String) (dir : Path) :
    Except RuleError (Option String) :=
  let candidates := dir.ancestors.flatMap fun above => fileNames.map above.joinName
  match candidates.find? disk.isFile with
  | none => .ok none
  | some candidate => match disk.readText candidate with
    | .ok text => .ok (some (comment text))
    | .error e => .error (.config ("cannot read " ++ candidate.text ++ ": " ++ e.message))

/-- Forgets headers that were looked up from another working directory. -/
def refresh (cwd : Path) (memory : Memory) : Memory :=
  if memory.headerCwd.same cwd then memory else { memory with headerCwd := cwd, headers := [] }

/-- The header of a file, searched for once for each directory. -/
def lookUp (o : Options) (disk : Disk) (file : Path) (memory : Memory) :
    Except RuleError (Option String) × Memory :=
  match o.text with
  | some text => (.ok (some (comment text)), memory)
  | none =>
    let dir := disk.cwd.join (file.parent?.getD ⟨""⟩)
    let memory := refresh disk.cwd memory
    match memory.headers.find? fun h => h.1.same dir with
    | some (_, header) => (.ok header, memory)
    | none => match search disk o.fileNames dir with
      | .ok header => (.ok header, { memory with headers := (dir, header) :: memory.headers })
      | .error e => (.error e, memory)

/-- The block comment at `i`. -/
def commentAt? (ts : Tokens) (i : Nat) : Option String := do
  let t ← ts.get? i
  match t.kind with
  | .comment => if startsWith "/*".toList t.content.toList then some t.content else none
  | .docOpen => t.links.docCloser.map (ts.contentBetween i)
  | _ => none

/-- What is wrong after the opening tag at `i`, where `header` should stand. -/
def finding? (ts : Tokens) (i : Nat) (header : String) : Option Finding :=
  let first := ts.findNext (fun t => t.kind != .blank) (i + 1) none
  match first.bind (commentAt? ts) with
  | some found =>
    if String.ofList (trimEnd found.toList) = header then none
    else some {
      index := first.getD i
      message := "File header comment does not match the license header"
      help := some "Replace the comment with the project's license header" }
  | none => some {
      index := i
      message := "Missing license header"
      fix := some [.insertAfter i ("\n" ++ header ++ "\n")] }

def isFirstTag (ts : Tokens) (i : Nat) : Bool :=
  i = 0 || (ts.findPrevious (fun t => t.kind == .openTag) (i - 1) none).isNone

def process (o : Options) (site : Site) (i : Nat) (memory : Memory) : RuleScript × Memory :=
  if isFirstTag site.tokens i then
    match lookUp o site.disk site.file.path memory with
    | (.error e, memory) => (.fail e, memory)
    | (.ok none, memory) => (.done, memory)
    | (.ok (some header), memory) =>
      (.ofFindings (finding? site.tokens i header).toList, memory)
  else (.done, memory)

def rule (o : Options) : Rule where
  toRuleInfo := info
  process := process o

end PhpStyle.Rules.LicenseHeader
