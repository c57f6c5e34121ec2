import PhpStyle.Path
import PhpStyle.Text.Search

/-!
The arguments of the command line. Arguments are read from left to right, and the first that is
wrong, or asks for help, decides.
-/

namespace PhpStyle.CommandLine

inductive OutputFormat where
  | text | json | compact | pretty
  deriving DecidableEq, Repr, Inhabited

def OutputFormat.ofName? : String → Option OutputFormat
  | "text" => some text
  | "json" => some json
  | "compact" => some compact
  | "pretty" => some pretty
  | _ => none

structure CheckOptions where
  path : Path := ⟨"."⟩
  fix : Bool := false
  format : OutputFormat := .text
  /-- Names or codes of rules, separated by commas. -/
  rules : Option String := none
  exclude : List String := []
  deriving DecidableEq, Repr

inductive Command where
  | check (options : CheckOptions)
  | listRules
  | init (force : Bool)
  deriving DecidableEq, Repr

/-- What help is asked about. -/
inductive Topic where
  | program | check | listRules | init | help
  deriving DecidableEq, Repr

def Topic.ofName? : String → Option Topic
  | "check" => some check
  | "list-rules" => some listRules
  | "init" => some init
  | "help" => some help
  | _ => none

/-- Why arguments lead to no command. -/
inductive Stop where
  | usage
  | help (topic : Topic) (long : Bool)
  | version
  deriving DecidableEq, Repr

/-- A command with the configuration file that is asked for. -/
structure Request where
  config : Option Path
  command : Command
  deriving DecidableEq, Repr

/-- An option: what it is called, and which values it takes. -/
structure OptionSpec where
  long : String
  short : Option Char
  takesValue : Bool := false
  /-- Whether it may be given more than once. -/
  repeatable : Bool := false
  isValid : String → Bool := fun _ => true

def isNonEmpty (s : String) : Bool :=
  s != ""

/-- The options that are understood before and after the name of a command. -/
def globalOptions : List OptionSpec :=
  [{ long := "verbose", short := some 'v' },
   { long := "config", short := some 'c', takesValue := true, isValid := isNonEmpty },
   { long := "help", short := some 'h' }]

/-- What is understood at one level: of the program, or of one command. -/
structure Level where
  topic : Topic
  options : List OptionSpec
  /-- How many plain arguments are taken; the program takes none, but a command's name. -/
  words : Nat := 0

def programLevel : Level where
  topic := .program
  options := globalOptions ++ [{ long := "version", short := some 'V' }]

def checkLevel : Level where
  topic := .check
  options := globalOptions ++
    [{ long := "fix", short := none },
     { long := "format", short := some 'f', takesValue := true,
       isValid := fun s => (OutputFormat.ofName? s).isSome },
     { long := "rules", short := none, takesValue := true },
     { long := "exclude", short := some 'e', takesValue := true, repeatable := true }]
  words := 1

def listRulesLevel : Level where
  topic := .listRules
  options := globalOptions

def initLevel : Level where
  topic := .init
  options := globalOptions ++ [{ long := "force", short := none }]

/-- What was given so far, in order. -/
structure Given where
  options : List (String × String) := []
  words : List String := []
  deriving DecidableEq, Repr

namespace Given

def has (g : Given) (long : String) : Bool :=
  g.options.any (·.1 == long)

def values (g : Given) (long : String) : List String :=
  (g.options.filter (·.1 == long)).map (·.2)

def value? (g : Given) (long : String) : Option String :=
  (g.values long).head?

end Given

/-- Takes note of an option with its value. -/
def addOption (l : Level) (g : Given) (spec : OptionSpec) (fromShort : Bool) (value : String) :
    Except Stop Given :=
  if spec.long == "help" then .error (.help l.topic (!fromShort))
  else if spec.long == "version" then .error .version
  else if !spec.isValid value || (g.has spec.long && !spec.repeatable) then .error .usage
  else .ok { g with options := g.options ++ [(spec.long, value)] }

def addWord (l : Level) (g : Given) (word : String) : Except Stop Given :=
  if g.words.length < l.words && isNonEmpty word then .ok { g with words := g.words ++ [word] }
  else .error .usage

/-- The next argument as the value of an option. What starts with a hyphen is none, unless it is
nothing but one. -/
def valueAhead? : List String → Option (String × List String)
  | [] => none
  | v :: rest => if v.toList.head? == some '-' && v != "-" then none else some (v, rest)

/-- Reads the letters after a single hyphen. A letter that takes a value takes the rest, or else the
next argument. -/
def readLetters (l : Level) (rest : List String) : Given → List Char →
    Except Stop (Given × List String)
  | g, [] => .ok (g, rest)
  | g, c :: cs =>
    match l.options.find? (·.short == some c) with
    | none => .error .usage
    | some spec =>
      if spec.takesValue then
        if cs.isEmpty then
          match valueAhead? rest with
          | none => .error .usage
          | some (v, rest) => (addOption l g spec true v).map (·, rest)
        else
          let value := if cs.head? == some '=' then cs.tail else cs
          (addOption l g spec true (String.ofList value)).map (·, rest)
      else
        match addOption l g spec true "" with
        | .error e => .error e
        | .ok g => readLetters l rest g cs

/-- Reads the name after two hyphens, with a value after an equals sign or in the next argument. -/
def readLong (l : Level) (g : Given) (body : List Char) (rest : List String) :
    Except Stop (Given × List String) :=
  let name := String.ofList (body.takeWhile (· ≠ '='))
  let attached : Option String :=
    if body.contains '=' then some (String.ofList (body.dropWhile (· ≠ '=')).tail) else none
  match l.options.find? (·.long == name) with
  | none => .error .usage
  | some spec =>
    if spec.takesValue then
      match attached.map (·, rest) |>.or (valueAhead? rest) with
      | none => .error .usage
      | some (v, rest) => (addOption l g spec false v).map (·, rest)
    else if attached.isSome then .error .usage
    else (addOption l g spec false "").map (·, rest)

/-- One argument, and how many more it uses. -/
def readArgument (l : Level) (g : Given) (arg : String) (rest : List String) :
    Except Stop (Given × List String) :=
  match arg.toList with
  | '-' :: '-' :: body => readLong l g body rest
  | '-' :: c :: cs => readLetters l rest g (c :: cs)
  | _ => (addWord l g arg).map (·, rest)

def isWord (arg : String) : Bool :=
  arg.toList.head? != some '-' || arg == "-"

/-- Reads arguments; at the level of the program, up to the name of a command. -/
def readArguments (l : Level) (g : Given) (args : List String) :
    Except Stop (Given × List String) :=
  match args with
  | [] => .ok (g, [])
  | arg :: rest =>
    if arg = "--" then (rest.foldlM (addWord l) g).map (·, [])
    else if isWord arg && l.words = 0 && l.topic = .program then .ok (g, args)
    else match readArgument l g arg rest with
      | .error e => .error e
      | .ok (g, rest') =>
        if rest'.length ≤ rest.length then readArguments l g rest' else .error .usage
termination_by args.length

/-- The topic that the arguments of `help` name. -/
def helpTopic : List String → Except Stop Stop
  | [] => .ok (.help .program true)
  | [name] => match Topic.ofName? name with
    | some t => .ok (.help t true)
    | none => .error .usage
  | _ => .error .usage

def levelOf? : String → Option Level
  | "check" => some checkLevel
  | "list-rules" => some listRulesLevel
  | "init" => some initLevel
  | _ => none

def commandOf (l : Level) (g : Given) : Command :=
  match l.topic with
  | .check => .check {
      path := ⟨g.words.head?.getD "."⟩
      fix := g.has "fix"
      format := ((g.value? "format").bind OutputFormat.ofName?).getD .text
      rules := g.value? "rules"
      exclude := g.values "exclude" }
  | .init => .init (g.has "force")
  | _ => .listRules

/-- Reads all arguments. An option given after the name of the command counts before one given in
front of it. -/
def parse (args : List String) : Except Stop Request := do
  match ← readArguments programLevel {} args with
  | (_, []) => throw .usage
  | (outer, name :: rest) =>
    if name = "help" then throw (← helpTopic rest)
    match levelOf? name with
    | none => throw .usage
    | some l =>
      let (inner, _) ← readArguments l {} rest
      return {
        config := ((inner.value? "config").or (outer.value? "config")).map Path.mk
        command := commandOf l inner }

end PhpStyle.CommandLine
