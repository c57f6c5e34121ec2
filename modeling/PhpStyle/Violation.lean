import PhpStyle.Path
import PhpStyle.Text.Search

/-!
Violations of rules, and how they are written out.
-/

namespace PhpStyle

inductive Severity where
  | info | warning | error
  deriving DecidableEq, Repr, Inhabited

namespace Severity

def label : Severity → String
  | info => "info"
  | warning => "warning"
  | error => "error"

def ofLabel? (s : String) : Option Severity :=
  [info, warning, error].find? (·.label == s)

def rank : Severity → Nat
  | info => 0
  | warning => 1
  | error => 2

/-- Whether `s` is as severe as `bound` or more. -/
def reaches (s bound : Severity) : Bool :=
  bound.rank ≤ s.rank

end Severity

/-- A place in a file. `offset` and `length` count bytes. -/
structure Location where
  file : Path
  line : Nat
  column : Nat
  offset : Nat := 0
  length : Nat := 0
  deriving DecidableEq, Repr, Inhabited

def Location.text (l : Location) : String :=
  l.file.text ++ ":" ++ toString l.line ++ ":" ++ toString l.column

structure Violation where
  /-- The code of the rule. -/
  code : String
  /-- The name of the rule. -/
  rule : String
  severity : Severity
  location : Location
  message : String
  /-- Whether the rule knows a fix. -/
  fixable : Bool := false
  /-- Whether that fix was applied. -/
  fixed : Bool := false
  help : Option String := none
  deriving DecidableEq, Repr, Inhabited

/-- A violation set against the source it was found in. -/
structure Diagnostic where
  message : String
  help : Option String
  label : String
  offset : Nat
  length : Nat
  deriving DecidableEq, Repr

namespace Violation

def helpLine (v : Violation) : String :=
  match v.help with
  | some h => "  = help: " ++ h ++ "\n"
  | none => ""

/-- The violation on one line. -/
def display (v : Violation) : String :=
  v.location.text ++ ": " ++ v.severity.label ++ " [" ++ v.code ++ "] " ++ v.message ++
    (if v.fixed then " (fixed)" else if v.fixable then " (fixable)" else "")

/-- The violation as a paragraph. -/
def format (v : Violation) : String :=
  v.code ++ " " ++ v.rule ++ " at " ++ v.location.text ++ "\n" ++
    "  " ++ v.severity.label ++ ": " ++ v.message ++ "\n" ++
    (if v.fixed then "  = fixed\n" else if v.fixable then "  = fixable with --fix\n" else "") ++
    v.helpLine

/-- The violation's span, cut to the source. -/
def diagnostic (v : Violation) (source : String) : Diagnostic :=
  let size := Text.byteLength source.toList
  let offset := min v.location.offset size
  { message := "[" ++ v.code ++ "] " ++ v.message
    help := v.help
    label := v.rule
    offset := offset
    length := min v.location.length (size - offset) }

end Violation

end PhpStyle
