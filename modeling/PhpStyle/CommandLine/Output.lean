import PhpStyle.CommandLine.Arguments
import PhpStyle.Json
import PhpStyle.Report

/-!
How a report is printed.
-/

namespace PhpStyle.CommandLine

/-- The escape sequences that colour text on a terminal. -/
def colored (code text : String) : String :=
  "\x1b[" ++ code ++ "m" ++ text ++ "\x1b[0m"

def red : String :=
  "31"

def green : String :=
  "32"

def yellow : String :=
  "33"

def blue : String :=
  "34"

def severityColor : Severity → String
  | .error => red
  | .warning => yellow
  | .info => blue

/-- The last line of a report, in the colour of the worst that remains. -/
def summary (r : Report) : String :=
  let color :=
    if 0 < r.count .error then red else if 0 < r.count .warning then yellow else green
  colored color ("Found " ++ toString (r.count .error) ++ " error(s), " ++
    toString (r.count .warning) ++ " warning(s), " ++ toString (r.count .info) ++ " info(s) in " ++
    toString r.filesChecked ++ " file(s); " ++ toString r.fixedCount ++ " fixed") ++ "\n"

def textParagraph (v : Violation) : String :=
  v.code ++ " " ++ v.rule ++ " at " ++ v.location.text ++ "\n" ++
    "  " ++ colored (severityColor v.severity) v.severity.label ++ ": " ++ v.message ++ "\n" ++
    (if v.fixable then "  = fixable with --fix\n" else "") ++ v.helpLine ++ "\n"

/-- The unfixed violations in paragraphs, and the summary. -/
def textReport (r : Report) : String :=
  String.join (r.unfixed.map textParagraph) ++ summary r

def compactReport (r : Report) : String :=
  String.join (r.violations.map fun v => v.display ++ "\n")

/-- A violation with its label, without the source around it. -/
def diagnosticParagraph (v : Violation) : String :=
  "  × [" ++ v.code ++ "] " ++ v.message ++ "\n" ++
    "   ╭─[" ++ v.location.text ++ "]\n" ++ "   ╰── " ++ v.rule ++ "\n" ++
    (match v.help with
      | some h => "  help: " ++ h ++ "\n"
      | none => "") ++ "\n"

def prettyReport (r : Report) : String :=
  String.join (r.unfixed.map diagnosticParagraph) ++ summary r

def locationJson (l : Location) : Json :=
  .object [("file", .string l.file.text), ("line", .ofNat l.line), ("column", .ofNat l.column),
    ("offset", .ofNat l.offset), ("length", .ofNat l.length)]

def violationJson (v : Violation) : Json :=
  .object ([("code", .string v.code), ("rule", .string v.rule),
    ("severity", .string v.severity.label), ("location", locationJson v.location),
    ("message", .string v.message), ("fixable", .bool v.fixable), ("fixed", .bool v.fixed)] ++
    match v.help with
    | some h => [("suggestion", .object [("message", .string h)])]
    | none => [])

def outcomeJson (f : FileOutcome) : Json :=
  .object [("file", .string f.file.text), ("passes", .ofNat f.passes),
    ("converged", .bool f.converged)]

def failureJson (f : RuleFailure) : Json :=
  .object [("rule", .string f.rule), ("code", .string f.code), ("kind", .string f.kind.label),
    ("message", .string f.message), ("file", .string f.file.text)]

def reportJson (r : Report) : Json :=
  .object [("violations", .array (r.violations.map violationJson)),
    ("files_checked", .ofNat r.filesChecked), ("files", .array (r.files.map outcomeJson)),
    ("rule_errors", .array (r.failures.map failureJson))]

def render (format : OutputFormat) (r : Report) : String :=
  match format with
  | .text => textReport r
  | .json => (reportJson r).pretty ++ "\n"
  | .compact => compactReport r
  | .pretty => prettyReport r

end PhpStyle.CommandLine
