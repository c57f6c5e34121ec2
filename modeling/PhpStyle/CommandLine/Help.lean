import PhpStyle.CommandLine.Arguments

/-!
The help texts of the program and its commands.
-/

namespace PhpStyle.CommandLine

def unlines (ls : List String) : String :=
  String.join (ls.map (· ++ "\n"))

def version : String :=
  "sniffkit 0.3.0\n"

def programHelp : String :=
  unlines
    ["CLI tool for the sniffkit coding-standard checker and fixer",
     "",
     "Usage: sniffkit [OPTIONS] <COMMAND>",
     "",
     "Commands:",
     "  check       Run checks, optionally applying fixes",
     "  list-rules  List available rules",
     "  init        Initialize configuration file",
     "  help        Print this message or the help of the given subcommand(s)",
     "",
     "Options:",
     "  -v, --verbose          Enable verbose output",
     "  -c, --config <CONFIG>  Path to configuration file",
     "  -h, --help             Print help",
     "  -V, --version          Print version"]

def checkHelp : String :=
  unlines
    ["Run checks, optionally applying fixes",
     "",
     "Usage: sniffkit check [OPTIONS] [PATH]",
     "",
     "Arguments:",
     "  [PATH]  File or directory to analyze (default: current directory) [default: .]",
     "",
     "Options:",
     "      --fix                Apply fixes and write the patched files",
     "  -v, --verbose            Enable verbose output",
     "  -c, --config <CONFIG>    Path to configuration file",
     "  -f, --format <FORMAT>    Output format [default: text] [possible values: text, json, " ++
       "compact, pretty]",
     "      --rules <RULES>      Only run specific rules (comma-separated names or codes)",
     "  -e, --exclude <EXCLUDE>  Exclude patterns (can be specified multiple times)",
     "  -h, --help               Print help (see more with '--help')"]

def longCheckHelp : String :=
  unlines
    ["Run checks, optionally applying fixes",
     "",
     "Usage: sniffkit check [OPTIONS] [PATH]",
     "",
     "Arguments:",
     "  [PATH]",
     "          File or directory to analyze (default: current directory)",
     "          ",
     "          [default: .]",
     "",
     "Options:",
     "      --fix",
     "          Apply fixes and write the patched files",
     "",
     "  -v, --verbose",
     "          Enable verbose output",
     "",
     "  -c, --config <CONFIG>",
     "          Path to configuration file",
     "",
     "  -f, --format <FORMAT>",
     "          Output format",
     "",
     "          Possible values:",
     "          - text:    Human-readable text output",
     "          - json:    JSON output",
     "          - compact: One-line-per-violation compact format",
     "          - pretty:  Source snippets with highlighted spans",
     "          ",
     "          [default: text]",
     "",
     "      --rules <RULES>",
     "          Only run specific rules (comma-separated names or codes)",
     "",
     "  -e, --exclude <EXCLUDE>",
     "          Exclude patterns (can be specified multiple times)",
     "",
     "  -h, --help",
     "          Print help (see a summary with '-h')"]

def listRulesHelp : String :=
  unlines
    ["List available rules",
     "",
     "Usage: sniffkit list-rules [OPTIONS]",
     "",
     "Options:",
     "  -v, --verbose          Enable verbose output",
     "  -c, --config <CONFIG>  Path to configuration file",
     "  -h, --help             Print help"]

def initHelp : String :=
  unlines
    ["Initialize configuration file",
     "",
     "Usage: sniffkit init [OPTIONS]",
     "",
     "Options:",
     "      --force            Overwrite existing config",
     "  -v, --verbose          Enable verbose output",
     "  -c, --config <CONFIG>  Path to configuration file",
     "  -h, --help             Print help"]

def helpHelp : String :=
  unlines
    ["Print this message or the help of the given subcommand(s)",
     "",
     "Usage: sniffkit help [COMMAND]...",
     "",
     "Arguments:",
     "  [COMMAND]...  Print help for the subcommand(s)"]

def helpText (topic : Topic) (long : Bool) : String :=
  match topic with
  | .program => programHelp
  | .check => if long then longCheckHelp else checkHelp
  | .listRules => listRulesHelp
  | .init => initHelp
  | .help => helpHelp

end PhpStyle.CommandLine
