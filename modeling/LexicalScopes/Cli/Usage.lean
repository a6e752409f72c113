import LexicalScopes.Cli.Grammar

/-!
# Usage

The texts that tell how the program is called. The program as a whole and each of its commands has a
page of its own: a short usage, which goes with every complaint about a command line, and a longer
help.
-/

namespace LexicalScopes.Cli

/-- The program, or one of its commands. -/
inductive Page where
  | program
  | scopes
  | find
deriving DecidableEq, Repr

namespace Page

/-- How what the page describes is called. -/
def title : Page → String
  | program => "js2scopes"
  | scopes => "js2scopes scopes"
  | find => "js2scopes find"

/-- The options that are understood. -/
def options : Page → List OptionName
  | program => [.help, .verbose]
  | scopes => [.help, .strict, .asModule, .generated, .out]
  | find => [.help, .strict, .asModule, .generated, .line, .column]

/-- The page of a command. -/
def ofCommand? : String → Option Page
  | "scopes" => some scopes
  | "find" => some find
  | _ => none

/-- The lines of the short usage. -/
def usageLines : Page → List String
  | program => ["usage: js2scopes [-h] [-v] \x7bscopes,find\x7d ..."]
  | scopes =>
    ["usage: js2scopes scopes [-h] [--strict] [--module] [--generated] [--out OUT]",
     "                        input"]
  | find =>
    ["usage: js2scopes find [-h] [--strict] [--module] [--generated] --line LINE",
     "                      [--column COLUMN]",
     "                      input"]

/-- The lines of the help that follow the usage. -/
def detailLines : Page → List String
  | program =>
    ["",
     "Inspect the lexical scopes of JavaScript source",
     "",
     "positional arguments:",
     "  \x7bscopes,find\x7d",
     "    scopes       Write the scope tree as JSON",
     "    find         List the scopes enclosing a source position, innermost first",
     "",
     "options:",
     "  -h, --help     show this help message and exit",
     "  -v, --verbose  Enable debug logging."]
  | scopes =>
    ["",
     "positional arguments:",
     "  input        Path to the JavaScript file",
     "",
     "options:",
     "  -h, --help   show this help message and exit",
     "  --strict     Disable tolerant parsing and treat parse warnings as errors.",
     "  --module     Parse the input as an ES module (enables import/export syntax).",
     "  --generated  Treat the input as bundled/generated output when deciding on a",
     "               module scope.",
     "  --out OUT    Output JSON file path (defaults to stdout)"]
  | find =>
    ["",
     "positional arguments:",
     "  input            Path to the JavaScript file",
     "",
     "options:",
     "  -h, --help       show this help message and exit",
     "  --strict         Disable tolerant parsing and treat parse warnings as",
     "                   errors.",
     "  --module         Parse the input as an ES module (enables import/export",
     "                   syntax).",
     "  --generated      Treat the input as bundled/generated output when deciding",
     "                   on a module scope.",
     "  --line LINE      1-based line",
     "  --column COLUMN  0-based column"]

/-- The lines of the help. -/
def helpLines (p : Page) : List String := p.usageLines ++ p.detailLines

/-- The lines of a complaint about a command line. -/
def complaint (p : Page) (problem : Problem) : List String :=
  p.usageLines ++ [p.title ++ ": error: " ++ problem.message]

end Page

end LexicalScopes.Cli
