import LexicalScopes.Cli.Arguments
import LexicalScopes.Cli.FileTree
import LexicalScopes.Frontend
import LexicalScopes.Scope.Cursor
import LexicalScopes.Scope.Written

/-!
# Commands

What the program does when it is called: it reads the input, runs the analysis, says what went wrong
on the way, and delivers the result. A call ends with a status, 0 if the result was delivered, or
it breaks off on something that nobody answers for.
-/

namespace LexicalScopes.Cli

/-! ## Outcomes -/

/-- Why a call breaks off. -/
inductive Crash where
  /-- A value, a text or a path that has no meaning where it stands, or a line that the console does
  not take. -/
  | unreadable
  | files (error : FileError)
deriving DecidableEq, Repr

/-- How a call ends. -/
inductive Ending where
  | status (code : Nat)
  | crash (reason : Crash)
deriving DecidableEq, Repr

/-- What a call leaves behind. Each line that was written ended with a line feed. -/
structure Outcome where
  ending : Ending
  /-- The lines of the result. -/
  output : List String
  /-- The lines of the log and of the complaints. -/
  messages : List String
  files : FileTree
  calls : List ParserCall

/-! ## Reading the input -/

/-- A carriage return, alone or before a line feed, is read as a line feed. -/
def unifyLineEnds : List Char → List Char
  | [] => []
  | '\r' :: '\n' :: rest => '\n' :: unifyLineEnds rest
  | '\r' :: rest => '\n' :: unifyLineEnds rest
  | c :: rest => c :: unifyLineEnds rest

/-- The text in a file. -/
def textOf? (content : ByteArray) : Option String :=
  (String.fromUTF8? content).map fun s => Text.ofPlain (String.ofList (unifyLineEnds s.toList))

/-- The input cannot be had: how the call ends, and what is said about it. -/
structure Refused where
  ending : Ending
  messages : List String

/-- The complaint about an input that is a directory. -/
def directoryMessage (path : String) : String :=
  "ERROR: Failed to read " ++ path ++ ": [Errno 21] Is a directory: " ++ Text.quoted path

/-- The place of the input and its text. -/
def readInput (files : FileTree) (workingDirectory : Place) (input : String) :
    Except Refused (String × String) :=
  let route := Route.ofText input
  if !route.isGood then .error ⟨.crash .unreadable, []⟩
  else
    let place := route.place workingDirectory
    match files.read place with
    | .error .isDirectory => .error ⟨.status 1, [directoryMessage place.text]⟩
    | .error .notFound => .error ⟨.status 1, ["ERROR: Input file not found: " ++ place.text]⟩
    | .error .notDirectory => .error ⟨.status 1, ["ERROR: Input file not found: " ++ place.text]⟩
    | .error e => .error ⟨.crash (.files e), []⟩
    | .ok content =>
      match textOf? content with
      | none => .error ⟨.crash .unreadable, []⟩
      | some source => .ok (place.text, source)

/-! ## Messages -/

/-- The place of an issue, as far as it is known. -/
def issuePlace (line column : Json) : String :=
  if line.isNull then ""
  else if column.isNull then ":" ++ line.text
  else ":" ++ line.text ++ ":" ++ column.text

/-- The line about an issue in a source. -/
def issueLine (name : String) (i : ParseIssue) : String :=
  "WARNING " ++ name ++ issuePlace i.line i.column ++ ": " ++ i.description.text

/-- The lines about everything that a run reports. -/
def diagnostics (r : Report) : List String :=
  r.parsed.issues.map (issueLine r.parsed.name.text)
    ++ (r.error.map fun e => "ERROR " ++ r.parsed.name.text ++ ": " ++ e.message).toList

/-- The lines of a log that are shown; what is only of use in a search for faults is shown on
demand. -/
def shownLog (verbose : Bool) (log : List Notice) : List String :=
  (log.filter fun n => verbose || n.level != .debug).map Notice.line

/-! ## Running the analysis -/

/-- The job that a request makes of a source. -/
def Request.job (r : Request) (name source : String) : Job where
  source := .string source
  name := .string name
  tolerant := .bool !r.strict
  sourceType := .string (if r.asModule then "module" else "script")
  generated := .bool r.generated

/-- The scopes of the input, or why there are none, with what was done and said on the way. -/
structure Prepared where
  result : Except Ending (Scope × List ParseIssue)
  messages : List String
  calls : List ParserCall

/-- Analyse a source. -/
def Request.prepareSource (r : Request) (parser : Parser) (name source : String) : Prepared :=
  match (r.job name source).run parser {} with
  | .error (.parser message) w =>
    ⟨.error (.status 1), shownLog r.verbose w.log ++ ["ERROR: Parsing failed: " ++ message],
      w.calls⟩
  | .error .unreadable w => ⟨.error (.crash .unreadable), shownLog r.verbose w.log, w.calls⟩
  | .ok report w =>
    let messages := shownLog r.verbose w.log ++ diagnostics report
    if report.parsed.ast.isNull then
      ⟨.error (.status 1), messages ++ ["ERROR: Parsing failed; no AST produced."], w.calls⟩
    else
      match report.scopes with
      | none => ⟨.error (.status 1), messages, w.calls⟩
      | some a => ⟨.ok (a.tree, report.parsed.issues), messages, w.calls⟩

/-- Read and analyse the input. -/
def Request.prepare (r : Request) (parser : Parser) (files : FileTree) (workingDirectory : Place) :
    Prepared :=
  match readInput files workingDirectory r.input with
  | .error refused => ⟨.error refused.ending, refused.messages, []⟩
  | .ok (name, source) => r.prepareSource parser name source

/-! ## The console -/

/-- Whether a console takes a line, after the lines that it has taken already. -/
abbrev Console := List String → String → Bool

namespace Console

/-- The console takes every line. -/
def willing : Console := fun _ _ => true

/-- The console takes what is made of characters alone. -/
def ofCharacters : Console := fun _ line => (Text.plain? line).isSome

/-- Write lines one after the other, up to the first one that is refused. First are the lines that
were taken, with those of before, then whether all were. -/
def writeAfter (console : Console) (before : List String) : List String → List String × Bool
  | [] => (before, true)
  | line :: rest =>
    if console before line then console.writeAfter (before ++ [line]) rest else (before, false)

end Console

/-! ## Delivering the result -/

/-- What is delivered of a scope tree. -/
structure Delivery where
  ending : Ending
  output : List String
  files : FileTree

/-- Write some lines. A console that refuses one breaks the call off; the lines before it stay. -/
def printLines (console : Console) (lines : List String) (ending : Ending) (files : FileTree) :
    Delivery :=
  match console.writeAfter [] lines with
  | (written, true) => ⟨ending, written, files⟩
  | (written, false) => ⟨.crash .unreadable, written, files⟩

/-- The line about a scope: its type, its name and what it binds. -/
def scopeLine (s : Scope) : String :=
  s.type.text ++ " " ++ s.name.text ++ ": "
    ++ ", ".intercalate (s.bindings.map fun (n, b) => n.text ++ " (" ++ b.kind.text ++ ")")

/-- Write the tree, to a file if one is named. In a strict run an issue spoils the status. A text
with half of a surrogate pair cannot be stored, and leaves the file empty. -/
def deliverTree (tree : Scope) (issues : List ParseIssue) (strict : Bool) (out : Option String)
    (files : FileTree) (workingDirectory : Place) (console : Console) : Delivery :=
  let text := tree.toJson.print
  let status := Ending.status (if strict && !issues.isEmpty then 1 else 0)
  let path := out.getD ""
  if path = "" then printLines console [text] status files
  else
    let (content, written) := match Text.plain? (text ++ "\n") with
      | some plain => (plain.toUTF8, status)
      | none => (ByteArray.empty, .crash .unreadable)
    match files.deliver workingDirectory (Route.ofText path) content with
    | (files, none) => ⟨written, [], files⟩
    | (files, some e) => ⟨.crash (.files e), [], files⟩

/-- List the scopes around a location. -/
def deliverEnclosing (tree : Scope) (location : Location) (files : FileTree) (console : Console) :
    Delivery :=
  match tree.enclosing location with
  | .ok scopes => printLines console (scopes.map scopeLine) (.status 0) files
  | .error _ => ⟨.crash .unreadable, [], files⟩

/-- Carry a request out. -/
def Request.run (r : Request) (parser : Parser) (files : FileTree) (workingDirectory : Place)
    (console : Console) : Outcome :=
  let p := r.prepare parser files workingDirectory
  match p.result with
  | .error ending => ⟨ending, [], p.messages, files, p.calls⟩
  | .ok (tree, issues) =>
    let d := match r.command with
      | .scopes out => deliverTree tree issues r.strict out files workingDirectory console
      | .find line column => deliverEnclosing tree ⟨line, column⟩ files console
    ⟨d.ending, d.output, p.messages, d.files, p.calls⟩

/-- Call the program with some arguments. -/
def run (parser : Parser) (files : FileTree) (workingDirectory : Place)
    (arguments : List String) (console : Console := .willing) : Outcome :=
  match Request.ofArguments arguments with
  | .ok r => r.run parser files workingDirectory console
  | .error .idle => ⟨.status 1, Page.program.helpLines, [], files, []⟩
  | .error (.help page) => ⟨.status 0, page.helpLines, [], files, []⟩
  | .error (.problem page problem) => ⟨.status 2, [], page.complaint problem, files, []⟩

end LexicalScopes.Cli
