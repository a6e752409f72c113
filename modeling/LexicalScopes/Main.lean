import LexicalScopes.Cli.Command
import LexicalScopes.Json.Reader

/-!
# The program

Runs a command line on the disk. The parser is a program of its own, which has left the syntax tree
of a source beside it: the tree of `a.js` is in `a.js.ast.json`. The places that a command line
names are looked up before the run, and what the run has made is put on the disk after it.
-/

namespace LexicalScopes.Cli

/-- The system's number for an operation that does not work on directories. -/
def directoryCode : UInt32 := 21

/-- A text as the system takes it. -/
def outside (text : String) : String := (Text.plain? text).getD text

/-- What stands at a place on the disk. -/
def entryOnDisk? (p : Place) : IO (Option Entry) := do
  try
    return some (.file (← IO.FS.readBinFile (outside p.text)))
  catch
    | .inappropriateType _ code _ => return if code = directoryCode then some .directory else none
    | _ => return none

/-- A place and the places above it, from the root on. -/
def Place.line (p : Place) : List Place := (List.range (p.length + 1)).map p.take

/-- The places on the way that a path leads. -/
def Route.line (r : Route) (workingDirectory : Place) : List Place :=
  (List.range (r.names.length + 1)).flatMap fun n =>
    ({ r with names := r.names.take n }.place workingDirectory).line

/-- The paths that a request names. -/
def Request.routes (r : Request) : List Route :=
  Route.ofText r.input :: match r.command with
    | .scopes (some out) => [Route.ofText out]
    | _ => []

/-- What stands on the disk at the places that a command line names. -/
def filesOnDisk (workingDirectory : Place) (arguments : List String) : IO FileTree := do
  let routes := match Request.ofArguments arguments with
    | .ok r => r.routes
    | .error _ => []
  let mut files : FileTree := {}
  for p in routes.flatMap fun r => r.line workingDirectory do
    if (files.get? p).isNone then
      if let some e ← entryOnDisk? p then files := files.put p e
  return files

/-- Put what is new in a tree on the disk. -/
def putOnDisk (before after : FileTree) : IO Unit := do
  for (p, e) in after.entries do
    if before.get? p ≠ some e then
      match e with
      | .directory => IO.FS.createDir (outside p.text)
      | .file content => IO.FS.writeBinFile (outside p.text) content

/-- The answer of a parser that has left the tree of the input beside it. -/
def answerOnDisk (workingDirectory : Place) (arguments : List String) : IO ParserAnswer := do
  let refused (message : String) : ParserAnswer := .error ⟨message, .null, .null, .null⟩
  match Request.ofArguments arguments with
  | .error _ => return refused "No input."
  | .ok r =>
    let path := ((Route.ofText r.input).place workingDirectory).text ++ ".ast.json"
    try
      match Json.parse? (← IO.FS.readFile (outside path)) with
      | some ast => return .tree ast
      | none => return refused ("No JSON in " ++ path)
    catch _ => return refused ("No syntax tree in " ++ path)

end LexicalScopes.Cli

open LexicalScopes LexicalScopes.Cli in
/-- Run a command line and return its status. -/
def main (arguments : List String) : IO UInt32 := do
  let arguments := arguments.map Text.ofPlain
  let workingDirectory := (Route.ofText (Text.ofPlain (← IO.currentDir).toString)).names
  let files ← filesOnDisk workingDirectory arguments
  let answer ← answerOnDisk workingDirectory arguments
  let outcome := run (fun _ => answer) files workingDirectory arguments .ofCharacters
  for line in outcome.output do IO.println (outside line)
  for line in outcome.messages do IO.eprintln (outside line)
  putOnDisk files outcome.files
  match outcome.ending with
  | .status code => return code.toUInt32
  | .crash _ =>
    IO.eprintln "The run broke off."
    return 1
