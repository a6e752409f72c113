import LexicalScopes.Fault
import LexicalScopes.Digest.Sha256

/-!
# Parsing

The parser is given from outside: it is called with a source and answers with a tree or with an
error. A tolerant run takes an error as a result without a tree, and the errors that a parser has
recovered from are taken from its tree.
-/

namespace LexicalScopes

/-- How the parser is called. -/
structure ParserCall where
  /-- Parse as a module, which may import and export. -/
  asModule : Bool
  source : Json
  /-- Recover from errors where possible. -/
  tolerant : Json
deriving DecidableEq, Repr

/-- An error of the parser. -/
structure ParserError where
  message : String
  line : Json
  column : Json
  description : Json
deriving DecidableEq, Repr

/-- What the parser answers. -/
inductive ParserAnswer where
  | tree (ast : Json)
  | error (error : ParserError)
deriving DecidableEq, Repr

abbrev Parser : Type := ParserCall → ParserAnswer

/-- An error that did not stop the run, as the parser describes it. -/
structure ParseIssue where
  description : Json
  line : Json
  column : Json
deriving DecidableEq, Repr

/-- The result of parsing a source; a null tree is no tree. -/
structure Parsed where
  ast : Json
  issues : List ParseIssue
  hash : String
  name : Json
deriving DecidableEq, Repr

/-- The issue made of an error. -/
def ParserError.issue (e : ParserError) : ParseIssue :=
  let description :=
    if e.description.isPresent then e.description else .string "Failed to parse source."
  ⟨description, e.line, e.column⟩

/-- The issue that one entry of a tree's error list describes. -/
def ParseIssue.ofEntry (entry : Json) : Except Cause ParseIssue := do
  return ⟨← entry.field "description", ← entry.field "lineNumber", ← entry.field "column"⟩

/-- The errors that the parser has recovered from. -/
def recoveredIssues (ast : Json) : Except Cause (List ParseIssue) := do
  match ast.node? with
  | some root => (← (root.get "errors").entries).mapM ParseIssue.ofEntry
  | none => return []

/-! ## The stored form -/

/-- An issue as it is stored. -/
def ParseIssue.toJson (i : ParseIssue) : Json :=
  .object [("description", i.description), ("line", i.line), ("column", i.column)]

/-- A result as it is stored. -/
def Parsed.toJson (p : Parsed) : Json :=
  .object [("ast", p.ast), ("errors", .array (p.issues.map ParseIssue.toJson)),
    ("source_hash", .string p.hash), ("source_name", p.name)]

end LexicalScopes
