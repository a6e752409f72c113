import LexicalScopes.Parse
import LexicalScopes.Syntax.Path

/-!
# Small trees

Nodes of one line of source, each with the columns where it starts and ends, and a parser that
answers with such trees.
-/

namespace LexicalScopes.Sample

/-- A place in the first line. -/
def place (column : Nat) : Json := .object [("line", .int 1), ("column", .int column)]

/-- A node with its location. -/
def node (type : String) (start stop : Nat) (fields : Node) : Node :=
  ("type", .string type) :: ("loc", .object [("start", place start), ("end", place stop)]) :: fields

/-- The nodes of a field that is a list. -/
def list (nodes : List Node) : Json := .array (nodes.map .object)

def identifier (name : String) (column : Nat) : Node :=
  node "Identifier" column (column + name.length) [("name", .string name)]

/-- A statement that reads a name. -/
def reading (name : String) (column : Nat) : Node :=
  node "ExpressionStatement" column (column + name.length)
    [("expression", .object (identifier name column))]

/-- A declaration of one name without a value. -/
def declaration (kind name : String) (column : Nat) : Node :=
  let stop := column + kind.length + 1 + name.length
  let declarator := node "VariableDeclarator" (column + kind.length + 1) stop
    [("id", .object (identifier name (column + kind.length + 1))), ("init", .null)]
  node "VariableDeclaration" column stop
    [("kind", .string kind), ("declarations", list [declarator])]

def block (start stop : Nat) (body : List Node) : Node :=
  node "BlockStatement" start stop [("body", list body)]

/-- A loop with an empty body. -/
def forOf (start stop : Nat) (left right : Node) : Node :=
  node "ForOfStatement" start stop [("left", .object left), ("right", .object right),
    ("body", .object (node "EmptyStatement" (stop - 1) stop []))]

def program (stop : Nat) (body : List Node) : Node :=
  node "Program" 0 stop [("body", list body)]

/-- A parser that reads `a` as a statement and any other source as a declaration of `b`. -/
def nameParser : Parser := fun call =>
  .tree (.object (if call.source = .string "a" then program 1 [reading "a" 0]
    else program 5 [declaration "let" "b" 0]))

end LexicalScopes.Sample
