import LexicalScopes.Syntax.Path

/-!
# Reads of a name

An identifier reads a binding unless it declares one, names a property or labels a statement. The
type of the parent decides which of its fields hold reads.
-/

namespace LexicalScopes

/-- Which fields of a node hold identifiers that are read. -/
inductive Reading where
  /-- Every field. -/
  | everywhere
  /-- No field. -/
  | nowhere
  /-- One field. -/
  | only (key : String)
  /-- Every field, but the accessed name only if it is computed. -/
  | access
  /-- The value, unless the property belongs to a pattern; the key only if it is computed. -/
  | property
  /-- The value; the key only if it is computed. -/
  | member
  /-- The local name, unless the names come from another module. -/
  | exported
deriving DecidableEq, Repr

/-- Where the nodes of each type hold reads; a type that is not listed holds them everywhere. -/
def Reading.table : List (String × Reading) :=
  [("MemberExpression", .access),
   ("OptionalMemberExpression", .access),
   ("MetaProperty", .nowhere),
   ("Property", .property),
   ("ObjectProperty", .property),
   ("ClassProperty", .member),
   ("ClassPrivateProperty", .member),
   ("PropertyDefinition", .member),
   ("MethodDefinition", .member),
   ("ObjectMethod", .member),
   ("ClassMethod", .member),
   ("ClassPrivateMethod", .member),
   ("VariableDeclarator", .only "init"),
   ("FunctionDeclaration", .only "body"),
   ("FunctionExpression", .only "body"),
   ("ArrowFunctionExpression", .only "body"),
   ("ClassDeclaration", .only "superClass"),
   ("ClassExpression", .only "superClass"),
   ("AssignmentExpression", .only "right"),
   ("AssignmentPattern", .only "right"),
   ("LabeledStatement", .nowhere),
   ("BreakStatement", .nowhere),
   ("ContinueStatement", .nowhere),
   ("CatchClause", .nowhere),
   ("RestElement", .nowhere),
   ("ArrayPattern", .nowhere),
   ("ObjectPattern", .nowhere),
   ("ImportDefaultSpecifier", .nowhere),
   ("ImportNamespaceSpecifier", .nowhere),
   ("ImportSpecifier", .nowhere),
   ("ExportNamespaceSpecifier", .nowhere),
   ("ExportDefaultSpecifier", .nowhere),
   ("ExportAllDeclaration", .nowhere),
   ("PrivateName", .nowhere),
   ("ExportSpecifier", .exported)]

/-- Where a node holds reads. -/
def Node.reading (n : Node) : Reading :=
  match n.type with
  | .string t => (Reading.table.lookup t).getD .everywhere
  | _ => .everywhere

/-- Field `key` of the node at `parent` holds a read. -/
def Path.readsIn (parent : Path) (key : String) : Bool :=
  let computed := (parent.node.get "computed").isPresent
  match parent.node.reading with
  | .everywhere => true
  | .nowhere => false
  | .only field => key == field
  | .access => key != "property" || computed
  | .property =>
    if key == "key" then computed
    else !(parent.parent?.any fun holder => holder.node.isAny ["ObjectPattern"])
  | .member => if key == "key" then computed else key == "value"
  | .exported =>
    key == "local" && !(parent.parent?.any fun holder => (holder.node.get "source").isPresent)

/-- The path leads to an identifier that reads a binding. -/
def Path.isReferenced (p : Path) : Bool :=
  p.node.isAny ["Identifier"] &&
    match p with
    | .root _ => true
    | .child parent key _ _ => parent.readsIn key

end LexicalScopes
