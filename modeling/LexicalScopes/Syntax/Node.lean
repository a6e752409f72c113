import LexicalScopes.Fault

/-!
# Nodes of a syntax tree

The type of a node says which fields hold its children and in which order they stand in the
source. A node of an unknown type is searched for children field by field. Both the plain
spellings of node types and those with a finer division of literals, methods and fields are known.
-/

namespace LexicalScopes

/-! ## Types -/

namespace Node

/-- The type of a node, whatever value the tree has there. -/
def type (n : Node) : Json := n.get "type"

/-- The node has one of the given types. -/
def isAny (n : Node) (types : List String) : Bool :=
  match n.type with
  | .string t => types.contains t
  | _ => false

end Node

/-- The value is a node of one of the given types. -/
def Json.isAny (j : Json) (types : List String) : Bool :=
  match j.node? with
  | some n => n.isAny types
  | none => false

@[simp] theorem Json.isAny_object (n : Node) (types : List String) :
    (Json.object n).isAny types = n.isAny types := rfl

namespace NodeType

/-- Nodes that are functions. -/
def functions : List String :=
  ["FunctionDeclaration", "FunctionExpression", "ArrowFunctionExpression", "ObjectMethod",
    "ClassMethod", "ClassPrivateMethod"]

/-- Nodes that are classes. -/
def classes : List String := ["ClassDeclaration", "ClassExpression"]

/-- Fields of a class. -/
def classFields : List String := ["ClassProperty", "ClassPrivateProperty", "PropertyDefinition"]

/-- Properties of an object literal or an object pattern. -/
def properties : List String := ["Property", "ObjectProperty"]

/-- Calls. -/
def calls : List String := ["CallExpression", "OptionalCallExpression"]

/-- Member accesses. -/
def members : List String := ["MemberExpression", "OptionalMemberExpression"]

/-- The fields of each known type that hold children, in the order of the source. -/
def childFields : List (String × List String) :=
  [("Program", ["body"]),
   ("ExpressionStatement", ["expression"]),
   ("BlockStatement", ["body"]),
   ("StaticBlock", ["body"]),
   ("EmptyStatement", []),
   ("DebuggerStatement", []),
   ("WithStatement", ["object", "body"]),
   ("ReturnStatement", ["argument"]),
   ("LabeledStatement", ["label", "body"]),
   ("BreakStatement", ["label"]),
   ("ContinueStatement", ["label"]),
   ("IfStatement", ["test", "consequent", "alternate"]),
   ("SwitchStatement", ["discriminant", "cases"]),
   ("SwitchCase", ["test", "consequent"]),
   ("ThrowStatement", ["argument"]),
   ("TryStatement", ["block", "handler", "finalizer"]),
   ("CatchClause", ["param", "body"]),
   ("WhileStatement", ["test", "body"]),
   ("DoWhileStatement", ["body", "test"]),
   ("ForStatement", ["init", "test", "update", "body"]),
   ("ForInStatement", ["left", "right", "body"]),
   ("ForOfStatement", ["left", "right", "body"]),
   ("FunctionDeclaration", ["id", "params", "body"]),
   ("FunctionExpression", ["id", "params", "body"]),
   ("ArrowFunctionExpression", ["params", "body"]),
   ("VariableDeclaration", ["declarations"]),
   ("VariableDeclarator", ["id", "init"]),
   ("ThisExpression", []),
   ("Super", []),
   ("Identifier", []),
   ("Literal", []),
   ("ArrayExpression", ["elements"]),
   ("ObjectExpression", ["properties"]),
   ("Property", ["key", "value"]),
   ("ObjectProperty", ["key", "value"]),
   ("ObjectMethod", ["key", "params", "body"]),
   ("ClassDeclaration", ["id", "superClass", "body"]),
   ("ClassExpression", ["id", "superClass", "body"]),
   ("ClassBody", ["body"]),
   ("MethodDefinition", ["key", "value"]),
   ("ClassMethod", ["key", "params", "body"]),
   ("ClassPrivateMethod", ["key", "params", "body"]),
   ("ClassProperty", ["key", "value"]),
   ("ClassPrivateProperty", ["key", "value"]),
   ("PrivateName", ["id"]),
   ("PropertyDefinition", ["key", "value"]),
   ("SequenceExpression", ["expressions"]),
   ("ParenthesizedExpression", ["expression"]),
   ("UnaryExpression", ["argument"]),
   ("UpdateExpression", ["argument"]),
   ("BinaryExpression", ["left", "right"]),
   ("LogicalExpression", ["left", "right"]),
   ("AssignmentExpression", ["left", "right"]),
   ("ConditionalExpression", ["test", "consequent", "alternate"]),
   ("CallExpression", ["callee", "arguments"]),
   ("OptionalCallExpression", ["callee", "arguments"]),
   ("NewExpression", ["callee", "arguments"]),
   ("MemberExpression", ["object", "property"]),
   ("OptionalMemberExpression", ["object", "property"]),
   ("ChainExpression", ["expression"]),
   ("TemplateLiteral", ["quasis", "expressions"]),
   ("TaggedTemplateExpression", ["tag", "quasi"]),
   ("YieldExpression", ["argument"]),
   ("AwaitExpression", ["argument"]),
   ("SpreadElement", ["argument"]),
   ("RestElement", ["argument"]),
   ("AssignmentPattern", ["left", "right"]),
   ("ArrayPattern", ["elements"]),
   ("ObjectPattern", ["properties"]),
   ("MetaProperty", ["meta", "property"]),
   ("ImportDeclaration", ["specifiers", "source"]),
   ("ImportSpecifier", ["imported", "local"]),
   ("ImportDefaultSpecifier", ["local"]),
   ("ImportNamespaceSpecifier", ["local"]),
   ("ExportNamedDeclaration", ["declaration", "specifiers", "source"]),
   ("ExportDefaultDeclaration", ["declaration"]),
   ("ExportAllDeclaration", ["exported", "source"]),
   ("ExportSpecifier", ["local", "exported"])]

/-- Fields that never hold children of a node of unknown type. -/
def bookkeeping : List String :=
  ["type", "loc", "range", "start", "end", "extra", "comments", "leadingComments",
    "trailingComments", "innerComments", "tokens", "errors"]

end NodeType

/-! ## Children -/

namespace Json

/-- A value is walked as a node if it is an object with a type, whatever the type is. -/
def child? (j : Json) : Option Node :=
  match j.node? with
  | some n => if n.has "type" then some n else none
  | none => none

/-- The value is a child, or a list with a child in it. -/
def holdsChildren (j : Json) : Bool :=
  match j with
  | .array items => items.any fun item => item.child?.isSome
  | _ => j.child?.isSome

theorem eq_object_of_child? {j : Json} {n : Node} (h : j.child? = some n) : j = .object n := by
  unfold child? at h
  split at h
  · rename_i m hm
    split at h
    · cases h
      exact node?_eq_some_iff.1 hm
    · cases h
  · cases h

end Json

namespace Node

/-- The fields of a node of unknown type that hold children, in the order of the tree. -/
def searchedFields (n : Node) : List String :=
  (n.filter fun (key, value) => !NodeType.bookkeeping.contains key && value.holdsChildren).map
    (·.1)

/-- The fields that hold the children of a node. A list or an object is no type at all. -/
def childFields (n : Node) : Except Cause (List String) :=
  match n.type with
  | .scalar (.string t) => .ok ((NodeType.childFields.lookup t).getD n.searchedFields)
  | .scalar _ => .ok n.searchedFields
  | type => .error (.misread (.stored type.kind))

end Node

/-! ## Literals and declarations -/

namespace Json

/-- The value is an integer or a float. -/
def isNumber : Json → Bool
  | .int _ => true
  | .float _ => true
  | _ => false

/-- A number literal in either spelling. -/
def isNumericLiteral (j : Json) : Bool :=
  j.isAny ["NumericLiteral"]
    || (j.isAny ["Literal"] && (j.field? "value").any Json.isNumber)

/-- A string literal in either spelling. -/
def isStringLiteral (j : Json) : Bool :=
  j.isAny ["StringLiteral"]
    || (j.isAny ["Literal"] && (j.field? "value").any fun v => v.string?.isSome)

/-- A `let` or `const` declaration. -/
def isLexicalDeclaration (j : Json) : Bool :=
  j.isAny ["VariableDeclaration"]
    && (j.field? "kind").any fun kind => kind = .string "let" || kind = .string "const"

end Json

/-! ## Locations -/

namespace Node

/-- The location of a node, which needs a start and an end. -/
def loc (n : Node) : Except Cause Node :=
  match (n.get "loc").node? with
  | some loc =>
    if (loc.get "start").isPresent && (loc.get "end").isPresent then .ok loc
    else .error (.malformed (.noLocation n.type) (.object n))
  | none => .error (.malformed (.noLocation n.type) (.object n))

/-- Where a node starts. -/
def start (n : Node) : Except Cause Json := do
  let loc ← n.loc
  return loc.get "start"

end Node

/-- The location that lasts from one place to another. -/
def span (start stop : Json) : Json := .object [("start", start), ("end", stop)]

end LexicalScopes
