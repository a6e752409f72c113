import LexicalScopes.Scope.Graph
import LexicalScopes.Syntax.Reference
import LexicalScopes.Syntax.FunctionName
import LexicalScopes.Syntax.Wrapper

/-!
# What a node does to the scopes

Entering and leaving a node is described by a list of actions on the graph of scopes. The list
depends on the node and its place in the tree alone, never on the scopes made before. A node that
opens scopes first marks the current scope and goes back to it when it is left.
-/

namespace LexicalScopes

/-- A step in building the graph of scopes. -/
inductive Action where
  /-- Open the root scope of a program inside the current scope. -/
  | openRoot (loc : Json)
  /-- Open a scope inside the current one, and make it the current one. -/
  | openScope (type : ScopeType) (name : Json) (loc : Json)
  /-- Remember the current scope. -/
  | mark
  /-- Go back to the scope remembered last, and forget it. -/
  | restore
  /-- Make the root the current scope. -/
  | returnToRoot
  /-- Declare a name in the current scope. -/
  | declare (bound : BoundName) (kind : BindingKind)
  /-- Declare a `var` name in the scope that it belongs to. -/
  | hoist (bound : BoundName)
  /-- Declare a function in the current scope: as a `var` where that belongs there, otherwise
  like `let`. -/
  | declareFunction (bound : BoundName)
  /-- Introduce names that the source does not declare. -/
  | introduce (names : List String)
  /-- Record a read of a name; the occurrence is looked at only if the name is bound. -/
  | refer (name : Scalar) (occurrence : Except Cause Occurrence)
  /-- The source is a module. -/
  | noteModule
  /-- The node cannot be analysed. -/
  | fail (fault : Cause)

namespace Action

/-- The action opens a scope. -/
def opens : Action → Bool
  | .openRoot _ => true
  | .openScope _ _ _ => true
  | _ => false

/-- The actions of a step that may fail. -/
def attempt : Except Cause (List Action) → List Action
  | .ok actions => actions
  | .error fault => [.fail fault]

end Action

/-! ## Roles -/

/-- What a type of node does to the scopes. -/
inductive Role where
  | program
  | function
  | classScope
  | loop
  | catchClause
  | block
  | switch
  | classField
  | variables
  | imports
  | exports
  | identifier
  | this
deriving DecidableEq, Repr

/-- The types of nodes with a role. A type named like a role plays it too. -/
def Role.table : List (String × Role) :=
  [("FunctionDeclaration", .function),
   ("FunctionExpression", .function),
   ("ArrowFunctionExpression", .function),
   ("ObjectMethod", .function),
   ("ClassMethod", .function),
   ("ClassPrivateMethod", .function),
   ("ClassDeclaration", .classScope),
   ("ClassExpression", .classScope),
   ("ForStatement", .loop),
   ("ForInStatement", .loop),
   ("ForOfStatement", .loop),
   ("CatchClause", .catchClause),
   ("BlockStatement", .block),
   ("SwitchStatement", .switch),
   ("VariableDeclaration", .variables),
   ("ImportDeclaration", .imports),
   ("ExportNamedDeclaration", .exports),
   ("ExportDefaultDeclaration", .exports),
   ("ExportAllDeclaration", .exports),
   ("Identifier", .identifier),
   ("ThisExpression", .this),
   ("program", .program),
   ("function", .function),
   ("class", .classScope),
   ("for", .loop),
   ("class_field", .classField),
   ("export", .exports)]

/-- The role of a node. A `Program` is not listed: it is treated apart. -/
def Node.role? (n : Node) : Option Role :=
  match n.type with
  | .string t => Role.table.lookup t
  | _ => none

/-! ## Declarations -/

/-- The names that a target binds, declared in the current scope. -/
def declareTarget (target : Json) (kind : BindingKind) : Except Cause (List Action) := do
  return (← (boundNames target).mapM id).map (.declare · kind)

/-- The names that a target binds, declared where `var` belongs. -/
def hoistTarget (target : Json) : Except Cause (List Action) := do
  return (← (boundNames target).mapM id).map .hoist

/-- The kinds of variable declaration. `using` declares constants. -/
def declarationKinds : List (String × BindingKind) :=
  [("var", .var), ("let", .lexical), ("const", .constant), ("using", .constant),
    ("await using", .constant)]

namespace Node

/-- The kind of binding that a variable declaration makes. -/
def declarationKind (n : Node) : Except Cause BindingKind :=
  match n.get "kind" with
  | .scalar (.string kind) =>
    match declarationKinds.lookup kind with
    | some k => .ok k
    | none => .error (.malformed (.unknownKind (.string kind)) (.object n))
  | .scalar kind => .error (.malformed (.unknownKind (.scalar kind)) (.object n))
  | kind => .error (.misread (.stored kind.kind))

/-- The target of a declarator. -/
def declaratorTarget (declarator : Json) : Except Cause Json := do
  let target ← declarator.field "id"
  if target.isNull then .error (.malformed .noTarget declarator) else return target

/-- A variable declaration declares the names of its targets, one declarator after the other. -/
def variableActions (n : Node) : Except Cause (List Action) := do
  let kind ← n.declarationKind
  let declarators ← (n.get "declarations").entries
  let actions ← declarators.mapM fun declarator => do
    let target ← declaratorTarget declarator
    if kind = .var then hoistTarget target else declareTarget target kind
  return actions.flatten

/-- An import specifier declares its local name; a namespace is a constant. -/
def specifierAction (specifier : Json) : Except Cause Action := do
  let name ← specifier.field "local"
  match name.isAny ["Identifier"], name.node? with
  | true, some identifier =>
    let kind := if specifier.isAny ["ImportNamespaceSpecifier"] then .constant else .imported
    return .declare (← identifier.boundName) kind
  | _, _ =>
    let type ← specifier.field "type"
    .error (.malformed (.noLocalName type) specifier)

/-- An import marks the source as a module and declares its local names. -/
def importActions (n : Node) : Except Cause (List Action) := do
  let specifiers ← (n.get "specifiers").entries
  return .noteModule :: (← specifiers.mapM specifierAction)

end Node

/-! ## Scopes -/

/-- The statement declares a name that belongs to the block around it. -/
def Json.declaresInBlock (statement : Json) : Bool :=
  statement.isLexicalDeclaration || statement.isAny ["FunctionDeclaration", "ClassDeclaration"]

namespace Node

/-- The identifier that names a function or a class. -/
def identifier? (n : Node) : Option Node :=
  match (n.get "id").node? with
  | some identifier => if identifier.isAny ["Identifier"] then some identifier else none
  | none => none

/-- A program has three layers: the global scope with the names of the host, the scope of global
`let` and `const`, and the module. -/
def programActions (n : Node) : Except Cause (List Action) := do
  let loc := Json.object (← n.loc)
  return [.openRoot loc, .introduce Graph.hostNames,
    .openScope .block (.string "Lexical Global") loc,
    .openScope .moduleLayer (.string "Module") loc, .introduce ["this"]]

/-- What is said where the first item of a present value is read as a node, and the value is no
list. The items of a string are strings. -/
def noFirstNode : Json → Misreading
  | .object _ => .missing (.int 0)
  | .string _ => .method .string "get"
  | j => .indexed j.kind

/-- The part of the source that is inside a function: from its first parameter, or from its start
if it has none, to its end. -/
def functionRange (n : Node) : Except Cause Json := do
  let loc ← n.loc
  let params := n.get "params"
  if params.isPresent then
    match params with
    | .array (first :: _) =>
      let first ← first.fields
      return span (← first.start) (loc.get "end")
    | _ => .error (.misread (noFirstNode params))
  else return span (loc.get "start") (loc.get "end")

/-- A named function expression binds its own name in a scope around it, a function declaration in
the current scope. -/
def ownNameActions (n : Node) : Except Cause (List Action) := do
  match n.identifier? with
  | none => return []
  | some identifier =>
    if n.isAny ["FunctionExpression"] then
      let loc ← n.loc
      let bound ← identifier.boundName
      return [.openScope .block (.string "Function Expression") (.object loc),
        .declare bound .constant]
    else if n.isAny ["FunctionDeclaration"] then
      return [.declareFunction (← identifier.boundName)]
    else return []

/-- The parameters of a function are declared in its scope. All functions but arrows have `this`
and `arguments` of their own. -/
def parameterActions (n : Node) : Except Cause (List Action) := do
  let params ← (n.get "params").entries
  let declared ← params.mapM fun param => declareTarget param .var
  let own := if n.isAny ["ArrowFunctionExpression"] then []
    else [.introduce ["this", "arguments"]]
  return declared.flatten ++ own

/-- A named class binds its name in a scope of its own; a declaration also binds it in the current
scope. -/
def classActions (n : Node) : Except Cause (List Action) := do
  match n.identifier? with
  | none => return []
  | some identifier =>
    if n.isAny ["ClassDeclaration"] then
      let bound ← identifier.boundName
      return [.declare bound .lexical, .openScope .block (.string "Class") (.object (← n.loc)),
        .declare bound .constant]
    else
      let loc ← n.loc
      let bound ← identifier.boundName
      return [.openScope .block (.string "Class") (.object loc), .declare bound .constant]

/-- The head of a loop. -/
def loopHead (n : Node) : Json :=
  if (n.get "init").isPresent then n.get "init" else n.get "left"

/-- A loop whose head declares `let` or `const` opens a scope from there to its end. -/
def loopActions (n : Node) : Except Cause (List Action) := do
  let head := n.loopHead
  match head.isLexicalDeclaration, head.node? with
  | true, some declaration =>
    let start ← declaration.start
    let loc ← n.loc
    return [.openScope .block (.string "For") (span start (loc.get "end"))]
  | _, _ => return []

/-- A catch clause opens a scope with the names of its parameter. -/
def catchActions (n : Node) : Except Cause (List Action) := do
  let loc ← n.loc
  return .openScope .block (.string "Catch") (.object loc)
    :: (← declareTarget (n.get "param") .var)

/-- A block opens a scope if one of its statements declares a name that belongs to it. -/
def blockActions (n : Node) : Except Cause (List Action) := do
  if (← (n.get "body").entries).any Json.declaresInBlock then
    return [.openScope .block (.string "Block") (.object (← n.loc))]
  else return []

/-- One of the cases declares `let` or `const`; the cases after the first such one are not
read. -/
def anyLexicalCase : List Json → Except Cause Bool
  | [] => return false
  | case :: rest => do
    let statements ← (← case.field "consequent").entries
    if statements.any Json.isLexicalDeclaration then return true else anyLexicalCase rest

/-- The cases of a switch. -/
def switchCases (n : Node) : Except Cause (List Json) := do
  let cases ← (n.get "cases").entries
  if cases.all (·.isAny ["SwitchCase"]) then return cases
  else .error (.malformed .notACase (.object n))

/-- A switch opens one scope for all its cases if one of them declares `let` or `const`. -/
def switchActions (n : Node) : Except Cause (List Action) := do
  if ← anyLexicalCase (← n.switchCases) then
    return [.openScope .block (.string "Switch") (.object (← n.loc))]
  else return []

/-- The value of a class field runs like a method of its own. -/
def classFieldActions (n : Node) : Except Cause (List Action) := do
  let loc ← n.loc
  return [.openScope .function (.string "Class Field") (.object loc),
    .introduce ["this", "arguments"]]

end Node

/-! ## References -/

namespace Path

/-- The read that stands at a path. -/
def occurrence (p : Path) : Except Cause Occurrence := do
  let loc ← p.node.loc
  let wrappers ← p.wrappers
  return ⟨loc.get "start", loc.get "end", wrappers⟩

/-- An identifier that reads a binding records the read. -/
def identifierActions (p : Path) : Except Cause (List Action) := do
  if p.isReferenced then return [.refer (← p.node.scalarName) p.occurrence] else return []

/-- A function declares its own name, opens its scope and declares its parameters. -/
def functionActions (p : Path) : Except Cause (List Action) := do
  let own ← p.node.ownNameActions
  let name ← p.functionName
  let range ← p.node.functionRange
  let params ← p.node.parameterActions
  return own ++ .openScope .function name range :: params

/-! ## Nodes -/

/-- What a node does by its role. The body of a function shares the scope of the function. -/
def roleActions (p : Path) : Except Cause (List Action) :=
  match p.node.role? with
  | none => .ok []
  | some .program => p.node.programActions
  | some .function => p.functionActions
  | some .classScope => p.node.classActions
  | some .loop => p.node.loopActions
  | some .catchClause => p.node.catchActions
  | some .block =>
    if p.isChildOf NodeType.functions "body" then .ok [] else p.node.blockActions
  | some .switch => p.node.switchActions
  | some .classField => p.node.classFieldActions
  | some .variables => p.node.variableActions
  | some .imports => p.node.importActions
  | some .exports => .ok [.noteModule]
  | some .identifier => p.identifierActions
  | some .this => .ok [.refer (.string "this") p.occurrence]

/-- What a node does by its place and its role. -/
def ownActions (p : Path) : Except Cause (List Action) := do
  let field ← if p.isChildOf NodeType.classFields "value" then p.node.classFieldActions else .ok []
  return field ++ (← p.roleActions)

/-- The node is a `Program`. -/
def isProgram (p : Path) : Bool := p.node.isAny ["Program"]

/-- The actions on entering a node. -/
def enterActions (p : Path) : List Action :=
  if p.isProgram then Action.attempt p.node.programActions
  else
    let actions := Action.attempt p.ownActions
    if actions.any Action.opens then .mark :: actions else actions

/-- The actions on leaving a node. -/
def exitActions (p : Path) : List Action :=
  if p.isProgram then [.returnToRoot]
  else if (Action.attempt p.ownActions).any Action.opens then [.restore]
  else []

end Path

end LexicalScopes
