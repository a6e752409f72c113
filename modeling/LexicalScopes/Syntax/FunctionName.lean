import LexicalScopes.Syntax.Path

/-!
# Names of functions

The name under which a function is shown: its own, else the key it is stored under, else the name
or property it is assigned to. A function that is a default value or an initialiser takes the name
of what it initialises, a default export is called `default`, and any other function `anonymous`.
-/

namespace LexicalScopes

/-- The name of a key: that of an identifier, or the text of a literal, where a float without a
fraction is written as an integer. Null if the key has no fixed name. -/
def Json.keyName (key : Json) : Json :=
  match key.node? with
  | none => .null
  | some n =>
    if n.isAny ["Identifier"] then n.get "name"
    else if n.isAny ["StringLiteral", "NumericLiteral", "Literal"] then
      match n.get "value" with
      | .float x =>
        match Decimal.wholeValue? x with
        | some m => .string (toString m)
        | none => .string (Decimal.text x)
      | value => .string value.text
    else .null

/-- The type is a scalar, so that it can be compared with a set of types. -/
def Json.scalarType (type : Json) : Except Cause Scalar :=
  match type with
  | .scalar s => .ok s
  | _ => .error (.misread (.stored type.kind))

/-- The scalar is one of the given texts. -/
def Scalar.isOneOf (s : Scalar) (texts : List String) : Bool :=
  match s with
  | .string t => texts.contains t
  | _ => false

/-- The property named by an access without brackets, as in `target.name`. -/
def Json.plainProperty? (target : Json) : Except Cause (Option Json) := do
  match target.node? with
  | none => return none
  | some n =>
    let type ← n.type.scalarType
    if type.isOneOf NodeType.members && !(n.get "computed").isPresent
        && (n.get "property").isAny ["Identifier"] then
      return (n.get "property").field? "name"
    else return none

/-- The name that an assignment or a declaration gives to its right-hand side. -/
def Json.targetName? (target : Json) : Option Json :=
  if target.isAny ["Identifier"] then target.field? "name" else none

/-- The operator of an assignment; a missing one is plain. -/
def Node.isPlainAssignment (n : Node) : Bool :=
  !n.has "operator" || n.get "operator" == .string "="

/-- The name that `parent` gives to the function in its field `field`; null if it gives none. -/
def nameFromParent (function : Json) (parent : Json) (field : Option String) :
    Except Cause Json := do
  let holder ← parent.fields
  let type ← holder.type.scalarType
  let keyed := type.isOneOf (NodeType.properties ++ NodeType.classFields ++ ["MethodDefinition"])
    && field == some "value" && !(holder.get "computed").isPresent
  let key := (holder.get "key").keyName
  if keyed && !key.isNull then return key
  if type.isOneOf ["AssignmentExpression"] && field == some "right" && holder.isPlainAssignment then
    let target := holder.get "left"
    if let some name := target.targetName? then return name
    if let some name ← target.plainProperty? then return name
  if type.isOneOf ["AssignmentPattern"] && field == some "right" then
    if let some name := (holder.get "left").targetName? then return name
  if type.isOneOf ["VariableDeclarator"] && field == some "init" then
    if let some name := (holder.get "id").targetName? then return name
  if type.isOneOf ["ExportDefaultDeclaration"] && field == some "declaration"
      && function.isAny ["FunctionDeclaration"] then
    return .string "default"
  return .string "anonymous"

/-- The name of a function. `field` is the field of `parent` that holds this very function, if it
is not held in a list; a null parent is no parent. The name is whatever value the tree has
there. -/
def functionName (function : Json) (parent : Json) (field : Option String) :
    Except Cause Json := do
  let node ← function.fields
  if let some name := (node.get "id").targetName? then return name
  let key := (node.get "key").keyName
  if node.isAny ["ObjectMethod", "ClassMethod"] && !(node.get "computed").isPresent
      && !key.isNull then
    return key
  if parent.isNull then return .string "anonymous"
  nameFromParent function parent field

/-- The name of the function that a path leads to. -/
def Path.functionName (p : Path) : Except Cause Json :=
  let parent := match p.parent? with
    | some holder => Json.object holder.node
    | none => .null
  LexicalScopes.functionName (.object p.node) parent p.ownField?

end LexicalScopes
