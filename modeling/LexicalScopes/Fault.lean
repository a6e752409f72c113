import LexicalScopes.Json.Text

/-!
# Faults

What can go wrong while the scopes of a tree are analysed. A *reported* failure names its cause and,
where the node at fault carries one, its position: either the tree lacks a part that its grammar
guarantees, or the graph of scopes lacks a layer. A *misreading* is a step that has no meaning for
the value it reads: it says what was asked of which kind of value. Whoever called the analysis is
told of a misreading only that there was one; this is what a *fault* keeps of the cause.
-/

namespace LexicalScopes

/-! ## Malformed trees and graphs -/

/-- A place in the source. Line and column are the values found in the tree, neither of them
null. -/
structure Position where
  line : Json
  column : Json
deriving DecidableEq, Repr

/-- How a tree can be malformed. -/
inductive Defect where
  /-- The root is not a `Program`. -/
  | notProgram
  /-- A node of the given type has no start or no end. -/
  | noLocation (type : Json)
  /-- An object pattern lists something that is no property. -/
  | emptySlot
  /-- A switch lists something that is no case. -/
  | notACase
  /-- A variable declaration of an unknown kind. -/
  | unknownKind (kind : Json)
  /-- A variable declarator declares nothing. -/
  | noTarget
  /-- An import specifier of the given type binds no local name. -/
  | noLocalName (type : Json)
deriving DecidableEq, Repr

/-- A layer that the graph of scopes lacks. -/
inductive Breach where
  | noGlobal
  | noLexicalGlobal
  | noModule
deriving DecidableEq, Repr

/-- A failure that is reported for one source. -/
inductive ScopeError where
  | malformed (defect : Defect) (position : Option Position)
  | inconsistent (breach : Breach)
deriving DecidableEq, Repr

/-! ## Misreadings -/

namespace Json

/-- The kinds of values. -/
inductive Kind where
  | null
  | bool
  | int
  | float
  | string
  | array
  | object
deriving DecidableEq, Repr

/-- The word for a kind in messages. -/
def Kind.text : Kind → String
  | null => "NoneType"
  | bool => "bool"
  | int => "int"
  | float => "float"
  | string => "str"
  | array => "list"
  | object => "dict"

/-- The kind of a value. -/
def kind : Json → Kind
  | .scalar .null => .null
  | .scalar (.bool _) => .bool
  | .scalar (.int _) => .int
  | .scalar (.float _) => .float
  | .scalar (.string _) => .string
  | .array _ => .array
  | .object _ => .object

@[simp] theorem kind_array (items : List Json) : (array items).kind = .array := rfl
@[simp] theorem kind_object (n : Node) : (object n).kind = .object := rfl

end Json

/-- What was asked of a value that has no answer to it. -/
inductive Misreading where
  /-- A method that values of the kind do not have. Fields of an object are read by its `get`. -/
  | method (kind : Json.Kind) (name : String)
  /-- A field by its key, of a value that is no object. -/
  | keyed (kind : Json.Kind)
  /-- The first item, of a value that has no items. -/
  | indexed (kind : Json.Kind)
  /-- A field or an item that an object lacks. -/
  | missing (key : Json)
  /-- The entries. -/
  | entries (kind : Json.Kind)
  /-- The number of entries. -/
  | length (kind : Json.Kind)
  /-- What is stored under the value. -/
  | stored (kind : Json.Kind)
  /-- The number one larger. -/
  | successor (kind : Json.Kind)
  /-- The bottom of something that has none. -/
  | bottom
deriving DecidableEq, Repr

namespace Misreading

/-- The class of errors that a misreading belongs to. -/
def errorClass : Misreading → String
  | method _ _ => "AttributeError"
  | missing _ => "KeyError"
  | bottom => "RecursionError"
  | _ => "TypeError"

/-- The text of a misreading. -/
def message : Misreading → String
  | method kind name => "'" ++ kind.text ++ "' object has no attribute '" ++ name ++ "'"
  | keyed .string => "string indices must be integers, not 'str'"
  | keyed .array => "list indices must be integers or slices, not str"
  | keyed kind => "'" ++ kind.text ++ "' object is not subscriptable"
  | indexed kind => "'" ++ kind.text ++ "' object is not subscriptable"
  | missing key => key.quoted
  | entries kind => "'" ++ kind.text ++ "' object is not iterable"
  | length kind => "object of type '" ++ kind.text ++ "' has no len()"
  | stored kind => "unhashable type: '" ++ kind.text ++ "'"
  | successor .string => "can only concatenate str (not \"int\") to str"
  | successor .array => "can only concatenate list (not \"int\") to list"
  | successor kind => "unsupported operand type(s) for +: '" ++ kind.text ++ "' and 'int'"
  | bottom => "maximum recursion depth exceeded"

end Misreading

/-! ## Causes and faults -/

/-- Why an analysis stopped. -/
inductive Cause where
  | reported (error : ScopeError)
  | misread (misreading : Misreading)
deriving DecidableEq, Repr

/-- What a caller is told about a cause. -/
inductive Fault where
  | reported (error : ScopeError)
  | unreadable
deriving DecidableEq, Repr

namespace Cause

/-- The class of errors that a cause belongs to. -/
def errorClass : Cause → String
  | reported (.malformed _ _) => "MalformedAstError"
  | reported (.inconsistent _) => "ScopeInvariantError"
  | misread m => m.errorClass

/-- What a caller is told. -/
def fault : Cause → Fault
  | reported error => .reported error
  | misread _ => .unreadable

end Cause

instance : Coe Cause Fault := ⟨Cause.fault⟩

instance : MonadLift (Except Cause) (Except Fault) := ⟨Except.mapError Cause.fault⟩

@[simp] theorem liftM_ok {α : Type} (a : α) :
    (liftM (.ok a : Except Cause α) : Except Fault α) = .ok a := rfl

@[simp] theorem liftM_error {α : Type} (cause : Cause) :
    (liftM (.error cause : Except Cause α) : Except Fault α) = .error cause.fault := rfl

/-! ## Reading with faults -/

/-- A part that must be there for the value to be readable, and what is said if it is missing. -/
def readable {ε α : Type} (o : Option α) (e : ε := by exact Fault.unreadable) : Except ε α :=
  match o with
  | some a => .ok a
  | none => .error e

section readable

variable {ε α : Type} {e : ε}

@[simp] theorem readable_some (a : α) : readable (some a) e = .ok a := rfl
@[simp] theorem readable_none : readable (none : Option α) e = .error e := rfl

end readable

/-- A value that has to be an object whose fields are read. -/
def Json.fields (j : Json) : Except Cause Node :=
  readable j.node? (.misread (.method j.kind "get"))

/-- The field of a value that has to be an object. -/
def Json.field (j : Json) (key : String) : Except Cause Json :=
  readable (j.field? key) (.misread (.method j.kind "get"))

/-- The entries of an optional list. -/
def Json.entries (j : Json) : Except Cause (List Json) :=
  readable j.entries? (.misread (.entries j.kind))

/-- The entries of an optional list, of which the number is asked. -/
def Json.counted (j : Json) : Except Cause (List Json) :=
  readable j.entries? (.misread (.length j.kind))

/-- A value that has to be an object with all the fields that are asked for. -/
def Json.record (j : Json) : Except Cause Node := readable j.node? (.misread (.keyed j.kind))

/-- A field that has to be there. -/
def Node.required (n : Node) (key : String) : Except Cause Json :=
  readable (n.lookup key) (.misread (.missing (.string key)))

@[simp] theorem Json.fields_object (n : Node) : (Json.object n).fields = .ok n := rfl
@[simp] theorem Json.record_object (n : Node) : (Json.object n).record = .ok n := rfl
@[simp] theorem Json.field_object (n : Node) (key : String) :
    (Json.object n).field key = .ok (n.get key) := rfl

theorem Node.required_of_has {n : Node} {key : String} (h : n.has key = true) :
    n.required key = .ok (n.get key) := by
  obtain ⟨value, hvalue⟩ := Option.isSome_iff_exists.1 h
  rw [required, get, hvalue, readable_some, Option.getD_some]

/-- An optional node: an absent value has no fields. -/
def Json.optionalNode (j : Json) : Except Cause Node :=
  if j.isPresent then j.fields else .ok []

/-! ## Positions -/

/-- Where a node starts, if it says so with a line and a column. A value that is no object has no
position. -/
def Position.ofNode? (node : Json) : Except Cause (Option Position) := do
  match node.node? with
  | some n =>
    let loc ← (n.get "loc").optionalNode
    let start ← (loc.get "start").optionalNode
    let line := start.get "line"
    let column := start.get "column"
    pure (if line.isNull || column.isNull then none else some ⟨line, column⟩)
  | none => pure none

/-- The position as it is added to a message. -/
def Position.suffix : Option Position → String
  | some p => " (line " ++ p.line.text ++ ", column " ++ p.column.text ++ ")"
  | none => ""

/-- A message about a node, with the node's position if it has one. -/
def located (message : String) (node : Json) : Except Cause String :=
  return message ++ Position.suffix (← Position.ofNode? node)

/-- A malformed node. A node whose position cannot be read is misread. -/
def Cause.malformed (defect : Defect) (node : Json) : Cause :=
  match Position.ofNode? node with
  | .ok position => .reported (.malformed defect position)
  | .error cause => cause

/-- A missing layer. -/
def Cause.inconsistent (breach : Breach) : Cause := .reported (.inconsistent breach)

/-- What a caller is told about a missing layer. -/
def Fault.inconsistent (breach : Breach) : Fault := .reported (.inconsistent breach)

@[simp] theorem Cause.fault_inconsistent (breach : Breach) :
    (Cause.inconsistent breach).fault = .inconsistent breach := rfl

/-! ## Messages -/

/-- What is wrong with the tree. -/
def Defect.message : Defect → String
  | .notProgram => "Expected Program node at the root."
  | .noLocation type => type.text ++ " node has no source location."
  | .emptySlot => "ObjectPattern has an empty property slot."
  | .notACase => "SwitchStatement has a non-case entry."
  | .unknownKind kind => "Unknown declaration kind " ++ kind.quoted ++ "."
  | .noTarget => "VariableDeclarator missing id."
  | .noLocalName type => type.text ++ " missing local name."

/-- Which layer is missing. -/
def Breach.message : Breach → String
  | .noGlobal => "Traversal finished without a global scope."
  | .noLexicalGlobal => "Global scope has no lexical global scope."
  | .noModule => "Lexical global scope does not start with the module scope."

/-- The text of a reported failure. -/
def ScopeError.message : ScopeError → String
  | .malformed defect position => defect.message ++ Position.suffix position
  | .inconsistent breach => breach.message

/-- The text of a cause. -/
def Cause.message : Cause → String
  | .reported error => error.message
  | .misread m => m.message

end LexicalScopes
