import LexicalScopes.Scope.Action
import LexicalScopes.Syntax.Traversal

/-!
# Building the graph of scopes

The builder replays the actions of every node of a tree, in the order in which the nodes are
entered and left. It stands in one scope at a time, the current one, and keeps the scopes it has to
go back to on a stack.
-/

namespace LexicalScopes

/-- The graph so far and where the builder stands in it. -/
structure Builder where
  graph : Graph := {}
  /-- The root scope of the program entered last. -/
  root : Option ScopeId := none
  /-- The scope that the builder stands in; none before a program is entered. -/
  current : Option ScopeId := none
  /-- The scopes to go back to, the one remembered last in front. -/
  marks : List (Option ScopeId) := []
  /-- The source has imports or exports. -/
  isModule : Bool := false
deriving DecidableEq, Repr, Inhabited

namespace Builder

/-- The scope that the builder stands in, of which something is asked. -/
def here (b : Builder) (method : String) : Except Cause ScopeId :=
  readable b.current (.misread (.method .null method))

/-- Open a scope inside the current one, and stand in it. -/
def openScope (b : Builder) (type : ScopeType) (name loc : Json) : Builder :=
  { b with
    graph := b.graph.addScope type name loc b.current
    current := some b.graph.nextScope }

/-- Declare a name in a scope. -/
def declareIn (b : Builder) (s : ScopeId) (bound : BoundName) (kind : BindingKind) : Builder :=
  { b with graph := b.graph.declare s bound.name kind (some bound.loc) }

/-- Record a read at the binding that the name resolves to. A name that no scope binds leaves no
trace. -/
def refer (b : Builder) (name : Scalar) (occurrence : Except Cause Occurrence) :
    Except Cause Builder := do
  let s ← b.here "resolve"
  match b.graph.resolve s name with
  | none => return b
  | some t =>
    match b.graph.find? t name with
    | none => return b
    | some e => return { b with graph := b.graph.addReference e (← occurrence) }

/-- Replay one action. -/
def apply (b : Builder) : Action → Except Cause Builder
  | .openRoot loc =>
    .ok { b.openScope .object (.string "Global") loc with root := some b.graph.nextScope }
  | .openScope type name loc => .ok (b.openScope type name loc)
  | .mark => .ok { b with marks := b.current :: b.marks }
  | .restore =>
    match b.marks with
    | [] => .ok b
    | s :: rest => .ok { b with current := s, marks := rest }
  | .returnToRoot => .ok { b with current := b.root }
  | .declare bound kind => do return b.declareIn (← b.here "declare") bound kind
  | .hoist bound => do return b.declareIn (b.graph.varScope (← b.here "var_scope")) bound .var
  | .declareFunction bound => do
    let s ← b.here "var_scope"
    return b.declareIn s bound (if b.graph.varScope s = s then .var else .lexical)
  | .introduce names => do
    return { b with graph := b.graph.declareImplicit (← b.here "declare_implicit") names }
  | .refer name occurrence => b.refer name occurrence
  | .noteModule => .ok { b with isModule := true }
  | .fail fault => .error fault

/-- Replay actions one after the other. -/
def replay (b : Builder) (actions : List Action) : Except Cause Builder := actions.foldlM apply b

/-- Replay the actions of a hook. -/
def hook (actions : Path → List Action) (p : Path) : EStateM Cause Builder Unit := fun b =>
  match b.replay (actions p) with
  | .ok b' => .ok () b'
  | .error fault => .error fault b

/-- The builder as a visitor of the tree. -/
def visitor : Visitor Builder := ⟨hook Path.enterActions, hook Path.exitActions⟩

/-- Build the graph of a tree. -/
def ofTree (root : Node) : Except Cause Builder :=
  match visitor.traverse root {} with
  | .ok _ b => .ok b
  | .error fault _ => .error fault

end Builder

end LexicalScopes
