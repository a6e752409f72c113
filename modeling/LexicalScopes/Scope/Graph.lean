import LexicalScopes.Scope.Tree
import LexicalScopes.Syntax.Pattern

/-!
# The graph of scopes

While a tree is walked, its scopes form a graph: each draft of a scope knows the scope around it,
so that a name can be resolved from the inside outwards. Scopes, bindings and lists of children
are numbered in the order in which they are made. Scopes refer to bindings and to their list of
children by number, because dissolving a layer makes two scopes share them: what is added through
one of the two then shows in both.
-/

namespace LexicalScopes

abbrev ScopeId : Type := Nat
abbrev EntryId : Type := Nat

/-- A read of a binding, with the raw places where it starts and ends. -/
structure Occurrence where
  start : Json
  stop : Json
  wrappers : List Wrapper
deriving DecidableEq, Repr

/-- A binding under construction; locations are those of the tree. -/
structure Entry where
  kind : BindingKind
  declarations : List Json
  refs : List Occurrence
deriving DecidableEq, Repr

/-- A scope under construction. -/
structure Draft where
  type : ScopeType
  name : Json
  loc : Json
  parent : Option ScopeId
  bindings : List (Scalar × EntryId)
  childList : Nat
deriving DecidableEq, Repr

instance : Inhabited Entry := ⟨⟨.implicit, [], []⟩⟩
instance : Inhabited Draft := ⟨⟨.block, .null, .null, none, [], 0⟩⟩

/-- All scopes and bindings made so far. -/
structure Graph where
  drafts : Array Draft := #[]
  entries : Array Entry := #[]
  childLists : Array (List ScopeId) := #[]
deriving DecidableEq, Repr, Inhabited

namespace Graph

/-! ## Views -/

/-- The draft of a scope. -/
def draft (g : Graph) (s : ScopeId) : Draft := g.drafts.getD s default

/-- A binding. -/
def entry (g : Graph) (b : EntryId) : Entry := g.entries.getD b default

/-- The scopes directly inside a scope, in the order in which they were made. -/
def children (g : Graph) (s : ScopeId) : List ScopeId :=
  g.childLists.getD (g.draft s).childList []

/-- The scope around a scope. -/
def parent? (g : Graph) (s : ScopeId) : Option ScopeId := (g.draft s).parent

/-- The binding of a name in one scope. -/
def find? (g : Graph) (s : ScopeId) (name : Scalar) : Option EntryId :=
  ((g.draft s).bindings.find? fun (n, _) => n.key == name.key).map (·.2)

/-- The scope binds the name. -/
def binds (g : Graph) (s : ScopeId) (name : Scalar) : Bool := (g.find? s name).isSome

/-! ## Enclosing scopes -/

/-- At most `fuel` scopes from `s` outwards. -/
def chainFrom (g : Graph) : Nat → ScopeId → List ScopeId
  | 0, _ => []
  | fuel + 1, s =>
    s :: match g.parent? s with
      | some p => chainFrom g fuel p
      | none => []

/-- The scope itself and the scopes around it, from the inside outwards. A scope is made after
the one around it, so its number bounds how many there are. -/
def chain (g : Graph) (s : ScopeId) : List ScopeId := g.chainFrom (s + 1) s

/-- The innermost scope from `s` outwards that binds the name. -/
def resolve (g : Graph) (s : ScopeId) (name : Scalar) : Option ScopeId :=
  (g.chain s).find? fun t => g.binds t name

/-- `var` declarations of inner blocks belong to this scope. -/
def isHoistTarget (g : Graph) (s : ScopeId) : Bool :=
  match (g.draft s).type with
  | .function => true
  | .moduleLayer => true
  | _ => false

/-- The scope that a `var` declaration in `s` belongs to: the nearest function or module layer,
and the outermost scope if there is none. -/
def varScope (g : Graph) (s : ScopeId) : ScopeId :=
  ((g.chain s).find? g.isHoistTarget).getD ((g.chain s).getLastD s)

/-! ## Growing -/

/-- The number of the scope that is made next. -/
def nextScope (g : Graph) : ScopeId := g.drafts.size

/-- Add an empty scope, as the last child of `parent`. -/
def addScope (g : Graph) (type : ScopeType) (name loc : Json) (parent : Option ScopeId) : Graph :=
  let lists := match parent with
    | some p => g.childLists.modify (g.draft p).childList (· ++ [g.nextScope])
    | none => g.childLists
  { g with
    drafts := g.drafts.push ⟨type, name, loc, parent, [], lists.size⟩
    childLists := lists.push [] }

/-- Give a name in a scope the binding `b`: a name that is bound already keeps its place, a new
one comes last. -/
def bind (g : Graph) (s : ScopeId) (name : Scalar) (b : EntryId) : Graph :=
  { g with
    drafts := g.drafts.modify s fun d =>
      if g.binds s name then
        { d with bindings := d.bindings.map fun (n, c) =>
            if n.key == name.key then (n, b) else (n, c) }
      else { d with bindings := d.bindings ++ [(name, b)] } }

/-- Add a place where a binding is declared. -/
def addDeclaration (g : Graph) (b : EntryId) (loc : Json) : Graph :=
  { g with
    entries := g.entries.modify b fun e => { e with declarations := e.declarations ++ [loc] } }

/-- Add a place where a binding is read. -/
def addReference (g : Graph) (b : EntryId) (o : Occurrence) : Graph :=
  { g with entries := g.entries.modify b fun e => { e with refs := e.refs ++ [o] } }

/-- Declare a name in a scope. A name that is declared again keeps its kind. Without a location
the name is only introduced. -/
def declare (g : Graph) (s : ScopeId) (name : Scalar) (kind : BindingKind)
    (loc : Option Json) : Graph :=
  match g.find? s name with
  | some b =>
    match loc with
    | some loc => g.addDeclaration b loc
    | none => g
  | none =>
    let b := g.entries.size
    { g with entries := g.entries.push ⟨kind, loc.toList, []⟩ }.bind s name b

/-- Introduce names that the source does not declare, unless they are bound already. -/
def declareImplicit (g : Graph) (s : ScopeId) (names : List String) : Graph :=
  names.foldl (fun g name => g.declare s (.string name) .implicit none) g

/-- Declare names one by one, up to the first fault. -/
def declareAll (s : ScopeId) (kind : BindingKind) :
    List (Except Cause BoundName) → EStateM Cause Graph Unit
  | [], g => .ok () g
  | .ok bound :: rest, g => declareAll s kind rest (g.declare s bound.name kind bound.loc)
  | .error fault :: _, g => .error fault g

/-- Declare every name that a pattern binds. If the pattern is malformed, the names up to there
stay declared. -/
def declarePattern (s : ScopeId) (target : Json) (kind : BindingKind) :
    EStateM Cause Graph Unit :=
  declareAll s kind (boundNames target)

/-! ## Layers -/

/-- The names that a file finds around it where files are modules that export values. -/
def hostNames : List String := ["module", "exports", "__dirname", "__filename", "require"]

/-- One of the host's names in this scope is read. -/
def readsHostNames (g : Graph) (root : ScopeId) : Bool :=
  hostNames.any fun name =>
    match g.find? root (.string name) with
    | some b => !(g.entry b).refs.isEmpty
    | none => false

/-- Hand a binding of the module layer on: `let` and `const` to the lexical scope, all else to the
root. -/
def moveBinding (root lexical : ScopeId) (g : Graph) : Scalar × EntryId → Graph
  | (name, b) =>
    match (g.entry b).kind with
    | .lexical => g.bind lexical name b
    | .constant => g.bind lexical name b
    | _ => g.bind root name b

/-- Let a scope stand inside `parent`. -/
def setParent (parent : ScopeId) (g : Graph) (s : ScopeId) : Graph :=
  { g with drafts := g.drafts.modify s fun d => { d with parent := some parent } }

/-- Dissolve a layer: the scopes around it take over its bindings, and the lexical scope its list
of children. -/
def dissolveLayer (g : Graph) (root lexical layer : ScopeId) : Graph :=
  let moved := (g.draft layer).bindings.foldl (moveBinding root lexical) g
  let shared := { moved with
    drafts := moved.drafts.modify lexical fun d =>
      { d with childList := (moved.draft layer).childList } }
  (shared.children lexical).foldl (setParent lexical) shared

/-- The lexical scope and the module layer below a root. -/
def layers (g : Graph) (root : ScopeId) : Except Cause (ScopeId × ScopeId) :=
  match g.children root with
  | [] => .error (.inconsistent .noLexicalGlobal)
  | lexical :: _ =>
    match g.children lexical with
    | [] => .error (.inconsistent .noModule)
    | layer :: _ =>
      if (g.draft layer).type = .moduleLayer then .ok (lexical, layer)
      else .error (.inconsistent .noModule)

/-- Dissolve the module layer below a root. -/
def dissolve (g : Graph) (root : ScopeId) : Except Cause Graph := do
  let (lexical, layer) ← g.layers root
  return g.dissolveLayer root lexical layer

end Graph

end LexicalScopes
