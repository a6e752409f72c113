import LexicalScopes.Scope.Graph

/-!
# From the graph to the tree

When the walk is over, the module layer is kept if the source is a module or reads one of the
host's names, and dissolved otherwise. Generated sources read such names without being modules, so
for them only imports and exports count. The graph is then copied into a tree, in which every
location has a line and a column.
-/

namespace LexicalScopes

/-! ## Layers -/

namespace Graph

/-- The module layer below a root is worth showing. -/
def keepsModule (g : Graph) (root : ScopeId) (isModule generated : Bool) : Bool :=
  isModule || (!generated && g.readsHostNames root)

/-- Dissolve the module layer unless it is kept. -/
def settle (g : Graph) (root : ScopeId) (isModule generated : Bool) : Except Cause Graph :=
  if g.keepsModule root isModule generated then .ok g else g.dissolve root

end Graph

/-! ## Copying -/

/-- A place of the tree that has a line and a column. -/
def Location.ofPlace (place : Json) : Except Cause Location := do
  let n ← place.record
  return ⟨← n.required "line", ← n.required "column"⟩

/-- The range between two places. -/
def Range.ofPlaces (start stop : Json) : Except Cause Range := do
  return ⟨← Location.ofPlace start, ← Location.ofPlace stop⟩

/-- The range of a location of the tree. -/
def Range.ofLoc (loc : Json) : Except Cause Range := do
  let n ← loc.record
  let start ← Location.ofPlace (← n.required "start")
  let stop ← Location.ofPlace (← n.required "end")
  return ⟨start, stop⟩

/-- The wrapper with its range. -/
def Wrapper.toWrapping (w : Wrapper) : Except Cause Wrapping := do
  return ⟨w.form, ← Range.ofPlaces w.start w.stop⟩

/-- The wrappers with their ranges, built up from the outermost one. -/
def Wrapper.exportChain (ws : List Wrapper) : Except Cause (List Wrapping) :=
  ws.reverse.foldlM (fun outer w => return (← w.toWrapping) :: outer) []

theorem Wrapper.exportChain_nil : exportChain [] = .ok [] := rfl

/-- The wrappers around a wrapper are copied before it. -/
theorem Wrapper.exportChain_cons (w : Wrapper) (ws : List Wrapper) :
    exportChain (w :: ws) = do
      let outer ← exportChain ws
      return (← w.toWrapping) :: outer := by
  simp [exportChain]

/-- The read with its ranges. -/
def Occurrence.toReference (o : Occurrence) : Except Cause Reference := do
  return ⟨← Range.ofPlaces o.start o.stop, ← Wrapper.exportChain o.wrappers⟩

/-- The binding with its ranges. -/
def Entry.toBinding (e : Entry) : Except Cause Binding := do
  return ⟨e.kind, ← e.declarations.mapM Range.ofLoc, ← e.refs.mapM Occurrence.toReference⟩

namespace Graph

/-- The tree below a scope that is at most `fuel` scopes high. -/
def treeFrom (g : Graph) : Nat → ScopeId → Except Cause Scope
  | 0, _ => .error (.misread .bottom)
  | fuel + 1, s => do
    let d := g.draft s
    let range ← Range.ofLoc d.loc
    let bindings ← d.bindings.mapM fun (name, b) => return (name, ← (g.entry b).toBinding)
    let children ← (g.children s).mapM (treeFrom g fuel)
    return ⟨d.type.shown, d.name, range, bindings, children⟩

/-- The tree below a scope. Every scope lies inside one made before it, so the number of scopes
bounds the height. -/
def tree (g : Graph) (s : ScopeId) : Except Cause Scope := g.treeFrom g.drafts.size s

end Graph

end LexicalScopes
