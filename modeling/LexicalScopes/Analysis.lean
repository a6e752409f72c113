import LexicalScopes.Scope.Builder
import LexicalScopes.Scope.Finish

/-!
# Scope analysis

The scope tree of a program: build the graph of its scopes, decide on the module layer, copy the
graph into a tree.
-/

namespace LexicalScopes

/-- The graph of the scopes of a program. -/
def collect (ast : Json) : Except Cause Builder :=
  match ast.node? with
  | some root =>
    if root.isAny ["Program"] then Builder.ofTree root else .error (.malformed .notProgram ast)
  | none => .error (.malformed .notProgram ast)

/-- The root scope of what was built. -/
def Builder.rootScope (b : Builder) : Except Cause ScopeId :=
  match b.root with
  | some root => .ok root
  | none => .error (.inconsistent .noGlobal)

/-- The scope tree of what was built. -/
def Builder.finish (b : Builder) (generated : Bool) : Except Cause Scope := do
  let root ← b.rootScope
  (← b.graph.settle root b.isModule generated).tree root

/-- The scope tree of a program. The reading of host names makes a module of a source only if it is
not `generated`. -/
def analyze (ast : Json) (generated : Bool) : Except Cause Scope := do
  (← collect ast).finish generated

end LexicalScopes
