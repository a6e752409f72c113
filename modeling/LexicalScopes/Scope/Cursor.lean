import LexicalScopes.Scope.Tree

/-!
# Looking up a location

Which scopes enclose a location of the source, and which names can be used there. At every level
the first child that contains the location is followed; the root always encloses, even where the
location lies outside its range.
-/

namespace LexicalScopes

namespace Scope

mutual

/-- The scopes around a location, the innermost first and the root last. -/
def enclosing (l : Location) : Scope → Except Fault (List Scope)
  | ⟨type, name, range, bindings, children⟩ => do
    return (← enclosingIn l children) ++ [⟨type, name, range, bindings, children⟩]

/-- The scopes around a location in the first of some scopes that contains it. -/
def enclosingIn (l : Location) : List Scope → Except Fault (List Scope)
  | [] => .ok []
  | s :: rest => do
    if ← s.range.contains l then s.enclosing l else enclosingIn l rest

end

/-- A name that can be used at a location, with its binding and the place of the scope that binds
it among the enclosing scopes. -/
structure Visible where
  name : Scalar
  depth : Nat
  binding : Binding
deriving DecidableEq, Repr

/-- Add a name unless an inner scope binds it already. -/
def addVisible (seen : List Visible) (v : Visible) : List Visible :=
  if seen.any fun w => w.name.key == v.name.key then seen else seen ++ [v]

/-- The names bound by scopes listed from the inside outwards, of which the first stands at
`depth`. -/
def visibleFrom (depth : Nat) (scopes : List Scope) : List Visible :=
  ((scopes.zipIdx depth).flatMap fun (s, i) =>
    s.bindings.map fun (name, binding) => ⟨name, i, binding⟩).foldl addVisible []

/-- The names that can be used at a location, each with the innermost binding. -/
def visible (root : Scope) (l : Location) : Except Fault (List Visible) := do
  return visibleFrom 0 (← root.enclosing l)

end Scope

end LexicalScopes
