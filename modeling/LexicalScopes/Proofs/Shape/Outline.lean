import LexicalScopes.Proofs.Run.Contribution

/-!
# Outlines

The outline of a tree of scopes says what the scopes are and how they nest, but not which names they
bind. The outline of a program follows its syntax tree: the scopes that a node contributes lie
inside each other, and around the scopes of the nodes below it.
-/

namespace LexicalScopes

/-- A scope and the scopes nested in it, without the names. -/
inductive Outline where
  | mk (heading : Heading) (children : List Outline)

namespace Outline

/-- Scopes inside each other, the first one outermost, and others inside the last one. -/
def nest : List Heading → List Outline → List Outline
  | [], below => below
  | heading :: rest, below => [.mk heading (nest rest below)]

mutual

/-- A tree of scopes that bind nothing. -/
def toScope : Outline → Except Cause Scope
  | .mk heading children => do
    let range ← Range.ofLoc heading.loc
    let scopes ← toScopes children
    return ⟨heading.type.shown, heading.name, range, [], scopes⟩

def toScopes : List Outline → Except Cause (List Scope)
  | [] => return []
  | outline :: rest => do
    let scope ← outline.toScope
    let scopes ← toScopes rest
    return scope :: scopes

end

end Outline

namespace Scope

mutual

/-- The tree without its names. -/
def bare : Scope → Scope
  | ⟨type, name, range, _, children⟩ => ⟨type, name, range, [], bareAll children⟩

def bareAll : List Scope → List Scope
  | [] => []
  | s :: rest => s.bare :: bareAll rest

end

end Scope

/-! ## The outline of a syntax tree -/

namespace Path

/-- The scopes of a node and of everything below it. -/
def outlines (p : Path) : Except Cause (List Outline) := do
  let own ← p.contributed
  let below ← p.kids.attach.mapM fun ⟨c, _⟩ => c.outlines
  return Outline.nest own below.flatten
termination_by (Json.object p.node).size
decreasing_by exact size_lt_of_mem_kids ‹_›

/-- The scopes of several nodes, one after the other. -/
def allOutlines (ps : List Path) : Except Cause (List Outline) := do
  let outlines ← ps.mapM outlines
  return outlines.flatten

theorem outlines_eq (p : Path) :
    p.outlines = (do
      let own ← p.contributed
      let below ← allOutlines p.kids
      return Outline.nest own below) := by
  rw [outlines, List.mapM_subtype (g := outlines) (by intros; rfl), List.unattach_attach]
  unfold allOutlines
  cases p.contributed with
  | error fault => rfl
  | ok own => cases p.kids.mapM outlines <;> rfl

theorem allOutlines_cons (p : Path) (ps : List Path) :
    allOutlines (p :: ps) = (do
      let first ← p.outlines
      let rest ← allOutlines ps
      return first ++ rest) := by
  unfold allOutlines
  rw [List.mapM_cons]
  cases p.outlines with
  | error fault => rfl
  | ok first => cases ps.mapM outlines <;> rfl

end Path

/-- The scopes of a program: the global scope, the scope of global `let` and `const` and, if it is
kept, the module layer, around the scopes of what the program holds. -/
def Node.outline (root : Node) (keepsModule : Bool) : Except Cause Outline := do
  let loc := Json.object (← root.loc)
  let below ← Path.allOutlines (Path.root root).kids
  let layer := if keepsModule then [⟨.moduleLayer, .string "Module", loc⟩] else []
  return .mk ⟨.object, .string "Global", loc⟩
    (Outline.nest (⟨.block, .string "Lexical Global", loc⟩ :: layer) below)

end LexicalScopes
