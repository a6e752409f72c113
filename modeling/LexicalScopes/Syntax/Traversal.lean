import LexicalScopes.Syntax.Path

/-!
# Traversal

A visitor is a pair of hooks over a state: one runs before the children of a node, one after them.
A hook or the listing of children may fail, which ends the traversal; the state reached by then is
kept. `Visitor.traverse` keeps the paths that are still open on a stack of its own, each with the
children that are still to come, so the depth of a tree is not limited. `Visitor.walk` is the same
by recursion on the tree.
-/

namespace LexicalScopes

/-- What is done at each node, before and after its children. -/
structure Visitor (σ : Type) where
  enter : Path → EStateM Cause σ Unit
  exit : Path → EStateM Cause σ Unit

/-! ## Recursion -/

/-- Enter the node, walk its children from left to right, exit the node. -/
def Visitor.walk {σ : Type} (v : Visitor σ) (p : Path) : EStateM Cause σ Unit := do
  v.enter p
  match _h : p.children with
  | .error fault => throw fault
  | .ok cs => cs.attach.forM fun ⟨c, _⟩ => v.walk c
  v.exit p
termination_by (Json.object p.node).size
decreasing_by exact Path.size_lt_of_mem_children _h ‹_›

/-! ## Explicit stack -/

/-- The sum of some numbers. -/
def total : List Nat → Nat
  | [] => 0
  | n :: rest => n + total rest

/-- The number of nodes at and below a path. -/
def Path.visits (p : Path) : Nat :=
  match h : p.children with
  | .error _ => 1
  | .ok cs => 1 + total (cs.attach.map fun ⟨c, _⟩ => c.visits)
termination_by (Json.object p.node).size
decreasing_by exact Path.size_lt_of_mem_children h ‹_›

/-- An entered path and its children that are still to come. -/
abbrev Frame : Type := Path × Path.Upcoming

/-- Every pending child still has to be entered and left, every open path to be left. -/
def Frame.pending (f : Frame) : Nat :=
  match f.1.upcoming f.2 with
  | .ok cs => 1 + 2 * total (cs.map Path.visits)
  | .error _ => 1

theorem Path.visits_eq {p : Path} {cs : List Path} (h : p.children = .ok cs) :
    p.visits = 1 + total (cs.map Path.visits) := by
  rw [visits]
  split
  · simp_all
  · rename_i ds hd
    rw [h] at hd
    cases hd
    simp

theorem Path.visits_pos (p : Path) : 0 < p.visits := by
  rw [visits]
  split <;> omega

theorem Frame.pending_of_ok {p : Path} {u : Path.Upcoming} {cs : List Path}
    (h : p.upcoming u = .ok cs) : Frame.pending (p, u) = 1 + 2 * total (cs.map Path.visits) := by
  rw [pending, h]

/-- A path that is just entered. -/
theorem Frame.pending_all_lt (p : Path) : Frame.pending (p, .all) < 2 * p.visits := by
  rw [pending, Path.upcoming]
  cases h : p.children with
  | ok cs =>
    rw [Path.visits_eq h]
    dsimp only
    omega
  | error fault =>
    have hpos := p.visits_pos
    dsimp only
    omega

/-- Go on until every open path is left. The innermost one is asked for its next child, which is
entered and becomes the innermost one itself; if there is none left, the path is left. -/
def Visitor.run {σ : Type} (v : Visitor σ) (frames : List Frame) (s : σ) :
    EStateM.Result Cause σ Unit :=
  match frames with
  | [] => .ok () s
  | (p, u) :: rest =>
    match _h : p.next u with
    | .error fault => .error fault s
    | .ok none =>
      match v.exit p s with
      | .error fault s => .error fault s
      | .ok _ s => v.run rest s
    | .ok (some (c, after)) =>
      match v.enter c s with
      | .error fault s => .error fault s
      | .ok _ s => v.run ((c, .all) :: (p, after) :: rest) s
termination_by total (frames.map Frame.pending)
decreasing_by
  · rw [List.map_cons, total, Frame.pending_of_ok (Path.upcoming_of_next_eq_none _h)]
    omega
  · obtain ⟨cs, hall, hafter⟩ := Path.upcoming_of_next_eq_some _h
    have hc := Frame.pending_all_lt c
    simp only [List.map_cons, total, Frame.pending_of_ok hall, Frame.pending_of_ok hafter]
    omega

/-- Enter and leave every node of a tree, each before and after its children. -/
def Visitor.traverse {σ : Type} (v : Visitor σ) (root : Node) : EStateM Cause σ Unit := fun s =>
  match v.enter (.root root) s with
  | .error fault s => .error fault s
  | .ok _ s => v.run [(.root root, .all)] s

end LexicalScopes
