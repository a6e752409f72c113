import LexicalScopes.Proofs.Reading
import LexicalScopes.Syntax.Traversal

/-!
# Walks

Every state of the traversal's stack stands for the rest of a walk: for each open path, the children
that are still to come are walked and the path is left. Going on from that state is doing the rest
of the walk.
-/

namespace LexicalScopes

namespace Visitor

variable {σ : Type} (v : Visitor σ)

/-! ## Recursion -/

/-- Walk listed nodes one after the other; a fault of the listing ends the walk. -/
def walkAll : Except Cause (List Path) → EStateM Cause σ Unit
  | .ok cs => forM cs v.walk
  | .error fault => throw fault

theorem walkAll_cons (p : Path) (ps : List Path) :
    v.walkAll (.ok (p :: ps)) = (do
      v.walk p
      v.walkAll (.ok ps)) := by
  rw [walkAll, List.forM_cons]
  rfl

theorem children_of_walkAll {result : Except Cause (List Path)} {s s' : σ} {o : Unit}
    (h : v.walkAll result s = .ok o s') : ∃ cs, result = .ok cs := by
  cases result with
  | ok cs => exact ⟨cs, rfl⟩
  | error fault => cases h

theorem walk_eq (p : Path) :
    v.walk p = (do
      v.enter p
      v.walkAll p.children
      v.exit p) := by
  rw [walk]
  congr 1
  funext _
  split
  · rename_i fault hfault
    rw [hfault, walkAll]
  · rename_i cs hcs
    have hforM : forM cs.attach (fun c => v.walk c.1) = forM (cs.attach.map Subtype.val) v.walk :=
      List.forM_map.symm
    rw [List.attach_map_subtype_val] at hforM
    rw [hcs, walkAll, ← hforM]
    rfl

/-! ## The rest of a walk -/

/-- Walk the children of an open path that are still to come, and leave the path. -/
def finish (f : Frame) : EStateM Cause σ Unit := do
  v.walkAll (f.1.upcoming f.2)
  v.exit f.1

/-- To walk a path is to enter it and to finish it. -/
theorem walk_eq_finish (p : Path) :
    v.walk p = (do
      v.enter p
      v.finish (p, .all)) :=
  v.walk_eq p

variable {v} {p c : Path} {u after : Path.Upcoming}

theorem finish_of_error {fault : Cause} (h : p.next u = .error fault) :
    v.finish (p, u) = throw fault := by
  rw [finish, Path.upcoming_of_next_eq_error h]
  rfl

theorem finish_of_none (h : p.next u = .ok none) : v.finish (p, u) = v.exit p := by
  rw [finish, Path.upcoming_of_next_eq_none h]
  rfl

theorem finish_of_some (h : p.next u = .ok (some (c, after))) :
    v.finish (p, u) = (do
      v.enter c
      v.finish (c, .all)
      v.finish (p, after)) := by
  obtain ⟨cs, hall, hafter⟩ := Path.upcoming_of_next_eq_some h
  have hrest : v.finish (p, after) = (do
      v.walkAll (.ok cs)
      v.exit p) := by rw [finish, hafter]
  rw [hrest, finish, hall, walkAll_cons, walk_eq_finish, bind_assoc, bind_assoc]

/-- To go on with a stack of open paths is to finish them from the innermost one to the root. -/
theorem run_eq (frames : List Frame) (s : σ) : v.run frames s = (forM frames v.finish) s := by
  -- Induction along the traversal: each step takes one step of the walk.
  fun_induction Visitor.run v frames s with
  | case1 s => rfl
  | case2 s p u rest fault hnext =>
    rw [List.forM_cons, finish_of_error hnext]
    rfl
  | case3 s p u rest hnext fault s₁ hexit =>
    rw [List.forM_cons, finish_of_none hnext, bind_of_error hexit]
  | case4 s p u rest hnext o s₁ hexit ih =>
    rw [List.forM_cons, finish_of_none hnext, bind_of_ok hexit, ih]
  | case5 s p u rest c after hnext fault s₁ henter =>
    rw [List.forM_cons, finish_of_some hnext, bind_assoc, bind_of_error henter]
  | case6 s p u rest c after hnext o s₁ henter ih =>
    rw [List.forM_cons, finish_of_some hnext, bind_assoc, bind_of_ok henter, ih, bind_assoc,
      List.forM_cons, List.forM_cons]

/-- A traversal with its stack is the recursive walk from the root. -/
theorem traverse_eq (v : Visitor σ) (root : Node) : v.traverse root = v.walk (.root root) := by
  funext s
  rw [traverse, walk_eq_finish]
  split
  · rename_i fault s₁ henter
    rw [bind_of_error henter]
  · rename_i o s₁ henter
    have hlast : forM [(Path.root root, .all)] v.finish = v.finish (.root root, .all) := by
      rw [List.forM_cons, List.forM_nil, bind_pure_unit]
    rw [bind_of_ok henter, run_eq, hlast]

end Visitor

end LexicalScopes
