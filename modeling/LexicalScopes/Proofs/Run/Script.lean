import LexicalScopes.Proofs.Run.Events

/-!
# Scripts

The script of a node lists the actions of walking the node and everything below it. Children that
cannot be listed stand in it as the fault that they end the walk with. To build the graph of a tree
is to replay the script of its root, so two trees with the same script have the same graph, or fail
in the same way.
-/

namespace LexicalScopes

/-! ## The actions of a walk -/

/-- The actions of walking a node and everything below it. -/
def Path.script (p : Path) : List Action :=
  p.enterActions ++
    (match _h : p.children with
      | .ok cs => cs.attach.flatMap fun ⟨c, _⟩ => c.script
      | .error fault => [.fail fault]) ++
    p.exitActions
termination_by (Json.object p.node).size
decreasing_by exact Path.size_lt_of_mem_children _h ‹_›

/-- The actions of walking listed nodes one after the other. -/
def Path.scripts : Except Cause (List Path) → List Action
  | .ok ps => ps.flatMap Path.script
  | .error fault => [.fail fault]

@[simp] theorem Path.scripts_nil : Path.scripts (.ok []) = [] := rfl

@[simp] theorem Path.scripts_cons (p : Path) (ps : List Path) :
    Path.scripts (.ok (p :: ps)) = p.script ++ Path.scripts (.ok ps) := rfl

@[simp] theorem Path.scripts_error (fault : Cause) :
    Path.scripts (.error fault) = [.fail fault] := rfl

theorem Path.script_eq (p : Path) :
    p.script = p.enterActions ++ Path.scripts p.children ++ p.exitActions := by
  rw [script]
  congr 2
  split
  · rename_i cs hcs
    rw [hcs, scripts, List.flatMap_subtype (g := Path.script) (by intros; rfl),
      List.unattach_attach]
  · rename_i fault hfault
    rw [hfault, scripts]

namespace Builder

variable {b : Builder}

/-! ## Replaying a script -/

theorem replay_fail {fault : Cause} {actions : List Action} :
    b.replay (.fail fault :: actions) = .error fault := by
  rw [replay_cons]
  rfl

/-- What a hook or a walk leaves behind. -/
def outcome : EStateM.Result Cause Builder Unit → Except Cause Builder
  | .ok _ b => .ok b
  | .error fault _ => .error fault

theorem outcome_hook (actions : Path → List Action) (p : Path) :
    outcome (hook actions p b) = b.replay (actions p) := by
  unfold hook outcome
  cases b.replay (actions p) <;> rfl

theorem outcome_bind {x : EStateM Cause Builder Unit} {f : Unit → EStateM Cause Builder Unit}
    {b : Builder} : outcome ((x >>= f) b) = outcome (x b) >>= fun b' => outcome (f () b') := by
  cases hx : x b with
  | ok u b' =>
    rw [bind_of_ok hx]
    rfl
  | error fault b' =>
    rw [bind_of_error hx]
    rfl

/-- Nodes that replay their scripts one by one replay them in a row. -/
theorem outcome_walkAll {ps : List Path}
    (hwalk : ∀ p ∈ ps, ∀ b, outcome (visitor.walk p b) = b.replay p.script) :
    outcome (visitor.walkAll (.ok ps) b) = b.replay (Path.scripts (.ok ps)) := by
  induction ps generalizing b with
  | nil => rfl
  | cons p ps ih =>
    obtain ⟨hp, hps⟩ := List.forall_mem_cons.1 hwalk
    rw [Visitor.walkAll_cons, outcome_bind, hp, Path.scripts_cons, replay_append]
    simp only [ih hps]

/-- To walk a node is to replay its script. -/
theorem outcome_walk (p : Path) : outcome (visitor.walk p b) = b.replay p.script := by
  induction p using Path.induction_on_kids generalizing b with
  | step p ih =>
    have hkids (b : Builder) :
        outcome (visitor.walkAll p.children b) = b.replay (Path.scripts p.children) := by
      cases hcs : p.children with
      | ok cs =>
        refine outcome_walkAll fun c hc b => ih c ?_
        rwa [Path.kids_of_children hcs]
      | error fault =>
        rw [Path.scripts_error, replay_fail]
        rfl
    have hexit (b : Builder) : outcome (visitor.exit p b) = b.replay p.exitActions :=
      outcome_hook Path.exitActions p
    rw [Visitor.walk_eq, Path.script_eq, List.append_assoc, replay_append, outcome_bind]
    simp only [outcome_bind, hkids, hexit, replay_append]
    exact congrArg (· >>= _) (outcome_hook Path.enterActions p)

/-- To build the graph of a tree is to replay the script of its root. -/
theorem ofTree_eq_replay (root : Node) :
    ofTree root = ({} : Builder).replay (Path.root root).script := by
  rw [← outcome_walk, ← Visitor.traverse_eq]
  unfold ofTree outcome
  cases visitor.traverse root {} <;> rfl

end Builder

end LexicalScopes
