import LexicalScopes.Analysis
import LexicalScopes.Proofs.Run.Walk

/-!
# Events of a walk

The walk of a tree is a sequence of events: every node is entered, its children are walked from
left to right, and it is left. Building the graph of a tree is replaying the actions of these
events.
-/

namespace LexicalScopes

/-! ## Children -/

namespace Path

/-- The children of a node; none if they cannot be listed. -/
def kids (p : Path) : List Path :=
  match p.children with
  | .ok cs => cs
  | .error _ => []

/-- The nodes above a node, from the inside outwards. -/
def above : Path → List Path
  | .root _ => []
  | .child parent _ _ _ => parent :: parent.above

theorem isChildOf_eq_false {p : Path} {types : List String} {key : String}
    (h : p.key? ≠ some key) : p.isChildOf types key = false := by
  cases p with
  | root n => rfl
  | child parent place index n =>
    have hplace : (place == key) = false := by
      rw [beq_eq_false_iff_ne]
      intro heq
      exact h (congrArg some heq)
    simp [Path.isChildOf, hplace]

theorem kids_of_children {p : Path} {cs : List Path} (h : p.children = .ok cs) : p.kids = cs := by
  rw [kids, h]

theorem size_lt_of_mem_kids {p c : Path} (h : c ∈ p.kids) :
    (Json.object c.node).size < (Json.object p.node).size := by
  unfold kids at h
  split at h
  · exact size_lt_of_mem_children ‹_› h
  · simp at h

theorem exists_eq_child_of_mem_listed {p c : Path} {key : String} {start : Nat} {items : List Json}
    (h : c ∈ p.listed key start items) : ∃ index, c = .child p key index c.node := by
  induction items generalizing start with
  | nil => cases h
  | cons item rest ih =>
    rw [listed] at h
    split at h
    · rcases List.mem_cons.1 h with rfl | h
      · exact ⟨_, rfl⟩
      · exact ih h
    · exact ih h

theorem exists_eq_child {p c : Path} {key : String} (h : c ∈ p.inField key) :
    ∃ index, c = .child p key index c.node := by
  unfold inField at h
  split at h
  · exact exists_eq_child_of_mem_listed h
  · split at h
    · rw [List.mem_singleton.1 h]
      exact ⟨_, rfl⟩
    · cases h

theorem exists_inField_of_mem_kids {p c : Path} (h : c ∈ p.kids) : ∃ key, c ∈ p.inField key := by
  unfold kids at h
  split at h
  · rename_i cs hcs
    obtain ⟨keys, -, hkeys⟩ := bind_eq_ok.1 hcs
    cases hkeys
    obtain ⟨key, -, hc⟩ := List.mem_flatMap.1 h
    exact ⟨key, hc⟩
  · cases h

/-- What holds of a node whenever it holds of its children holds of every node. -/
theorem induction_on_kids {motive : Path → Prop}
    (step : ∀ p, (∀ c ∈ p.kids, motive c) → motive p) (p : Path) : motive p :=
  step p fun c _ => induction_on_kids step c
termination_by (Json.object p.node).size
decreasing_by exact size_lt_of_mem_kids ‹_›

end Path

/-! ## Events -/

/-- A node is entered or left. -/
inductive Event where
  | enter (p : Path)
  | exit (p : Path)

/-- What an event does to the scopes. -/
def Event.actions : Event → List Action
  | .enter p => p.enterActions
  | .exit p => p.exitActions

/-- The events of walking a node and everything below it. -/
def Path.events (p : Path) : List Event :=
  .enter p :: (p.kids.attach.flatMap fun ⟨c, _⟩ => c.events) ++ [.exit p]
termination_by (Json.object p.node).size
decreasing_by exact Path.size_lt_of_mem_kids ‹_›

/-- The events of walking several nodes one after the other. -/
def Path.allEvents (ps : List Path) : List Event := ps.flatMap Path.events

theorem Path.events_eq (p : Path) :
    p.events = .enter p :: (Path.allEvents p.kids ++ [.exit p]) := by
  rw [Path.events, List.flatMap_subtype (g := Path.events) (by intros; rfl), List.unattach_attach]
  rfl

@[simp] theorem Path.allEvents_cons (p : Path) (ps : List Path) :
    Path.allEvents (p :: ps) = p.events ++ Path.allEvents ps := rfl

@[simp] theorem Path.allEvents_append (ps qs : List Path) :
    Path.allEvents (ps ++ qs) = Path.allEvents ps ++ Path.allEvents qs := List.flatMap_append

/-! ## Replaying -/

namespace Builder

variable {b b' : Builder}

theorem replay_nil : b.replay [] = .ok b := rfl

theorem replay_cons {a : Action} {actions : List Action} :
    b.replay (a :: actions) = b.apply a >>= fun b' => b'.replay actions := by
  rw [replay, List.foldlM_cons]
  rfl

theorem replay_append {actions rest : List Action} :
    b.replay (actions ++ rest) = b.replay actions >>= fun b' => b'.replay rest := by
  rw [replay, List.foldlM_append]
  rfl

/-- Replay the actions of events one after the other. -/
def run (b : Builder) (events : List Event) : Except Cause Builder :=
  b.replay (events.flatMap Event.actions)

theorem run_append {past rest : List Event} :
    b.run (past ++ rest) = b.run past >>= fun b' => b'.run rest := by
  rw [run, List.flatMap_append, replay_append]
  rfl

theorem run_append_eq_ok {past rest : List Event} :
    b.run (past ++ rest) = .ok b' ↔ ∃ b₁, b.run past = .ok b₁ ∧ b₁.run rest = .ok b' := by
  rw [run_append, bind_eq_ok]

theorem run_cons {event : Event} {rest : List Event} :
    b.run (event :: rest) = b.replay event.actions >>= fun b' => b'.run rest := by
  rw [run, List.flatMap_cons, replay_append]
  rfl

theorem run_cons_eq_ok {event : Event} {rest : List Event} :
    b.run (event :: rest) = .ok b' ↔
      ∃ b₁, b.replay event.actions = .ok b₁ ∧ b₁.run rest = .ok b' := by
  rw [run_cons, bind_eq_ok]

theorem run_singleton {event : Event} : b.run [event] = b.replay event.actions := by
  rw [run, List.flatMap_singleton]

/-! ## The walk of a tree -/

theorem hook_eq_ok {actions : Path → List Action} {p : Path} {u : Unit}
    (h : hook actions p b = .ok u b') : b.replay (actions p) = .ok b' := by
  unfold hook at h
  split at h
  · cases h
    assumption
  · cases h

/-- Nodes that replay their events one by one replay them in a row. -/
theorem run_allEvents_of_walkAll {ps : List Path} {u : Unit}
    (hwalk : ∀ p ∈ ps, ∀ b u b', visitor.walk p b = .ok u b' → b.run p.events = .ok b')
    (h : visitor.walkAll (.ok ps) b = .ok u b') : b.run (Path.allEvents ps) = .ok b' := by
  induction ps generalizing b with
  | nil =>
    cases h
    rfl
  | cons p ps ih =>
    rw [Visitor.walkAll_cons] at h
    obtain ⟨_, b₁, hp, hps⟩ := exists_of_bind_eq_ok h
    obtain ⟨hwalkp, hwalkps⟩ := List.forall_mem_cons.1 hwalk
    rw [Path.allEvents_cons]
    exact run_append_eq_ok.2 ⟨b₁, hwalkp _ _ _ hp, ih hwalkps hps⟩

/-- To walk a node is to replay its events. -/
theorem run_events_of_walk {p : Path} {u : Unit} (h : visitor.walk p b = .ok u b') :
    b.run p.events = .ok b' := by
  induction p using Path.induction_on_kids generalizing b u b' with
  | step p ih =>
    rw [Visitor.walk_eq] at h
    obtain ⟨_, b₁, henter, h⟩ := exists_of_bind_eq_ok h
    obtain ⟨_, b₂, hall, hexit⟩ := exists_of_bind_eq_ok h
    obtain ⟨cs, hcs⟩ := Visitor.children_of_walkAll _ hall
    rw [hcs, ← Path.kids_of_children hcs] at hall
    have hkids := run_allEvents_of_walkAll (fun c hc _ _ _ => ih c hc) hall
    rw [Path.events_eq]
    refine run_cons_eq_ok.2 ⟨b₁, hook_eq_ok henter, run_append_eq_ok.2 ⟨b₂, hkids, ?_⟩⟩
    rw [run_singleton]
    exact hook_eq_ok hexit

/-- The graph of a tree is what its events make. -/
theorem run_events_of_ofTree {root : Node} (h : ofTree root = .ok b') :
    ({} : Builder).run (Path.root root).events = .ok b' := by
  unfold ofTree at h
  rw [Visitor.traverse_eq] at h
  split at h
  · rename_i b hwalk
    cases h
    exact run_events_of_walk hwalk
  · cases h

end Builder

/-- What is collected from a tree is built from a `Program`. -/
theorem ofTree_of_collect {root : Node} {final : Builder} (h : collect (.object root) = .ok final) :
    root.isAny ["Program"] = true ∧ Builder.ofTree root = .ok final := by
  unfold collect at h
  dsimp only [Json.node?] at h
  split at h
  · exact ⟨‹_›, h⟩
  · cases h

end LexicalScopes
