import LexicalScopes.Proofs.Run.Pointer

/-!
# Visits

A visit is one node of the tree together with the events before it and the scopes that the nodes
above it made. The run that builds the graph of the tree passes every visit: it reaches the node,
enters it and goes on to the end.
-/

namespace LexicalScopes

/-! ## Visited nodes -/

/-- The number of scopes that events make. -/
def scopesMade (events : List Event) : Nat := (events.flatMap Event.actions).countP Action.opens

/-- The scopes that a node makes when it is entered after `past`, the innermost first. -/
def Path.ownScopes (p : Path) (past : List Event) : List ScopeId :=
  (List.range' (scopesMade past) p.scopeCount).reverse

theorem Path.mem_ownScopes {p : Path} {past : List Event} {t : ScopeId} :
    t ∈ p.ownScopes past ↔ scopesMade past ≤ t ∧ t < scopesMade past + p.scopeCount := by
  rw [ownScopes, List.mem_reverse, List.mem_range'_1]

theorem Path.ownScopes_eq_nil_iff {p : Path} {past : List Event} :
    p.ownScopes past = [] ↔ p.scopeCount = 0 := by
  rw [ownScopes, List.reverse_eq_nil_iff, List.range'_eq_nil_iff]

/-- Below `root` the node `p` is entered after the events `past`. The scopes `around` are those of
the nodes above it, the innermost first. -/
inductive Visit (root : Node) : List Event → List ScopeId → Path → Prop where
  | root : Visit root [] [] (.root root)
  | child {past : List Event} {around : List ScopeId} {p c : Path} {earlier later : List Path}
      (h : Visit root past around p) (hkids : p.kids = earlier ++ c :: later) :
      Visit root (past ++ .enter p :: Path.allEvents earlier) (p.ownScopes past ++ around) c

variable {root : Node} {past : List Event} {around : List ScopeId} {p q c : Path}

namespace Path

/-- The nodes below a node. -/
def descendants (p : Path) : List Path :=
  p.kids.attach.flatMap fun ⟨c, _⟩ => c :: c.descendants
termination_by (Json.object p.node).size
decreasing_by exact size_lt_of_mem_kids ‹_›

theorem descendants_eq (p : Path) : p.descendants = p.kids.flatMap fun c => c :: c.descendants := by
  rw [descendants, List.flatMap_subtype (g := fun c => c :: c.descendants) (by intros; rfl),
    List.unattach_attach]

theorem mem_descendants_iff : q ∈ p.descendants ↔ ∃ c ∈ p.kids, q = c ∨ q ∈ c.descendants := by
  rw [descendants_eq, List.mem_flatMap]
  simp only [List.mem_cons]

theorem mem_descendants_of_mem_kids (h : c ∈ p.kids) : c ∈ p.descendants :=
  mem_descendants_iff.2 ⟨c, h, .inl rfl⟩

theorem mem_descendants_trans (h : q ∈ p.descendants) (hc : c ∈ q.descendants) :
    c ∈ p.descendants := by
  induction p using induction_on_kids with
  | step p ih =>
    obtain ⟨child, hchild, rfl | hq⟩ := mem_descendants_iff.1 h
    · exact mem_descendants_iff.2 ⟨q, hchild, .inr hc⟩
    · exact mem_descendants_iff.2 ⟨child, hchild, .inr (ih child hchild hq)⟩

/-- A node that moves the builder is a `Program` or holds one. -/
theorem Drifts.exists_program (h : p.Drifts) : ∃ q ∈ p :: p.descendants, q.isProgram = true := by
  induction h with
  | program hp => exact ⟨_, List.mem_cons_self, hp⟩
  | @child p c hcount hc h ih =>
    obtain ⟨q, hq, hprogram⟩ := ih
    refine ⟨q, List.mem_cons_of_mem _ ?_, hprogram⟩
    rcases List.mem_cons.1 hq with rfl | hq
    · exact mem_descendants_of_mem_kids hc
    · exact mem_descendants_trans (mem_descendants_of_mem_kids hc) hq

end Path

namespace Node

/-- No node below the root is a `Program`. -/
def SoleProgram (root : Node) : Prop := ∀ p ∈ (Path.root root).descendants, p.isProgram = false

instance (root : Node) : Decidable root.SoleProgram :=
  inferInstanceAs (Decidable (∀ p ∈ (Path.root root).descendants, p.isProgram = false))

/-- No node has a type that is only named like a role. -/
def AliasFree (root : Node) : Prop :=
  ∀ p ∈ .root root :: (Path.root root).descendants, p.node.isAny NodeType.aliases = false

instance (root : Node) : Decidable root.AliasFree :=
  inferInstanceAs
    (Decidable (∀ p ∈ .root root :: (Path.root root).descendants,
      p.node.isAny NodeType.aliases = false))

end Node

theorem Visit.mem_descendants (h : Visit root past around p) :
    p ∈ .root root :: (Path.root root).descendants := by
  induction h with
  | root => exact List.mem_cons_self
  | @child past around p c earlier later h hkids ih =>
    have hc : c ∈ p.kids := by
      rw [hkids]
      exact List.mem_append_right _ List.mem_cons_self
    refine List.mem_cons_of_mem _ ?_
    rcases List.mem_cons.1 ih with rfl | hp
    · exact Path.mem_descendants_of_mem_kids hc
    · exact Path.mem_descendants_trans hp (Path.mem_descendants_of_mem_kids hc)

/-- All nodes below a visited node are visited. -/
theorem Visit.exists_of_mem_descendants (h : Visit root past around p)
    (hq : q ∈ p :: p.descendants) : ∃ past' around', Visit root past' around' q := by
  induction p using Path.induction_on_kids generalizing past around with
  | step p ih =>
    rcases List.mem_cons.1 hq with rfl | hq
    · exact ⟨past, around, h⟩
    · obtain ⟨c, hc, hq⟩ := Path.mem_descendants_iff.1 hq
      obtain ⟨earlier, later, hkids⟩ := List.append_of_mem hc
      exact ih c hc (h.child hkids) (List.mem_cons.2 hq)

/-- Where the root is the only `Program`, no node below it moves the builder. -/
theorem Visit.not_drifts (h : Visit root past around p) (hsole : root.SoleProgram)
    (hc : c ∈ p.kids) : ¬ c.Drifts := by
  intro hdrifts
  obtain ⟨q, hq, hprogram⟩ := hdrifts.exists_program
  have hbelow : q ∈ p.descendants := by
    rcases List.mem_cons.1 hq with rfl | hq
    · exact Path.mem_descendants_of_mem_kids hc
    · exact Path.mem_descendants_trans (Path.mem_descendants_of_mem_kids hc) hq
  have hroot : q ∈ (Path.root root).descendants := by
    rcases List.mem_cons.1 h.mem_descendants with rfl | hp
    · exact hbelow
    · exact Path.mem_descendants_trans hp hbelow
  rw [hsole q hroot] at hprogram
  cases hprogram

/-! ## The run at a visit -/

/-- The events of the walk are those before a node, those of the node and those after it. -/
theorem Visit.exists_events (h : Visit root past around p) :
    ∃ rest, (Path.root root).events = past ++ (p.events ++ rest) := by
  induction h with
  | root => exact ⟨[], by simp⟩
  | @child past around p c earlier later h hkids ih =>
    obtain ⟨rest, hrest⟩ := ih
    refine ⟨Path.allEvents later ++ (.exit p :: rest), ?_⟩
    rw [hrest, Path.events_eq p, hkids]
    simp

/-- A run from the start to the end enters a node on the way. -/
structure Passes (past : List Event) (p : Path) (before after final : Builder) : Prop where
  run_past : ({} : Builder).run past = .ok before
  run_enter : before.replay p.enterActions = .ok after
  run_rest : ∃ rest, after.run rest = .ok final

namespace Passes

variable {before after final : Builder}

theorem sound_before (h : Passes past p before after final) : before.Sound :=
  (Builder.replay_sound h.run_past .empty).2

theorem sound_after (h : Passes past p before after final) : after.Sound :=
  (Builder.replay_sound h.run_enter h.sound_before).2

theorem sound_final (h : Passes past p before after final) : final.Sound := by
  obtain ⟨rest, hrest⟩ := h.run_rest
  exact (Builder.replay_sound hrest h.sound_after).2

theorem grows_rest (h : Passes past p before after final) :
    Graph.Grows after.graph final.graph := by
  obtain ⟨rest, hrest⟩ := h.run_rest
  exact Builder.replay_grows hrest h.sound_after

theorem nextScope_before (h : Passes past p before after final) :
    before.graph.nextScope = scopesMade past :=
  (Builder.nextScope_replay h.run_past).trans (Nat.zero_add _)

theorem nextScope_after (h : Passes past p before after final) :
    after.graph.nextScope = scopesMade past + p.scopeCount := by
  rw [Builder.nextScope_replay h.run_enter, h.nextScope_before]
  rfl

theorem around_after (h : Passes past p before after final) :
    after.around = p.ownScopes past ++ before.around := by
  rw [Builder.around_enter h.run_enter h.sound_before, h.nextScope_before]
  rfl

end Passes

/-- The run of the whole tree passes every visit. -/
theorem Visit.passes {final : Builder} (h : Visit root past around p)
    (hfinal : Builder.ofTree root = .ok final) :
    ∃ before after, Passes past p before after final := by
  obtain ⟨rest, hevents⟩ := h.exists_events
  have hrun := Builder.run_events_of_ofTree hfinal
  rw [hevents, Path.events_eq] at hrun
  obtain ⟨before, hpast, hrun⟩ := Builder.run_append_eq_ok.1 hrun
  rw [List.cons_append] at hrun
  obtain ⟨after, henter, hrun⟩ := Builder.run_cons_eq_ok.1 hrun
  exact ⟨before, after, hpast, henter, _, hrun⟩

/-- Where the root is the only `Program`, the builder stands inside the scopes of the nodes
above. -/
theorem Visit.around_before {before after final : Builder} (h : Visit root past around p)
    (hsole : root.SoleProgram) (hpasses : Passes past p before after final) :
    before.around = around := by
  induction h generalizing before after final with
  | root =>
    cases hpasses.run_past
    rfl
  | @child past around p c earlier later h hkids ih =>
    -- The run up to the child is the run up to its parent, then the parent and the earlier ones.
    obtain ⟨before', hpast, hrun⟩ := Builder.run_append_eq_ok.1 hpasses.run_past
    obtain ⟨after', henter, hearlier⟩ := Builder.run_cons_eq_ok.1 hrun
    have hpasses' : Passes past p before' after' before :=
      ⟨hpast, henter, Path.allEvents earlier, hearlier⟩
    have hland := Builder.lands_all hearlier
    have hstays : ¬ ∃ q ∈ earlier, q.Drifts := by
      rintro ⟨q, hq, hdrifts⟩
      have hmem : q ∈ p.kids := by
        rw [hkids]
        exact List.mem_append_left _ hq
      exact h.not_drifts hsole hmem hdrifts
    have hsteps := (Builder.replay_sound hearlier hpasses'.sound_after).1
    rw [Builder.around_eq_of_current hpasses'.sound_after hpasses.sound_before hsteps
      (hland.back hstays), hpasses'.around_after, ih hpasses']

end LexicalScopes
