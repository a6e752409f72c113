import LexicalScopes.Proofs.Run.Visit

/-!
# Induction along a run

Every event at which a node is entered belongs to a visit, and leaving a node does not change the
graph. What holds before the first event, and is kept whenever a node is visited, therefore holds at
the end of the run.
-/

namespace LexicalScopes

variable {root : Node} {past mid rest events : List Event} {around : List ScopeId} {p q : Path}

/-! ## Entered nodes -/

/-- The nodes that events enter, each with the events before it. -/
def enteredFrom (past : List Event) : List Event → List (List Event × Path)
  | [] => []
  | .enter p :: rest => (past, p) :: enteredFrom (past ++ [.enter p]) rest
  | .exit p :: rest => enteredFrom (past ++ [.exit p]) rest

/-- The nodes of a tree in the order in which they are entered, each with the events before it. -/
def Node.visited (root : Node) : List (List Event × Path) := enteredFrom [] (Path.root root).events

@[simp] theorem enteredFrom_nil : enteredFrom past [] = [] := rfl

@[simp] theorem enteredFrom_enter :
    enteredFrom past (.enter p :: rest) = (past, p) :: enteredFrom (past ++ [.enter p]) rest := rfl

@[simp] theorem enteredFrom_exit :
    enteredFrom past (.exit p :: rest) = enteredFrom (past ++ [.exit p]) rest := rfl

theorem enteredFrom_append :
    enteredFrom past (mid ++ rest) = enteredFrom past mid ++ enteredFrom (past ++ mid) rest := by
  induction mid generalizing past with
  | nil => simp
  | cons event mid ih => cases event <;> simp [ih]

/-- A node is entered before the nodes below it, and these from left to right. -/
theorem map_enteredFrom_events (p : Path) (past : List Event) :
    (enteredFrom past p.events).map (·.2) = p :: p.descendants := by
  induction p using Path.induction_on_kids generalizing past with
  | step p ih =>
    have hkids : ∀ (ps : List Path), (∀ c ∈ ps, c ∈ p.kids) → ∀ past,
        (enteredFrom past (Path.allEvents ps)).map (·.2) =
          ps.flatMap fun c => c :: c.descendants := by
      intro ps hps
      induction ps with
      | nil => simp [Path.allEvents]
      | cons c ps ihps =>
        intro past
        have hc := ih c (hps c List.mem_cons_self) past
        have hrest := ihps fun c' hc' => hps c' (List.mem_cons_of_mem _ hc')
        simp [enteredFrom_append, hc, hrest]
    simp [Path.events_eq p, Path.descendants_eq p, enteredFrom_append, hkids p.kids fun _ h => h]

theorem Node.map_visited (root : Node) :
    root.visited.map (·.2) = .root root :: (Path.root root).descendants :=
  map_enteredFrom_events _ _

/-! ## Visits of entered nodes -/

/-- An event at which a node is entered on a walk of several nodes belongs to the walk of one of
them. -/
theorem exists_of_allEvents_eq {ps : List Path}
    (h : Path.allEvents ps ++ [.exit q] = mid ++ .enter p :: rest) :
    ∃ earlier c later before after, ps = earlier ++ c :: later ∧
      c.events = before ++ .enter p :: after ∧ mid = Path.allEvents earlier ++ before := by
  induction ps generalizing mid with
  | nil =>
    cases mid with
    | nil => simp [Path.allEvents] at h
    | cons event mid => simp [Path.allEvents] at h
  | cons c ps ih =>
    rw [Path.allEvents_cons, List.append_assoc] at h
    rcases List.append_eq_append_iff.1 h with ⟨mid', rfl, hrest⟩ | ⟨part, hc, hrest⟩
    · -- The event comes after the first node.
      obtain ⟨earlier, c', later, before, after, rfl, hc', rfl⟩ := ih hrest
      exact ⟨c :: earlier, c', later, before, after, rfl, hc', by simp⟩
    · rcases List.cons_eq_append_iff.1 hrest with ⟨rfl, hlater⟩ | ⟨after, rfl, -⟩
      · have hnext : Path.allEvents ps ++ [.exit q] = [] ++ .enter p :: rest := hlater
        obtain ⟨earlier, c', later, before, after, rfl, hc', hbefore⟩ := ih hnext
        rw [List.append_nil] at hc
        refine ⟨c :: earlier, c', later, before, after, rfl, hc', ?_⟩
        rw [← hc, Path.allEvents_cons, List.append_assoc, ← hbefore, List.append_nil]
      · exact ⟨[], c, ps, mid, after, rfl, hc, by simp [Path.allEvents]⟩

/-- Below a visited node every event at which a node is entered belongs to a visit. -/
theorem Visit.exists_of_events (h : Visit root past around q)
    (hevents : q.events = mid ++ .enter p :: rest) :
    ∃ around', Visit root (past ++ mid) around' p := by
  induction q using Path.induction_on_kids generalizing past around mid rest with
  | step q ih =>
    rw [Path.events_eq] at hevents
    cases mid with
    | nil =>
      cases (List.cons.inj hevents).1
      exact ⟨around, by rwa [List.append_nil]⟩
    | cons event mid =>
      rw [List.cons_append] at hevents
      obtain ⟨rfl, hkids⟩ := List.cons.inj hevents
      obtain ⟨earlier, c, later, before, after, hsplit, hc, rfl⟩ := exists_of_allEvents_eq hkids
      have hmem : c ∈ q.kids := by simp [hsplit]
      obtain ⟨around', hvisit⟩ := ih c hmem (h.child hsplit) hc
      exact ⟨around', by simpa using hvisit⟩

/-! ## Induction -/

namespace Builder

variable {b b' final : Builder}

/-- Leaving a node moves the builder at most. -/
theorem graph_of_exit (h : b.replay p.exitActions = .ok b') : b'.graph = b.graph := by
  rw [Path.exitActions] at h
  split at h
  · cases h
    rfl
  · split at h
    · obtain ⟨b₁, hdoes, hrest⟩ := replay_cons_cases h
      cases hrest
      cases hdoes <;> rfl
    · cases h
      rfl

/-- What holds before the walk of a tree, and is kept by every visit, holds after it. -/
theorem run_induction {P : List Event → Builder → Prop} (hfinal : ofTree root = .ok final)
    (hstart : P [] {})
    (henter : ∀ past around p before after, Visit root past around p →
      Passes past p before after final → P past before → P (past ++ [.enter p]) after)
    (hexit : ∀ past p b b', b'.graph = b.graph → P past b → P (past ++ [.exit p]) b') :
    P (Path.root root).events final := by
  have hrun := run_events_of_ofTree hfinal
  -- Induction on the beginnings of the walk, from the shortest to the longest.
  have hpast : ∀ past rest b, (Path.root root).events = past ++ rest →
      ({} : Builder).run past = .ok b → P past b := by
    intro past
    induction past using List.reverseRecOn with
    | nil =>
      intro rest b _ hb
      cases hb
      exact hstart
    | append_singleton past event ih =>
      intro rest b hevents hb
      rw [List.append_assoc] at hevents
      obtain ⟨before, hbefore, hevent⟩ := run_append_eq_ok.1 hb
      have hP := ih _ before hevents hbefore
      rw [run_singleton] at hevent
      cases event with
      | exit p => exact hexit past p before b (graph_of_exit hevent) hP
      | enter p =>
        obtain ⟨around, hvisit⟩ := Visit.root.exists_of_events hevents
        have hrest : b.run rest = .ok final := by
          rw [hevents, run_append, hbefore, ok_bind, List.singleton_append, run_cons,
            hevent] at hrun
          exact hrun
        exact henter past around p before b hvisit ⟨hbefore, hevent, rest, hrest⟩ hP
  exact hpast _ [] final (by simp) hrun

end Builder

end LexicalScopes
