import LexicalScopes.Proofs.Run.Induction
import LexicalScopes.Proofs.Run.Performs

/-!
# Names that come later

A scope that is there before some nodes are visited binds more names afterwards only if one of these
nodes declares them: the names that the source does not declare are introduced in new scopes. Where
no name is declared after it is read, the scopes around a read bind the name in the end only if they
bind it by then.
-/

namespace LexicalScopes

/-! ## Declared and introduced names -/

namespace Action

/-- The name that the action declares. -/
def declared? : Action → Option BoundName
  | .declare bound _ => some bound
  | .hoist bound => some bound
  | .declareFunction bound => some bound
  | _ => none

/-- Names are introduced only once a scope is opened. -/
def introducesInside : List Action → Bool
  | [] => true
  | .introduce _ :: _ => false
  | a :: rest => a.opens || introducesInside rest

theorem introducesInside_append {actions rest : List Action}
    (h : ∀ a ∈ actions, ∀ names, a ≠ .introduce names) (hrest : introducesInside rest = true) :
    introducesInside (actions ++ rest) = true := by
  induction actions with
  | nil => exact hrest
  | cons a actions ih =>
    have hlater := ih fun a' ha' => h a' (List.mem_cons_of_mem _ ha')
    cases a with
    | introduce names => exact absurd rfl (h _ List.mem_cons_self names)
    | _ => simp [introducesInside, hlater]

theorem introducesInside_of_forall {actions : List Action}
    (h : ∀ a ∈ actions, ∀ names, a ≠ .introduce names) : introducesInside actions = true := by
  rw [← List.append_nil actions]
  exact introducesInside_append h rfl

end Action

/-- The names that entering the node declares. -/
def Path.declaredNames (p : Path) : List BoundName := p.enterActions.filterMap Action.declared?

section Handlers

variable {p : Path} {n : Node} {actions : List Action}

theorem introducesInside_classFieldActions (h : n.classFieldActions = .ok actions)
    (rest : List Action) : Action.introducesInside (actions ++ rest) = true := by
  obtain ⟨loc, -, h⟩ := bind_eq_ok.1 h
  cases h
  rfl

theorem introducesInside_programActions (h : n.programActions = .ok actions) :
    Action.introducesInside actions = true := by
  obtain ⟨loc, -, h⟩ := bind_eq_ok.1 h
  cases h
  rfl

/-- The own name of a function is declared, and nothing is introduced beside it. -/
theorem ne_introduce_of_ownNameActions (h : n.ownNameActions = .ok actions) :
    ∀ a ∈ actions, ∀ names, a ≠ .introduce names := by
  unfold Node.ownNameActions at h
  split at h
  · cases h
    simp
  · split at h
    · obtain ⟨loc, -, h⟩ := bind_eq_ok.1 h
      obtain ⟨bound, -, h⟩ := bind_eq_ok.1 h
      cases h
      simp
    · split at h
      · obtain ⟨bound, -, h⟩ := bind_eq_ok.1 h
        cases h
        simp
      · cases h
        simp

theorem introducesInside_functionActions (h : p.functionActions = .ok actions) :
    Action.introducesInside actions = true := by
  obtain ⟨own, hown, h⟩ := bind_eq_ok.1 h
  obtain ⟨name, -, h⟩ := bind_eq_ok.1 h
  obtain ⟨range, -, h⟩ := bind_eq_ok.1 h
  obtain ⟨params, -, h⟩ := bind_eq_ok.1 h
  cases h
  exact Action.introducesInside_append (ne_introduce_of_ownNameActions hown) rfl

/-- What a node introduces belongs to a scope of its own. -/
theorem introducesInside_enterActions {b b' : Builder} (h : b.replay p.enterActions = .ok b') :
    Action.introducesInside p.enterActions = true := by
  have hown : ∀ actions, p.isProgram = false → p.ownActions = .ok actions →
      Action.introducesInside actions = true := by
    intro actions hp hactions
    obtain ⟨field, rest, hfield, hrest, rfl⟩ := exists_of_ownActions hactions
    rcases hfield with ⟨hplace, rfl⟩ | ⟨-, hfield⟩
    · rw [List.nil_append]
      by_cases hintroduces : p.Introduces
      · rcases hintroduces with hprogram | hvalue | hrole | hrole | hrole
        · rw [hp] at hprogram
          cases hprogram
        · rw [hplace] at hvalue
          cases hvalue
        · rw [Path.roleActions, hrole] at hrest
          exact introducesInside_programActions hrest
        · rw [Path.roleActions, hrole] at hrest
          exact introducesInside_functionActions hrest
        · rw [Path.roleActions, hrole] at hrest
          simpa using introducesInside_classFieldActions hrest []
      · refine Action.introducesInside_of_forall ?_
        rintro a ha names rfl
        cases performs_roleActions hrest _ ha with
        | introduce hplace names => exact hintroduces hplace
    · exact introducesInside_classFieldActions hfield rest
  cases Builder.enters_of_replay h with
  | program hp hactions hopens henter hexit =>
    rw [henter]
    exact introducesInside_programActions hactions
  | through hp hactions hown' henter hexit =>
    rw [henter]
    exact hown _ hp hactions
  | inside hp hactions hown' henter hexit =>
    simp [henter, Action.introducesInside, hown _ hp hactions]

end Handlers

/-! ## Gained names -/

namespace Builder

variable {b b' : Builder} {p : Path} {a : Action} {actions : List Action} {events : List Event}
  {s u : ScopeId} {name : Scalar} {limit : Nat}

theorem binds_declareImplicit {g : Graph} {names : List String} (hs : s < g.nextScope)
    (hu : u ≠ s) :
    (g.declareImplicit s names).binds u name = g.binds u name := by
  induction names generalizing g with
  | nil => rfl
  | cons n names ih =>
    rw [Graph.declareImplicit_cons, ih (by rwa [Graph.nextScope_declare]), Graph.binds,
      Graph.find?_declare hs, if_neg (fun h => hu h.1), Graph.binds]

theorem binds_openScope {type : ScopeType} {label loc : Json} :
    (b.openScope type label loc).graph.binds u name = b.graph.binds u name := by
  rw [Graph.binds, openScope, Graph.find?_addScope, Graph.binds]

theorem binds_of_declareIn {bound : BoundName} {kind : BindingKind} (hs : s < b.graph.nextScope)
    (h : (b.declareIn s bound kind).graph.binds u name = true) :
    b.graph.binds u name = true ∨ bound.name.key = name.key := by
  rw [graph_declareIn, Graph.binds, Graph.find?_declare hs] at h
  split at h
  · rename_i hname
    exact .inr hname.2.symm
  · exact .inl h

/-- An action binds a name in a scope that was there before only if it declares the name, or if it
introduces names where the builder stands. -/
theorem Does.binds (h : Does b a b') (hb : b.Sound)
    (hbinds : b'.graph.binds u name = true) :
    b.graph.binds u name = true ∨
      (∃ bound, a.declared? = some bound ∧ bound.name.key = name.key) ∨
      b.current = some u ∧ ∃ names, a = .introduce names := by
  cases h with
  | openRoot loc =>
    rw [binds_openScope] at hbinds
    exact .inl hbinds
  | openScope type name loc =>
    rw [binds_openScope] at hbinds
    exact .inl hbinds
  | declare hs bound kind =>
    rcases binds_of_declareIn (hb.current_lt _ hs) hbinds with hold | hname
    · exact .inl hold
    · exact .inr (.inl ⟨bound, rfl, hname⟩)
  | hoist hs bound =>
    have hlt := Graph.varScope_lt hb.valid.forest (hb.current_lt _ hs)
    rcases binds_of_declareIn hlt hbinds with hold | hname
    · exact .inl hold
    · exact .inr (.inl ⟨bound, rfl, hname⟩)
  | declareFunction hs bound =>
    rcases binds_of_declareIn (hb.current_lt _ hs) hbinds with hold | hname
    · exact .inl hold
    · exact .inr (.inl ⟨bound, rfl, hname⟩)
  | @introduce s hs names =>
    by_cases hu : u = s
    · exact .inr (.inr ⟨hu ▸ hs, names, rfl⟩)
    · rw [binds_declareImplicit (hb.current_lt _ hs) hu] at hbinds
      exact .inl hbinds
  | _ => exact .inl hbinds

theorem Does.current_of_performs (h : Does b a b') (ha : p.Performs a) :
    b'.current = if a.opens then some b.graph.nextScope else b.current := by
  cases ha with
  | mark =>
    cases h
    rfl
  | _ => exact h.current_of_isPlain rfl

/-- Of the names that a scope made before gains, each is declared by one of the actions. -/
theorem binds_of_replay (h : b.replay actions = .ok b') (hperforms : ∀ a ∈ actions, p.Performs a)
    (hb : b.Sound) (hlimit : limit ≤ b.graph.nextScope) (hu : u < limit)
    (hplace : (∀ s, b.current = some s → limit ≤ s) ∨ Action.introducesInside actions = true)
    (hbinds : b'.graph.binds u name = true) :
    b.graph.binds u name = true ∨
      ∃ a ∈ actions, ∃ bound, a.declared? = some bound ∧ bound.name.key = name.key := by
  induction actions generalizing b with
  | nil =>
    cases h
    exact .inl hbinds
  | cons a actions ih =>
    obtain ⟨b₁, hdoes, hrest⟩ := replay_cons_cases h
    have hcurrent := hdoes.current_of_performs (hperforms a List.mem_cons_self)
    have hlimit₁ : limit ≤ b₁.graph.nextScope := by
      rw [hdoes.nextScope]
      exact Nat.le_trans hlimit (Nat.le_add_right _ _)
    -- Once a scope is opened, the builder stands in a new one.
    have hplace₁ : (∀ s, b₁.current = some s → limit ≤ s) ∨
        Action.introducesInside actions = true := by
      cases hopens : a.opens with
      | true =>
        left
        intro s hs
        rw [hcurrent, hopens, if_pos rfl] at hs
        cases hs
        exact hlimit
      | false =>
        rw [hopens] at hcurrent
        refine hplace.imp (fun hplace s hs => hplace s (hcurrent.symm.trans hs)) fun hinside => ?_
        cases a <;> simp_all [Action.introducesInside]
    rcases ih hrest (fun a' ha' => hperforms a' (List.mem_cons_of_mem _ ha')) (hdoes.sound hb).2
      hlimit₁ hplace₁ with hold | ⟨a', ha', hdeclares⟩
    · rcases hdoes.binds hb hold with hold | hdeclares | ⟨hhere, names, rfl⟩
      · exact .inl hold
      · exact .inr ⟨a, List.mem_cons_self, hdeclares⟩
      · rcases hplace with hplace | hinside
        · exact absurd hu (Nat.not_lt.2 (hplace u hhere))
        · cases hinside
    · exact .inr ⟨a', List.mem_cons_of_mem _ ha', hdeclares⟩

/-- Of the names that a scope gains, each is declared by one of the nodes that are entered. -/
theorem binds_of_run (h : b.run events = .ok b') (hb : b.Sound) (hu : u < b.graph.nextScope)
    (hbinds : b'.graph.binds u name = true) :
    b.graph.binds u name = true ∨
      ∃ q, .enter q ∈ events ∧ ∃ bound ∈ q.declaredNames, bound.name.key = name.key := by
  induction events generalizing b with
  | nil =>
    cases h
    exact .inl hbinds
  | cons event events ih =>
    obtain ⟨b₁, hevent, hrest⟩ := run_cons_eq_ok.1 h
    have hgrows := replay_grows hevent hb
    rcases ih hrest (replay_sound hevent hb).2 (Nat.lt_of_lt_of_le hu hgrows.nextScope_le) with
      hold | ⟨q, hq, hdeclares⟩
    · cases event with
      | exit q =>
        rw [graph_of_exit hevent] at hold
        exact .inl hold
      | enter q =>
        have hperforms := performs_enterActions hevent
        rcases binds_of_replay hevent hperforms hb (Nat.le_refl _) hu
          (.inr (introducesInside_enterActions hevent)) hold with
          hold | ⟨a, ha, bound, hbound, hname⟩
        · exact .inl hold
        · exact .inr ⟨q, List.mem_cons_self, bound, List.mem_filterMap.2 ⟨a, ha, hbound⟩, hname⟩
    · exact .inr ⟨q, List.mem_cons_of_mem _ hq, hdeclares⟩

end Builder

/-! ## Declarations before reads -/

/-- No node declares a name that a node before it reads. -/
def Node.DeclaresFirst (root : Node) : Prop :=
  (.root root :: (Path.root root).descendants).Pairwise fun p q =>
    ∀ name ∈ p.readName?, ∀ bound ∈ q.declaredNames, bound.name.key ≠ name.key

instance (root : Node) : Decidable root.DeclaresFirst :=
  inferInstanceAs (Decidable ((.root root :: (Path.root root).descendants).Pairwise fun p q =>
    ∀ name ∈ p.readName?, ∀ bound ∈ q.declaredNames, bound.name.key ≠ name.key))

section Visits

variable {root : Node} {past events rest : List Event} {around : List ScopeId} {p q : Path}
  {before after final : Builder} {u : ScopeId} {name : Scalar}

theorem mem_enteredFrom_of_mem (h : .enter q ∈ events) :
    q ∈ (enteredFrom past events).map (·.2) := by
  induction events generalizing past with
  | nil => cases h
  | cons event events ih =>
    rcases List.mem_cons.1 h with rfl | hlater
    · simp
    · cases event with
      | enter p => exact List.mem_cons_of_mem _ (ih hlater)
      | exit p => exact ih hlater

/-- The run enters the node and goes on with the events that are left. -/
theorem Visit.exists_run_rest (h : Visit root past around p)
    (hfinal : Builder.ofTree root = .ok final) (hpasses : Passes past p before after final) :
    ∃ rest, (Path.root root).events = past ++ .enter p :: rest ∧ after.run rest = .ok final := by
  obtain ⟨later, hevents⟩ := h.exists_events
  have hrun := Builder.run_events_of_ofTree hfinal
  rw [Path.events_eq p, List.cons_append] at hevents
  refine ⟨_, hevents, ?_⟩
  rw [hevents] at hrun
  obtain ⟨b, hpast, hrun⟩ := Builder.run_append_eq_ok.1 hrun
  rw [hpasses.run_past] at hpast
  cases hpast
  obtain ⟨b', henter, hrest⟩ := Builder.run_cons_eq_ok.1 hrun
  have hsame : after = b' := Except.ok.inj (hpasses.run_enter.symm.trans henter)
  rwa [hsame]

/-- Where names are declared first, a scope made before a read binds the name in the end only if it
binds it by the time of the read. -/
theorem Visit.binds_of_final (h : Visit root past around p)
    (hfinal : Builder.ofTree root = .ok final) (hfirst : root.DeclaresFirst)
    (hpasses : Passes past p before after final) (hname : p.readName? = some name)
    (hu : u < after.graph.nextScope) :
    final.graph.binds u name = after.graph.binds u name := by
  obtain ⟨rest, hevents, hrest⟩ := h.exists_run_rest hfinal hpasses
  rw [Bool.eq_iff_iff]
  refine ⟨fun hbinds => ?_, hpasses.grows_rest.binds⟩
  rcases Builder.binds_of_run hrest hpasses.sound_after hu hbinds with hold | hlater
  · exact hold
  · obtain ⟨q, hq, bound, hbound, hkey⟩ := hlater
    -- The node that declares the name is entered later.
    rw [Node.DeclaresFirst, ← Node.map_visited, Node.visited, hevents, enteredFrom_append,
      enteredFrom_enter, List.map_append, List.map_cons] at hfirst
    have hpair := (List.pairwise_cons.1 (List.pairwise_append.1 hfirst).2.1).1
    exact absurd hkey (hpair q (mem_enteredFrom_of_mem hq) name hname bound hbound)

end Visits

end LexicalScopes
