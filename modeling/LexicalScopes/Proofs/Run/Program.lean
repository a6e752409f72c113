import LexicalScopes.Proofs.Run.Declaring

/-!
# The run of a program

A program first opens its three layers. Everything below is walked inside the innermost layer, so
nothing is opened or declared in the two outer ones.
-/

namespace LexicalScopes

/-! ## Layers -/

namespace Graph

variable {g g' : Graph} {s t : ScopeId} {loc : Json}

/-- The graph of a program that holds nothing. -/
@[irreducible] def opened (loc : Json) : Graph :=
  let root := ({} : Graph).addScope .object (.string "Global") loc none
  let lexical := (root.declareImplicit 0 hostNames).addScope .block (.string "Lexical Global") loc
    (some 0)
  (lexical.addScope .moduleLayer (.string "Module") loc (some 1)).declareImplicit 2 ["this"]

theorem headers_opened :
    (opened loc).headers = [⟨.object, .string "Global", loc, none⟩,
      ⟨.block, .string "Lexical Global", loc, some 0⟩,
      ⟨.moduleLayer, .string "Module", loc, some 1⟩] := by
  simp only [opened, headers_declareImplicit, headers_addScope]
  rfl

theorem nextScope_opened : (opened loc).nextScope = 3 := by
  rw [← length_headers, headers_opened]
  rfl

/-- The first three scopes are the layers of a program, and all others lie in the innermost. -/
structure Layered (g : Graph) : Prop where
  three_le : 3 ≤ g.nextScope
  parent_root : g.parent? 0 = none
  parent_lexical : g.parent? 1 = some 0
  parent_layer : g.parent? 2 = some 1
  type_layer : (g.draft 2).type = .moduleLayer
  parent_inner : ∀ s, 3 ≤ s → s < g.nextScope → ∃ q, g.parent? s = some q ∧ 2 ≤ q

theorem Layered.zero_lt (h : g.Layered) : 0 < g.nextScope :=
  Nat.lt_of_lt_of_le (Nat.zero_lt_succ 2) h.three_le

theorem Layered.one_lt (h : g.Layered) : 1 < g.nextScope :=
  Nat.lt_of_lt_of_le (Nat.le_succ 2) h.three_le

theorem Layered.two_lt (h : g.Layered) : 2 < g.nextScope := h.three_le

/-- A graph with no scopes but the layers. -/
theorem Layered.of_headers {root lexical layer loc : Json}
    (h : g.headers = [⟨.object, root, loc, none⟩, ⟨.block, lexical, loc, some 0⟩,
      ⟨.moduleLayer, layer, loc, some 1⟩]) : g.Layered := by
  have hnext : g.nextScope = 3 := by
    rw [← length_headers, h]
    rfl
  have hheader : ∀ s < 3, g.headers[s]? = some (g.draft s).header :=
    fun s hs => headers_getElem? (by rwa [hnext])
  rw [h] at hheader
  have hroot := Option.some.inj (hheader 0 (by decide))
  have hlexical := Option.some.inj (hheader 1 (by decide))
  have hlayer := Option.some.inj (hheader 2 (by decide))
  constructor
  · exact Nat.le_of_eq hnext.symm
  · exact (congrArg Header.parent hroot).symm
  · exact (congrArg Header.parent hlexical).symm
  · exact (congrArg Header.parent hlayer).symm
  · exact (congrArg Header.type hlayer).symm
  · intro s hle hlt
    rw [hnext] at hlt
    exact absurd hlt (Nat.not_lt.2 hle)

theorem layered_opened : (opened loc).Layered := .of_headers headers_opened

/-- Growth inside the innermost layer keeps the layers. -/
theorem Layered.of_grows (h : g.Layered) (hgrows : Grows g g')
    (hinner : ∀ s, g.nextScope ≤ s → s < g'.nextScope → ∃ q, g'.parent? s = some q ∧ 2 ≤ q) :
    g'.Layered where
  three_le := Nat.le_trans h.three_le hgrows.nextScope_le
  parent_root := (hgrows.parent?_eq h.zero_lt).trans h.parent_root
  parent_lexical := (hgrows.parent?_eq h.one_lt).trans h.parent_lexical
  parent_layer := (hgrows.parent?_eq h.two_lt).trans h.parent_layer
  type_layer := by
    have hheader := hgrows.header_eq h.two_lt
    exact (congrArg Header.type hheader).trans h.type_layer
  parent_inner s hle hlt := by
    rcases Nat.lt_or_ge s g.nextScope with hs | hs
    · rw [hgrows.parent?_eq hs]
      exact h.parent_inner s hle hs
    · exact hinner s hs hlt

theorem Layered.parent_ge (h : g.Layered) (hs : 3 ≤ s) {q : ScopeId} (hq : g.parent? s = some q) :
    2 ≤ q := by
  rcases Nat.lt_or_ge s g.nextScope with hlt | hge
  · obtain ⟨q', hq', hle⟩ := h.parent_inner s hs hlt
    rw [hq] at hq'
    cases hq'
    exact hle
  · rw [parent?_of_le hge] at hq
    cases hq

/-- In the innermost layer `var` belongs to the layer or to a function inside it. -/
theorem Layered.varScope_ge (h : g.Layered) (hg : g.Forest) (hs : 2 ≤ s) (hlt : s < g.nextScope) :
    2 ≤ g.varScope s := by
  suffices hfind : ∃ t, (g.chain s).find? g.isHoistTarget = some t ∧ 2 ≤ t by
    obtain ⟨t, ht, hle⟩ := hfind
    rw [varScope, ht]
    exact hle
  induction s using Nat.strongRecOn with
  | ind s ih =>
    rcases Nat.eq_or_lt_of_le hs with heq | hgt
    · -- The layer itself is the last scope to try.
      rw [← heq, chain_of_parent?_eq_some hg.ranked h.parent_layer]
      have htarget : g.isHoistTarget 2 = true := by rw [isHoistTarget, h.type_layer]
      exact ⟨2, by rw [List.find?_cons, htarget], Nat.le_refl 2⟩
    · -- An inner scope is a target itself, or the search goes on in its parent.
      obtain ⟨q, hq, hle⟩ := h.parent_inner s hgt hlt
      have hqs := hg.parent_lt s q hq
      rw [chain_of_parent?_eq_some hg.ranked hq, List.find?_cons]
      cases g.isHoistTarget s with
      | true => exact ⟨s, rfl, hs⟩
      | false => exact ih q hqs hle (Nat.lt_trans hqs hlt)

/-- The layers are made before all other scopes. -/
theorem Layered.range_eq (h : g.Layered) :
    List.range g.nextScope = 0 :: 1 :: 2 :: List.range' 3 (g.nextScope - 3) := by
  obtain ⟨n, hn⟩ := Nat.exists_eq_add_of_le h.three_le
  rw [hn, Nat.add_sub_cancel_left, List.range_eq_range', Nat.add_comm]
  rfl

/-- A layer holds the next one and nothing else. -/
theorem Layered.children_eq (h : g.Layered) (hg : g.Forest) :
    g.children 0 = [1] ∧ g.children 1 = [2] := by
  have hrange := h.range_eq
  -- No later scope lies directly in one of the two outer layers.
  have hlater : ∀ q, q < 2 → (List.range' 3 (g.nextScope - 3)).filter
      (fun s => g.parent? s = some q) = [] := by
    intro q hq
    rw [List.filter_eq_nil_iff]
    intro s hs heq
    have hge := h.parent_ge (List.mem_range'_1.1 hs).1 (of_decide_eq_true heq)
    exact absurd hq (Nat.not_lt.2 hge)
  constructor
  · rw [hg.children_eq 0 h.zero_lt, hrange]
    simp only [List.filter_cons, h.parent_root, h.parent_lexical, h.parent_layer,
      hlater 0 (by decide)]
    rfl
  · rw [hg.children_eq 1 h.one_lt, hrange]
    simp only [List.filter_cons, h.parent_root, h.parent_lexical, h.parent_layer,
      hlater 1 (by decide)]
    rfl

theorem Layered.layers_eq (h : g.Layered) (hg : g.Forest) : g.layers 0 = .ok (1, 2) := by
  obtain ⟨hroot, hlexical⟩ := h.children_eq hg
  rw [layers, hroot]
  simp only [hlexical, h.type_layer, if_true]

end Graph

/-! ## Nodes below a program -/

/-- The action neither makes another root nor goes back to one. -/
def Action.isLocal : Action → Bool
  | .openRoot _ => false
  | .returnToRoot => false
  | _ => true

namespace Path

variable {p q : Path} {event : Event}

/-- The node is no program and not named like one. -/
def isInner (p : Path) : Bool := !p.isProgram && !p.node.isAny ["program"]

theorem isLocal_of_mem_attempt (hp : p.node.isAny ["program"] = false) :
    ∀ a ∈ Action.attempt p.ownActions, a.isLocal = true := by
  intro a ha
  cases hactions : p.ownActions with
  | error fault =>
    rw [hactions] at ha
    rw [List.mem_singleton.1 ha]
    rfl
  | ok actions =>
    rw [hactions] at ha
    obtain ⟨headings, hown⟩ := contributes_ownActions hactions
    cases a with
    | openRoot loc =>
      -- A new root would show among the scopes that the node opens.
      have hmem : ⟨.object, .string "Global", loc⟩ ∈ actions.filterMap Action.heading? :=
        List.mem_filterMap.2 ⟨_, ha, rfl⟩
      rw [hown.opens.headings_eq] at hmem
      exact absurd rfl (hown.type_ne hp _ hmem)
    | returnToRoot => exact hown.opens.plain _ ha
    | _ => rfl

theorem isLocal_of_isInner (hp : p.isInner = true) :
    ∀ a ∈ p.enterActions ++ p.exitActions, a.isLocal = true := by
  rw [isInner, Bool.and_eq_true, Bool.not_eq_true', Bool.not_eq_true'] at hp
  have hattempt := isLocal_of_mem_attempt hp.2
  intro a ha
  rw [enterActions, exitActions, hp.1] at ha
  rcases List.mem_append.1 ha with ha | ha
  · simp only [Bool.false_eq_true, if_false] at ha
    split at ha
    · rcases List.mem_cons.1 ha with rfl | ha
      · rfl
      · exact hattempt a ha
    · exact hattempt a ha
  · simp only [Bool.false_eq_true, if_false] at ha
    split at ha
    · rw [List.mem_singleton.1 ha]
      rfl
    · cases ha

/-- The events of a walk enter and leave the node and what is below it. -/
theorem exists_of_mem_events (h : event ∈ p.events) :
    ∃ q ∈ p :: p.descendants, event = .enter q ∨ event = .exit q := by
  induction p using induction_on_kids with
  | step p ih =>
    rw [events_eq, List.mem_cons, List.mem_append, List.mem_singleton] at h
    rcases h with rfl | h | rfl
    · exact ⟨p, List.mem_cons_self, .inl rfl⟩
    · obtain ⟨c, hc, h⟩ := List.mem_flatMap.1 h
      obtain ⟨q, hq, hevent⟩ := ih c hc h
      exact ⟨q, List.mem_cons_of_mem _ (mem_descendants_iff.2 ⟨c, hc, List.mem_cons.1 hq⟩), hevent⟩
    · exact ⟨p, List.mem_cons_self, .inr rfl⟩

/-- Below a program nothing makes another root or goes back to one. -/
theorem isLocal_of_mem_events (hp : ∀ q ∈ p.descendants, q.isInner = true) :
    ∀ a ∈ (allEvents p.kids).flatMap Event.actions, a.isLocal = true := by
  intro a ha
  obtain ⟨event, hevent, ha⟩ := List.mem_flatMap.1 ha
  obtain ⟨c, hc, hevent⟩ := List.mem_flatMap.1 hevent
  obtain ⟨q, hq, hevent⟩ := exists_of_mem_events hevent
  have hlocal := isLocal_of_isInner (hp q (mem_descendants_iff.2 ⟨c, hc, List.mem_cons.1 hq⟩))
  rcases hevent with rfl | rfl
  · exact hlocal a (List.mem_append_left _ ha)
  · exact hlocal a (List.mem_append_right _ ha)

end Path

/-! ## The run inside the layers -/

namespace Builder

variable {b b' : Builder} {a : Action} {actions : List Action}

/-- The builder stands inside the innermost layer, and so do the places it goes back to. -/
structure Inside (b : Builder) : Prop where
  layered : b.graph.Layered
  current_ge : ∃ s, b.current = some s ∧ 2 ≤ s
  marks_ge : ∀ saved ∈ b.marks, ∃ s, saved = some s ∧ 2 ≤ s

theorem Inside.ge_of_current (h : b.Inside) {s : ScopeId} (hs : b.current = some s) : 2 ≤ s := by
  obtain ⟨s', hs', hle⟩ := h.current_ge
  rw [hs] at hs'
  cases hs'
  exact hle

/-- A change that makes no scopes keeps the builder inside the layers. -/
theorem Inside.of_graph {g : Graph} (h : b.Inside) (hb : b.Sound)
    (hsteps : Graph.Steps b.graph g) (hnext : g.nextScope = b.graph.nextScope) :
    ({ b with graph := g } : Builder).Inside where
  layered := h.layered.of_grows (Graph.Steps.grows hsteps hb.valid) fun _ hle hlt =>
    absurd hle (Nat.not_le.2 (hnext ▸ hlt))
  current_ge := h.current_ge
  marks_ge := h.marks_ge

theorem Inside.openScope (h : b.Inside) (hb : b.Sound) (type : ScopeType) (name loc : Json) :
    (b.openScope type name loc).Inside := by
  obtain ⟨hsteps, -⟩ := hb.openScope type name loc
  have hnext : (b.openScope type name loc).graph.nextScope = b.graph.nextScope + 1 :=
    Graph.nextScope_addScope
  refine ⟨h.layered.of_grows (Graph.Steps.grows hsteps hb.valid) ?_, ?_, h.marks_ge⟩
  · intro s hle hlt
    rw [hnext] at hlt
    obtain ⟨q, hq, hge⟩ := h.current_ge
    have hs : s = b.graph.nextScope := Nat.le_antisymm (Nat.le_of_lt_succ hlt) hle
    refine ⟨q, ?_, hge⟩
    rw [Builder.openScope, Graph.parent?_addScope, if_pos hs]
    exact hq
  · exact ⟨_, rfl, Nat.le_of_succ_le h.layered.three_le⟩

/-- A local action keeps the builder inside the layers and its root as it is. The two outer layers
are not touched. -/
theorem Does.inside (h : Does b a b') (ha : a.isLocal = true) (hb : b.Sound)
    (hinside : b.Inside) :
    b'.Inside ∧ b'.root = b.root ∧ ∀ t < 2, Graph.Untouched b.graph b'.graph t := by
  refine ⟨?_, ?_, ?_⟩
  · have hsound := h.sound hb
    cases h with
    | openRoot loc => cases ha
    | openScope type name loc => exact hinside.openScope hb type name loc
    | mark =>
      refine ⟨hinside.layered, hinside.current_ge, ?_⟩
      intro saved hsaved
      rcases List.mem_cons.1 hsaved with rfl | hsaved
      · exact hinside.current_ge
      · exact hinside.marks_ge saved hsaved
    | restore hmarks =>
      refine ⟨hinside.layered, hinside.marks_ge _ (hmarks ▸ List.mem_cons_self), ?_⟩
      intro saved hsaved
      exact hinside.marks_ge saved (hmarks ▸ List.mem_cons_of_mem _ hsaved)
    | restoreNothing hmarks => exact hinside
    | returnToRoot => cases ha
    | declare hs bound kind => exact hinside.of_graph hb hsound.1 Graph.nextScope_declare
    | hoist hs bound => exact hinside.of_graph hb hsound.1 Graph.nextScope_declare
    | declareFunction hs bound => exact hinside.of_graph hb hsound.1 Graph.nextScope_declare
    | introduce hs names => exact hinside.of_graph hb hsound.1 Graph.nextScope_declareImplicit
    | drop hs hres occurrence => exact hinside
    | refer hs hres he o => exact hinside.of_graph hb hsound.1 rfl
    | noteModule => exact ⟨hinside.layered, hinside.current_ge, hinside.marks_ge⟩
  · cases h with
    | openRoot loc => cases ha
    | returnToRoot => cases ha
    | _ => rfl
  · -- Neither the current scope nor a target of `var` is one of the outer layers.
    intro t ht
    refine h.untouched hb ?_ ?_
    · intro hs
      exact absurd ht (Nat.not_lt.2 (hinside.ge_of_current hs))
    · intro _ s hs heq
      have hge := hinside.layered.varScope_ge hb.valid.forest (hinside.ge_of_current hs)
        (hb.current_lt s hs)
      rw [heq] at hge
      exact absurd ht (Nat.not_lt.2 hge)

theorem inside_replay (h : b.replay actions = .ok b') (hlocal : ∀ a ∈ actions, a.isLocal = true)
    (hb : b.Sound) (hinside : b.Inside) :
    b'.Inside ∧ b'.root = b.root ∧ ∀ t < 2, Graph.Untouched b.graph b'.graph t := by
  refine (replay_rel (R := fun b b' => b.Sound ∧ b.Inside → b'.Sound ∧ b'.Inside ∧
    b'.root = b.root ∧ ∀ t < 2, Graph.Untouched b.graph b'.graph t) ?_ ?_ ?_ h ⟨hb, hinside⟩).2
  · intro b ⟨hb, hinside⟩
    exact ⟨hb, hinside, rfl, fun t _ => .refl _ t⟩
  · intro b₀ b₁ b₂ hfirst hlater hb₀
    obtain ⟨hsound₁, hinside₁, hroot, huntouched⟩ := hfirst hb₀
    obtain ⟨hsound₂, hinside₂, hroot', huntouched'⟩ := hlater ⟨hsound₁, hinside₁⟩
    exact ⟨hsound₂, hinside₂, hroot'.trans hroot,
      fun t ht => (huntouched t ht).trans (huntouched' t ht)⟩
  · intro a ha b b' hdoes ⟨hb, hinside⟩
    exact ⟨(hdoes.sound hb).2, hdoes.inside (hlocal a ha) hb hinside⟩

/-! ## From the start to the end -/

/-- The builder that has entered a program. -/
def opened (loc : Json) : Builder := { graph := .opened loc, root := some 0, current := some 2 }

theorem replay_introduce {names : List String} {s : ScopeId} (hs : b.current = some s) :
    b.replay (.introduce names :: actions) =
      ({ b with graph := b.graph.declareImplicit s names } : Builder).replay actions := by
  rw [replay_cons, apply, here, hs]
  rfl

theorem replay_innerLayers {g : Graph} {loc : Json} (hg : g.nextScope = 1) :
    ({ graph := g, root := some 0, current := some 0 } : Builder).replay
        [.openScope .block (.string "Lexical Global") loc,
          .openScope .moduleLayer (.string "Module") loc, .introduce ["this"]] =
      .ok {
        graph := ((g.addScope .block (.string "Lexical Global") loc (some 0)).addScope .moduleLayer
          (.string "Module") loc (some 1)).declareImplicit 2 ["this"]
        root := some 0
        current := some 2 } := by
  have hnext : (g.addScope .block (.string "Lexical Global") loc (some 0)).nextScope = 2 := by
    rw [Graph.nextScope_addScope, hg]
  simp only [replay_cons, replay_nil, apply, openScope, ok_bind, hg, hnext, here, readable]
  rfl

theorem replay_programActions {n : Node} (hactions : n.programActions = .ok actions)
    (h : ({} : Builder).replay actions = .ok b) :
    ∃ loc, n.loc = .ok loc ∧ b = opened (.object loc) := by
  obtain ⟨loc, hloc, hactions⟩ := bind_eq_ok.1 hactions
  cases hactions
  have hnext : ((({} : Graph).addScope .object (.string "Global") (.object loc)
      none).declareImplicit 0 Graph.hostNames).nextScope = 1 := by
    rw [Graph.nextScope_declareImplicit, Graph.nextScope_addScope]
    rfl
  -- The global scope is opened and gets the names of the host.
  have hroot : ∀ rest, ({} : Builder).replay (.openRoot (.object loc) :: rest) =
      ({ graph := ({} : Graph).addScope .object (.string "Global") (.object loc) none
         root := some 0
         current := some 0 } : Builder).replay rest := fun _ => rfl
  rw [hroot, replay_introduce rfl, replay_innerLayers hnext] at h
  refine ⟨loc, hloc, ?_⟩
  rw [opened, Graph.opened]
  exact (Except.ok.inj h).symm

theorem inside_opened {loc : Json} : (opened loc).Inside where
  layered := Graph.layered_opened
  current_ge := ⟨2, rfl, Nat.le_refl 2⟩
  marks_ge saved hsaved := by cases hsaved

/-- The walk of a program enters its layers, walks what it holds and goes back to the root. -/
theorem exists_run_of_collect {root : Node} {final : Builder}
    (hfinal : collect (.object root) = .ok final) :
    ∃ loc inner, root.loc = .ok loc ∧ (opened (.object loc)).Sound ∧
      (opened (.object loc)).run (Path.allEvents (Path.root root).kids) = .ok inner ∧
      final = { inner with current := inner.root } := by
  obtain ⟨hprogram, htree⟩ := ofTree_of_collect hfinal
  -- The walk enters the root, walks what it holds and leaves it again.
  have hrun := run_events_of_ofTree htree
  rw [Path.events_eq] at hrun
  obtain ⟨b, henter, hrun⟩ := run_cons_eq_ok.1 hrun
  obtain ⟨inner, hkids, hexit⟩ := run_append_eq_ok.1 hrun
  rw [run_singleton] at hexit
  have hb := (replay_sound henter .empty).2
  have hp : (Path.root root).isProgram = true := hprogram
  cases enters_of_replay henter with
  | program hp' hactions hopens henters hexits =>
    simp only [Event.actions, henters, hexits] at henter hexit
    obtain ⟨loc, hloc, rfl⟩ := replay_programActions hactions henter
    cases hexit
    exact ⟨loc, inner, hloc, hb, hkids, rfl⟩
  | through hp' hactions hown henters hexits =>
    rw [hp] at hp'
    cases hp'
  | inside hp' hactions hown henters hexits =>
    rw [hp] at hp'
    cases hp'

end Builder

/-- A program makes its three layers. -/
theorem scopeCount_of_collect {root : Node} {final : Builder}
    (hfinal : collect (.object root) = .ok final) :
    (Path.root root).scopeCount = 3 := by
  obtain ⟨hprogram, htree⟩ := ofTree_of_collect hfinal
  obtain ⟨before, after, hpasses⟩ := Visit.root.passes htree
  have hp : (Path.root root).isProgram = true := hprogram
  have hrun := hpasses.run_enter
  cases hpasses.run_past
  cases Builder.enters_of_replay hrun with
  | program hp' hactions hopens henter hexit =>
    rw [henter] at hrun
    obtain ⟨loc, -, rfl⟩ := Builder.replay_programActions hactions hrun
    have hnext := hpasses.nextScope_after
    rw [Builder.opened, Graph.nextScope_opened] at hnext
    exact (hnext.trans (Nat.zero_add _)).symm
  | through hp' hactions hown henter hexit =>
    rw [hp] at hp'
    cases hp'
  | inside hp' hactions hown henter hexit =>
    rw [hp] at hp'
    cases hp'

/-! ## What is left at the end -/

/-- What a program leaves behind: the first scope is its root, the layers have kept their places,
and nothing was declared in the two outer ones. -/
structure Finished (loc : Json) (final : Builder) : Prop where
  sound : final.Sound
  layered : final.graph.Layered
  root_eq : final.root = some 0
  grows : Graph.Grows (.opened loc) final.graph
  untouched : ∀ t < 2, Graph.Untouched (.opened loc) final.graph t

theorem finished_of_collect {root : Node} {final : Builder}
    (hfinal : collect (.object root) = .ok final)
    (hinner : ∀ p ∈ (Path.root root).descendants, p.isInner = true) :
    ∃ loc, root.loc = .ok loc ∧ Finished (.object loc) final := by
  obtain ⟨loc, inner, hloc, hopened, hrun, rfl⟩ := Builder.exists_run_of_collect hfinal
  obtain ⟨hinside, hroot, huntouched⟩ :=
    Builder.inside_replay hrun (Path.isLocal_of_mem_events hinner) hopened Builder.inside_opened
  have hsound := (Builder.replay_sound hrun hopened).2
  exact ⟨loc, hloc, ⟨hsound.valid, hsound.root_lt, hsound.root_lt, hsound.marks_lt⟩,
    hinside.layered, hroot, Builder.replay_grows hrun hopened, huntouched⟩

/-- The layers keep what they are opened with. -/
theorem Finished.header_eq {loc : Json} {final : Builder} (h : Finished loc final) {s : ScopeId}
    {header : Header} (hs : (Graph.opened loc).headers[s]? = some header) :
    (final.graph.draft s).header = header := by
  have hlt : s < (Graph.opened loc).nextScope := by
    rw [← Graph.length_headers]
    exact (List.getElem?_eq_some_iff.1 hs).1
  rw [Graph.headers_getElem? hlt] at hs
  rw [h.grows.header_eq hlt]
  exact Option.some.inj hs

namespace Node

variable {root : Node}

theorem isInner_of_soleProgram (hsole : root.SoleProgram)
    (hname : ∀ p ∈ (Path.root root).descendants, p.node.isAny ["program"] = false) :
    ∀ p ∈ (Path.root root).descendants, p.isInner = true := by
  intro p hp
  rw [Path.isInner, hsole p hp, hname p hp]
  rfl

theorem AliasFree.isAny_program (h : root.AliasFree) :
    ∀ p ∈ (Path.root root).descendants, p.node.isAny ["program"] = false := by
  intro p hp
  rw [Bool.eq_false_iff]
  intro hprogram
  have halias := h p (List.mem_cons_of_mem _ hp)
  rw [Node.isAny_mono hprogram (by decide)] at halias
  cases halias

end Node

/-- The tree of a program is the copy of the settled graph. -/
theorem exists_of_analyze_of_inner {root : Node} {generated : Bool} {tree : Scope}
    (hinner : ∀ p ∈ (Path.root root).descendants, p.isInner = true)
    (h : analyze (.object root) generated = .ok tree) :
    ∃ final loc g, collect (.object root) = .ok final ∧ root.loc = .ok loc ∧
      Finished (.object loc) final ∧ final.graph.settle 0 final.isModule generated = .ok g ∧
      g.tree 0 = .ok tree := by
  obtain ⟨final, hfinal, h⟩ := bind_eq_ok.1 h
  obtain ⟨r, hr, h⟩ := bind_eq_ok.1 h
  obtain ⟨g, hg, htree⟩ := bind_eq_ok.1 h
  obtain ⟨loc, hloc, hfinished⟩ := finished_of_collect hfinal hinner
  rw [Builder.rootScope, hfinished.root_eq] at hr
  cases hr
  exact ⟨final, loc, g, hfinal, hloc, hfinished, hg, htree⟩

theorem exists_of_analyze {root : Node} {generated : Bool} {tree : Scope} (hsole : root.SoleProgram)
    (halias : root.AliasFree) (h : analyze (.object root) generated = .ok tree) :
    ∃ final loc g, collect (.object root) = .ok final ∧ root.loc = .ok loc ∧
      Finished (.object loc) final ∧ final.graph.settle 0 final.isModule generated = .ok g ∧
      g.tree 0 = .ok tree :=
  exists_of_analyze_of_inner (root.isInner_of_soleProgram hsole halias.isAny_program) h

end LexicalScopes
