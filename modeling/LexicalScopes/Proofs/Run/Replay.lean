import LexicalScopes.Proofs.Graph.Chain
import LexicalScopes.Proofs.Run.Events

/-!
# What replaying does

Every action adds to the graph and moves the place where the builder stands in one of a few ways.
A replay therefore only makes the graph grow, and it makes as many scopes as its actions open.
-/

namespace LexicalScopes

/-! ## Names without declarations -/

namespace Graph

variable {g : Graph} {s : ScopeId}

theorem declareImplicit_cons {name : String} {names : List String} :
    g.declareImplicit s (name :: names) =
      (g.declare s (.string name) .implicit none).declareImplicit s names := rfl

theorem steps_declareImplicit (hs : s < g.nextScope) (names : List String) :
    Steps g (g.declareImplicit s names) := by
  induction names generalizing g with
  | nil => exact .refl
  | cons name names ih =>
    rw [declareImplicit_cons]
    exact .head (.declare (.string name) .implicit none hs) (ih (by rwa [nextScope_declare]))

@[simp] theorem nextScope_declareImplicit {names : List String} :
    (g.declareImplicit s names).nextScope = g.nextScope := by
  induction names generalizing g with
  | nil => rfl
  | cons name names ih => rw [declareImplicit_cons, ih, nextScope_declare]

theorem headers_declareImplicit {names : List String} :
    (g.declareImplicit s names).headers = g.headers := by
  induction names generalizing g with
  | nil => rfl
  | cons name names ih => rw [declareImplicit_cons, ih, headers_declare]

/-- What is introduced has no declarations, and what was there keeps its own. -/
theorem declarations_declareImplicit {names : List String} {e : EntryId} :
    ((g.declareImplicit s names).entry e).declarations = (g.entry e).declarations := by
  induction names generalizing g with
  | nil => rfl
  | cons name names ih => rw [declareImplicit_cons, ih, declarations_declare_none]

/-- A scope binds the names that are introduced in it and what it bound before. -/
theorem mem_bindings_declareImplicit {names : List String} {t : ScopeId} {x : Scalar × EntryId}
    (hs : s < g.nextScope) (hx : x ∈ ((g.declareImplicit s names).draft t).bindings) :
    x ∈ (g.draft t).bindings ∨ t = s ∧ ∃ name ∈ names, x.1 = .string name := by
  induction names generalizing g with
  | nil => exact .inl hx
  | cons name names ih =>
    rw [declareImplicit_cons] at hx
    rcases ih (by rwa [nextScope_declare]) hx with hx | ⟨ht, other, hother, hname⟩
    · rcases mem_bindings_declare hs hx with hx | ⟨ht, hname⟩
      · exact .inl hx
      · exact .inr ⟨ht, name, List.mem_cons_self, hname⟩
    · exact .inr ⟨ht, other, List.mem_cons_of_mem _ hother, hname⟩

end Graph

/-! ## Builders -/

namespace Builder

variable {b b' : Builder} {a : Action} {s : ScopeId}

/-- The graph is valid, and the builder knows only scopes of it. -/
structure Sound (b : Builder) : Prop where
  valid : b.graph.Valid
  current_lt : ∀ s, b.current = some s → s < b.graph.nextScope
  root_lt : ∀ s, b.root = some s → s < b.graph.nextScope
  marks_lt : ∀ s, some s ∈ b.marks → s < b.graph.nextScope

theorem Sound.empty : Sound {} where
  valid := .empty
  current_lt _ h := by cases h
  root_lt _ h := by cases h
  marks_lt _ h := by cases h

theorem graph_declareIn {bound : BoundName} {kind : BindingKind} :
    (b.declareIn s bound kind).graph = b.graph.declare s bound.name kind (some bound.loc) := rfl

theorem here_eq_ok {method : String} : b.here method = .ok s ↔ b.current = some s := readable_eq_ok

/-- Everything that an action can do. -/
inductive Does (b : Builder) : Action → Builder → Prop where
  | openRoot (loc : Json) :
      Does b (.openRoot loc)
        { b.openScope .object (.string "Global") loc with root := some b.graph.nextScope }
  | openScope (type : ScopeType) (name loc : Json) :
      Does b (.openScope type name loc) (b.openScope type name loc)
  | mark : Does b .mark { b with marks := b.current :: b.marks }
  | restore {saved : Option ScopeId} {rest : List (Option ScopeId)} (h : b.marks = saved :: rest) :
      Does b .restore { b with current := saved, marks := rest }
  | restoreNothing (h : b.marks = []) : Does b .restore b
  | returnToRoot : Does b .returnToRoot { b with current := b.root }
  | declare {s : ScopeId} (hs : b.current = some s) (bound : BoundName) (kind : BindingKind) :
      Does b (.declare bound kind) (b.declareIn s bound kind)
  | hoist {s : ScopeId} (hs : b.current = some s) (bound : BoundName) :
      Does b (.hoist bound) (b.declareIn (b.graph.varScope s) bound .var)
  | declareFunction {s : ScopeId} (hs : b.current = some s) (bound : BoundName) :
      Does b (.declareFunction bound)
        (b.declareIn s bound (if b.graph.varScope s = s then .var else .lexical))
  | introduce {s : ScopeId} (hs : b.current = some s) (names : List String) :
      Does b (.introduce names) { b with graph := b.graph.declareImplicit s names }
  | drop {s : ScopeId} {name : Scalar} (hs : b.current = some s)
      (h : b.graph.resolve s name = none) (occurrence : Except Cause Occurrence) :
      Does b (.refer name occurrence) b
  | refer {s t : ScopeId} {name : Scalar} {e : EntryId} (hs : b.current = some s)
      (h : b.graph.resolve s name = some t) (he : b.graph.find? t name = some e) (o : Occurrence) :
      Does b (.refer name (.ok o)) { b with graph := b.graph.addReference e o }
  | noteModule : Does b .noteModule { b with isModule := true }

theorem does_of_refer {name : Scalar} {occurrence : Except Cause Occurrence}
    (h : b.refer name occurrence = .ok b') : Does b (.refer name occurrence) b' := by
  obtain ⟨s, hs, h⟩ := bind_eq_ok.1 h
  have hcurrent := here_eq_ok.1 hs
  cases hres : b.graph.resolve s name with
  | none =>
    simp only [hres] at h
    cases pure_eq_ok.1 h
    exact .drop hcurrent hres occurrence
  | some t =>
    obtain ⟨e, he⟩ := Graph.binds_iff.1 (Graph.resolve_eq_some hres).2
    simp only [hres, he] at h
    obtain ⟨o, rfl, h⟩ := bind_eq_ok.1 h
    cases pure_eq_ok.1 h
    exact .refer hcurrent hres he o

theorem does_of_apply (h : b.apply a = .ok b') : Does b a b' := by
  cases a with
  | openRoot loc =>
    cases h
    exact .openRoot loc
  | openScope type name loc =>
    cases h
    exact .openScope type name loc
  | mark =>
    cases h
    exact .mark
  | restore =>
    cases hmarks : b.marks with
    | nil =>
      simp only [apply, hmarks] at h
      cases h
      exact .restoreNothing hmarks
    | cons saved rest =>
      simp only [apply, hmarks] at h
      cases h
      exact .restore hmarks
  | returnToRoot =>
    cases h
    exact .returnToRoot
  | declare bound kind =>
    obtain ⟨s, hs, h⟩ := bind_eq_ok.1 h
    cases h
    exact .declare (here_eq_ok.1 hs) bound kind
  | hoist bound =>
    obtain ⟨s, hs, h⟩ := bind_eq_ok.1 h
    cases h
    exact .hoist (here_eq_ok.1 hs) bound
  | declareFunction bound =>
    obtain ⟨s, hs, h⟩ := bind_eq_ok.1 h
    cases h
    exact .declareFunction (here_eq_ok.1 hs) bound
  | introduce names =>
    obtain ⟨s, hs, h⟩ := bind_eq_ok.1 h
    cases h
    exact .introduce (here_eq_ok.1 hs) names
  | refer name occurrence => exact does_of_refer h
  | noteModule =>
    cases h
    exact .noteModule
  | fail fault => cases h

/-! ## One action -/

theorem Sound.openScope (hb : b.Sound) (type : ScopeType) (name loc : Json) :
    Graph.Steps b.graph (b.openScope type name loc).graph ∧ (b.openScope type name loc).Sound := by
  have hstep : Graph.Step b.graph (b.openScope type name loc).graph :=
    .addScope type name loc hb.current_lt
  have hnext : (b.openScope type name loc).graph.nextScope = b.graph.nextScope + 1 :=
    Graph.nextScope_addScope
  refine ⟨.single hstep, hstep.valid hb.valid, ?_, ?_, ?_⟩
  · intro s hs
    cases hs
    rw [hnext]
    exact Nat.lt_succ_self _
  · intro s hs
    rw [hnext]
    exact Nat.lt_succ_of_lt (hb.root_lt s hs)
  · intro s hs
    rw [hnext]
    exact Nat.lt_succ_of_lt (hb.marks_lt s hs)

/-- A builder that stands where it stood, over a graph with as many scopes. -/
theorem Sound.of_graph {g : Graph} (hb : b.Sound) (hsteps : Graph.Steps b.graph g)
    (hnext : g.nextScope = b.graph.nextScope) : ({ b with graph := g } : Builder).Sound where
  valid := Graph.Steps.valid hsteps hb.valid
  current_lt s hs := by
    rw [hnext]
    exact hb.current_lt s hs
  root_lt s hs := by
    rw [hnext]
    exact hb.root_lt s hs
  marks_lt s hs := by
    rw [hnext]
    exact hb.marks_lt s hs

theorem Sound.declareIn (hb : b.Sound) (hs : s < b.graph.nextScope) (bound : BoundName)
    (kind : BindingKind) :
    Graph.Steps b.graph (b.declareIn s bound kind).graph ∧ (b.declareIn s bound kind).Sound := by
  have hsteps : Graph.Steps b.graph (b.graph.declare s bound.name kind (some bound.loc)) :=
    .single (.declare bound.name kind (some bound.loc) hs)
  exact ⟨hsteps, hb.of_graph hsteps Graph.nextScope_declare⟩

/-- An action adds to the graph and leaves a builder that knows only scopes of it. -/
theorem Does.sound (h : Does b a b') (hb : b.Sound) :
    Graph.Steps b.graph b'.graph ∧ b'.Sound := by
  cases h with
  | openRoot loc =>
    obtain ⟨hsteps, hsound⟩ := hb.openScope .object (.string "Global") loc
    refine ⟨hsteps, hsound.valid, hsound.current_lt, ?_, hsound.marks_lt⟩
    exact hsound.current_lt
  | openScope type name loc => exact hb.openScope type name loc
  | mark =>
    refine ⟨.refl, hb.valid, hb.current_lt, hb.root_lt, ?_⟩
    intro s hs
    rcases List.mem_cons.1 hs with hs | hs
    · exact hb.current_lt s hs.symm
    · exact hb.marks_lt s hs
  | restore hmarks =>
    refine ⟨.refl, hb.valid, ?_, hb.root_lt, ?_⟩
    · intro s hs
      cases hs
      exact hb.marks_lt s (hmarks ▸ List.mem_cons_self)
    · intro s hs
      exact hb.marks_lt s (hmarks ▸ List.mem_cons_of_mem _ hs)
  | restoreNothing hmarks => exact ⟨.refl, hb⟩
  | returnToRoot => exact ⟨.refl, hb.valid, hb.root_lt, hb.root_lt, hb.marks_lt⟩
  | declare hs bound kind => exact hb.declareIn (hb.current_lt _ hs) bound kind
  | hoist hs bound =>
    exact hb.declareIn (Graph.varScope_lt hb.valid.forest (hb.current_lt _ hs)) bound .var
  | declareFunction hs bound => exact hb.declareIn (hb.current_lt _ hs) bound _
  | introduce hs names =>
    have hsteps := Graph.steps_declareImplicit (hb.current_lt _ hs) names
    exact ⟨hsteps, hb.of_graph hsteps Graph.nextScope_declareImplicit⟩
  | drop hs hres occurrence => exact ⟨.refl, hb⟩
  | refer hs hres he o =>
    have hsteps : Graph.Steps b.graph (b.graph.addReference _ o) := .single (.addReference o he)
    exact ⟨hsteps, hb.of_graph hsteps rfl⟩
  | noteModule => exact ⟨.refl, hb.valid, hb.current_lt, hb.root_lt, hb.marks_lt⟩

theorem Does.nextScope (h : Does b a b') :
    b'.graph.nextScope = b.graph.nextScope + if a.opens then 1 else 0 := by
  cases h with
  | openRoot loc => exact Graph.nextScope_addScope
  | openScope type name loc => exact Graph.nextScope_addScope
  | declare hs bound kind => exact Graph.nextScope_declare
  | hoist hs bound => exact Graph.nextScope_declare
  | declareFunction hs bound => exact Graph.nextScope_declare
  | introduce hs names => exact Graph.nextScope_declareImplicit
  | _ => rfl

/-- Only actions that open a scope set the root, to a scope that they make. -/
theorem Does.root (h : Does b a b') : b'.root = b.root ∨ b'.root = some b.graph.nextScope := by
  cases h with
  | openRoot loc => exact .inr rfl
  | _ => exact .inl rfl

end Builder

/-- The action belongs to what a node does by itself, not to leaving it. -/
def Action.isPlain : Action → Bool
  | .mark => false
  | .restore => false
  | .returnToRoot => false
  | _ => true

namespace Builder

variable {b b' : Builder} {a : Action} {actions : List Action}

theorem Does.marks_of_isPlain (h : Does b a b') (ha : a.isPlain = true) : b'.marks = b.marks := by
  cases h with
  | mark => cases ha
  | restore hmarks => cases ha
  | returnToRoot => cases ha
  | _ => rfl

theorem Does.current_of_isPlain (h : Does b a b') (ha : a.isPlain = true) :
    b'.current = if a.opens then some b.graph.nextScope else b.current := by
  cases h with
  | mark => cases ha
  | restore hmarks => cases ha
  | returnToRoot => cases ha
  | _ => rfl

/-! ## Many actions -/

theorem replay_cons_cases (h : b.replay (a :: actions) = .ok b') :
    ∃ b₁, Does b a b₁ ∧ b₁.replay actions = .ok b' := by
  rw [replay_cons] at h
  obtain ⟨b₁, happly, h⟩ := bind_eq_ok.1 h
  exact ⟨b₁, does_of_apply happly, h⟩

/-- What holds between the builders before and after each single action holds between those before
and after all of them. -/
theorem replay_rel {R : Builder → Builder → Prop} (hrefl : ∀ b, R b b)
    (htrans : ∀ b₀ b₁ b₂, R b₀ b₁ → R b₁ b₂ → R b₀ b₂)
    (hstep : ∀ a ∈ actions, ∀ b b', Does b a b' → R b b') (h : b.replay actions = .ok b') :
    R b b' := by
  induction actions generalizing b with
  | nil =>
    cases h
    exact hrefl _
  | cons a actions ih =>
    obtain ⟨b₁, hdoes, hrest⟩ := replay_cons_cases h
    have hfirst := hstep a List.mem_cons_self _ b₁ hdoes
    have hlater := ih (fun a' ha' => hstep a' (List.mem_cons_of_mem _ ha')) hrest
    exact htrans _ b₁ _ hfirst hlater

theorem replay_sound (h : b.replay actions = .ok b') (hb : b.Sound) :
    Graph.Steps b.graph b'.graph ∧ b'.Sound := by
  refine replay_rel (R := fun b b' => b.Sound → Graph.Steps b.graph b'.graph ∧ b'.Sound)
    ?_ ?_ ?_ h hb
  · intro b hb
    exact ⟨.refl, hb⟩
  · intro b₀ b₁ b₂ hfirst hlater hb₀
    obtain ⟨hsteps, hb₁⟩ := hfirst hb₀
    obtain ⟨hsteps', hb₂⟩ := hlater hb₁
    exact ⟨hsteps.trans hsteps', hb₂⟩
  · intro a _ b b' hdoes hb
    exact hdoes.sound hb

theorem replay_grows (h : b.replay actions = .ok b') (hb : b.Sound) :
    Graph.Grows b.graph b'.graph :=
  Graph.Steps.grows (replay_sound h hb).1 hb.valid

/-- A replay makes as many scopes as its actions open. -/
theorem nextScope_replay (h : b.replay actions = .ok b') :
    b'.graph.nextScope = b.graph.nextScope + actions.countP Action.opens := by
  induction actions generalizing b with
  | nil =>
    cases h
    rfl
  | cons a actions ih =>
    obtain ⟨b₁, hdoes, hrest⟩ := replay_cons_cases h
    rw [ih hrest, hdoes.nextScope, List.countP_cons, Nat.add_assoc, Nat.add_comm (List.countP _ _)]

theorem root_replay (h : b.replay actions = .ok b') :
    b'.root = b.root ∨ ∃ r, b'.root = some r ∧ b.graph.nextScope ≤ r := by
  induction actions generalizing b with
  | nil =>
    cases h
    exact .inl rfl
  | cons a actions ih =>
    obtain ⟨b₁, hdoes, hrest⟩ := replay_cons_cases h
    have hnext : b.graph.nextScope ≤ b₁.graph.nextScope := by
      rw [hdoes.nextScope]
      exact Nat.le_add_right _ _
    rcases ih hrest with hroot | ⟨r, hr, hle⟩
    · rcases hdoes.root with hroot₁ | hroot₁
      · exact .inl (hroot.trans hroot₁)
      · exact .inr ⟨b.graph.nextScope, hroot.trans hroot₁, Nat.le_refl _⟩
    · exact .inr ⟨r, hr, Nat.le_trans hnext hle⟩

theorem marks_replay (h : b.replay actions = .ok b') (hplain : ∀ a ∈ actions, a.isPlain = true) :
    b'.marks = b.marks := by
  refine replay_rel (R := fun b b' => b'.marks = b.marks) (fun _ => rfl)
    (fun _ _ _ hfirst hlater => hlater.trans hfirst) ?_ h
  intro a ha b b' hdoes
  exact hdoes.marks_of_isPlain (hplain a ha)

theorem current_replay (h : b.replay actions = .ok b') (hplain : ∀ a ∈ actions, a.isPlain = true)
    (hopens : actions.any Action.opens = false) : b'.current = b.current := by
  refine replay_rel (R := fun b b' => b'.current = b.current) (fun _ => rfl)
    (fun _ _ _ hfirst hlater => hlater.trans hfirst) ?_ h
  intro a ha b b' hdoes
  have hcurrent := hdoes.current_of_isPlain (hplain a ha)
  rw [Bool.eq_false_iff.2 (List.any_eq_false.1 hopens a ha)] at hcurrent
  exact hcurrent

/-! ## The scopes around the builder -/

/-- The scope that the builder stands in and the scopes around it, from the inside outwards. -/
def around (b : Builder) : List ScopeId :=
  match b.current with
  | some s => b.graph.chain s
  | none => []

theorem current_eq_head?_around (b : Builder) : b.current = b.around.head? := by
  rw [around]
  cases b.current with
  | none => rfl
  | some s => rfl

/-- A builder that stands where it stood has the same scopes around it. -/
theorem around_eq_of_current (hb : b.Sound) (hb' : b'.Sound) (hsteps : Graph.Steps b.graph b'.graph)
    (h : b'.current = b.current) : b'.around = b.around := by
  rw [around, around, h]
  cases hc : b.current with
  | none => rfl
  | some s =>
    exact (Graph.Steps.grows hsteps hb.valid).chain_eq hb.valid.forest hb'.valid.forest
      (hb.current_lt s hc)

theorem around_openScope (hb : b.Sound) (type : ScopeType) (name loc : Json) :
    (b.openScope type name loc).around = b.graph.nextScope :: b.around := by
  obtain ⟨hsteps, hb'⟩ := hb.openScope type name loc
  have hparent : (b.openScope type name loc).graph.parent? b.graph.nextScope = b.current := by
    rw [openScope, Graph.parent?_addScope, if_pos rfl]
  rw [around, around]
  cases hc : b.current with
  | none => exact Graph.chain_of_parent?_eq_none (hparent.trans hc)
  | some s =>
    have hchain := Graph.chain_of_parent?_eq_some hb'.valid.forest.ranked (hparent.trans hc)
    have hs := hb.current_lt s hc
    rw [(Graph.Steps.grows hsteps hb.valid).chain_eq hb.valid.forest hb'.valid.forest hs] at hchain
    exact hchain

theorem Does.around_of_isPlain (h : Does b a b') (ha : a.isPlain = true) (hb : b.Sound) :
    b'.around = if a.opens then b.graph.nextScope :: b.around else b.around := by
  cases hopens : a.opens with
  | false =>
    obtain ⟨hsteps, hb'⟩ := h.sound hb
    have hcurrent := h.current_of_isPlain ha
    rw [hopens] at hcurrent
    exact around_eq_of_current hb hb' hsteps hcurrent
  | true =>
    cases h with
    | openRoot loc => exact around_openScope hb .object (.string "Global") loc
    | openScope type name loc => exact around_openScope hb type name loc
    | _ => cases hopens

/-- Opened scopes lie inside each other, the one opened last innermost. -/
theorem around_replay (h : b.replay actions = .ok b') (hplain : ∀ a ∈ actions, a.isPlain = true)
    (hb : b.Sound) :
    b'.around =
      (List.range' b.graph.nextScope (actions.countP Action.opens)).reverse ++ b.around := by
  induction actions generalizing b with
  | nil =>
    cases h
    rfl
  | cons a actions ih =>
    obtain ⟨b₁, hdoes, hrest⟩ := replay_cons_cases h
    rw [ih hrest (fun a' ha' => hplain a' (List.mem_cons_of_mem _ ha')) (hdoes.sound hb).2,
      hdoes.around_of_isPlain (hplain a List.mem_cons_self) hb, hdoes.nextScope, List.countP_cons]
    cases a.opens with
    | false => rfl
    | true => simp [List.range'_succ]

end Builder

end LexicalScopes
