import LexicalScopes.Proofs.Cursor
import LexicalScopes.Proofs.Placement.Kinds
import LexicalScopes.Proofs.Shape.Shown

/-!
# The layers of a program

At the end of the run names of kind `var` are bound in functions, in catch clauses and in the module
layer alone. A layer that is kept leaves the two scopes around it as they are opened. A layer that
is dissolved hands `let` and `const` on to the lexical scope and all other names to the root.
-/

namespace LexicalScopes

/-! ## The opened layers -/

namespace Graph

variable {g : Graph} {s : ScopeId} {n : Scalar} {e : EntryId} {loc : Json} {names : List String}

/-- New names come in their order, after those that were there. -/
theorem names_declareImplicit (hs : s < g.nextScope) (hdistinct : names.Nodup)
    (hnew : ∀ name ∈ names, g.find? s (.string name) = none) :
    ((g.declareImplicit s names).draft s).bindings.map (·.1) =
      (g.draft s).bindings.map (·.1) ++ names.map Scalar.string := by
  induction names generalizing g with
  | nil => simp [declareImplicit]
  | cons name names ih =>
    obtain ⟨hother, hdistinct⟩ := List.nodup_cons.1 hdistinct
    rw [declareImplicit_cons, ih (by rwa [nextScope_declare]) hdistinct,
      bindings_declare_of_find?_eq_none hs (hnew name List.mem_cons_self)]
    · simp
    · intro other hmem
      have hne : (Scalar.string other).key ≠ (Scalar.string name).key := by
        intro hkey
        cases hkey
        exact hother hmem
      rw [find?_declare hs, if_neg fun hname => hne hname.2]
      exact hnew other (List.mem_cons_of_mem _ hmem)

theorem draft_declareImplicit_of_ne {t : ScopeId} (hs : s < g.nextScope) (ht : t ≠ s) :
    (g.declareImplicit s names).draft t = g.draft t := by
  induction names generalizing g with
  | nil => rfl
  | cons name names ih =>
    rw [declareImplicit_cons, ih (by rwa [nextScope_declare]), draft_declare_of_ne hs ht]

/-- The root is opened with the names of the host. -/
theorem names_root_opened : ((opened loc).draft 0).bindings.map (·.1) =
    hostNames.map Scalar.string := by
  have hhost : ((((({} : Graph).addScope .object (.string "Global") loc none).declareImplicit 0
      hostNames).draft 0).bindings.map (·.1)) = [] ++ hostNames.map Scalar.string :=
    names_declareImplicit (by simp) (by decide) fun name _ => rfl
  have hnext : ((({} : Graph).addScope .object (.string "Global") loc none).declareImplicit
      0 hostNames).nextScope = 1 := by
    rw [nextScope_declareImplicit, nextScope_addScope]
    rfl
  -- What is opened afterwards adds nothing to the root.
  rw [opened, draft_declareImplicit_of_ne (by simp [hnext]) (by decide), draft_addScope,
    if_neg (by simp [hnext]), draft_addScope, if_neg (by simp [hnext])]
  exact hhost

end Graph

namespace Builder

variable {b b' final : Builder} {a : Action} {actions : List Action} {root : Node} {loc : Json}

/-- Without declarations all bindings are implicit. -/
theorem implicit_replay (h : b.replay actions = .ok b') (hb : b.Sound)
    (hactions : ∀ a ∈ actions, a.declared? = none)
    (himplicit : ∀ s n e, b.graph.find? s n = some e → (b.graph.entry e).kind = .implicit) :
    ∀ s n e, b'.graph.find? s n = some e → (b'.graph.entry e).kind = .implicit := by
  induction actions generalizing b with
  | nil =>
    cases h
    exact himplicit
  | cons a actions ih =>
    obtain ⟨b₁, hdoes, hrest⟩ := replay_cons_cases h
    obtain ⟨hsteps, hb₁⟩ := hdoes.sound hb
    have hnone := hactions a List.mem_cons_self
    refine ih hrest hb₁ (fun a' ha' => hactions a' (List.mem_cons_of_mem _ ha')) ?_
    intro s n e hfind
    rcases hdoes.find?_cases hb hfind with hold | ⟨name, kind, hgives, -, hkind⟩
    · rw [(Graph.Steps.grows hsteps hb.valid).kind e (hb.valid.owns.lt_of_find? s n e hold)]
      exact himplicit s n e hold
    · cases hgives with
      | introduce hs hname => exact hkind
      | _ => cases hnone

/-! ## Headings of scopes -/

/-- A scope was there before the replay, or one of the actions has given it its heading. -/
theorem exists_heading_of_replay (h : b.replay actions = .ok b') (hb : b.Sound) {s : ScopeId}
    (hs : s < b'.graph.nextScope) :
    s < b.graph.nextScope ∨ ∃ a ∈ actions, a.heading? = some (b'.graph.draft s).heading := by
  induction actions generalizing b with
  | nil =>
    cases h
    exact .inl hs
  | cons a actions ih =>
    obtain ⟨b₁, hdoes, hrest⟩ := replay_cons_cases h
    have hb₁ := (hdoes.sound hb).2
    rcases ih hrest hb₁ with hold | ⟨a', ha', hheading⟩
    · have hnext := hdoes.nextScope
      rw [Action.opens_eq_isSome_heading?] at hnext
      cases hheading : a.heading? with
      | none =>
        rw [hheading] at hnext
        exact .inl (Nat.lt_of_lt_of_eq hold hnext)
      | some heading =>
        rw [hheading] at hnext
        rcases Nat.lt_or_eq_of_le (Nat.le_of_lt_succ (Nat.lt_of_lt_of_eq hold hnext)) with hlt | rfl
        · exact .inl hlt
        · -- The scope is the one that the action opens.
          refine .inr ⟨a, List.mem_cons_self, ?_⟩
          rw [hheading, Draft.heading_eq, (replay_grows hrest hb₁).header_eq hold,
            hdoes.header hheading]
    · exact .inr ⟨a', List.mem_cons_of_mem _ ha', hheading⟩

end Builder

section Runs

open Builder

variable {root : Node} {final before after : Builder} {past : List Event} {around : List ScopeId}
  {p : Path} {headings : List Heading}

/-- The scopes of a node are functions and blocks. -/
theorem type_of_contributed (halias : p.node.isAny NodeType.aliases = false)
    (h : p.contributed = .ok headings) :
    ∀ heading ∈ headings, heading.type = .function ∨ heading.type = .block := by
  obtain ⟨field, hfield, h⟩ := bind_eq_ok.1 h
  obtain ⟨own, hown, h⟩ := bind_eq_ok.1 h
  cases h
  intro heading hmem
  rcases List.mem_append.1 hmem with hmem | hmem
  · exact .inl (type_of_coveringIf hfield heading hmem)
  · cases hfunction : p.node.isAny NodeType.functions with
    | false => exact .inr (type_of_typeScopes halias hfunction hown heading hmem)
    | true =>
      simp only [Path.typeScopes, hfunction, if_true] at hown
      exact (type_of_functionScopes hown heading hmem).symm

/-- A node below the root opens the scopes that it contributes. -/
theorem exists_contributed_of_enter {b b' : Builder}
    (halias : p.node.isAny NodeType.aliases = false) (hprogram : p.isProgram = false)
    (h : b.replay p.enterActions = .ok b') :
    ∃ headings, p.contributed = .ok headings ∧
      ∀ a ∈ p.enterActions, ∀ heading, a.heading? = some heading → heading ∈ headings := by
  have hown : ∀ {actions headings}, Contributes p actions p.contributed headings →
      ∀ a ∈ actions, ∀ heading, a.heading? = some heading → heading ∈ headings := by
    intro actions headings hcontributes a ha heading hheading
    rw [← hcontributes.opens.headings_eq]
    exact List.mem_filterMap.2 ⟨a, ha, hheading⟩
  cases enters_of_replay h with
  | program hp hactions hopens henter hexit =>
    rw [hprogram] at hp
    cases hp
  | through hp hactions hcontributes henter hexit =>
    refine ⟨_, hcontributes.scopes_eq halias, ?_⟩
    rw [henter]
    exact hown hcontributes
  | inside hp hactions hcontributes henter hexit =>
    refine ⟨_, hcontributes.scopes_eq halias, ?_⟩
    rw [henter]
    intro a ha heading hheading
    rcases List.mem_cons.1 ha with rfl | ha
    · cases hheading
    · exact hown hcontributes a ha heading hheading

/-- What holds once the layers are opened, and is kept by every node below the root, holds at the
end of the run. -/
theorem induction_below_root {P : Graph → Prop} (hfinal : collect (.object root) = .ok final)
    (hsole : root.SoleProgram) (hstart : P {})
    (hroot : ∀ actions b, root.programActions = .ok actions →
      ({} : Builder).replay actions = .ok b → P b.graph)
    (hinner : ∀ past around p before after, Visit root past around p → p.isProgram = false →
      2 ∈ before.around → Passes past p before after final → P before.graph → P after.graph) :
    P final.graph := by
  refine run_induction (P := fun _ b => P b.graph) (ofTree_of_collect hfinal).2 hstart ?_ ?_
  · intro past around p before after hvisit hpasses hbefore
    cases hvisit with
    | root =>
      have hrun := hpasses.run_enter
      cases hpasses.run_past
      have hprogram : (Path.root root).isProgram = true := (ofTree_of_collect hfinal).1
      rw [Path.enterActions, hprogram, if_pos rfl] at hrun
      obtain ⟨actions, hactions⟩ := exists_of_replay_attempt hrun
      rw [hactions] at hrun
      exact hroot actions after hactions hrun
    | @child past around q _ earlier later h hkids =>
      have hmem : p ∈ q.kids := by simp [hkids]
      have hp : p ∈ (Path.root root).descendants := by
        rcases List.mem_cons.1 h.mem_descendants with rfl | hq
        · exact Path.mem_descendants_of_mem_kids hmem
        · exact Path.mem_descendants_trans hq (Path.mem_descendants_of_mem_kids hmem)
      refine hinner _ _ p before after (h.child hkids) (hsole p hp) ?_ hpasses hbefore
      rw [(h.child hkids).around_before hsole hpasses]
      refine h.mem_of_root ?_
      rw [Path.mem_ownScopes, scopeCount_of_collect hfinal]
      exact ⟨by decide, by decide⟩
  · intro past p b b' hgraph hb
    rwa [hgraph]

/-- Inside the layers every scope is one that a node contributes. -/
theorem exists_contributed_of_collect (hfinal : collect (.object root) = .ok final)
    (hsole : root.SoleProgram) (halias : root.AliasFree) {s : ScopeId} (hs : 3 ≤ s)
    (hlt : s < final.graph.nextScope) :
    ∃ past around p headings, Visit root past around p ∧ p.contributed = .ok headings ∧
      (final.graph.draft s).heading ∈ headings := by
  refine induction_below_root (P := fun g => ∀ s, 3 ≤ s → s < g.nextScope →
    ∃ past around p headings, Visit root past around p ∧ p.contributed = .ok headings ∧
      (g.draft s).heading ∈ headings) hfinal hsole ?_ ?_ ?_ s hs hlt
  · intro s _ hlt
    exact absurd hlt (Nat.not_lt_zero s)
  · intro actions b hactions hrun s hs hlt
    obtain ⟨loc, -, rfl⟩ := replay_programActions hactions hrun
    rw [Builder.opened, Graph.nextScope_opened] at hlt
    exact absurd hs (Nat.not_le.2 hlt)
  · intro past around p before after hvisit hprogram _ hpasses hbefore s hs hlt
    have hb := hpasses.sound_before
    rcases exists_heading_of_replay hpasses.run_enter hb hlt with hold | ⟨a, ha, hheading⟩
    · rw [Draft.heading_eq, (replay_grows hpasses.run_enter hb).header_eq hold,
        ← Draft.heading_eq]
      exact hbefore s hs hold
    · obtain ⟨headings, hcontributed, hmem⟩ := exists_contributed_of_enter
        (halias p hvisit.mem_descendants) hprogram hpasses.run_enter
      exact ⟨past, around, p, headings, hvisit, hcontributed, hmem a ha _ hheading⟩

/-- Inside the layers all scopes are functions and blocks. -/
theorem type_of_collect (hfinal : collect (.object root) = .ok final) (hsole : root.SoleProgram)
    (halias : root.AliasFree) {s : ScopeId} (hs : 3 ≤ s) :
    (final.graph.draft s).type = .function ∨ (final.graph.draft s).type = .block := by
  rcases Nat.lt_or_ge s final.graph.nextScope with hlt | hge
  · obtain ⟨past, around, p, headings, hvisit, hcontributed, hmem⟩ :=
      exists_contributed_of_collect hfinal hsole halias hs hlt
    exact type_of_contributed (halias p hvisit.mem_descendants) hcontributed _ hmem
  · rw [Graph.draft_of_le hge]
    exact .inr rfl

/-- Names of kind `var` are bound only in functions, in catch clauses and in the module layer. -/
theorem holdsVars_of_collect (hfinal : collect (.object root) = .ok final)
    (hsole : root.SoleProgram) {loc : Json} (hfinished : Finished loc final) :
    final.graph.HoldsVars := by
  refine induction_below_root (P := Graph.HoldsVars) hfinal hsole ?_ ?_ ?_
  · intro s n e hfind
    rw [Graph.find?_of_le (Nat.zero_le s)] at hfind
    cases hfind
  · intro actions b hactions hrun s n e hfind hkind
    obtain ⟨loc, -, hactions⟩ := bind_eq_ok.1 hactions
    cases hactions
    have himplicit := implicit_replay hrun .empty (by simp [Action.declared?])
      (fun s n e h => by rw [Graph.find?_of_le (Nat.zero_le s)] at h; cases h) s n e hfind
    rw [hkind] at himplicit
    cases himplicit
  · intro past around p before after hvisit hprogram hlayer hpasses hbefore
    have hb := hpasses.sound_before
    -- The module layer is a target around the node.
    have htarget : before.HasTarget := by
      have hgrows := (Builder.replay_grows hpasses.run_enter hb).trans hpasses.grows_rest
      have hhoists : before.graph.isHoistTarget 2 = true := by
        rw [← hgrows.isHoistTarget_eq (mem_around_lt hb hlayer), Graph.isHoistTarget_eq_hoists,
          hfinished.layered.type_layer]
        rfl
      exact Option.isSome_iff_exists.1 (List.find?_isSome.2 ⟨2, hlayer, hhoists⟩)
    have hplaces : Action.placesVars false p.enterActions = true :=
      placesVars_enterActions hpasses.run_enter
    refine holdsVars_replay hpasses.run_enter hb ?_ (.inl htarget) hplaces (fun ht => by cases ht)
      hbefore
    intro a ha
    cases performs_enterActions hpasses.run_enter a ha with
    | mark => exact .inl rfl
    | _ => exact .inr rfl

end Runs

/-! ## Settled layers -/

theorem Graph.isLexical_iff {g : Graph} {e : EntryId} :
    g.isLexical e = true ↔ (g.entry e).kind = .lexical ∨ (g.entry e).kind = .constant := by
  rw [Graph.isLexical]
  cases (g.entry e).kind <;> simp

theorem Graph.Copied.exists_of_mem {g : Graph} {s : ScopeId} {scope : Scope} {x : Scalar × Binding}
    (h : g.Copied s scope) (hx : x ∈ scope.bindings) :
    ∃ y ∈ (g.draft s).bindings, y.1 = x.1 ∧ (g.entry y.2).toBinding = .ok x.2 :=
  Graph.exists_of_forall₂_left h.shows.flip hx

theorem Graph.Copied.names_eq {g : Graph} {s : ScopeId} {scope : Scope} (h : g.Copied s scope) :
    scope.bindings.map (·.1) = (g.draft s).bindings.map (·.1) := by
  refine List.forall₂_eq_eq_eq ▸ (List.forall₂_map_left_iff.2 (List.forall₂_map_right_iff.2 ?_))
  exact h.shows.flip.imp fun _ _ hxy => hxy.1.symm

/-- How the two scopes around the module layer show. -/
structure Scope.OuterLayers (tree : Scope) (kept : Bool) : Prop where
  root : tree.type = .object ∧ tree.name = .string "Global"
  lexical : ∃ lexical, tree.children = [lexical] ∧ lexical.type = .block ∧
    lexical.name = .string "Lexical Global" ∧
    if kept then
      (tree.bindings.map (·.1) = Graph.hostNames.map Scalar.string ∧
        ∀ x ∈ tree.bindings, x.2.kind = .implicit ∧ x.2.declarations = []) ∧
      lexical.bindings = [] ∧
      ∃ layer, lexical.children = [layer] ∧ layer.type = .block ∧ layer.name = .string "Module"
    else
      (∀ x ∈ tree.bindings, x.2.kind ≠ .lexical ∧ x.2.kind ≠ .constant) ∧
      ∀ x ∈ lexical.bindings, x.2.kind = .lexical ∨ x.2.kind = .constant

/-- Names of kind `var` show only in functions, in catch clauses, and in the module layer or, if it
is dissolved, in the root. -/
def Scope.PlacesVars (tree : Scope) (kept : Bool) : Prop :=
  ∀ scope ∈ tree.walk, ∀ x ∈ scope.bindings, x.2.kind = .var →
    scope.type = .function ∨ scope.type = .block ∧ scope.name = .string "Catch" ∨
    if kept then scope.type = .block ∧ scope.name = .string "Module" else scope.type = .object

section Settled

open LexicalScopes.Graph

variable {root loc : Node} {final : Builder} {generated : Bool} {g : Graph} {tree : Scope}
  {s : ScopeId} {n : Scalar} {e : EntryId} {os : List Outline}

/-- The names of the host are implicit in the root. -/
theorem kind_of_find?_root (hfinal : collect (.object root) = .ok final)
    (hloc : root.loc = .ok loc) (h : Finished (.object loc) final)
    (hfind : final.graph.find? 0 n = some e) : (final.graph.entry e).kind = .implicit := by
  obtain ⟨before, after, hpasses⟩ := Visit.root.passes (ofTree_of_collect hfinal).2
  have hrun := hpasses.run_enter
  cases hpasses.run_past
  have hprogram : (Path.root root).isProgram = true := (ofTree_of_collect hfinal).1
  rw [Path.enterActions, hprogram, if_pos rfl] at hrun
  obtain ⟨actions, hactions⟩ := Builder.exists_of_replay_attempt hrun
  rw [hactions] at hrun
  have hafter := hpasses.sound_after
  have hgrows := hpasses.grows_rest
  obtain ⟨loc', hloc', rfl⟩ := Builder.replay_programActions hactions hrun
  have hloc' : root.loc = .ok loc' := hloc'
  rw [hloc] at hloc'
  cases hloc'
  obtain ⟨loc', -, hactions⟩ := bind_eq_ok.1 hactions
  cases hactions
  -- Nothing is bound in the root later on.
  rw [(h.untouched 0 (by decide)).find?_eq] at hfind
  have hfind : (Builder.opened (.object loc)).graph.find? 0 n = some e := hfind
  rw [hgrows.kind e (hafter.valid.owns.lt_of_find? 0 n e hfind)]
  exact Builder.implicit_replay hrun .empty (by simp [Action.attempt, Action.declared?])
    (fun s n e h => by rw [Graph.find?_of_le (Nat.zero_le s)] at h; cases h) 0 n e hfind

/-- A binding of kind `var` belongs to the layer, to a function or to a catch clause. -/
theorem scope_of_var (hfinal : collect (.object root) = .ok final) (hsole : root.SoleProgram)
    (halias : root.AliasFree) (hloc : root.loc = .ok loc) (h : Finished (.object loc) final)
    (hfind : final.graph.find? s n = some e) (hkind : (final.graph.entry e).kind = .var) :
    s = 2 ∨ (final.graph.draft s).type = .function ∨
      (final.graph.draft s).type = .block ∧ (final.graph.draft s).name = .string "Catch" := by
  have htakes := holdsVars_of_collect hfinal hsole h s n e hfind hkind
  rcases Nat.lt_or_ge s 3 with hlt | hge
  · -- The two outer scopes bind no such name.
    match s, hlt with
    | 0, _ =>
      rw [kind_of_find?_root hfinal hloc h hfind] at hkind
      cases hkind
    | 1, _ =>
      rw [find?_eq_boundTo, h.stacked.bindings_lexical] at hfind
      cases hfind
    | 2, _ => exact .inl rfl
  · rcases type_of_collect hfinal hsole halias hge with hfunction | hblock
    · exact .inr (.inl hfunction)
    · rw [Graph.takesVars, ScopeType.takesVars, hblock] at htakes
      exact .inr (.inr ⟨hblock, by simpa [ScopeType.hoists] using htakes⟩)

namespace Finished

variable {loc : Json} (h : Finished loc final)

include h

theorem names_root : (final.graph.draft 0).bindings.map (·.1) = hostNames.map Scalar.string := by
  rw [(h.untouched 0 (by decide)).bindings_eq, names_root_opened]

variable (hg : final.graph.settle 0 final.isModule generated = .ok g)

include hg

theorem type_settle : (g.draft s).type = (final.graph.draft s).type :=
  congrArg Heading.type (h.heading_settle hg)

theorem name_settle : (g.draft s).name = (final.graph.draft s).name :=
  congrArg Heading.name (h.heading_settle hg)

theorem children_settle_root : g.children 0 = [1] := by
  rcases h.settle_cases hg with rfl | rfl
  · exact h.stacked.children_root
  · rw [h.stacked.children_eq, if_neg (by decide), h.stacked.children_root]

end Finished

variable (hfinal : collect (.object root) = .ok final) (hloc : root.loc = .ok loc)
  (h : Finished (.object loc) final)
  (hg : final.graph.settle 0 final.isModule generated = .ok g) (htree : g.tree 0 = .ok tree)

include hfinal hloc h hg htree

/-- The root of a program that keeps its layer shows the names of the host, all implicit. -/
theorem host_of_settle_kept
    (hkept : final.graph.keepsModule 0 final.isModule generated = true) :
    tree.bindings.map (·.1) = hostNames.map Scalar.string ∧
      ∀ x ∈ tree.bindings, x.2.kind = .implicit ∧ x.2.declarations = [] := by
  have hcopied : g.Copied 0 tree := ⟨_, htree⟩
  have hsettled := h.settled hg
  have hgraph := h.settle_eq hg
  rw [if_pos hkept] at hgraph
  subst hgraph
  refine ⟨hcopied.names_eq.trans h.names_root, ?_⟩
  intro x hx
  obtain ⟨y, hy, -, hbinding⟩ := hcopied.exists_of_mem hx
  have hfind := hsettled.find?_of_mem hy
  refine ⟨(kind_of_toBinding hbinding).trans (kind_of_find?_root hfinal hloc h hfind), ?_⟩
  -- Nothing was declared in the root.
  have huntouched := h.untouched 0 (by decide)
  rw [huntouched.find?_eq] at hfind
  have hnone := (huntouched.declarations_eq _ _ hfind).trans declarations_opened
  obtain ⟨declarations, hdeclarations, hbinding⟩ := bind_eq_ok.1 hbinding
  obtain ⟨refs, -, hbinding⟩ := bind_eq_ok.1 hbinding
  rw [hnone] at hdeclarations
  cases hdeclarations
  rw [← Except.ok.inj hbinding]
  rfl

/-- The two scopes around the layer bind what they were opened with, or what they took over. -/
theorem outerLayers_of_settle :
    tree.OuterLayers (final.graph.keepsModule 0 final.isModule generated) := by
  have hcopied : g.Copied 0 tree := ⟨_, htree⟩
  have hsettled := h.settled hg
  have hroot := h.header_eq (s := 0) (by rw [headers_opened]; rfl)
  have hlexical := h.header_eq (s := 1) (by rw [headers_opened]; rfl)
  have hlayer := h.header_eq (s := 2) (by rw [headers_opened]; rfl)
  have htype : ∀ {s scope header}, g.Copied s scope → (final.graph.draft s).header = header →
      scope.type = header.type.shown ∧ scope.name = header.name := by
    intro s scope header hcopied hheader
    rw [hcopied.type_eq, hcopied.name_eq, h.type_settle hg, h.name_settle hg,
      ← hheader]
    exact ⟨rfl, rfl⟩
  have hchildren := hcopied.children
  rw [h.children_settle_root hg] at hchildren
  obtain ⟨lexical, rest, hlexicalCopied, hrest, hkids⟩ := List.forall₂_cons_left_iff.1 hchildren
  rw [List.forall₂_nil_left_iff.1 hrest] at hkids
  refine ⟨htype hcopied hroot, lexical, hkids, (htype hlexicalCopied hlexical).1,
    (htype hlexicalCopied hlexical).2, ?_⟩
  have hgraph := h.settle_eq hg
  cases hkeeps : final.graph.keepsModule 0 final.isModule generated with
  | true =>
    rw [hkeeps, if_pos rfl] at hgraph
    subst hgraph
    have hnames := hlexicalCopied.names_eq
    rw [h.stacked.bindings_lexical] at hnames
    have hinner := hlexicalCopied.children
    rw [h.stacked.children_lexical] at hinner
    obtain ⟨layer, rest, hlayerCopied, hrest, hlayers⟩ := List.forall₂_cons_left_iff.1 hinner
    rw [List.forall₂_nil_left_iff.1 hrest] at hlayers
    exact ⟨host_of_settle_kept hfinal hloc h hg htree hkeeps, List.map_eq_nil_iff.1 hnames,
      layer, hlayers, htype hlayerCopied hlayer⟩
  | false =>
    rw [hkeeps, if_neg Bool.false_ne_true] at hgraph
    subst hgraph
    constructor
    · intro x hx
      obtain ⟨y, hy, -, hbinding⟩ := hcopied.exists_of_mem hx
      have hkind := kind_of_toBinding hbinding
      rw [entry_dissolveLayer] at hkind
      rcases h.stacked.find?_cases (hsettled.find?_of_mem hy) with ⟨-, hheir⟩ | hold
      · -- The root takes over what is neither `let` nor `const`.
        have hnot : final.graph.isLexical y.2 ≠ true := by
          intro hyes
          rw [heir, if_pos hyes] at hheir
          cases hheir
        rw [ne_eq, isLexical_iff, ← hkind, not_or] at hnot
        exact hnot
      · rw [hkind, kind_of_find?_root hfinal hloc h hold]
        exact ⟨by decide, by decide⟩
    · intro x hx
      obtain ⟨y, hy, -, hbinding⟩ := hlexicalCopied.exists_of_mem hx
      have hkind := kind_of_toBinding hbinding
      rw [entry_dissolveLayer] at hkind
      rcases h.stacked.find?_cases (hsettled.find?_of_mem hy) with ⟨-, hheir⟩ | hold
      · rw [hkind, ← isLexical_iff]
        by_contra hnot
        rw [heir, if_neg hnot] at hheir
        cases hheir
      · rw [find?_eq_boundTo, h.stacked.bindings_lexical] at hold
        cases hold

/-- A binding of kind `var` shows where `var` belongs, or in the root in the place of the layer. -/
theorem placesVars_of_settle (hsole : root.SoleProgram) (halias : root.AliasFree)
    (hnumbered : Numbered final.graph (some 2) 3 os final.graph.nextScope) :
    tree.PlacesVars (final.graph.keepsModule 0 final.isModule generated) := by
  intro scope hscope x hx hkind
  obtain ⟨s, hs, hcopied⟩ := exists_of_forall₂_left (forall₂_copied htree).flip hscope
  have hcopied : g.Copied s scope := hcopied
  have hkept := ((h.mem_inside_settle hg hnumbered).1 hs).2
  obtain ⟨y, hy, -, hbinding⟩ := hcopied.exists_of_mem hx
  have hvar := (kind_of_toBinding hbinding).symm.trans hkind
  rw [h.entry_settle hg] at hvar
  have hfind := (h.settled hg).find?_of_mem hy
  rw [hcopied.type_eq, hcopied.name_eq, h.type_settle hg, h.name_settle hg]
  have hown : final.graph.find? s y.1 = some y.2 → s ≠ 2 →
      (final.graph.draft s).type.shown = .function ∨
        (final.graph.draft s).type.shown = .block ∧
          (final.graph.draft s).name = .string "Catch" := by
    intro hfind hne
    rcases scope_of_var hfinal hsole halias hloc h hfind hvar with heq | hfunction | ⟨hblock, hname⟩
    · exact absurd heq hne
    · rw [hfunction]
      exact .inl rfl
    · rw [hblock]
      exact .inr ⟨rfl, hname⟩
  have hgraph := h.settle_eq hg
  cases hkeeps : final.graph.keepsModule 0 final.isModule generated with
  | true =>
    rw [hkeeps, if_pos rfl] at hgraph
    subst hgraph
    rcases Decidable.em (s = 2) with rfl | hne
    · have hlayer := h.header_eq (s := 2) (by rw [headers_opened]; rfl)
      have htype : (final.graph.draft 2).type = .moduleLayer := congrArg Header.type hlayer
      have hname : (final.graph.draft 2).name = .string "Module" := congrArg Header.name hlayer
      rw [htype, hname]
      exact .inr (.inr ⟨rfl, rfl⟩)
    · exact (hown hfind hne).imp_right .inl
  | false =>
    rw [hkeeps, if_neg Bool.false_ne_true] at hgraph
    subst hgraph
    rcases h.stacked.find?_cases hfind with ⟨-, hheir⟩ | hold
    · -- The root takes over the names of kind `var`.
      have hnot : ¬ final.graph.isLexical y.2 := by
        rw [isLexical_iff, hvar]
        decide
      rw [heir, if_neg hnot] at hheir
      have hroot := h.header_eq (s := 0) (by rw [headers_opened]; rfl)
      have htype : (final.graph.draft 0).type = .object := congrArg Header.type hroot
      rw [← hheir, htype]
      exact .inr (.inr rfl)
    · have hne : s ≠ 2 := fun heq => absurd (hkept heq) (by rw [hkeeps]; decide)
      exact (hown hold hne).imp_right .inl

end Settled

end LexicalScopes
