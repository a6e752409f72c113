import LexicalScopes.Proofs.BlockScopes
import LexicalScopes.Proofs.Run.Home

/-!
# Hoisting

A `var` declaration declares its names in the innermost scope around it that is a function or the
module layer. This is the scope of the nearest function or value of a class field around the
declaration, or the module layer of the program.
-/

namespace LexicalScopes

/-! ## Targets -/

/-- Scopes of this type are targets of hoisting. -/
def ScopeType.hoists : ScopeType → Bool
  | .function => true
  | .moduleLayer => true
  | _ => false

theorem Graph.isHoistTarget_eq_hoists (g : Graph) (s : ScopeId) :
    g.isHoistTarget s = (g.draft s).type.hoists := by
  rw [isHoistTarget]
  cases (g.draft s).type <;> rfl

theorem Graph.Grows.isHoistTarget_eq {g g' : Graph} {s : ScopeId} (h : Grows g g')
    (hs : s < g.nextScope) : g'.isHoistTarget s = g.isHoistTarget s := by
  have hheader := congrArg Header.type (h.header_eq hs)
  simp only [Graph.isHoistTarget_eq_hoists]
  exact congrArg ScopeType.hoists hheader

/-- Where a target is around the scope, `var` belongs to the innermost one. -/
theorem Graph.varScope_of_find? {g : Graph} {s t : ScopeId}
    (h : (g.chain s).find? g.isHoistTarget = some t) : g.varScope s = t := by
  rw [varScope, h, Option.getD_some]

namespace Action

/-- The action opens a target of hoisting. -/
def OpensTarget (a : Action) : Prop := ∃ heading, a.heading? = some heading ∧
  heading.type.hoists = true

/-- The action does not go back and opens no target of hoisting. -/
structure KeepsTarget (a : Action) : Prop where
  place : a = .mark ∨ a.isPlain = true
  heading : ∀ heading, a.heading? = some heading → heading.type.hoists = false

theorem KeepsTarget.of_not_opens {a : Action} (hplain : a.isPlain = true)
    (ha : a.heading? = none) : a.KeepsTarget :=
  ⟨.inr hplain, fun heading h => by rw [ha] at h; cases h⟩

end Action

namespace Builder

variable {b b' : Builder} {a : Action}

/-- A new scope is the nearest target if its type is one. -/
theorem nearest_target_openScope (hb : b.Sound) (type : ScopeType) (name loc : Json) :
    (b.openScope type name loc).nearest Graph.isHoistTarget =
      if type.hoists then some b.graph.nextScope else b.nearest Graph.isHoistTarget := by
  have hgrows := Graph.Steps.grows (hb.openScope type name loc).1 hb.valid
  rw [nearest_openScope hb type name loc fun s hs =>
    hgrows.isHoistTarget_eq (mem_around_lt hb hs)]
  rw [Graph.isHoistTarget_eq_hoists, Builder.openScope, Graph.draft_addScope, if_pos rfl]

theorem settles_target :
    Settles Graph.isHoistTarget Action.OpensTarget Action.KeepsTarget where
  makes {b a b'} hb hdoes ha := by
    obtain ⟨heading, hheading, htype⟩ := ha
    cases hdoes with
    | openRoot loc =>
      cases hheading
      cases htype
    | openScope type name loc =>
      cases hheading
      rw [nearest_target_openScope hb, htype, if_pos rfl]
      rfl
    | _ => cases hheading
  keeps {b a b'} hb hdoes ha := by
    rcases ha.place with rfl | hplain
    · cases hdoes
      rfl
    cases hheading : a.heading? with
    | none =>
      have hopens : a.opens = false := by rw [Action.opens_eq_isSome_heading?, hheading]; rfl
      have haround := hdoes.around_of_isPlain hplain hb
      rw [hopens] at haround
      have hgrows := Graph.Steps.grows (hdoes.sound hb).1 hb.valid
      exact nearest_congr haround fun s hs => hgrows.isHoistTarget_eq (mem_around_lt hb hs)
    | some heading =>
      have htype := ha.heading heading hheading
      cases hdoes with
      | openRoot loc =>
        have h := nearest_target_openScope hb .object (.string "Global") loc
        exact h
      | openScope type name loc =>
        cases hheading
        rw [nearest_target_openScope hb, htype]
        rfl
      | _ => cases hheading

end Builder

/-! ## Nodes -/

section Nodes

variable {root : Node} {p : Path} {actions : List Action} {headings : List Heading}

theorem keepsTarget_of_opens (h : Opens actions headings)
    (htype : ∀ heading ∈ headings, heading.type.hoists = false) :
    ∀ a ∈ actions, a.KeepsTarget := by
  intro a ha
  refine ⟨.inr (h.plain a ha), fun heading hheading => htype heading ?_⟩
  rw [← h.headings_eq]
  exact List.mem_filterMap.2 ⟨a, ha, hheading⟩

/-- The scopes of all nodes but functions are blocks. -/
theorem type_of_typeScopes (halias : p.node.isAny NodeType.aliases = false)
    (hfunction : p.node.isAny NodeType.functions = false) (h : p.typeScopes = .ok headings) :
    ∀ heading ∈ headings, heading.type = .block := by
  rw [typeScopes_eq halias] at h
  cases hrole : p.node.role? with
  | none =>
    simp only [hrole] at h
    cases h
    simp
  | some r =>
    simp only [hrole] at h
    cases r with
    | function =>
      rw [Node.isAny_eq_decide_role? NodeType.functions .function halias (by decide) (by decide),
        hrole, decide_eq_true rfl] at hfunction
      cases hfunction
    | loop => exact type_of_loopScopes h
    | classScope => exact type_of_coveringIf h
    | catchClause => exact type_of_coveringIf h
    | block => exact type_of_coveringIf h
    | switch => exact type_of_coveringIf h
    | _ =>
      cases h
      simp

/-- A function makes its own scope the nearest target. -/
theorem makesTarget_functionActions (h : p.functionActions = .ok actions) :
    ∃ k, actions.countP Action.opens = k + 1 ∧
      Builder.Makes Action.OpensTarget Action.KeepsTarget actions k := by
  obtain ⟨own, hown, h⟩ := bind_eq_ok.1 h
  obtain ⟨name, -, h⟩ := bind_eq_ok.1 h
  obtain ⟨range, -, h⟩ := bind_eq_ok.1 h
  obtain ⟨params, hparams, h⟩ := bind_eq_ok.1 h
  cases h
  obtain ⟨wrapper, -, hopens⟩ := opens_ownNameActions hown
  have hrest := opens_parameterActions hparams
  have hzero : params.countP Action.opens = 0 := by rw [hrest.countP_eq, List.length_nil]
  refine ⟨own.countP Action.opens, ?_, own, .openScope .function name range, params, rfl,
    ⟨_, rfl, rfl⟩, keepsTarget_of_opens hrest (by simp), ?_, ?_⟩
  · rw [List.countP_append, List.countP_cons, hzero]
    rfl
  · intro a ha
    rcases List.mem_append.1 ha with ha | ha
    · exact hopens.plain a ha
    · rw [List.mem_singleton.1 ha]
      rfl
  · rw [List.countP_append]
    rfl

/-- The nearest target is that of the nearest program, function or value of a class field. -/
theorem houses_target (halias : p.node.isAny NodeType.aliases = false) :
    Builder.Houses NodeType.functions Action.OpensTarget Action.KeepsTarget p where
  mark := ⟨.inl rfl, by simp [Action.heading?]⟩
  program actions _ h := by
    obtain ⟨loc, -, h⟩ := bind_eq_ok.1 h
    cases h
    refine ⟨2, rfl, [.openRoot (.object loc), .introduce Graph.hostNames,
      .openScope .block (.string "Lexical Global") (.object loc)],
      .openScope .moduleLayer (.string "Module") (.object loc), [.introduce ["this"]], rfl,
      ⟨_, rfl, rfl⟩, ?_, by simp [Action.isPlain], rfl⟩
    intro a ha
    rw [List.mem_singleton.1 ha]
    exact .of_not_opens rfl rfl
  function actions hfunction h := by
    rw [Path.roleActions, Node.role?_of_isAny (r := .function) (by decide) hfunction] at h
    exact makesTarget_functionActions h
  field actions h := by
    obtain ⟨loc, -, h⟩ := bind_eq_ok.1 h
    cases h
    refine ⟨[], .openScope .function (.string "Class Field") (.object loc),
      [.introduce ["this", "arguments"]], rfl, ⟨_, rfl, rfl⟩, ?_, by simp [Action.isPlain], rfl⟩
    intro a ha
    rw [List.mem_singleton.1 ha]
    exact .of_not_opens rfl rfl
  other actions hprogram hfunction h _ := by
    obtain ⟨headings, hcontributes⟩ := contributes_roleActions h
    refine keepsTarget_of_opens hcontributes.opens fun heading hheading => ?_
    rw [type_of_typeScopes halias hfunction (hcontributes.scopes_eq halias) heading hheading]
    rfl

/-! ## Declarations with `var` -/

/-- A `var` declaration hoists its names. -/
theorem variableActions_of_var {n : Node} (hkind : n.declarationKind = .ok .var) :
    n.variableActions = n.variableNames >>= fun names => .ok (names.map .hoist) := by
  unfold Node.variableActions Node.variableNames
  rw [hkind, ok_bind]
  cases (n.get "declarations").entries with
  | error fault => rfl
  | ok declarators =>
    rw [ok_bind, ok_bind, mapM_map_eq (f := Node.targetNames) (List.map .hoist)]
    · cases declarators.mapM Node.targetNames with
      | error fault => rfl
      | ok names =>
        simp only [ok_bind]
        rw [← List.map_flatten]
        rfl
    · intro declarator
      unfold Node.targetNames
      cases Node.declaratorTarget declarator with
      | error fault => rfl
      | ok target =>
        rw [ok_bind, ok_bind, if_pos rfl]
        rfl

/-- Entering a `var` declaration hoists its names and does nothing afterwards. -/
theorem exists_hoists_of_enter {b b' : Builder} (h : b.replay p.enterActions = .ok b')
    (htype : p.node.isAny ["VariableDeclaration"] = true)
    (hkind : p.node.declarationKind = .ok .var) :
    ∃ names first, p.node.variableNames = .ok names ∧
      p.enterActions = first ++ names.map .hoist := by
  have hown : ∀ actions, p.ownActions = .ok actions →
      ∃ names first, p.node.variableNames = .ok names ∧ actions = first ++ names.map .hoist := by
    intro actions hactions
    obtain ⟨field, rest, -, hrest, rfl⟩ := exists_of_ownActions hactions
    rw [Path.roleActions, Node.role?_of_isAny (r := .variables) (by decide) htype] at hrest
    have hrest : p.node.variableActions = .ok rest := hrest
    rw [variableActions_of_var hkind] at hrest
    obtain ⟨names, hnames, hrest⟩ := bind_eq_ok.1 hrest
    cases hrest
    exact ⟨names, field, hnames, rfl⟩
  cases Builder.enters_of_replay h with
  | program hp hactions hopens henter hexit =>
    rw [Path.isProgram, Node.isAny_eq_false htype (by decide)] at hp
    cases hp
  | through hp hactions hown' henter hexit =>
    rw [henter]
    exact hown _ hactions
  | inside hp hactions hown' henter hexit =>
    obtain ⟨names, first, hnames, hactions⟩ := hown _ hactions
    exact ⟨names, .mark :: first, hnames, by rw [henter, hactions]; rfl⟩

end Nodes

/-- A name that is hoisted is declared in the nearest target. -/
theorem Builder.declares_of_hoist {before after : Builder} {final : Graph}
    {first rest : List Action} {bound : BoundName} {home : ScopeId}
    (h : before.replay (first ++ .hoist bound :: rest) = .ok after) (hb : before.Sound)
    (hrest : ∀ a ∈ rest, a.KeepsTarget)
    (hhome : after.nearest Graph.isHoistTarget = some home)
    (hgrows : Graph.Grows after.graph final) :
    Graph.Declares before.graph after.graph final home bound := by
  rw [replay_append] at h
  obtain ⟨b₁, hfirst, h⟩ := bind_eq_ok.1 h
  obtain ⟨b₂, hdoes, hlast⟩ := replay_cons_cases h
  have hb₁ := (replay_sound hfirst hb).2
  have hb₂ := (hdoes.sound hb₁).2
  rw [settles_target.keeps_replay hlast hb₂ hrest,
    settles_target.keeps hb₁ hdoes (.of_not_opens rfl rfl)] at hhome
  have hlater := replay_grows hlast hb₂
  cases hdoes with
  | @hoist s hs bound =>
    rw [nearest, around, hs] at hhome
    have hscope : b₁.graph.varScope s = home := Graph.varScope_of_find? hhome
    have hlt := Graph.varScope_lt hb₁.valid.forest (hb₁.current_lt s hs)
    rw [hscope] at hlt hlater
    rw [hscope] at hb₂
    have hdeclares : Graph.Declares b₁.graph (b₁.graph.declare home bound.name .var bound.loc)
        final home bound := Graph.declares_declare hb₁.valid hlt (hlater.trans hgrows)
    exact hdeclares.mono (replay_grows hfirst hb) hlater

section Visits

variable {root : Node} {past : List Event} {around : List ScopeId} {home : Option ScopeId}
  {p : Path} {before after final : Builder}

/-- The nearest target of hoisting is the home of the node. -/
theorem Housed.nearest_target (h : Housed root NodeType.functions past home p)
    (hsole : root.SoleProgram) (halias : root.AliasFree)
    (hpasses : Passes past p before after final) :
    after.nearest Graph.isHoistTarget = home :=
  h.nearest_after hsole hpasses Builder.settles_target (fun q hq => houses_target (halias q hq))
    fun _ _ _ _ hb hrun _ hs => (Builder.replay_grows hrun hb).isHoistTarget_eq hs

/-- Functions and values of class fields have targets of their own. -/
theorem Housed.eq_own_target (h : Housed root NodeType.functions past home p)
    (halias : root.AliasFree) (hpasses : Passes past p before after final)
    (hhome : p.isHome NodeType.functions = true) : home = p.home? NodeType.functions past := by
  obtain ⟨around, hvisit⟩ := h.exists_visit
  exact h.eq_own (houses_target (halias p hvisit.mem_descendants)) hpasses hhome

/-- A `var` declaration declares all its names in its home. -/
theorem Visit.exists_declares_var (h : Visit root past around p)
    (htype : p.node.isAny ["VariableDeclaration"] = true)
    (hkind : p.node.declarationKind = .ok .var) (hfinal : collect (.object root) = .ok final)
    (hsole : root.SoleProgram) (halias : root.AliasFree)
    (hpasses : Passes past p before after final) :
    ∃ home names, Housed root NodeType.functions past (some home) p ∧ 2 ≤ home ∧
      p.node.variableNames = .ok names ∧
      ∀ bound ∈ names, Graph.Declares before.graph after.graph final.graph home bound := by
  obtain ⟨home, hhoused⟩ := h.exists_housed NodeType.functions
  obtain ⟨s, rfl, hle⟩ := hhoused.exists_home hfinal
  obtain ⟨names, first, hnames, hactions⟩ :=
    exists_hoists_of_enter hpasses.run_enter htype hkind
  refine ⟨s, names, hhoused, hle, hnames, fun bound hbound => ?_⟩
  obtain ⟨some', more, rfl⟩ := List.append_of_mem hbound
  have hreplay := hpasses.run_enter
  rw [hactions, List.map_append, List.map_cons, ← List.append_assoc] at hreplay
  refine Builder.declares_of_hoist hreplay hpasses.sound_before ?_
    (hhoused.nearest_target hsole halias hpasses) hpasses.grows_rest
  intro a ha
  obtain ⟨other, -, rfl⟩ := List.mem_map.1 ha
  exact .of_not_opens rfl rfl

end Visits

end LexicalScopes
