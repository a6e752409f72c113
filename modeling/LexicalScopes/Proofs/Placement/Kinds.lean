import LexicalScopes.Proofs.Placement.Hoisting
import LexicalScopes.Proofs.Run.Bound

/-!
# Where names of kind `var` are bound

Parameters, `var` declarations and functions bind names of kind `var` in functions and in the module
layer, and the parameter of a catch clause in the scope of the clause. No other scope binds such
names, and all scopes inside the module layer are functions or blocks.
-/

namespace LexicalScopes

/-! ## Actions -/

/-- Scopes of this type and name bind names of kind `var`. -/
def ScopeType.takesVars (type : ScopeType) (name : Json) : Bool :=
  type.hoists || decide (type = .block ∧ name = .string "Catch")

namespace Action

/-- Names of kind `var` are declared only in scopes that take them. At first the builder stands in
such a scope if `takes` holds. -/
def placesVars : Bool → List Action → Bool
  | _, [] => true
  | _, .openScope type name _ :: rest => placesVars (type.takesVars name) rest
  | _, .openRoot _ :: rest => placesVars false rest
  | takes, .declare _ .var :: rest => takes && placesVars takes rest
  | takes, _ :: rest => placesVars takes rest

variable {actions rest : List Action} {takes : Bool}

/-- The action neither opens a scope nor declares a name of kind `var` in place. -/
structure IsQuiet (a : Action) : Prop where
  heading : a.heading? = none
  declares : ∀ bound, a ≠ .declare bound .var

theorem placesVars_append_of_quiet (h : ∀ a ∈ actions, a.IsQuiet) :
    placesVars takes (actions ++ rest) = placesVars takes rest := by
  induction actions with
  | nil => rfl
  | cons a actions ih =>
    have ha := h a List.mem_cons_self
    have hrest := ih fun a' ha' => h a' (List.mem_cons_of_mem _ ha')
    cases a with
    | openRoot loc => cases ha.heading
    | openScope type name loc => cases ha.heading
    | declare bound kind =>
      cases kind with
      | var => exact absurd rfl (ha.declares bound)
      | _ => exact hrest
    | _ => exact hrest

theorem placesVars_of_quiet (h : ∀ a ∈ actions, a.IsQuiet) : placesVars takes actions = true := by
  rw [← List.append_nil actions, placesVars_append_of_quiet h]
  rfl

/-- A scope that takes names of kind `var` takes all names. -/
theorem placesVars_true_of_opens (h : Opens actions []) : placesVars true actions = true := by
  have hnone : ∀ a ∈ actions, a.heading? = none := List.filterMap_eq_nil_iff.1 h.headings_eq
  clear h
  induction actions with
  | nil => rfl
  | cons a actions ih =>
    have ha := hnone a List.mem_cons_self
    have hrest := ih fun a' ha' => hnone a' (List.mem_cons_of_mem _ ha')
    cases a with
    | openRoot loc => cases ha
    | openScope type name loc => cases ha
    | declare bound kind =>
      cases kind with
      | var => rw [placesVars, hrest]; rfl
      | _ => exact hrest
    | _ => exact hrest

end Action

/-! ## Handlers -/

section Handlers

open LexicalScopes.Action

variable {n : Node} {p : Path} {actions rest : List Action} {takes : Bool}

theorem placesVars_functionActions (h : p.functionActions = .ok actions) :
    placesVars takes actions = true := by
  obtain ⟨own, hown, h⟩ := bind_eq_ok.1 h
  obtain ⟨name, -, h⟩ := bind_eq_ok.1 h
  obtain ⟨range, -, h⟩ := bind_eq_ok.1 h
  obtain ⟨params, hparams, h⟩ := bind_eq_ok.1 h
  cases h
  have hrest : placesVars true params = true :=
    placesVars_true_of_opens (opens_parameterActions hparams)
  -- The own name is declared before the scope of the function is opened.
  unfold Node.ownNameActions at hown
  split at hown
  · cases hown
    exact hrest
  · split at hown
    · obtain ⟨loc, -, hown⟩ := bind_eq_ok.1 hown
      obtain ⟨bound, -, hown⟩ := bind_eq_ok.1 hown
      cases hown
      exact hrest
    · split at hown
      · obtain ⟨bound, -, hown⟩ := bind_eq_ok.1 hown
        cases hown
        exact hrest
      · cases hown
        exact hrest

theorem placesVars_classActions (h : n.classActions = .ok actions) :
    placesVars takes actions = true := by
  unfold Node.classActions at h
  split at h
  · cases h
    rfl
  · split at h
    · obtain ⟨bound, -, h⟩ := bind_eq_ok.1 h
      obtain ⟨loc, -, h⟩ := bind_eq_ok.1 h
      cases h
      rfl
    · obtain ⟨loc, -, h⟩ := bind_eq_ok.1 h
      obtain ⟨bound, -, h⟩ := bind_eq_ok.1 h
      cases h
      rfl

theorem placesVars_catchActions (h : n.catchActions = .ok actions) :
    placesVars takes actions = true := by
  obtain ⟨loc, -, h⟩ := bind_eq_ok.1 h
  obtain ⟨declared, hdeclared, h⟩ := bind_eq_ok.1 h
  cases h
  have htakes : ScopeType.block.takesVars (.string "Catch") = true := by decide
  change placesVars (ScopeType.block.takesVars (.string "Catch")) declared = true
  rw [htakes]
  exact placesVars_true_of_opens (opens_declareTarget hdeclared)

theorem isQuiet_variableActions (h : n.variableActions = .ok actions) :
    ∀ a ∈ actions, a.IsQuiet := by
  obtain ⟨kind, hkind, -⟩ := bind_eq_ok.1 h
  by_cases hvar : kind = .var
  · subst hvar
    rw [variableActions_of_var hkind] at h
    obtain ⟨names, -, h⟩ := bind_eq_ok.1 h
    cases h
    intro a ha
    obtain ⟨bound, -, rfl⟩ := List.mem_map.1 ha
    exact ⟨rfl, by simp⟩
  · rw [variableActions_eq hkind hvar] at h
    obtain ⟨names, -, h⟩ := bind_eq_ok.1 h
    cases h
    intro a ha
    obtain ⟨bound, -, rfl⟩ := List.mem_map.1 ha
    exact ⟨rfl, by simp [hvar]⟩

theorem isQuiet_importActions (h : n.importActions = .ok actions) : ∀ a ∈ actions, a.IsQuiet := by
  obtain ⟨specifiers, -, h⟩ := bind_eq_ok.1 h
  obtain ⟨declared, hdeclared, h⟩ := bind_eq_ok.1 h
  cases h
  intro a ha
  rcases List.mem_cons.1 ha with rfl | ha
  · exact ⟨rfl, by simp⟩
  · obtain ⟨specifier, -, hspecifier⟩ := exists_of_mem_mapM hdeclared ha
    obtain ⟨name, -, hspecifier⟩ := bind_eq_ok.1 hspecifier
    split at hspecifier
    · obtain ⟨bound, -, hspecifier⟩ := bind_eq_ok.1 hspecifier
      cases hspecifier
      refine ⟨rfl, ?_⟩
      intro bound' heq
      -- An import is a constant or an import.
      injection heq with _ hkind
      split at hkind <;> cases hkind
    · obtain ⟨type, -, hspecifier⟩ := bind_eq_ok.1 hspecifier
      cases hspecifier

theorem placesVars_roleActions (h : p.roleActions = .ok actions) :
    placesVars takes actions = true := by
  unfold Path.roleActions at h
  cases hrole : p.node.role? with
  | none =>
    simp only [hrole] at h
    cases h
    rfl
  | some r =>
    simp only [hrole] at h
    cases r with
    | program =>
      obtain ⟨loc, -, h⟩ := bind_eq_ok.1 h
      cases h
      rfl
    | function => exact placesVars_functionActions h
    | classScope => exact placesVars_classActions h
    | loop =>
      have h : p.node.loopActions = .ok actions := h
      unfold Node.loopActions at h
      dsimp only at h
      split at h
      · obtain ⟨start, -, h⟩ := bind_eq_ok.1 h
        obtain ⟨loc, -, h⟩ := bind_eq_ok.1 h
        cases h
        rfl
      · cases h
        rfl
    | catchClause => exact placesVars_catchActions h
    | block =>
      cases hbody : p.isChildOf NodeType.functions "body" with
      | true =>
        simp only [hbody, if_true] at h
        cases h
        rfl
      | false =>
        simp only [hbody] at h
        obtain ⟨entries, -, h⟩ := bind_eq_ok.1 h
        split at h
        · obtain ⟨loc, -, h⟩ := bind_eq_ok.1 h
          cases h
          rfl
        · cases h
          rfl
    | switch =>
      obtain ⟨cases', -, h⟩ := bind_eq_ok.1 h
      obtain ⟨found, -, h⟩ := bind_eq_ok.1 h
      split at h
      · obtain ⟨loc, -, h⟩ := bind_eq_ok.1 h
        cases h
        rfl
      · cases h
        rfl
    | classField =>
      obtain ⟨loc, -, h⟩ := bind_eq_ok.1 h
      cases h
      rfl
    | «variables» => exact placesVars_of_quiet (isQuiet_variableActions h)
    | imports => exact placesVars_of_quiet (isQuiet_importActions h)
    | exports =>
      cases h
      rfl
    | identifier =>
      have h : p.identifierActions = .ok actions := h
      unfold Path.identifierActions at h
      split at h
      · obtain ⟨name, -, h⟩ := bind_eq_ok.1 h
        cases h
        rfl
      · cases h
        rfl
    | this =>
      cases h
      rfl

/-- A node declares names of kind `var` only in scopes of its own. -/
theorem placesVars_enterActions {b b' : Builder} (h : b.replay p.enterActions = .ok b') :
    placesVars takes p.enterActions = true := by
  have hown : ∀ actions, p.ownActions = .ok actions → placesVars takes actions = true := by
    intro actions hactions
    obtain ⟨field, rest, hfield, hrest, rfl⟩ := exists_of_ownActions hactions
    rcases hfield with ⟨-, rfl⟩ | ⟨-, hfield⟩
    · exact placesVars_roleActions hrest
    · obtain ⟨loc, -, hfield⟩ := bind_eq_ok.1 hfield
      cases hfield
      have hafter : placesVars (ScopeType.function.takesVars (.string "Class Field")) rest = true :=
        placesVars_roleActions hrest
      exact hafter
  cases Builder.enters_of_replay h with
  | program hp hactions hopens henter hexit =>
    rw [henter]
    obtain ⟨loc, -, hactions⟩ := bind_eq_ok.1 hactions
    cases hactions
    rfl
  | through hp hactions hown' henter hexit =>
    rw [henter]
    exact hown _ hactions
  | inside hp hactions hown' henter hexit =>
    rw [henter]
    have hplaces := hown _ hactions
    exact hplaces

end Handlers

/-! ## Graphs -/

namespace Graph

/-- The scope takes names of kind `var`. -/
def takesVars (g : Graph) (s : ScopeId) : Bool := (g.draft s).type.takesVars (g.draft s).name

/-- Names of kind `var` are bound only in scopes that take them. -/
def HoldsVars (g : Graph) : Prop :=
  ∀ s n e, g.find? s n = some e → (g.entry e).kind = .var → g.takesVars s = true

variable {g g' : Graph} {s : ScopeId}

theorem takesVars_of_isHoistTarget (h : g.isHoistTarget s = true) : g.takesVars s = true := by
  rw [isHoistTarget_eq_hoists] at h
  rw [takesVars, ScopeType.takesVars, h, Bool.true_or]

theorem Grows.takesVars_eq (h : Grows g g') (hs : s < g.nextScope) :
    g'.takesVars s = g.takesVars s := by
  have hheader := h.header_eq hs
  have htype : (g'.draft s).type = (g.draft s).type := congrArg Header.type hheader
  have hname : (g'.draft s).name = (g.draft s).name := congrArg Header.name hheader
  rw [takesVars, takesVars, htype, hname]

end Graph

namespace Builder

variable {b b' final : Builder} {a : Action} {actions : List Action} {takes : Bool} {p : Path}
  {root : Node}

/-- There is a target of hoisting around the builder. -/
def HasTarget (b : Builder) : Prop := ∃ t, b.nearest Graph.isHoistTarget = some t

theorem HasTarget.isHoistTarget_varScope {s : ScopeId} (h : b.HasTarget)
    (hs : b.current = some s) : b.graph.isHoistTarget (b.graph.varScope s) = true := by
  obtain ⟨t, ht⟩ := h
  rw [nearest, around, hs] at ht
  rw [Graph.varScope_of_find? ht]
  exact List.find?_some ht

theorem HasTarget.of_does (htarget : b.HasTarget) (h : Does b a b') (hb : b.Sound)
    (ha : a = .mark ∨ a.isPlain = true) : b'.HasTarget := by
  by_cases hopens : a.OpensTarget
  · rw [HasTarget, settles_target.makes hb h hopens]
    obtain ⟨heading, hheading, -⟩ := hopens
    cases h with
    | openRoot loc => exact ⟨_, rfl⟩
    | openScope type name loc => exact ⟨_, rfl⟩
    | _ => cases hheading
  · rw [HasTarget, settles_target.keeps hb h ⟨ha, fun heading hheading => ?_⟩]
    · exact htarget
    · rw [Bool.eq_false_iff]
      exact fun htype => hopens ⟨heading, hheading, htype⟩

/-- An action binds a name of kind `var` in a target of hoisting, or in place. -/
theorem Does.holdsVars (h : Does b a b') (hb : b.Sound)
    (htarget : ∀ bound, a = .hoist bound ∨ a = .declareFunction bound → b.HasTarget)
    (hplace : ∀ bound s, a = .declare bound .var → b.current = some s → b.graph.takesVars s = true)
    (hvars : b.graph.HoldsVars) : b'.graph.HoldsVars := by
  intro s n e hfind hkind
  have hgrows := Graph.Steps.grows (h.sound hb).1 hb.valid
  rcases h.find?_cases hb hfind with hold | ⟨name, kind, hgives, -, hkind'⟩
  · have hs := Graph.lt_of_find? hold
    rw [hgrows.kind e (hb.valid.owns.lt_of_find? s n e hold)] at hkind
    rw [hgrows.takesVars_eq hs]
    exact hvars s n e hold hkind
  · rw [hkind] at hkind'
    cases hgives with
    | declare hs bound kind =>
      subst hkind'
      rw [hgrows.takesVars_eq (hb.current_lt _ hs)]
      exact hplace bound _ rfl hs
    | @hoist u hs bound =>
      rw [hgrows.takesVars_eq (Graph.varScope_lt hb.valid.forest (hb.current_lt _ hs))]
      exact Graph.takesVars_of_isHoistTarget
        ((htarget bound (.inl rfl)).isHoistTarget_varScope hs)
    | declareFunction hs bound =>
      split at hkind'
      · rename_i hself
        have hhoists := (htarget bound (.inr rfl)).isHoistTarget_varScope hs
        rw [hself] at hhoists
        rw [hgrows.takesVars_eq (hb.current_lt _ hs)]
        exact Graph.takesVars_of_isHoistTarget hhoists
      · cases hkind'
    | introduce hs hname => cases hkind'

theorem holdsVars_replay (h : b.replay actions = .ok b') (hb : b.Sound)
    (hactions : ∀ a ∈ actions, a = .mark ∨ a.isPlain = true)
    (htarget : b.HasTarget ∨ ∀ a ∈ actions, ∀ bound, a ≠ .hoist bound ∧ a ≠ .declareFunction bound)
    (hplaces : Action.placesVars takes actions = true)
    (htakes : takes = true → ∀ s, b.current = some s → b.graph.takesVars s = true)
    (hvars : b.graph.HoldsVars) : b'.graph.HoldsVars := by
  induction actions generalizing b takes with
  | nil =>
    cases h
    exact hvars
  | cons a actions ih =>
    obtain ⟨b₁, hdoes, hrest⟩ := replay_cons_cases h
    obtain ⟨hsteps, hb₁⟩ := hdoes.sound hb
    have hplain := hactions a List.mem_cons_self
    have hgrows := Graph.Steps.grows hsteps hb.valid
    have htarget₁ : b₁.HasTarget ∨
        ∀ a ∈ actions, ∀ bound, a ≠ .hoist bound ∧ a ≠ .declareFunction bound :=
      htarget.imp (fun htarget => htarget.of_does hdoes hb hplain)
        fun hnone a' ha' => hnone a' (List.mem_cons_of_mem _ ha')
    have hfirst : b₁.graph.HoldsVars := by
      refine hdoes.holdsVars hb ?_ ?_ hvars
      · intro bound ha
        refine htarget.resolve_right fun hnone => ?_
        have hne := hnone a List.mem_cons_self bound
        exact ha.elim hne.1 hne.2
      · rintro bound s rfl hs
        rw [Action.placesVars, Bool.and_eq_true] at hplaces
        exact htakes hplaces.1 s hs
    -- Where the builder stands afterwards, and whether that scope takes names of kind `var`.
    have hrestActions := fun a' ha' => hactions a' (List.mem_cons_of_mem _ ha')
    have hstays : b₁.current = b.current →
        takes = true → ∀ s, b₁.current = some s → b₁.graph.takesVars s = true := by
      intro hcurrent ht s hs
      rw [hcurrent] at hs
      rw [hgrows.takesVars_eq (hb.current_lt s hs)]
      exact htakes ht s hs
    cases hdoes with
    | openRoot loc =>
      exact ih hrest hb₁ hrestActions htarget₁ hplaces (fun ht => by cases ht) hfirst
    | openScope type name loc =>
      refine ih hrest hb₁ hrestActions htarget₁ hplaces (fun ht s hs => ?_) hfirst
      cases hs
      rw [Graph.takesVars, Builder.openScope, Graph.draft_addScope, if_pos rfl]
      exact ht
    | @declare s hs bound kind =>
      have hlater : Action.placesVars takes actions = true := by
        cases kind with
        | var =>
          rw [Action.placesVars, Bool.and_eq_true] at hplaces
          exact hplaces.2
        | _ => exact hplaces
      exact ih hrest hb₁ hrestActions htarget₁ hlater (hstays rfl) hfirst
    | restore hmarks => rcases hplain with hmark | hmark <;> cases hmark
    | restoreNothing hmarks => rcases hplain with hmark | hmark <;> cases hmark
    | returnToRoot => rcases hplain with hmark | hmark <;> cases hmark
    | _ => exact ih hrest hb₁ hrestActions htarget₁ hplaces (hstays rfl) hfirst

end Builder

end LexicalScopes
