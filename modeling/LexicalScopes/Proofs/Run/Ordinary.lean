import LexicalScopes.Proofs.Run.Performs

/-!
# Ordinary actions

Most nodes only open scopes, declare names of the source and read them. The others are few:
programs, functions and class fields introduce names that the source does not declare, and imports
and exports note that it is a module.
-/

namespace LexicalScopes

namespace Action

/-- The action makes implicit bindings. -/
def makesImplicit : Action → Bool
  | .introduce _ => true
  | .declare _ .implicit => true
  | _ => false

/-- The action notes that the source is a module. -/
def notesModule : Action → Bool
  | .noteModule => true
  | _ => false

/-- The action neither makes implicit bindings nor notes that the source is a module. -/
def isOrdinary (a : Action) : Bool := !a.makesImplicit && !a.notesModule

variable {a : Action} {bound : BoundName} {kind : BindingKind}

theorem isOrdinary_declare (h : kind ≠ .implicit) : (declare bound kind).isOrdinary = true := by
  cases kind with
  | implicit => exact absurd rfl h
  | _ => rfl

theorem ne_implicit_of_declare (h : (declare bound kind).makesImplicit = false) :
    kind ≠ .implicit := by
  rintro rfl
  cases h

theorem makesImplicit_of_isOrdinary (h : a.isOrdinary = true) : a.makesImplicit = false := by
  simpa using (Bool.and_eq_true_iff.1 h).1

theorem notesModule_of_isOrdinary (h : a.isOrdinary = true) : a.notesModule = false := by
  simpa using (Bool.and_eq_true_iff.1 h).2

end Action

section Handlers

variable {n : Node} {p : Path} {actions : List Action} {target : Json} {kind : BindingKind}

theorem ordinary_declareTarget (hkind : kind ≠ .implicit)
    (h : declareTarget target kind = .ok actions) : ∀ a ∈ actions, a.isOrdinary = true := by
  intro a ha
  obtain ⟨bound, rfl, -⟩ := exists_of_declareTarget h ha
  exact Action.isOrdinary_declare hkind

theorem ordinary_hoistTarget (h : hoistTarget target = .ok actions) :
    ∀ a ∈ actions, a.isOrdinary = true := by
  intro a ha
  obtain ⟨bound, rfl, -⟩ := exists_of_hoistTarget h ha
  rfl

/-- No variable declaration declares its names as implicit. -/
theorem ne_implicit_of_declarationKind (h : n.declarationKind = .ok kind) : kind ≠ .implicit := by
  have htable : ∀ x ∈ declarationKinds, x.2 ≠ .implicit := by decide
  unfold Node.declarationKind at h
  split at h
  · split at h
    · rename_i k hlookup
      cases h
      obtain ⟨before, after, hsplit, -⟩ := List.lookup_eq_some_iff.1 hlookup
      exact htable _ (hsplit ▸ List.mem_append_right _ List.mem_cons_self)
    · cases h
  · cases h
  · cases h

theorem ordinary_variableActions (h : n.variableActions = .ok actions) :
    ∀ a ∈ actions, a.isOrdinary = true := by
  obtain ⟨kind, hkind, h⟩ := bind_eq_ok.1 h
  obtain ⟨declarators, -, h⟩ := bind_eq_ok.1 h
  obtain ⟨lists, hlists, h⟩ := bind_eq_ok.1 h
  cases h
  intro a ha
  obtain ⟨actions, hactions, ha⟩ := List.mem_flatten.1 ha
  obtain ⟨declarator, -, hdeclarator⟩ := exists_of_mem_mapM hlists hactions
  obtain ⟨target, -, hdeclare⟩ := bind_eq_ok.1 hdeclarator
  split at hdeclare
  · exact ordinary_hoistTarget hdeclare a ha
  · exact ordinary_declareTarget (ne_implicit_of_declarationKind hkind) hdeclare a ha

theorem ordinary_ownNameActions (h : n.ownNameActions = .ok actions) :
    ∀ a ∈ actions, a.isOrdinary = true := by
  unfold Node.ownNameActions at h
  split at h
  · cases h
    simp
  · split at h
    · obtain ⟨loc, -, h⟩ := bind_eq_ok.1 h
      obtain ⟨bound, -, h⟩ := bind_eq_ok.1 h
      cases h
      simp [Action.isOrdinary, Action.makesImplicit, Action.notesModule]
    · split at h
      · obtain ⟨bound, -, h⟩ := bind_eq_ok.1 h
        cases h
        simp [Action.isOrdinary, Action.makesImplicit, Action.notesModule]
      · cases h
        simp

theorem ordinary_classActions (h : n.classActions = .ok actions) :
    ∀ a ∈ actions, a.isOrdinary = true := by
  unfold Node.classActions at h
  split at h
  · cases h
    simp
  · split at h
    · obtain ⟨bound, -, h⟩ := bind_eq_ok.1 h
      obtain ⟨loc, -, h⟩ := bind_eq_ok.1 h
      cases h
      simp [Action.isOrdinary, Action.makesImplicit, Action.notesModule]
    · obtain ⟨loc, -, h⟩ := bind_eq_ok.1 h
      obtain ⟨bound, -, h⟩ := bind_eq_ok.1 h
      cases h
      simp [Action.isOrdinary, Action.makesImplicit, Action.notesModule]

theorem ordinary_loopActions (h : n.loopActions = .ok actions) :
    ∀ a ∈ actions, a.isOrdinary = true := by
  unfold Node.loopActions at h
  dsimp only at h
  split at h
  · obtain ⟨start, -, h⟩ := bind_eq_ok.1 h
    obtain ⟨loc, -, h⟩ := bind_eq_ok.1 h
    cases h
    simp [Action.isOrdinary, Action.makesImplicit, Action.notesModule]
  · cases h
    simp

theorem ordinary_catchActions (h : n.catchActions = .ok actions) :
    ∀ a ∈ actions, a.isOrdinary = true := by
  obtain ⟨loc, -, h⟩ := bind_eq_ok.1 h
  obtain ⟨declared, hdeclared, h⟩ := bind_eq_ok.1 h
  cases h
  exact List.forall_mem_cons.2 ⟨rfl, ordinary_declareTarget (by decide) hdeclared⟩

theorem ordinary_blockActions (h : n.blockActions = .ok actions) :
    ∀ a ∈ actions, a.isOrdinary = true := by
  obtain ⟨entries, -, h⟩ := bind_eq_ok.1 h
  split at h
  · obtain ⟨loc, -, h⟩ := bind_eq_ok.1 h
    cases h
    simp [Action.isOrdinary, Action.makesImplicit, Action.notesModule]
  · cases h
    simp

theorem ordinary_switchActions (h : n.switchActions = .ok actions) :
    ∀ a ∈ actions, a.isOrdinary = true := by
  obtain ⟨cases', -, h⟩ := bind_eq_ok.1 h
  obtain ⟨found, -, h⟩ := bind_eq_ok.1 h
  split at h
  · obtain ⟨loc, -, h⟩ := bind_eq_ok.1 h
    cases h
    simp [Action.isOrdinary, Action.makesImplicit, Action.notesModule]
  · cases h
    simp

theorem ordinary_identifierActions (h : p.identifierActions = .ok actions) :
    ∀ a ∈ actions, a.isOrdinary = true := by
  unfold Path.identifierActions at h
  split at h
  · obtain ⟨name, -, h⟩ := bind_eq_ok.1 h
    cases h
    simp [Action.isOrdinary, Action.makesImplicit, Action.notesModule]
  · cases h
    simp

/-- After the note that the source is a module, an import declares its names. -/
theorem exists_of_importActions (h : n.importActions = .ok actions) :
    ∃ declared, actions = .noteModule :: declared ∧ ∀ a ∈ declared, a.isOrdinary = true := by
  obtain ⟨specifiers, -, h⟩ := bind_eq_ok.1 h
  obtain ⟨declared, hdeclared, h⟩ := bind_eq_ok.1 h
  cases h
  refine ⟨declared, rfl, fun a ha => ?_⟩
  obtain ⟨specifier, -, hspecifier⟩ := exists_of_mem_mapM hdeclared ha
  obtain ⟨name, -, hspecifier⟩ := bind_eq_ok.1 hspecifier
  split at hspecifier
  · obtain ⟨bound, -, hspecifier⟩ := bind_eq_ok.1 hspecifier
    cases hspecifier
    split <;> rfl
  · obtain ⟨type, -, hspecifier⟩ := bind_eq_ok.1 hspecifier
    cases hspecifier

/-- The parts of what a function does: its own name, its scope, its parameters, and the names that
it introduces unless it is an arrow function. -/
theorem exists_of_functionActions (h : p.functionActions = .ok actions) :
    ∃ own name range params lists, p.node.ownNameActions = .ok own ∧
      (p.node.get "params").entries = .ok params ∧
      params.mapM (declareTarget · .var) = .ok lists ∧
      actions = own ++ .openScope .function name range :: (lists.flatten ++
        if p.node.isAny ["ArrowFunctionExpression"] then []
        else [.introduce ["this", "arguments"]]) := by
  obtain ⟨own, hown, h⟩ := bind_eq_ok.1 h
  obtain ⟨name, -, h⟩ := bind_eq_ok.1 h
  obtain ⟨range, -, h⟩ := bind_eq_ok.1 h
  obtain ⟨declared, hdeclared, h⟩ := bind_eq_ok.1 h
  cases h
  obtain ⟨params, hparams, hdeclared⟩ := bind_eq_ok.1 hdeclared
  obtain ⟨lists, hlists, hdeclared⟩ := bind_eq_ok.1 hdeclared
  cases hdeclared
  exact ⟨own, name, range, params, lists, hown, hparams, hlists, rfl⟩

theorem ordinary_parameters {params : List Json} {lists : List (List Action)}
    (h : params.mapM (declareTarget · .var) = .ok lists) :
    ∀ a ∈ lists.flatten, a.isOrdinary = true := by
  intro a ha
  obtain ⟨actions, hactions, ha⟩ := List.mem_flatten.1 ha
  obtain ⟨param, -, hparam⟩ := exists_of_mem_mapM h hactions
  exact ordinary_declareTarget (by decide) hparam a ha

/-- The roles of nodes that do more than open scopes, declare names and read them. -/
def Role.special : List Role := [.program, .function, .classField, .imports, .exports]

/-- All other nodes perform ordinary actions. -/
theorem ordinary_roleActions (h : p.roleActions = .ok actions)
    (hrole : ∀ r ∈ Role.special, p.node.role? ≠ some r) : ∀ a ∈ actions, a.isOrdinary = true := by
  unfold Path.roleActions at h
  cases hown : p.node.role? with
  | none =>
    rw [hown] at h
    cases h
    simp
  | some r =>
    rw [hown] at h hrole
    cases r with
    | program => exact absurd rfl (hrole _ (by decide))
    | function => exact absurd rfl (hrole _ (by decide))
    | classField => exact absurd rfl (hrole _ (by decide))
    | imports => exact absurd rfl (hrole _ (by decide))
    | exports => exact absurd rfl (hrole _ (by decide))
    | classScope => exact ordinary_classActions h
    | loop => exact ordinary_loopActions h
    | catchClause => exact ordinary_catchActions h
    | block =>
      dsimp only at h
      split at h
      · cases h
        simp
      · exact ordinary_blockActions h
    | switch => exact ordinary_switchActions h
    | «variables» => exact ordinary_variableActions h
    | identifier => exact ordinary_identifierActions h
    | this =>
      cases h
      simp [Action.isOrdinary, Action.makesImplicit, Action.notesModule]

/-- Only programs, functions and class fields make implicit bindings. -/
theorem makesImplicit_roleActions (h : p.roleActions = .ok actions)
    (hprogram : p.node.role? ≠ some .program) (hfunction : p.node.role? ≠ some .function)
    (hfield : p.node.role? ≠ some .classField) : ∀ a ∈ actions, a.makesImplicit = false := by
  have hactions := h
  rw [Path.roleActions] at hactions
  by_cases himports : p.node.role? = some .imports
  · rw [himports] at hactions
    obtain ⟨declared, rfl, hdeclared⟩ := exists_of_importActions hactions
    exact List.forall_mem_cons.2 ⟨rfl, fun a ha =>
      Action.makesImplicit_of_isOrdinary (hdeclared a ha)⟩
  · by_cases hexports : p.node.role? = some .exports
    · rw [hexports] at hactions
      cases hactions
      exact List.forall_mem_singleton.2 rfl
    · have hrole : ∀ r ∈ Role.special, p.node.role? ≠ some r := by
        simp [Role.special, hprogram, hfunction, hfield, himports, hexports]
      exact fun a ha => Action.makesImplicit_of_isOrdinary (ordinary_roleActions h hrole a ha)

end Handlers

end LexicalScopes
