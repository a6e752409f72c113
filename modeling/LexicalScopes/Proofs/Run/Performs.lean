import LexicalScopes.Proofs.Run.Pointer

/-!
# What a node performs

The actions of a node are of a few forms, which its role and its fields decide: it opens scopes over
its own range or a part of it, declares the names of its targets, and at most reads one name.
-/

namespace LexicalScopes

/-! ## Targets -/

/-- The value stands where the node declares names. -/
inductive Node.Target (n : Node) : Json → Prop where
  | name {identifier : Node}
      (hname : n.isAny ["FunctionDeclaration", "FunctionExpression"] = true ∨
        n.role? = some .classScope)
      (h : n.identifier? = some identifier) : Target n (.object identifier)
  | parameter {params : List Json} {param : Json} (hrole : n.role? = some .function)
      (h : (n.get "params").entries = .ok params) (hmem : param ∈ params) : Target n param
  | caught (hrole : n.role? = some .catchClause) : Target n (n.get "param")
  | declarator {declarators : List Json} {declarator target : Json}
      (hrole : n.role? = some .variables)
      (h : (n.get "declarations").entries = .ok declarators) (hmem : declarator ∈ declarators)
      (htarget : Node.declaratorTarget declarator = .ok target) : Target n target
  | specifier {specifiers : List Json} {specifier name : Json} (hrole : n.role? = some .imports)
      (h : (n.get "specifiers").entries = .ok specifiers) (hmem : specifier ∈ specifiers)
      (hname : specifier.field "local" = .ok name) : Target n name

/-- The node declares the name at one of its targets. -/
def Node.Binds (n : Node) (bound : BoundName) : Prop :=
  ∃ target, n.Target target ∧ .ok bound ∈ boundNames target

/-! ## Reads -/

/-- The name that a node reads. -/
def Path.readName? (p : Path) : Option Scalar :=
  if p.node.isAny ["ThisExpression"] then some (.string "this")
  else if p.isReferenced then p.node.scalarName.toOption
  else none

/-- The action reads a name. -/
def Action.reads : Action → Bool
  | .refer _ _ => true
  | _ => false

/-! ## Actions -/

/-- The node has names that the source does not declare. -/
def Path.Introduces (p : Path) : Prop :=
  p.isProgram = true ∨ p.isChildOf NodeType.classFields "value" = true ∨
    p.node.role? = some .program ∨ p.node.role? = some .function ∨
      p.node.role? = some .classField

/-- Everything that entering a node can do. -/
inductive Path.Performs (p : Path) : Action → Prop where
  | mark : Performs p .mark
  | openRoot {loc : Node} (hloc : p.node.loc = .ok loc) : Performs p (.openRoot (.object loc))
  | openScope {loc : Node} (hloc : p.node.loc = .ok loc) (type : ScopeType) (label : String) :
      Performs p (.openScope type (.string label) (.object loc))
  | openFunction {range : Json} (hrole : p.node.role? = some .function)
      (hrange : p.node.functionRange = .ok range) (name : Json) :
      Performs p (.openScope .function name range)
  | openLoop {declaration loc : Node} {start : Json} (hrole : p.node.role? = some .loop)
      (hlexical : p.node.loopHead.isLexicalDeclaration = true)
      (hhead : p.node.loopHead = .object declaration) (hstart : declaration.start = .ok start)
      (hloc : p.node.loc = .ok loc) :
      Performs p (.openScope .block (.string "For") (span start (loc.get "end")))
  | declare {bound : BoundName} (h : p.node.Binds bound) (kind : BindingKind) :
      Performs p (.declare bound kind)
  | hoist {bound : BoundName} (h : p.node.Binds bound) : Performs p (.hoist bound)
  | declareFunction {bound : BoundName} (h : p.node.Binds bound) :
      Performs p (.declareFunction bound)
  | introduce (hplace : p.Introduces) (names : List String) : Performs p (.introduce names)
  | refer {name : Scalar} (h : p.readName? = some name) : Performs p (.refer name p.occurrence)
  | noteModule : Performs p .noteModule

section Handlers

variable {n : Node} {p : Path} {a : Action} {actions : List Action} {bound : BoundName}
  {bounds : List BoundName} {kind : BindingKind} {target : Json} {identifier : Node}

/-! ### Declared names -/

theorem mem_of_mapM_id {xs : List (Except Cause BoundName)} (h : xs.mapM id = .ok bounds)
    (hbound : bound ∈ bounds) : .ok bound ∈ xs := by
  obtain ⟨x, hx, rfl⟩ := exists_of_mem_mapM h hbound
  exact hx

theorem exists_of_declareTarget (h : declareTarget target kind = .ok actions) (ha : a ∈ actions) :
    ∃ bound, a = .declare bound kind ∧ .ok bound ∈ boundNames target := by
  obtain ⟨bounds, hbounds, h⟩ := bind_eq_ok.1 h
  cases h
  obtain ⟨bound, hbound, rfl⟩ := List.mem_map.1 ha
  exact ⟨bound, rfl, mem_of_mapM_id hbounds hbound⟩

theorem exists_of_hoistTarget (h : hoistTarget target = .ok actions) (ha : a ∈ actions) :
    ∃ bound, a = .hoist bound ∧ .ok bound ∈ boundNames target := by
  obtain ⟨bounds, hbounds, h⟩ := bind_eq_ok.1 h
  cases h
  obtain ⟨bound, hbound, rfl⟩ := List.mem_map.1 ha
  exact ⟨bound, rfl, mem_of_mapM_id hbounds hbound⟩

theorem boundNames_identifier (h : identifier.isAny ["Identifier"] = true) :
    boundNames (.object identifier) = [identifier.boundName] := by
  obtain ⟨t, ht, htype⟩ := Node.isAny_iff.1 h
  rw [List.mem_singleton.1 ht] at htype
  simp [boundNames, htype]

theorem object_of_propertySlot {pattern property : Json} {slot : Node}
    (h : propertySlot pattern property = .ok slot) : property = .object slot := by
  unfold propertySlot at h
  split at h
  · cases h
    exact Json.node?_eq_some_iff.1 ‹_›
  · cases h

theorem isAny_of_identifier? (h : n.identifier? = some identifier) :
    n.get "id" = .object identifier ∧ identifier.isAny ["Identifier"] = true := by
  unfold Node.identifier? at h
  split at h
  · rename_i node hnode
    split at h
    · rename_i hany
      cases h
      exact ⟨Json.node?_eq_some_iff.1 hnode, hany⟩
    · cases h
  · cases h

theorem binds_of_identifier?
    (hname : n.isAny ["FunctionDeclaration", "FunctionExpression"] = true ∨
      n.role? = some .classScope)
    (h : n.identifier? = some identifier) (hbound : identifier.boundName = .ok bound) :
    n.Binds bound := by
  refine ⟨.object identifier, .name hname h, ?_⟩
  rw [boundNames_identifier (isAny_of_identifier? h).2, hbound]
  exact List.mem_singleton_self _

/-! ### Actions by role -/

theorem performs_ownNameActions (h : p.node.ownNameActions = .ok actions) :
    ∀ a ∈ actions, p.Performs a := by
  unfold Node.ownNameActions at h
  split at h
  · cases h
    simp
  · rename_i identifier hid
    split at h
    · rename_i htype
      obtain ⟨loc, hloc, h⟩ := bind_eq_ok.1 h
      obtain ⟨bound, hbound, h⟩ := bind_eq_ok.1 h
      cases h
      have hbinds :=
        binds_of_identifier? (.inl (Node.isAny_mono htype (by decide))) hid hbound
      simp [Path.Performs.openScope hloc, Path.Performs.declare hbinds]
    · split at h
      · rename_i htype
        obtain ⟨bound, hbound, h⟩ := bind_eq_ok.1 h
        cases h
        have hbinds :=
          binds_of_identifier? (.inl (Node.isAny_mono htype (by decide))) hid hbound
        simp [Path.Performs.declareFunction hbinds]
      · cases h
        simp

/-- A parameter list declares the names of the parameters and introduces some more. -/
theorem exists_of_parameterActions (h : n.parameterActions = .ok actions) (ha : a ∈ actions) :
    (∃ params param bound, (n.get "params").entries = .ok params ∧ param ∈ params ∧
        a = .declare bound .var ∧ .ok bound ∈ boundNames param) ∨
      ∃ names, a = .introduce names := by
  obtain ⟨params, hparams, h⟩ := bind_eq_ok.1 h
  obtain ⟨declared, hdeclared, h⟩ := bind_eq_ok.1 h
  cases h
  rcases List.mem_append.1 ha with ha | ha
  · obtain ⟨actions, hactions, ha⟩ := List.mem_flatten.1 ha
    obtain ⟨param, hparam, hdeclare⟩ := exists_of_mem_mapM hdeclared hactions
    obtain ⟨bound, rfl, hbound⟩ := exists_of_declareTarget hdeclare ha
    exact .inl ⟨params, param, bound, hparams, hparam, rfl, hbound⟩
  · split at ha
    · cases ha
    · exact .inr ⟨_, List.mem_singleton.1 ha⟩

theorem performs_functionActions (hrole : p.node.role? = some .function)
    (h : p.functionActions = .ok actions) : ∀ a ∈ actions, p.Performs a := by
  obtain ⟨own, hown, h⟩ := bind_eq_ok.1 h
  obtain ⟨name, -, h⟩ := bind_eq_ok.1 h
  obtain ⟨range, hrange, h⟩ := bind_eq_ok.1 h
  obtain ⟨params, hparams, h⟩ := bind_eq_ok.1 h
  cases h
  intro a ha
  rcases List.mem_append.1 ha with ha | ha
  · exact performs_ownNameActions hown a ha
  · rcases List.mem_cons.1 ha with rfl | ha
    · exact .openFunction hrole hrange name
    · rcases exists_of_parameterActions hparams ha with
        ⟨params, param, bound, hentries, hparam, rfl, hbound⟩ | ⟨names, rfl⟩
      · exact .declare ⟨param, .parameter hrole hentries hparam, hbound⟩ .var
      · exact .introduce (.inr (.inr (.inr (.inl hrole)))) names

theorem performs_classActions (hrole : p.node.role? = some .classScope)
    (h : p.node.classActions = .ok actions) : ∀ a ∈ actions, p.Performs a := by
  unfold Node.classActions at h
  split at h
  · cases h
    simp
  · rename_i identifier hid
    split at h
    · obtain ⟨bound, hbound, h⟩ := bind_eq_ok.1 h
      obtain ⟨loc, hloc, h⟩ := bind_eq_ok.1 h
      cases h
      have hbinds := binds_of_identifier? (.inr hrole) hid hbound
      simp [Path.Performs.openScope hloc, Path.Performs.declare hbinds]
    · obtain ⟨loc, hloc, h⟩ := bind_eq_ok.1 h
      obtain ⟨bound, hbound, h⟩ := bind_eq_ok.1 h
      cases h
      have hbinds := binds_of_identifier? (.inr hrole) hid hbound
      simp [Path.Performs.openScope hloc, Path.Performs.declare hbinds]

theorem performs_loopActions (hrole : p.node.role? = some .loop)
    (h : p.node.loopActions = .ok actions) : ∀ a ∈ actions, p.Performs a := by
  unfold Node.loopActions at h
  dsimp only at h
  split at h
  · rename_i declaration hlexical hhead
    obtain ⟨start, hstart, h⟩ := bind_eq_ok.1 h
    obtain ⟨loc, hloc, h⟩ := bind_eq_ok.1 h
    cases h
    have hobject := Json.node?_eq_some_iff.1 hhead
    simp [Path.Performs.openLoop hrole hlexical hobject hstart hloc]
  · cases h
    simp

theorem performs_catchActions (hrole : p.node.role? = some .catchClause)
    (h : p.node.catchActions = .ok actions) : ∀ a ∈ actions, p.Performs a := by
  obtain ⟨loc, hloc, h⟩ := bind_eq_ok.1 h
  obtain ⟨declared, hdeclared, h⟩ := bind_eq_ok.1 h
  cases h
  intro a ha
  rcases List.mem_cons.1 ha with rfl | ha
  · exact .openScope hloc .block "Catch"
  · obtain ⟨bound, rfl, hbound⟩ := exists_of_declareTarget hdeclared ha
    exact .declare ⟨_, .caught hrole, hbound⟩ .var

theorem performs_blockActions (h : p.node.blockActions = .ok actions) :
    ∀ a ∈ actions, p.Performs a := by
  obtain ⟨entries, -, h⟩ := bind_eq_ok.1 h
  split at h
  · obtain ⟨loc, hloc, h⟩ := bind_eq_ok.1 h
    cases h
    simp [Path.Performs.openScope hloc]
  · cases h
    simp

theorem performs_switchActions (h : p.node.switchActions = .ok actions) :
    ∀ a ∈ actions, p.Performs a := by
  obtain ⟨cases', -, h⟩ := bind_eq_ok.1 h
  obtain ⟨found, -, h⟩ := bind_eq_ok.1 h
  split at h
  · obtain ⟨loc, hloc, h⟩ := bind_eq_ok.1 h
    cases h
    simp [Path.Performs.openScope hloc]
  · cases h
    simp

theorem performs_classFieldActions (hplace : p.Introduces)
    (h : p.node.classFieldActions = .ok actions) : ∀ a ∈ actions, p.Performs a := by
  obtain ⟨loc, hloc, h⟩ := bind_eq_ok.1 h
  cases h
  simp [Path.Performs.openScope hloc, Path.Performs.introduce hplace]

theorem performs_variableActions (hrole : p.node.role? = some .variables)
    (h : p.node.variableActions = .ok actions) : ∀ a ∈ actions, p.Performs a := by
  obtain ⟨kind, -, h⟩ := bind_eq_ok.1 h
  obtain ⟨declarators, hdeclarators, h⟩ := bind_eq_ok.1 h
  obtain ⟨lists, hlists, h⟩ := bind_eq_ok.1 h
  cases h
  intro a ha
  obtain ⟨actions, hactions, ha⟩ := List.mem_flatten.1 ha
  obtain ⟨declarator, hmem, hdeclarator⟩ := exists_of_mem_mapM hlists hactions
  obtain ⟨target, htarget, hdeclare⟩ := bind_eq_ok.1 hdeclarator
  have hplace : p.node.Target target := .declarator hrole hdeclarators hmem htarget
  split at hdeclare
  · obtain ⟨bound, rfl, hbound⟩ := exists_of_hoistTarget hdeclare ha
    exact .hoist ⟨target, hplace, hbound⟩
  · obtain ⟨bound, rfl, hbound⟩ := exists_of_declareTarget hdeclare ha
    exact .declare ⟨target, hplace, hbound⟩ kind

theorem exists_of_specifierAction {specifier : Json} (h : Node.specifierAction specifier = .ok a) :
    ∃ name bound kind, specifier.field "local" = .ok name ∧ .ok bound ∈ boundNames name ∧
      a = .declare bound kind := by
  obtain ⟨name, hname, h⟩ := bind_eq_ok.1 h
  split at h
  · rename_i identifier hany hnode
    obtain ⟨bound, hbound, h⟩ := bind_eq_ok.1 h
    cases h
    rw [Json.node?_eq_some_iff.1 hnode] at hname hany
    refine ⟨_, bound, _, hname, ?_, rfl⟩
    rw [boundNames_identifier hany, hbound]
    exact List.mem_singleton_self _
  · obtain ⟨type, -, h⟩ := bind_eq_ok.1 h
    cases h

theorem performs_importActions (hrole : p.node.role? = some .imports)
    (h : p.node.importActions = .ok actions) : ∀ a ∈ actions, p.Performs a := by
  obtain ⟨specifiers, hspecifiers, h⟩ := bind_eq_ok.1 h
  obtain ⟨declared, hdeclared, h⟩ := bind_eq_ok.1 h
  cases h
  intro a ha
  rcases List.mem_cons.1 ha with rfl | ha
  · exact .noteModule
  · obtain ⟨specifier, hmem, hspecifier⟩ := exists_of_mem_mapM hdeclared ha
    obtain ⟨name, bound, kind, hname, hbound, rfl⟩ := exists_of_specifierAction hspecifier
    exact .declare ⟨name, .specifier hrole hspecifiers hmem hname, hbound⟩ kind

theorem performs_programActions (hplace : p.Introduces)
    (h : p.node.programActions = .ok actions) : ∀ a ∈ actions, p.Performs a := by
  obtain ⟨loc, hloc, h⟩ := bind_eq_ok.1 h
  cases h
  simp [Path.Performs.openRoot hloc, Path.Performs.openScope hloc,
    Path.Performs.introduce hplace]

/-! ### Reads -/

theorem readName?_of_isReferenced {name : Scalar} (hid : p.node.isAny ["Identifier"] = true)
    (href : p.isReferenced = true) (hname : p.node.scalarName = .ok name) :
    p.readName? = some name := by
  have hthis : p.node.isAny ["ThisExpression"] = false := Node.isAny_eq_false hid (by decide)
  simp [Path.readName?, hthis, href, hname, Except.toOption]

theorem readName?_of_role? (hrole : p.node.role? = some .this) :
    p.readName? = some (.string "this") := by
  simp [Path.readName?, Node.isAny_of_role? ["ThisExpression"] (by decide) hrole]

theorem performs_identifierActions (hrole : p.node.role? = some .identifier)
    (h : p.identifierActions = .ok actions) : ∀ a ∈ actions, p.Performs a := by
  unfold Path.identifierActions at h
  split at h
  · rename_i href
    obtain ⟨name, hname, h⟩ := bind_eq_ok.1 h
    cases h
    have hid := Node.isAny_of_role? ["Identifier"] (by decide) hrole
    simp [Path.Performs.refer (readName?_of_isReferenced hid href hname)]
  · cases h
    simp

theorem isAny_of_isReferenced (href : p.isReferenced = true) :
    p.node.isAny ["Identifier"] = true := by
  unfold Path.isReferenced at href
  exact (Bool.and_eq_true_iff.1 href).1

theorem isAny_of_readName? {name : Scalar} (h : p.readName? = some name) :
    p.node.isAny ["ThisExpression", "Identifier"] = true := by
  unfold Path.readName? at h
  split at h
  · exact Node.isAny_mono ‹_› (by decide)
  · split at h
    · exact Node.isAny_mono (isAny_of_isReferenced ‹_›) (by decide)
    · cases h

/-- A node that reads a name does nothing else by its role. -/
theorem roleActions_of_readName? {name : Scalar} (h : p.readName? = some name) :
    p.roleActions = .ok [.refer name p.occurrence] := by
  unfold Path.readName? at h
  split at h
  · rename_i hthis
    cases h
    rw [Path.roleActions, Node.role?_of_isAny (r := .this) (by decide) hthis]
  · split at h
    · rename_i href
      have hid := isAny_of_isReferenced href
      have hname : p.node.scalarName = .ok name := eq_ok_of_toOption h
      rw [Path.roleActions, Node.role?_of_isAny (r := .identifier) (by decide) hid]
      simp only [Path.identifierActions, href, hname, if_true]
      rfl
    · cases h

/-! ### Nodes -/

theorem performs_roleActions (h : p.roleActions = .ok actions) : ∀ a ∈ actions, p.Performs a := by
  unfold Path.roleActions at h
  cases hrole : p.node.role? with
  | none =>
    simp only [hrole] at h
    cases h
    simp
  | some r =>
    simp only [hrole] at h
    cases r with
    | program => exact performs_programActions (.inr (.inr (.inl hrole))) h
    | function => exact performs_functionActions hrole h
    | classScope => exact performs_classActions hrole h
    | loop => exact performs_loopActions hrole h
    | catchClause => exact performs_catchActions hrole h
    | block =>
      cases hbody : p.isChildOf NodeType.functions "body" with
      | true =>
        simp only [hbody, if_true] at h
        cases h
        simp
      | false =>
        simp only [hbody] at h
        exact performs_blockActions h
    | switch => exact performs_switchActions h
    | classField => exact performs_classFieldActions (.inr (.inr (.inr (.inr hrole)))) h
    | «variables» => exact performs_variableActions hrole h
    | imports => exact performs_importActions hrole h
    | exports =>
      cases h
      simp [Path.Performs.noteModule]
    | identifier => exact performs_identifierActions hrole h
    | this =>
      cases h
      simp [Path.Performs.refer (readName?_of_role? hrole)]

/-- The value of a class field first does what the field does. -/
theorem exists_of_ownActions (h : p.ownActions = .ok actions) :
    ∃ field rest, (p.isChildOf NodeType.classFields "value" = false ∧ field = [] ∨
        p.isChildOf NodeType.classFields "value" = true ∧ p.node.classFieldActions = .ok field) ∧
      p.roleActions = .ok rest ∧ actions = field ++ rest := by
  unfold Path.ownActions at h
  cases hplace : p.isChildOf NodeType.classFields "value" with
  | true =>
    simp only [hplace, if_true] at h
    obtain ⟨field, hfield, h⟩ := bind_eq_ok.1 h
    obtain ⟨rest, hrest, h⟩ := bind_eq_ok.1 h
    cases h
    exact ⟨field, rest, .inr ⟨rfl, hfield⟩, hrest, rfl⟩
  | false =>
    simp only [hplace] at h
    obtain ⟨field, hfield, h⟩ := bind_eq_ok.1 h
    obtain ⟨rest, hrest, h⟩ := bind_eq_ok.1 h
    cases hfield
    cases h
    exact ⟨[], rest, .inl ⟨rfl, rfl⟩, hrest, rfl⟩

theorem performs_ownActions (h : p.ownActions = .ok actions) : ∀ a ∈ actions, p.Performs a := by
  obtain ⟨field, rest, hfield, hrest, rfl⟩ := exists_of_ownActions h
  intro a ha
  rcases List.mem_append.1 ha with ha | ha
  · rcases hfield with ⟨-, rfl⟩ | ⟨hplace, hfield⟩
    · cases ha
    · exact performs_classFieldActions (.inr (.inl hplace)) hfield a ha
  · exact performs_roleActions hrest a ha

/-- A node that is entered without a fault performs nothing else. -/
theorem performs_enterActions {b b' : Builder} (h : b.replay p.enterActions = .ok b') :
    ∀ a ∈ p.enterActions, p.Performs a := by
  cases Builder.enters_of_replay h with
  | program hp hactions hopens henter hexit =>
    rw [henter]
    exact performs_programActions (.inl hp) hactions
  | through hp hactions hown henter hexit =>
    rw [henter]
    exact performs_ownActions hactions
  | inside hp hactions hown henter hexit =>
    rw [henter]
    intro a ha
    rcases List.mem_cons.1 ha with rfl | ha
    · exact .mark
    · exact performs_ownActions hactions a ha

/-- A node reads its name last, and nothing else. -/
theorem enterActions_of_readName? {b b' : Builder} {name : Scalar} (hname : p.readName? = some name)
    (h : b.replay p.enterActions = .ok b') :
    ∃ first, p.enterActions = first ++ [.refer name p.occurrence] ∧
      ∀ a ∈ first, a.reads = false := by
  have hrole := roleActions_of_readName? hname
  -- As the value of a class field the node first opens a scope.
  have hown : ∀ actions, p.ownActions = .ok actions →
      ∃ first, actions = first ++ [.refer name p.occurrence] ∧ ∀ a ∈ first, a.reads = false := by
    intro actions hactions
    obtain ⟨field, rest, hfield, hrest, rfl⟩ := exists_of_ownActions hactions
    rw [hrole] at hrest
    cases hrest
    refine ⟨field, rfl, ?_⟩
    rcases hfield with ⟨-, rfl⟩ | ⟨-, hfield⟩
    · simp
    · obtain ⟨loc, -, hfield⟩ := bind_eq_ok.1 hfield
      cases hfield
      simp [Action.reads]
  cases Builder.enters_of_replay h with
  | program hp hactions hopens henter hexit =>
    rw [Path.isProgram, Node.isAny_eq_false (isAny_of_readName? hname) (by decide)] at hp
    cases hp
  | through hp hactions hown' henter hexit =>
    rw [henter]
    exact hown _ hactions
  | inside hp hactions hown' henter hexit =>
    obtain ⟨first, hfirst, hreads⟩ := hown _ hactions
    rw [henter, hfirst]
    refine ⟨.mark :: first, rfl, ?_⟩
    intro a ha
    rcases List.mem_cons.1 ha with rfl | ha
    · rfl
    · exact hreads a ha

end Handlers

end LexicalScopes
