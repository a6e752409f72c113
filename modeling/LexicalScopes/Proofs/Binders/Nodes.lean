import LexicalScopes.Proofs.Binders.Patterns
import LexicalScopes.Proofs.Run.Later

/-!
# Identifiers that a node declares

Entering a node declares the names of some identifiers below it: those that the patterns of its
declarators, of its parameters or of a catch clause bind, the local names of an import, and the name
of a function or a class. A class declaration declares its name twice, around its scope and in it.
-/

namespace LexicalScopes

namespace Path

variable {p q c : Path} {n identifier : Node} {j target : Json} {key : String}
  {types : List String} {actions : List Action} {declared : List BoundName} {kind : BindingKind}

/-- The identifier that names a function or a class. -/
def ownName (p : Path) : List Path := (p.single "id").filter fun q => q.node.isAny ["Identifier"]

/-- The identifiers that the patterns in a field of listed nodes bind. -/
def boundIn (p : Path) (key sub : String) : List Path :=
  (p.items key).flatMap fun entry => (entry.single sub).flatMap bound

/-- The identifiers whose names a node declares, each as often as it does. -/
def binders (p : Path) : List Path :=
  if p.node.isAny ["VariableDeclaration"] then p.boundIn "declarations" "id"
  else if p.node.isAny NodeType.functions then
    (if p.node.isAny ["FunctionDeclaration", "FunctionExpression"] then p.ownName else []) ++
      (p.items "params").flatMap bound
  else if p.node.isAny ["CatchClause"] then (p.single "param").flatMap bound
  else if p.node.isAny ["ImportDeclaration"] then p.boundIn "specifiers" "local"
  else if p.node.isAny ["ClassDeclaration"] then p.ownName ++ p.ownName
  else if p.node.isAny ["ClassExpression"] then p.ownName
  else []

/-! ## Targets -/

theorem eq_map_of_mapM_id {xs : List (Except Cause BoundName)} (h : xs.mapM id = .ok declared) :
    xs = declared.map .ok := by
  have hall := mapM_eq_ok.1 h
  induction hall with
  | nil => rfl
  | cons hx hrest ih =>
    rw [List.map_cons, ← ih (mapM_eq_ok.2 hrest)]
    exact congrArg (· :: _) hx

/-- The names that some actions declare, as names that are read. -/
def declaredBy (actions : List Action) : List (Except Cause BoundName) :=
  (actions.filterMap Action.declared?).map .ok

@[simp] theorem declaredBy_nil : declaredBy [] = [] := rfl

@[simp] theorem declaredBy_append {actions rest : List Action} :
    declaredBy (actions ++ rest) = declaredBy actions ++ declaredBy rest := by
  simp [declaredBy]

theorem exists_of_mem_declaredBy {x : Except Cause BoundName} (h : x ∈ declaredBy actions) :
    ∃ b, x = .ok b := by
  obtain ⟨b, -, rfl⟩ := List.mem_map.1 h
  exact ⟨b, rfl⟩

theorem declaredBy_of_declareTarget (h : declareTarget target kind = .ok actions) :
    boundNames target = declaredBy actions := by
  obtain ⟨declared, hdeclared, h⟩ := bind_eq_ok.1 h
  cases h
  rw [eq_map_of_mapM_id hdeclared, declaredBy, List.filterMap_map]
  simp [Function.comp_def, Action.declared?]

theorem declaredBy_of_hoistTarget (h : hoistTarget target = .ok actions) :
    boundNames target = declaredBy actions := by
  obtain ⟨declared, hdeclared, h⟩ := bind_eq_ok.1 h
  cases h
  rw [eq_map_of_mapM_id hdeclared, declaredBy, List.filterMap_map]
  simp [Function.comp_def, Action.declared?]

/-- The entries of a list declare their names one after the other. -/
theorem declaredBy_flatten {f : Json → List (Except Cause BoundName)} {entries : List Json}
    {lists : List (List Action)}
    (h : List.Forall₂ (fun entry actions => f entry = declaredBy actions) entries lists) :
    entries.flatMap f = declaredBy lists.flatten := by
  induction h with
  | nil => rfl
  | cons hfirst _ ih =>
    rw [List.flatMap_cons, List.flatten_cons, declaredBy_append, hfirst, ih]

/-! ## Identifiers of a field -/

/-- The names of the identifiers at some paths. -/
def boundNamesAt (ps : List Path) : List (Except Cause BoundName) :=
  ps.map fun q => q.node.boundName

@[simp] theorem boundNamesAt_append {ps qs : List Path} :
    boundNamesAt (ps ++ qs) = boundNamesAt ps ++ boundNamesAt qs := by
  simp [boundNamesAt]

/-- Patterns bind the names of their identifiers. -/
theorem boundNamesAt_bound {ps : List Path} (hplain : ∀ c ∈ ps, c.BindsPlainly)
    (hsound : ∀ x ∈ ps.flatMap (fun c => boundNames (.object c.node)), ∃ b, x = .ok b) :
    boundNamesAt (ps.flatMap bound) = ps.flatMap fun c => boundNames (.object c.node) := by
  rw [boundNamesAt, List.map_flatMap]
  refine List.flatMap_congr fun c hc => ?_
  exact (boundNames_eq_map_bound (hplain c hc)
    fun x hx => hsound x (List.mem_flatMap.2 ⟨c, hc, hx⟩)).symm

theorem BindsPlainly.of_mem_single (hplain : p.BindsPlainly) (htype : p.node.isAny types = true)
    (hfield : ∀ t ∈ types, (NodeType.childFields.lookup t).any (·.contains key) = true)
    (hc : c ∈ p.single key) : c.BindsPlainly :=
  hplain.of_mem_descendants (mem_descendants_of_mem_kids
    (mem_kids_of_mem_inField htype hfield (mem_inField_of_mem_single hc)))

theorem BindsPlainly.of_mem_items (hplain : p.BindsPlainly) (htype : p.node.isAny types = true)
    (hfield : ∀ t ∈ types, (NodeType.childFields.lookup t).any (·.contains key) = true)
    (hc : c ∈ p.items key) : c.BindsPlainly :=
  hplain.of_mem_descendants (mem_descendants_of_mem_kids
    (mem_kids_of_mem_inField htype hfield (mem_inField_of_mem_items hc)))

/-- The pattern in a field binds the names of its identifiers. -/
theorem boundNamesAt_single (hplain : p.BindsPlainly) (htype : p.node.isAny types = true)
    (hfield : ∀ t ∈ types, (NodeType.childFields.lookup t).any (·.contains key) = true)
    (hsound : ∀ x ∈ boundNames (p.node.get key), ∃ b, x = .ok b) :
    boundNamesAt ((p.single key).flatMap bound) = boundNames (p.node.get key) := by
  rw [boundNames_get] at hsound ⊢
  exact boundNamesAt_bound (fun c hc => hplain.of_mem_single htype hfield hc) hsound

theorem ownName_of_identifier? (h : p.node.identifier? = some identifier) :
    boundNamesAt p.ownName = [identifier.boundName] := by
  obtain ⟨hget, hid⟩ := isAny_of_identifier? h
  have htyped := Node.has_type_of_isAny hid
  simp [ownName, single, hget, child?_of_has htyped, hid, boundNamesAt]

theorem ownName_of_none (h : p.node.identifier? = none) : p.ownName = [] := by
  unfold Node.identifier? at h
  rw [ownName, List.filter_eq_nil_iff]
  intro c hc
  unfold single at hc
  split at hc
  · rename_i m hm
    rw [List.mem_singleton.1 hc, node_child]
    rw [Json.eq_object_of_child? hm] at h
    simpa [Json.node?] using h
  · cases hc

/-- The patterns in a field of listed nodes bind the names of their identifiers. -/
theorem boundNamesAt_boundIn {allowed : List String} {sub : String} {entries : List Json}
    {lists : List (List Action)} (hplain : p.BindsPlainly)
    (hbinding : (types, key, allowed) ∈ Node.bindingFields) (htype : p.node.isAny types = true)
    (hfield : ∀ t ∈ types, (NodeType.childFields.lookup t).any (·.contains key) = true)
    (hsub : ∀ t ∈ allowed, (NodeType.childFields.lookup t).any (·.contains sub) = true)
    (hentries : (p.node.get key).entries = .ok entries)
    (hlists : List.Forall₂ (fun entry actions => ∃ target, entry.field sub = .ok target ∧
      boundNames target = declaredBy actions) entries lists) :
    boundNamesAt (p.boundIn key sub) = declaredBy lists.flatten := by
  have hnode := hplain p List.mem_cons_self
  have hentries := readable_eq_ok.1 hentries
  have hnames : (p.items key).flatMap (fun c => boundNames (c.node.get sub)) =
      declaredBy lists.flatten := by
    rw [← flatMap_items (f := fun entry => entry.child?.toList.flatMap fun n =>
      boundNames (n.get sub)) hentries fun _ _ => rfl]
    refine declaredBy_flatten (((List.forall₂_and_left _ _).2 ⟨fun _ h => h, hlists⟩).imp ?_)
    rintro entry actions ⟨hentry, target, htarget, hdeclared⟩
    obtain ⟨n, hn, hget⟩ := Option.map_eq_some_iff.1 (readable_eq_ok.1 htarget)
    rw [Json.node?_eq_some_iff.1 hn] at hentry ⊢
    -- The entry is a typed node, so it is visited.
    have hallowed := Node.isAny_of_bindsPlainly hnode hbinding htype
      (Node.mem_parts_of_entries? hentries hentry)
    simp [child?_of_has (Node.has_type_of_isAny hallowed), hget, hdeclared]
  rw [← hnames, boundNamesAt, boundIn, List.map_flatMap]
  refine List.flatMap_congr fun c hc => ?_
  have hallowed := Node.isAny_of_bindsPlainly hnode hbinding htype
    (mem_parts_of_mem_inField (mem_inField_of_mem_items hc))
  refine boundNamesAt_single (hplain.of_mem_items htype hfield hc) hallowed hsub fun x hx => ?_
  have hmem : x ∈ (p.items key).flatMap fun c => boundNames (c.node.get sub) :=
    List.mem_flatMap.2 ⟨c, hc, hx⟩
  rw [hnames] at hmem
  exact exists_of_mem_declaredBy hmem

/-! ## Nodes -/

section Handlers

variable (hplain : p.BindsPlainly)

include hplain

theorem boundNamesAt_variables (htype : p.node.isAny ["VariableDeclaration"] = true)
    (h : p.node.variableActions = .ok actions) :
    boundNamesAt (p.boundIn "declarations" "id") = declaredBy actions := by
  obtain ⟨kind, -, h⟩ := bind_eq_ok.1 h
  obtain ⟨declarators, hdeclarators, h⟩ := bind_eq_ok.1 h
  obtain ⟨lists, hlists, h⟩ := bind_eq_ok.1 h
  cases h
  have hbinding : (["VariableDeclaration"], "declarations", ["VariableDeclarator"]) ∈
      Node.bindingFields := by decide
  refine boundNamesAt_boundIn hplain hbinding htype (by decide) (by decide) hdeclarators
    ((mapM_eq_ok.1 hlists).imp ?_)
  intro declarator actions hactions
  obtain ⟨target, htarget, hactions⟩ := bind_eq_ok.1 hactions
  refine ⟨target, field_of_declaratorTarget htarget, ?_⟩
  split at hactions
  · exact declaredBy_of_hoistTarget hactions
  · exact declaredBy_of_declareTarget hactions

theorem boundNamesAt_imports (htype : p.node.isAny ["ImportDeclaration"] = true)
    (h : p.node.importActions = .ok actions) :
    boundNamesAt (p.boundIn "specifiers" "local") = declaredBy actions := by
  obtain ⟨specifiers, hspecifiers, h⟩ := bind_eq_ok.1 h
  obtain ⟨declared, hdeclared, h⟩ := bind_eq_ok.1 h
  cases h
  have hlists : declared = (declared.map fun a => [a]).flatten := by
    rw [← List.flatMap_def, List.flatMap_singleton']
  have hnote : declaredBy (.noteModule :: declared) = declaredBy declared := rfl
  rw [hnote, hlists]
  have hbinding : (["ImportDeclaration"], "specifiers",
      ["ImportSpecifier", "ImportDefaultSpecifier", "ImportNamespaceSpecifier"]) ∈
        Node.bindingFields := by decide
  refine boundNamesAt_boundIn hplain hbinding htype (by decide) (by decide) hspecifiers
    (List.forall₂_map_right_iff.2 ((mapM_eq_ok.1 hdeclared).imp ?_))
  intro specifier a ha
  obtain ⟨name, hname, ha⟩ := bind_eq_ok.1 ha
  refine ⟨name, hname, ?_⟩
  split at ha
  · rename_i identifier hid hnode
    obtain ⟨bound, hbound, ha⟩ := bind_eq_ok.1 ha
    cases ha
    rw [Json.node?_eq_some_iff.1 hnode] at hid ⊢
    rw [boundNames_identifier hid, hbound]
    rfl
  · obtain ⟨type, -, ha⟩ := bind_eq_ok.1 ha
    cases ha

theorem boundNamesAt_catch (htype : p.node.isAny ["CatchClause"] = true)
    (h : p.node.catchActions = .ok actions) :
    boundNamesAt ((p.single "param").flatMap bound) = declaredBy actions := by
  obtain ⟨loc, -, h⟩ := bind_eq_ok.1 h
  obtain ⟨declared, hdeclared, h⟩ := bind_eq_ok.1 h
  cases h
  have hnames : boundNames (p.node.get "param") = declaredBy declared :=
    declaredBy_of_declareTarget hdeclared
  have hopen : ∀ loc, declaredBy (.openScope .block (.string "Catch") loc :: declared) =
      declaredBy declared := fun _ => rfl
  rw [hopen, ← hnames]
  refine boundNamesAt_single hplain htype (by decide) fun x hx => ?_
  rw [hnames] at hx
  exact exists_of_mem_declaredBy hx

omit hplain in
/-- A function declares its own name if it is a declaration or an expression. -/
theorem boundNamesAt_ownName (h : p.node.ownNameActions = .ok actions) :
    boundNamesAt (if p.node.isAny ["FunctionDeclaration", "FunctionExpression"] then p.ownName
      else []) = declaredBy actions := by
  have hsplit : p.node.isAny (["FunctionDeclaration"] ++ ["FunctionExpression"]) =
      (p.node.isAny ["FunctionDeclaration"] || p.node.isAny ["FunctionExpression"]) :=
    Node.isAny_append
  rw [List.singleton_append] at hsplit
  unfold Node.ownNameActions at h
  split at h
  · rename_i hnone
    cases h
    rw [ownName_of_none hnone]
    split <;> rfl
  · rename_i identifier hid
    have hown := ownName_of_identifier? hid
    split at h
    · rename_i htype
      obtain ⟨loc, -, h⟩ := bind_eq_ok.1 h
      obtain ⟨bound, hbound, h⟩ := bind_eq_ok.1 h
      cases h
      rw [hsplit, htype, Bool.or_true, if_pos rfl, hown, hbound]
      rfl
    · rename_i hexpression
      split at h
      · rename_i htype
        obtain ⟨bound, hbound, h⟩ := bind_eq_ok.1 h
        cases h
        rw [hsplit, htype, Bool.true_or, if_pos rfl, hown, hbound]
        rfl
      · rename_i hdeclaration
        cases h
        rw [hsplit, Bool.eq_false_iff.2 hexpression, Bool.eq_false_iff.2 hdeclaration]
        rfl

theorem boundNamesAt_params (htype : p.node.isAny NodeType.functions = true)
    (h : p.node.parameterActions = .ok actions) :
    boundNamesAt ((p.items "params").flatMap bound) = declaredBy actions := by
  obtain ⟨params, hparams, h⟩ := bind_eq_ok.1 h
  obtain ⟨lists, hlists, h⟩ := bind_eq_ok.1 h
  cases h
  have hnames : (p.items "params").flatMap (fun c => boundNames (.object c.node)) =
      declaredBy lists.flatten := by
    rw [← flatMap_items (f := boundNames) (readable_eq_ok.1 hparams)
      fun param _ => boundNames_eq_of_child? param]
    exact declaredBy_flatten ((mapM_eq_ok.1 hlists).imp fun _ _ => declaredBy_of_declareTarget)
  have hintroduced : declaredBy (if p.node.isAny ["ArrowFunctionExpression"] then []
      else [.introduce ["this", "arguments"]]) = [] := by
    split <;> rfl
  rw [declaredBy_append, hintroduced, List.append_nil, ← hnames]
  refine boundNamesAt_bound (fun c hc => hplain.of_mem_items htype (by decide) hc) fun x hx => ?_
  rw [hnames] at hx
  exact exists_of_mem_declaredBy hx

theorem boundNamesAt_function (htype : p.node.isAny NodeType.functions = true)
    (h : p.functionActions = .ok actions) :
    boundNamesAt ((if p.node.isAny ["FunctionDeclaration", "FunctionExpression"] then p.ownName
      else []) ++ (p.items "params").flatMap bound) = declaredBy actions := by
  obtain ⟨own, hown, h⟩ := bind_eq_ok.1 h
  obtain ⟨name, -, h⟩ := bind_eq_ok.1 h
  obtain ⟨range, -, h⟩ := bind_eq_ok.1 h
  obtain ⟨params, hparams, h⟩ := bind_eq_ok.1 h
  cases h
  rw [boundNamesAt_append, boundNamesAt_ownName hown, boundNamesAt_params hplain htype hparams,
    declaredBy_append]
  rfl

end Handlers

/-- A class declares its name in its scope, and a declaration also declares it around it. -/
theorem boundNamesAt_class (htype : p.node.isAny NodeType.classes = true)
    (h : p.node.classActions = .ok actions) :
    boundNamesAt (if p.node.isAny ["ClassDeclaration"] then p.ownName ++ p.ownName
      else if p.node.isAny ["ClassExpression"] then p.ownName else []) = declaredBy actions := by
  have hsplit : p.node.isAny (["ClassDeclaration"] ++ ["ClassExpression"]) =
      (p.node.isAny ["ClassDeclaration"] || p.node.isAny ["ClassExpression"]) := Node.isAny_append
  have hclasses : NodeType.classes = ["ClassDeclaration"] ++ ["ClassExpression"] := rfl
  rw [hclasses, hsplit] at htype
  unfold Node.classActions at h
  split at h
  · rename_i hnone
    cases h
    rw [ownName_of_none hnone]
    split
    · rfl
    · split <;> rfl
  · rename_i identifier hid
    have hown := ownName_of_identifier? hid
    split at h
    · rename_i hdeclaration
      obtain ⟨bound, hbound, h⟩ := bind_eq_ok.1 h
      obtain ⟨loc, -, h⟩ := bind_eq_ok.1 h
      cases h
      rw [if_pos hdeclaration, boundNamesAt_append, hown, hbound]
      rfl
    · rename_i hdeclaration
      obtain ⟨loc, -, h⟩ := bind_eq_ok.1 h
      obtain ⟨bound, hbound, h⟩ := bind_eq_ok.1 h
      cases h
      rw [Bool.eq_false_iff.2 hdeclaration, Bool.false_or] at htype
      rw [if_neg hdeclaration, if_pos htype, hown, hbound]
      rfl

end Path

end LexicalScopes
