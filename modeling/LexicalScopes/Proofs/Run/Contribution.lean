import LexicalScopes.Proofs.Run.Replay

/-!
# The scopes that a node contributes

Which scopes a node adds to the tree of scopes depends on its type, on its place and on the
declarations that stand directly in it. The actions of a node open exactly these scopes, in this
order, and do not go back by themselves.
-/

namespace LexicalScopes

/-! ## Contributed scopes -/

/-- A scope without the names it binds and without its place among the other scopes. -/
structure Heading where
  type : ScopeType
  name : Json
  loc : Json
deriving DecidableEq

/-- Loops with a head that can declare names. -/
def NodeType.loops : List String := ["ForStatement", "ForInStatement", "ForOfStatement"]

namespace Node

/-- The function or class has an identifier for a name. -/
def isNamed (n : Node) : Bool := (n.get "id").isAny ["Identifier"]

/-- A scope that covers the whole node. -/
def covering (n : Node) (type : ScopeType) (label : String) : Except Cause Heading := do
  return ⟨type, .string label, .object (← n.loc)⟩

/-- A scope that covers the whole node, if there is a reason for one. -/
def coveringIf (n : Node) (reason : Bool) (type : ScopeType) (label : String) :
    Except Cause (List Heading) := do
  if reason then return [← n.covering type label] else return []

/-- The scope of a loop reaches from its head to its end. -/
def loopScopes (n : Node) : Except Cause (List Heading) := do
  match n.loopHead.isLexicalDeclaration, n.loopHead.node? with
  | true, some declaration =>
    let start ← declaration.start
    return [⟨.block, .string "For", span start ((← n.loc).get "end")⟩]
  | _, _ => return []

/-- The statements that stand directly in a block. -/
def statements (n : Node) : List Json := (n.get "body").entries?.getD []

/-- The statements that stand directly in a case. -/
def caseStatements (case : Json) : List Json :=
  ((case.field? "consequent").bind Json.entries?).getD []

/-- The statements that stand directly in the cases of a switch. -/
def switchStatements (n : Node) : List Json :=
  ((n.get "cases").entries?.getD []).flatMap caseStatements

end Node

namespace Path

/-- A function has a scope of its own, and a named function expression another one around it. -/
def functionScopes (p : Path) : Except Cause (List Heading) := do
  let wrapper ← p.node.coveringIf (p.node.isAny ["FunctionExpression"] && p.node.isNamed)
    .block "Function Expression"
  return wrapper ++ [⟨.function, ← p.functionName, ← p.node.functionRange⟩]

/-- The scopes that a node contributes by its type, the outermost first. -/
def typeScopes (p : Path) : Except Cause (List Heading) :=
  let n := p.node
  if n.isAny NodeType.functions then p.functionScopes
  else if n.isAny NodeType.classes then n.coveringIf n.isNamed .block "Class"
  else if n.isAny NodeType.loops then n.loopScopes
  else if n.isAny ["CatchClause"] then n.coveringIf true .block "Catch"
  else if n.isAny ["BlockStatement"] then
    n.coveringIf (!p.isChildOf NodeType.functions "body"
      && n.statements.any Json.declaresInBlock) .block "Block"
  else if n.isAny ["SwitchStatement"] then
    n.coveringIf (n.switchStatements.any Json.isLexicalDeclaration) .block "Switch"
  else return []

/-- The scopes that a node contributes, the outermost first. The value of a class field has a scope
around its own scopes. -/
def contributed (p : Path) : Except Cause (List Heading) := do
  let field ← p.node.coveringIf (p.isChildOf NodeType.classFields "value") .function "Class Field"
  return field ++ (← p.typeScopes)

end Path

/-! ## Opened scopes -/

namespace Action

/-- The scope that an action opens. -/
def heading? : Action → Option Heading
  | .openRoot loc => some ⟨.object, .string "Global", loc⟩
  | .openScope type name loc => some ⟨type, name, loc⟩
  | _ => none

theorem opens_eq_isSome_heading? (a : Action) : a.opens = a.heading?.isSome := by
  cases a <;> rfl

theorem countP_opens (actions : List Action) :
    actions.countP opens = (actions.filterMap heading?).length := by
  induction actions with
  | nil => rfl
  | cons a actions ih =>
    rw [List.countP_cons, List.filterMap_cons, ih, opens_eq_isSome_heading?]
    cases a.heading? <;> rfl

end Action

/-- The actions open these scopes in this order, and none of them goes back. -/
structure Opens (actions : List Action) (headings : List Heading) : Prop where
  plain : ∀ a ∈ actions, a.isPlain = true
  headings_eq : actions.filterMap Action.heading? = headings

namespace Opens

variable {actions rest : List Action} {headings more : List Heading}

theorem nil : Opens [] [] := ⟨by simp, rfl⟩

theorem append (h : Opens actions headings) (h' : Opens rest more) :
    Opens (actions ++ rest) (headings ++ more) where
  plain a ha := by
    rcases List.mem_append.1 ha with ha | ha
    · exact h.plain a ha
    · exact h'.plain a ha
  headings_eq := by rw [List.filterMap_append, h.headings_eq, h'.headings_eq]

theorem openScope (h : Opens actions headings) (type : ScopeType) (name loc : Json) :
    Opens (.openScope type name loc :: actions) (⟨type, name, loc⟩ :: headings) where
  plain a ha := by
    rcases List.mem_cons.1 ha with rfl | ha
    · rfl
    · exact h.plain a ha
  headings_eq := by
    rw [List.filterMap_cons, h.headings_eq]
    rfl

/-- Actions that only declare, introduce, read or note something open nothing. -/
theorem of_forall (h : ∀ a ∈ actions, a.isPlain = true ∧ a.heading? = none) : Opens actions [] where
  plain a ha := (h a ha).1
  headings_eq := List.filterMap_eq_nil_iff.2 fun a ha => (h a ha).2

end Opens

theorem opens_declareTarget {target : Json} {kind : BindingKind} {actions : List Action}
    (h : declareTarget target kind = .ok actions) : Opens actions [] := by
  obtain ⟨bounds, -, h⟩ := bind_eq_ok.1 h
  cases h
  apply Opens.of_forall
  intro a ha
  obtain ⟨bound, -, rfl⟩ := List.mem_map.1 ha
  exact ⟨rfl, rfl⟩

theorem opens_hoistTarget {target : Json} {actions : List Action}
    (h : hoistTarget target = .ok actions) : Opens actions [] := by
  obtain ⟨bounds, -, h⟩ := bind_eq_ok.1 h
  cases h
  apply Opens.of_forall
  intro a ha
  obtain ⟨bound, -, rfl⟩ := List.mem_map.1 ha
  exact ⟨rfl, rfl⟩

theorem opens_flatten {lists : List (List Action)} (h : ∀ actions ∈ lists, Opens actions []) :
    Opens lists.flatten [] := by
  induction lists with
  | nil => exact .nil
  | cons actions lists ih =>
    exact (h actions List.mem_cons_self).append
      (ih fun actions' h' => h actions' (List.mem_cons_of_mem _ h'))

/-! ## What the actions of a node open -/

section Handlers

variable {n : Node} {p : Path} {actions : List Action} {type : ScopeType} {label : String}

theorem Node.coveringIf_true {loc : Node} (h : n.loc = .ok loc) :
    n.coveringIf true type label = .ok [⟨type, .string label, .object loc⟩] := by
  rw [coveringIf, if_pos rfl, covering, h]
  rfl

theorem Node.coveringIf_false : n.coveringIf false type label = .ok [] := rfl

theorem Node.isNamed_eq : n.isNamed = n.identifier?.isSome := by
  unfold isNamed identifier? Json.isAny
  cases (n.get "id").node? with
  | none => rfl
  | some identifier => cases h : identifier.isAny ["Identifier"] <;> simp [h]

theorem opens_classActions (h : n.classActions = .ok actions) :
    ∃ headings, n.coveringIf n.isNamed .block "Class" = .ok headings ∧ Opens actions headings := by
  rw [Node.isNamed_eq]
  unfold Node.classActions at h
  cases hid : n.identifier? with
  | none =>
    simp only [hid] at h
    cases h
    exact ⟨[], Node.coveringIf_false, .nil⟩
  | some identifier =>
    simp only [hid] at h
    split at h
    · obtain ⟨bound, -, h⟩ := bind_eq_ok.1 h
      obtain ⟨loc, hloc, h⟩ := bind_eq_ok.1 h
      cases h
      exact ⟨_, Node.coveringIf_true hloc, by simp [Action.isPlain], rfl⟩
    · obtain ⟨loc, hloc, h⟩ := bind_eq_ok.1 h
      obtain ⟨bound, -, h⟩ := bind_eq_ok.1 h
      cases h
      exact ⟨_, Node.coveringIf_true hloc, by simp [Action.isPlain], rfl⟩

theorem opens_loopActions (h : n.loopActions = .ok actions) :
    ∃ headings, n.loopScopes = .ok headings ∧ Opens actions headings := by
  unfold Node.loopActions at h
  dsimp only at h
  split at h
  · rename_i declaration hlexical hhead
    obtain ⟨start, hstart, h⟩ := bind_eq_ok.1 h
    obtain ⟨loc, hloc, h⟩ := bind_eq_ok.1 h
    cases h
    refine ⟨_, ?_, Opens.nil.openScope .block (.string "For") (span start (loc.get "end"))⟩
    rw [Node.loopScopes, hlexical, hhead]
    simp only [hstart, hloc]
    rfl
  · rename_i hnot
    cases h
    refine ⟨[], ?_, .nil⟩
    unfold Node.loopScopes
    split
    · rename_i declaration hlexical hhead
      exact absurd hhead (hnot declaration hlexical)
    · rfl

theorem opens_catchActions (h : n.catchActions = .ok actions) :
    ∃ headings, n.coveringIf true .block "Catch" = .ok headings ∧ Opens actions headings := by
  obtain ⟨loc, hloc, h⟩ := bind_eq_ok.1 h
  obtain ⟨declared, hdeclared, h⟩ := bind_eq_ok.1 h
  cases h
  exact ⟨_, Node.coveringIf_true hloc, (opens_declareTarget hdeclared).openScope _ _ _⟩

theorem opens_blockActions (h : n.blockActions = .ok actions) :
    ∃ headings,
      n.coveringIf (n.statements.any Json.declaresInBlock) .block "Block" = .ok headings ∧
        Opens actions headings := by
  obtain ⟨entries, hentries, h⟩ := bind_eq_ok.1 h
  have hstatements : n.statements = entries := by
    rw [Node.statements, readable_eq_ok.1 hentries]
    rfl
  rw [hstatements]
  split at h
  · rename_i hany
    obtain ⟨loc, hloc, h⟩ := bind_eq_ok.1 h
    cases h
    rw [hany]
    exact ⟨_, Node.coveringIf_true hloc, Opens.nil.openScope _ _ _⟩
  · rename_i hany
    cases h
    rw [Bool.eq_false_iff.2 hany]
    exact ⟨[], Node.coveringIf_false, .nil⟩

/-- The cases are looked at one after the other, but only up to the first that matters. -/
theorem anyLexicalCase_eq_ok {cases : List Json} {found : Bool}
    (h : Node.anyLexicalCase cases = .ok found) :
    (cases.flatMap Node.caseStatements).any Json.isLexicalDeclaration = found := by
  induction cases with
  | nil =>
    cases h
    rfl
  | cons case rest ih =>
    unfold Node.anyLexicalCase at h
    obtain ⟨consequent, hconsequent, h⟩ := bind_eq_ok.1 h
    obtain ⟨statements, hstatements, h⟩ := bind_eq_ok.1 h
    have hcase : Node.caseStatements case = statements := by
      rw [Node.caseStatements, readable_eq_ok.1 hconsequent, Option.bind_some,
        readable_eq_ok.1 hstatements]
      rfl
    rw [List.flatMap_cons, List.any_append, hcase]
    split at h
    · rename_i hany
      cases h
      rw [hany, Bool.true_or]
    · rename_i hany
      rw [Bool.eq_false_iff.2 hany, Bool.false_or]
      exact ih h

theorem opens_switchActions (h : n.switchActions = .ok actions) :
    ∃ headings,
      n.coveringIf (n.switchStatements.any Json.isLexicalDeclaration) .block "Switch"
          = .ok headings ∧ Opens actions headings := by
  obtain ⟨cases', hcases, h⟩ := bind_eq_ok.1 h
  obtain ⟨found, hfound, h⟩ := bind_eq_ok.1 h
  have hstatements : n.switchStatements.any Json.isLexicalDeclaration = found := by
    obtain ⟨entries, hentries, hcases⟩ := bind_eq_ok.1 hcases
    split at hcases
    · cases hcases
      rw [Node.switchStatements, readable_eq_ok.1 hentries]
      exact anyLexicalCase_eq_ok hfound
    · cases hcases
  rw [hstatements]
  cases found with
  | true =>
    obtain ⟨loc, hloc, h⟩ := bind_eq_ok.1 h
    cases h
    exact ⟨_, Node.coveringIf_true hloc, Opens.nil.openScope _ _ _⟩
  | false =>
    cases h
    exact ⟨[], Node.coveringIf_false, .nil⟩

theorem opens_ownNameActions (h : n.ownNameActions = .ok actions) :
    ∃ headings,
      n.coveringIf (n.isAny ["FunctionExpression"] && n.isNamed) .block "Function Expression"
          = .ok headings ∧ Opens actions headings := by
  rw [Node.isNamed_eq]
  unfold Node.ownNameActions at h
  cases hid : n.identifier? with
  | none =>
    simp only [hid] at h
    cases h
    refine ⟨[], ?_, .nil⟩
    rw [Option.isSome_none, Bool.and_false]
    exact Node.coveringIf_false
  | some identifier =>
    simp only [hid] at h
    rw [Option.isSome_some, Bool.and_true]
    split at h
    · rename_i hexpression
      obtain ⟨loc, hloc, h⟩ := bind_eq_ok.1 h
      obtain ⟨bound, -, h⟩ := bind_eq_ok.1 h
      cases h
      rw [hexpression]
      exact ⟨_, Node.coveringIf_true hloc, by simp [Action.isPlain], rfl⟩
    · rename_i hexpression
      rw [Bool.eq_false_iff.2 hexpression]
      refine ⟨[], Node.coveringIf_false, ?_⟩
      split at h
      · obtain ⟨bound, -, h⟩ := bind_eq_ok.1 h
        cases h
        exact ⟨by simp [Action.isPlain], rfl⟩
      · cases h
        exact .nil

theorem opens_parameterActions (h : n.parameterActions = .ok actions) : Opens actions [] := by
  obtain ⟨params, -, h⟩ := bind_eq_ok.1 h
  obtain ⟨declared, hdeclared, h⟩ := bind_eq_ok.1 h
  cases h
  have hparams : Opens declared.flatten [] := by
    apply opens_flatten
    intro actions ha
    obtain ⟨param, -, hparam⟩ := exists_of_mem_mapM hdeclared ha
    exact opens_declareTarget hparam
  refine hparams.append ?_
  split
  · exact .nil
  · exact ⟨by simp [Action.isPlain], rfl⟩

theorem opens_functionActions (h : p.functionActions = .ok actions) :
    ∃ headings, p.functionScopes = .ok headings ∧ Opens actions headings := by
  obtain ⟨own, hown, h⟩ := bind_eq_ok.1 h
  obtain ⟨name, hname, h⟩ := bind_eq_ok.1 h
  obtain ⟨range, hrange, h⟩ := bind_eq_ok.1 h
  obtain ⟨params, hparams, h⟩ := bind_eq_ok.1 h
  cases h
  obtain ⟨wrapper, hwrapper, hopens⟩ := opens_ownNameActions hown
  refine ⟨_, ?_, hopens.append ((opens_parameterActions hparams).openScope .function name range)⟩
  rw [Path.functionScopes, hwrapper, ok_bind, hname, ok_bind, hrange]
  rfl

theorem opens_variableActions (h : n.variableActions = .ok actions) : Opens actions [] := by
  obtain ⟨kind, -, h⟩ := bind_eq_ok.1 h
  obtain ⟨declarators, -, h⟩ := bind_eq_ok.1 h
  obtain ⟨lists, hlists, h⟩ := bind_eq_ok.1 h
  cases h
  apply opens_flatten
  intro actions ha
  obtain ⟨declarator, -, hdeclarator⟩ := exists_of_mem_mapM hlists ha
  obtain ⟨target, -, htarget⟩ := bind_eq_ok.1 hdeclarator
  split at htarget
  · exact opens_hoistTarget htarget
  · exact opens_declareTarget htarget

theorem specifierAction_eq_declare {specifier : Json} {a : Action}
    (h : Node.specifierAction specifier = .ok a) : ∃ bound kind, a = .declare bound kind := by
  obtain ⟨name, -, h⟩ := bind_eq_ok.1 h
  split at h
  · obtain ⟨bound, -, h⟩ := bind_eq_ok.1 h
    cases h
    exact ⟨bound, _, rfl⟩
  · obtain ⟨type, -, h⟩ := bind_eq_ok.1 h
    cases h

theorem opens_importActions (h : n.importActions = .ok actions) : Opens actions [] := by
  obtain ⟨specifiers, -, h⟩ := bind_eq_ok.1 h
  obtain ⟨declared, hdeclared, h⟩ := bind_eq_ok.1 h
  cases h
  apply Opens.of_forall
  intro a ha
  rcases List.mem_cons.1 ha with rfl | ha
  · exact ⟨rfl, rfl⟩
  · obtain ⟨specifier, -, hspecifier⟩ := exists_of_mem_mapM hdeclared ha
    obtain ⟨bound, kind, rfl⟩ := specifierAction_eq_declare hspecifier
    exact ⟨rfl, rfl⟩

theorem opens_identifierActions (h : p.identifierActions = .ok actions) : Opens actions [] := by
  unfold Path.identifierActions at h
  split at h
  · obtain ⟨name, -, h⟩ := bind_eq_ok.1 h
    cases h
    exact ⟨by simp [Action.isPlain], rfl⟩
  · cases h
    exact .nil

theorem opens_classFieldActions (h : n.classFieldActions = .ok actions) :
    ∃ headings, n.coveringIf true .function "Class Field" = .ok headings ∧
      Opens actions headings := by
  obtain ⟨loc, hloc, h⟩ := bind_eq_ok.1 h
  cases h
  exact ⟨_, Node.coveringIf_true hloc, by simp [Action.isPlain], rfl⟩

theorem opens_programActions (h : n.programActions = .ok actions) :
    ∃ loc, n.loc = .ok loc ∧
      Opens actions [⟨.object, .string "Global", .object loc⟩,
        ⟨.block, .string "Lexical Global", .object loc⟩,
        ⟨.moduleLayer, .string "Module", .object loc⟩] := by
  obtain ⟨loc, hloc, h⟩ := bind_eq_ok.1 h
  cases h
  exact ⟨loc, hloc, by simp [Action.isPlain], rfl⟩

end Handlers

/-! ## Roles and types -/

/-- Types that are no types of the grammar, but named like a role and treated like it. -/
def NodeType.aliases : List String :=
  ["program", "class", "function", "for", "export", "class_field"]

namespace Node

variable {n : Node} {types more : List String} {r : Role}

theorem isAny_iff : n.isAny types = true ↔ ∃ t ∈ types, n.type = .string t := by
  unfold isAny
  constructor
  · intro h
    split at h
    · rename_i t ht
      exact ⟨t, List.contains_iff_mem.1 h, ht⟩
    · cases h
  · rintro ⟨t, ht, htype⟩
    rw [htype]
    exact List.contains_iff_mem.2 ht

theorem isAny_singleton {t : String} (h : n.type = .string t) : n.isAny [t] = true :=
  isAny_iff.2 ⟨t, List.mem_singleton_self t, h⟩

theorem isAny_mono (h : n.isAny types = true) (hsub : ∀ t ∈ types, t ∈ more) :
    n.isAny more = true := by
  obtain ⟨t, ht, htype⟩ := isAny_iff.1 h
  exact isAny_iff.2 ⟨t, hsub t ht, htype⟩

/-- A node has only one type. -/
theorem isAny_eq_false (h : n.isAny types = true) (hdisjoint : ∀ t ∈ types, t ∉ more) :
    n.isAny more = false := by
  rw [Bool.eq_false_iff]
  intro hmore
  obtain ⟨t, ht, htype⟩ := isAny_iff.1 h
  obtain ⟨t', ht', htype'⟩ := isAny_iff.1 hmore
  rw [htype] at htype'
  cases htype'
  exact hdisjoint t ht ht'

theorem isAny_append : n.isAny (types ++ more) = (n.isAny types || n.isAny more) := by
  unfold isAny
  split
  · simp
  · rfl

/-- The fields that hold the children of a node of known type. -/
theorem childFields_of_isAny {keys : List String}
    (htable : ∀ t ∈ types, NodeType.childFields.lookup t = some keys) (h : n.isAny types = true) :
    n.childFields = .ok keys := by
  obtain ⟨t, ht, htype⟩ := isAny_iff.1 h
  rw [childFields, htype]
  dsimp only
  rw [htable t ht, Option.getD_some]

/-- An identifier has no children. -/
theorem childFields_identifier (h : n.isAny ["Identifier"] = true) : n.childFields = .ok [] :=
  childFields_of_isAny (by decide) h

/-- Only fields that can hold children are searched for them. -/
theorem bookkeeping_of_mem_searchedFields {key : String} (h : key ∈ n.searchedFields) :
    NodeType.bookkeeping.contains key = false := by
  obtain ⟨⟨k, value⟩, hfield, rfl⟩ := List.mem_map.1 h
  have hkept := (List.mem_filter.1 hfield).2
  simp only [Bool.and_eq_true, Bool.not_eq_true'] at hkept
  exact hkept.1

/-- The fields that hold children are those of a known type, or they are searched for. -/
theorem childFields_cases {keys : List String} (h : n.childFields = .ok keys) :
    (∃ t, (t, keys) ∈ NodeType.childFields) ∨ keys = n.searchedFields := by
  unfold childFields at h
  split at h
  · rename_i t htype
    cases h
    cases hlookup : NodeType.childFields.lookup t with
    | none => exact .inr rfl
    | some keys =>
      obtain ⟨before, after, heq, -⟩ := List.lookup_eq_some_iff.1 hlookup
      exact .inl ⟨t, by simp [heq]⟩
  · cases h
    exact .inr rfl
  · cases h

/-- No bookkeeping field holds children. -/
theorem bookkeeping_of_mem_childFields {key : String} {keys : List String}
    (h : n.childFields = .ok keys) (hkey : key ∈ keys) :
    NodeType.bookkeeping.contains key = false := by
  have htable : ∀ x ∈ NodeType.childFields, ∀ k ∈ x.2, NodeType.bookkeeping.contains k = false := by
    decide
  rcases childFields_cases h with ⟨t, ht⟩ | rfl
  · exact htable _ ht key hkey
  · exact bookkeeping_of_mem_searchedFields hkey

/-- No field that holds children is listed twice. -/
theorem nodup_childFields {keys : List String} (hkeys : (n.map (·.1)).Nodup)
    (h : n.childFields = .ok keys) : keys.Nodup := by
  have htable : ∀ x ∈ NodeType.childFields, x.2.Nodup := by decide
  rcases childFields_cases h with ⟨t, ht⟩ | rfl
  · exact htable _ ht
  · exact hkeys.sublist (List.filter_sublist.map _)

theorem role?_of_isAny (htable : ∀ t ∈ types, Role.table.lookup t = some r)
    (h : n.isAny types = true) : n.role? = some r := by
  obtain ⟨t, ht, htype⟩ := isAny_iff.1 h
  rw [role?, htype]
  exact htable t ht

theorem isAny_of_role? (types : List String) (htable : ∀ x ∈ Role.table, x.2 = r → x.1 ∈ types)
    (h : n.role? = some r) : n.isAny types = true := by
  unfold role? at h
  split at h
  · rename_i t ht
    obtain ⟨before, after, heq, -⟩ := List.lookup_eq_some_iff.1 h
    exact isAny_iff.2 ⟨t, htable (t, r) (by simp [heq]) rfl, ht⟩
  · cases h

/-- Where aliases are left out, the types with a role are those that the grammar gives it. -/
theorem isAny_eq_decide_role? (types : List String) (r : Role)
    (halias : n.isAny NodeType.aliases = false)
    (hrole : ∀ t ∈ types, Role.table.lookup t = some r)
    (htable : ∀ x ∈ Role.table, x.2 = r → x.1 ∈ types ++ NodeType.aliases) :
    n.isAny types = decide (n.role? = some r) := by
  rw [Bool.eq_iff_iff, decide_eq_true_iff]
  constructor
  · exact role?_of_isAny hrole
  · intro h
    have hany := isAny_of_role? _ htable h
    rwa [isAny_append, halias, Bool.or_false] at hany

end Node

theorem typeScopes_eq {p : Path} (halias : p.node.isAny NodeType.aliases = false) :
    p.typeScopes =
      match p.node.role? with
      | some .function => p.functionScopes
      | some .classScope => p.node.coveringIf p.node.isNamed .block "Class"
      | some .loop => p.node.loopScopes
      | some .catchClause => p.node.coveringIf true .block "Catch"
      | some .block =>
        p.node.coveringIf (!p.isChildOf NodeType.functions "body"
          && p.node.statements.any Json.declaresInBlock) .block "Block"
      | some .switch =>
        p.node.coveringIf (p.node.switchStatements.any Json.isLexicalDeclaration) .block "Switch"
      | _ => .ok [] := by
  unfold Path.typeScopes
  dsimp only
  rw [Node.isAny_eq_decide_role? NodeType.functions .function halias
      (by decide) (by decide),
    Node.isAny_eq_decide_role? NodeType.classes .classScope halias
      (by decide) (by decide),
    Node.isAny_eq_decide_role? NodeType.loops .loop halias
      (by decide) (by decide),
    Node.isAny_eq_decide_role? ["CatchClause"] .catchClause halias
      (by decide) (by decide),
    Node.isAny_eq_decide_role? ["BlockStatement"] .block halias
      (by decide) (by decide),
    Node.isAny_eq_decide_role? ["SwitchStatement"] .switch halias
      (by decide) (by decide)]
  cases p.node.role? with
  | none => rfl
  | some r => cases r <;> rfl

/-! ## The types of scopes -/

section Types

variable {n : Node} {p : Path} {reason : Bool} {type : ScopeType} {label : String}
  {headings : List Heading}

theorem exists_eq_of_coveringIf (h : n.coveringIf reason type label = .ok headings) :
    ∀ heading ∈ headings, ∃ loc, heading = ⟨type, .string label, loc⟩ := by
  cases reason with
  | false =>
    cases h
    simp
  | true =>
    rw [Node.coveringIf, if_pos rfl] at h
    obtain ⟨heading, hheading, h⟩ := bind_eq_ok.1 h
    obtain ⟨loc, -, hheading⟩ := bind_eq_ok.1 hheading
    cases hheading
    cases h
    simp

theorem type_of_coveringIf (h : n.coveringIf reason type label = .ok headings) :
    ∀ heading ∈ headings, heading.type = type := by
  intro heading hmem
  obtain ⟨loc, rfl⟩ := exists_eq_of_coveringIf h heading hmem
  rfl

theorem exists_eq_of_loopScopes (h : n.loopScopes = .ok headings) :
    ∀ heading ∈ headings, ∃ loc, heading = ⟨.block, .string "For", loc⟩ := by
  unfold Node.loopScopes at h
  split at h
  · obtain ⟨start, -, h⟩ := bind_eq_ok.1 h
    obtain ⟨loc, -, h⟩ := bind_eq_ok.1 h
    cases h
    simp
  · cases h
    simp

theorem type_of_loopScopes (h : n.loopScopes = .ok headings) :
    ∀ heading ∈ headings, heading.type = .block := by
  intro heading hmem
  obtain ⟨loc, rfl⟩ := exists_eq_of_loopScopes h heading hmem
  rfl

theorem type_of_functionScopes (h : p.functionScopes = .ok headings) :
    ∀ heading ∈ headings, heading.type = .block ∨ heading.type = .function := by
  obtain ⟨wrapper, hwrapper, h⟩ := bind_eq_ok.1 h
  obtain ⟨name, -, h⟩ := bind_eq_ok.1 h
  obtain ⟨range, -, h⟩ := bind_eq_ok.1 h
  cases h
  intro heading hmem
  rcases List.mem_append.1 hmem with hmem | hmem
  · exact .inl (type_of_coveringIf hwrapper heading hmem)
  · rw [List.mem_singleton.1 hmem]
    exact .inr rfl

/-- A covering scope of another type is no root. -/
theorem type_ne_of_coveringIf (hne : type ≠ .object) (headings : List Heading)
    (h : n.coveringIf reason type label = .ok headings) :
    ∀ heading ∈ headings, heading.type ≠ .object := by
  intro heading hmem
  rw [type_of_coveringIf h heading hmem]
  exact hne

end Types

/-! ## The actions of a node -/

section Nodes

variable {p : Path} {actions : List Action}

/-- What the actions of a node open. Only a node named like a program opens another root. -/
structure Contributes (p : Path) (actions : List Action) (scopes : Except Cause (List Heading))
    (headings : List Heading) : Prop where
  opens : Opens actions headings
  scopes_eq : p.node.isAny NodeType.aliases = false → scopes = .ok headings
  type_ne : p.node.isAny ["program"] = false → ∀ heading ∈ headings, heading.type ≠ .object

/-- A node contributes the scopes of its form, none of which is a root. -/
theorem Contributes.exists_of_opens {scopes own : Except Cause (List Heading)}
    (hopens : ∃ headings, own = .ok headings ∧ Opens actions headings)
    (hscopes : p.node.isAny NodeType.aliases = false → scopes = own)
    (htype : ∀ headings, own = .ok headings → ∀ heading ∈ headings, heading.type ≠ .object) :
    ∃ headings, Contributes p actions scopes headings := by
  obtain ⟨headings, hown, hopens⟩ := hopens
  refine ⟨headings, hopens, ?_, ?_⟩
  · intro halias
    exact (hscopes halias).trans hown
  · intro _
    exact htype headings hown

theorem Contributes.nothing {scopes : Except Cause (List Heading)} (hopens : Opens actions [])
    (hscopes : p.node.isAny NodeType.aliases = false → scopes = .ok []) :
    Contributes p actions scopes [] where
  opens := hopens
  scopes_eq := hscopes
  type_ne _ heading hheading := by cases hheading

theorem contributes_roleActions (h : p.roleActions = .ok actions) :
    ∃ headings, Contributes p actions p.typeScopes headings := by
  have htype := typeScopes_eq (p := p)
  unfold Path.roleActions at h
  -- Without aliases the role decides both the actions and the scopes.
  cases hrole : p.node.role? with
  | none =>
    simp only [hrole] at h htype
    cases h
    exact ⟨[], .nothing .nil htype⟩
  | some r =>
    simp only [hrole] at h htype
    cases r with
    | program =>
      -- Only the alias has this role: it opens a root, which no type contributes.
      obtain ⟨loc, -, hopens⟩ := opens_programActions h
      have hprogram := Node.isAny_of_role? ["program"] (by decide) hrole
      refine ⟨_, hopens, ?_, ?_⟩
      · intro halias
        rw [Node.isAny_mono hprogram (by decide)] at halias
        cases halias
      · intro hnot
        rw [hprogram] at hnot
        cases hnot
    | function =>
      refine Contributes.exists_of_opens (opens_functionActions h) htype ?_
      intro headings hheadings heading hmem
      rcases type_of_functionScopes hheadings heading hmem with heq | heq <;> simp [heq]
    | classScope =>
      exact Contributes.exists_of_opens (opens_classActions h) htype
        (type_ne_of_coveringIf (by simp))
    | loop =>
      refine Contributes.exists_of_opens (opens_loopActions h) htype ?_
      intro headings hheadings heading hmem
      simp [type_of_loopScopes hheadings heading hmem]
    | catchClause =>
      exact Contributes.exists_of_opens (opens_catchActions h) htype
        (type_ne_of_coveringIf (by simp))
    | block =>
      cases hbody : p.isChildOf NodeType.functions "body" with
      | true =>
        simp only [hbody, if_true] at h htype
        cases h
        exact ⟨[], .nothing .nil htype⟩
      | false =>
        simp only [hbody] at h htype
        exact Contributes.exists_of_opens (opens_blockActions h) htype
          (type_ne_of_coveringIf (by simp))
    | switch =>
      exact Contributes.exists_of_opens (opens_switchActions h) htype
        (type_ne_of_coveringIf (by simp))
    | classField =>
      -- Only an alias has this role, so nothing is claimed of the scopes.
      refine Contributes.exists_of_opens (opens_classFieldActions h) ?_
        (type_ne_of_coveringIf (by simp))
      intro halias
      rw [Node.isAny_of_role? NodeType.aliases (by decide) hrole] at halias
      cases halias
    | «variables» => exact ⟨[], .nothing (opens_variableActions h) htype⟩
    | imports => exact ⟨[], .nothing (opens_importActions h) htype⟩
    | exports =>
      cases h
      exact ⟨[], .nothing ⟨by simp [Action.isPlain], rfl⟩ htype⟩
    | identifier => exact ⟨[], .nothing (opens_identifierActions h) htype⟩
    | this =>
      cases h
      exact ⟨[], .nothing ⟨by simp [Action.isPlain], rfl⟩ htype⟩

theorem contributes_ownActions (h : p.ownActions = .ok actions) :
    ∃ headings, Contributes p actions p.contributed headings := by
  unfold Path.ownActions at h
  cases hplace : p.isChildOf NodeType.classFields "value" with
  | true =>
    simp only [hplace, if_true] at h
    obtain ⟨field, hfield, h⟩ := bind_eq_ok.1 h
    obtain ⟨rest, hrest, h⟩ := bind_eq_ok.1 h
    cases h
    obtain ⟨headings, hcontributes⟩ := contributes_roleActions hrest
    obtain ⟨outer, houter, hopens⟩ := opens_classFieldActions hfield
    refine ⟨outer ++ headings, hopens.append hcontributes.opens, ?_, ?_⟩
    · intro halias
      rw [Path.contributed, hplace, houter, ok_bind, hcontributes.scopes_eq halias]
      rfl
    · intro hprogram heading hmem
      rcases List.mem_append.1 hmem with hmem | hmem
      · simp [type_of_coveringIf houter heading hmem]
      · exact hcontributes.type_ne hprogram heading hmem
  | false =>
    simp only [hplace] at h
    obtain ⟨field, hfield, h⟩ := bind_eq_ok.1 h
    obtain ⟨rest, hrest, h⟩ := bind_eq_ok.1 h
    cases hfield
    cases h
    obtain ⟨headings, hcontributes⟩ := contributes_roleActions hrest
    refine ⟨headings, hcontributes.opens, ?_, hcontributes.type_ne⟩
    intro halias
    rw [Path.contributed, hplace, Node.coveringIf_false, ok_bind, hcontributes.scopes_eq halias]
    rfl

end Nodes

end LexicalScopes
