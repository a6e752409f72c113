import LexicalScopes.Proofs.Missing.Paths
import LexicalScopes.Proofs.Run.Script

/-!
# Actions of intact nodes

What an intact node does to the scopes can be listed, or a fault is reported. The locations that its
actions bring into the graph have the lines and columns that the scope tree needs.
-/

namespace LexicalScopes

variable {p : Path} {n m : Node} {j target declarator specifier : Json} {kind : BindingKind}
  {actions : List Action}

/-- The locations that come with the action have lines and columns, and its faults are reported. -/
def Action.IsExportable : Action → Prop
  | .openRoot loc => loc.IsSpan
  | .openScope _ _ loc => loc.IsSpan
  | .declare bound _ => bound.loc.IsSpan
  | .hoist bound => bound.loc.IsSpan
  | .declareFunction bound => bound.loc.IsSpan
  | .refer _ occurrence => Answers Occurrence.IsSpan occurrence
  | .fail fault => ∃ e, fault = .reported e
  | _ => True

/-- Every action of the list can be shown. -/
abbrev Action.AllExportable (actions : List Action) : Prop := ∀ a ∈ actions, a.IsExportable

open LexicalScopes.Action (AllExportable)

/-! ## Declarations -/

theorem answers_declareTarget (h : target.Intact) (kind : BindingKind) :
    Answers AllExportable (declareTarget target kind) :=
  (Answers.mapM (answers_boundNames h)).bind fun _ hbounds => .ok (List.forall_mem_map.2 hbounds)

theorem answers_hoistTarget (h : target.Intact) : Answers AllExportable (hoistTarget target) :=
  (Answers.mapM (answers_boundNames h)).bind fun _ hbounds => .ok (List.forall_mem_map.2 hbounds)

theorem allExportable_flatten {lists : List (List Action)} (h : ∀ l ∈ lists, AllExportable l) :
    AllExportable lists.flatten := by
  intro a ha
  obtain ⟨l, hl, ha⟩ := List.mem_flatten.1 ha
  exact h l hl a ha

theorem answers_declarationKind (h : (Json.object n).Intact)
    (htype : n.isAny ["VariableDeclaration"] = true) : Answers Answers.Any n.declarationKind := by
  have hkind : FieldKind.scalar.admits (n.get "kind") = true := h.node.admits htype (by decide)
  obtain ⟨s, hs⟩ := FieldKind.admits_scalar_iff.1 hkind
  unfold Node.declarationKind
  rw [hs]
  cases s with
  | string t =>
    dsimp only
    split
    · exact .ok trivial
    · exact h.answers_malformed _
  | _ => exact h.answers_malformed _

theorem answers_declaratorTarget (h : (Json.object m).Intact) :
    Answers Json.Intact (Node.declaratorTarget (.object m)) := by
  unfold Node.declaratorTarget
  rw [Json.field, Json.field?_object, readable_some, ok_bind]
  exact .ite (fun _ => h.answers_malformed _) fun _ => .ok (h.get "id")

theorem answers_variableActions (h : (Json.object n).Intact)
    (htype : n.isAny ["VariableDeclaration"] = true) : Answers AllExportable n.variableActions := by
  have hlist : FieldKind.objects.admits (n.get "declarations") = true :=
    h.node.admits htype (by decide)
  have hwhole := h.node.whole .declarator
  rw [Node.lacks, htype, Bool.true_and] at hwhole
  refine (answers_declarationKind h htype).bind fun kind _ => ?_
  refine ((h.get _).answers_objects hlist hwhole).bind fun declarators hdeclarators => ?_
  refine (Answers.mapM fun declarator hdeclarator => ?_).bind fun lists hlists =>
    .ok (allExportable_flatten hlists)
  -- A declarator that is a node can be asked for its target; a null could not.
  obtain ⟨m, rfl, hm⟩ := hdeclarators declarator hdeclarator
  refine (answers_declaratorTarget hm).bind fun target htarget => ?_
  exact .ite (fun _ => answers_hoistTarget htarget) fun _ => answers_declareTarget htarget kind

theorem answers_specifierAction (h : (Json.object m).Intact) :
    Answers Action.IsExportable (Node.specifierAction (.object m)) := by
  unfold Node.specifierAction
  rw [Json.field, Json.field?_object, readable_some, ok_bind]
  split
  · rename_i identifier hany hnode
    have hintact := h.get "local"
    rw [Json.node?_eq_some_iff.1 hnode] at hany hintact
    exact (answers_boundName hintact hany).bind fun bound hbound => .ok hbound
  · exact h.answers_malformed _

theorem answers_importActions (h : (Json.object n).Intact)
    (htype : n.isAny ["ImportDeclaration"] = true) : Answers AllExportable n.importActions := by
  have hlist : FieldKind.objects.admits (n.get "specifiers") = true :=
    h.node.admits htype (by decide)
  have hwhole := h.node.whole .specifier
  rw [Node.lacks, htype, Bool.true_and] at hwhole
  refine ((h.get _).answers_objects hlist hwhole).bind fun specifiers hspecifiers => ?_
  refine (Answers.mapM fun specifier hspecifier => ?_).bind fun actions hactions =>
    .ok (List.forall_mem_cons.2 ⟨trivial, hactions⟩)
  obtain ⟨m, rfl, hm⟩ := hspecifiers specifier hspecifier
  exact answers_specifierAction hm

/-! ## Functions -/

theorem exists_of_identifier? {identifier : Node} (h : (Json.object n).Intact)
    (hid : n.identifier? = some identifier) :
    (Json.object identifier).Intact ∧ identifier.isAny ["Identifier"] = true := by
  obtain ⟨hget, hany⟩ := isAny_of_identifier? hid
  exact ⟨hget ▸ h.get "id", hany⟩

theorem answers_functionRange (h : (Json.object n).Intact)
    (htype : n.isAny NodeType.functions = true) : Answers Json.IsSpan n.functionRange := by
  have hlist : FieldKind.objects.admits (n.get "params") = true := h.node.admits htype (by decide)
  have hwhole := h.node.whole .firstParameter
  rw [Node.lacks, htype, Bool.true_and, Node.firstParam?] at hwhole
  unfold Node.functionRange
  refine (h.answers_loc htype (by decide)).bind fun loc hloc => ?_
  dsimp only
  refine .ite (fun hpresent => ?_) fun _ => .ok hloc
  rcases FieldKind.admits_objects_iff.1 hlist with hnull | ⟨params, hparams, hobjects⟩
  · rw [hnull] at hpresent
    cases hpresent
  · rw [hparams] at hpresent hwhole ⊢
    cases params with
    | nil => cases hpresent
    | cons first rest =>
      -- The first parameter is not null, so it is a node.
      rcases FieldKind.admits_object_iff.1 (hobjects first List.mem_cons_self) with
        rfl | ⟨first, rfl⟩
      · cases hwhole
      · have hfirst : (Json.object first).Intact :=
          (h.get "params").of_mem_entries? (by rw [hparams]; rfl) List.mem_cons_self
        have hleading : .object first ∈ n.leading := by
          simp [Node.leading, htype, Node.firstParam?, hparams, Json.items?]
        exact (hfirst.answers_start h.node hleading).bind fun start hstart =>
          .ok ⟨hstart, hloc.2⟩

theorem answers_ownNameActions (h : (Json.object n).Intact)
    (htype : n.isAny NodeType.functions = true) : Answers AllExportable n.ownNameActions := by
  unfold Node.ownNameActions
  split
  · exact .ok nofun
  · rename_i identifier hid
    obtain ⟨hintact, hany⟩ := exists_of_identifier? h hid
    have hbound := answers_boundName hintact hany
    refine .ite (fun _ => ?_) fun _ => .ite (fun _ => ?_) fun _ => .ok nofun
    · refine (h.answers_loc htype (by decide)).bind fun loc hloc => ?_
      refine hbound.bind fun bound hbound => .ok ?_
      simp [AllExportable, Action.IsExportable, hloc, hbound]
    · refine hbound.bind fun bound hbound => .ok ?_
      simp [AllExportable, Action.IsExportable, hbound]

theorem answers_parameterActions (h : (Json.object n).Intact)
    (htype : n.isAny NodeType.functions = true) : Answers AllExportable n.parameterActions := by
  have hlist : FieldKind.objects.admits (n.get "params") = true := h.node.admits htype (by decide)
  refine ((h.get _).answers_entries hlist).bind fun params hparams => ?_
  have hdeclared : Answers (fun lists => ∀ l ∈ lists, AllExportable l)
      (params.mapM fun param => declareTarget param .var) :=
    Answers.mapM fun param hparam => answers_declareTarget (hparams param hparam) .var
  refine hdeclared.bind fun lists hlists => .ok fun a ha => ?_
  rcases List.mem_append.1 ha with ha | ha
  · exact allExportable_flatten hlists a ha
  · split at ha
    · cases ha
    · rw [List.mem_singleton.1 ha]
      trivial

theorem answers_functionActions (h : p.Intact) (htype : p.node.isAny NodeType.functions = true) :
    Answers AllExportable p.functionActions := by
  refine (answers_ownNameActions h.node htype).bind fun own hown => ?_
  refine (answers_functionName h).bind fun name _ => ?_
  refine (answers_functionRange h.node htype).bind fun range hrange => ?_
  refine (answers_parameterActions h.node htype).bind fun params hparams => .ok ?_
  exact List.forall_mem_append.2 ⟨hown, List.forall_mem_cons.2 ⟨hrange, hparams⟩⟩

/-! ## Other scopes -/

theorem answers_classActions (h : (Json.object n).Intact)
    (htype : n.isAny NodeType.classes = true) : Answers AllExportable n.classActions := by
  have hloc := h.answers_loc htype (by decide)
  unfold Node.classActions
  split
  · exact .ok nofun
  · rename_i identifier hid
    obtain ⟨hintact, hany⟩ := exists_of_identifier? h hid
    have hbound := answers_boundName hintact hany
    refine .ite (fun _ => ?_) fun _ => ?_
    · refine hbound.bind fun bound hbound => hloc.bind fun loc hloc => .ok ?_
      simp [AllExportable, Action.IsExportable, hloc, hbound]
    · refine hloc.bind fun loc hloc => hbound.bind fun bound hbound => .ok ?_
      simp [AllExportable, Action.IsExportable, hloc, hbound]

theorem answers_loopActions (h : (Json.object n).Intact) (htype : n.isAny NodeType.loops = true) :
    Answers AllExportable n.loopActions := by
  unfold Node.loopActions
  dsimp only
  split
  · rename_i declaration hlexical hnode
    have hhead : n.loopHead.Intact := by
      unfold Node.loopHead
      split
      · exact h.get "init"
      · exact h.get "left"
    have hobject := Json.node?_eq_some_iff.1 hnode
    rw [hobject] at hhead
    have hleading : .object declaration ∈ n.leading := by simp [Node.leading, htype, hobject]
    refine (hhead.answers_start h.node hleading).bind fun start hstart => ?_
    refine (h.answers_loc htype (by decide)).bind fun loc hloc => .ok ?_
    exact List.forall_mem_singleton.2 ⟨hstart, hloc.2⟩
  · exact .ok (List.forall_mem_nil _)

theorem answers_catchActions (h : (Json.object n).Intact)
    (htype : n.isAny ["CatchClause"] = true) : Answers AllExportable n.catchActions :=
  (h.answers_loc htype (by decide)).bind fun _ hloc =>
    (answers_declareTarget (h.get "param") .var).bind fun _ hdeclared =>
      .ok (List.forall_mem_cons.2 ⟨hloc, hdeclared⟩)

theorem answers_blockActions (h : (Json.object n).Intact)
    (htype : n.isAny ["BlockStatement"] = true) : Answers AllExportable n.blockActions := by
  have hlist : FieldKind.objects.admits (n.get "body") = true := h.node.admits htype (by decide)
  refine ((h.get _).answers_entries hlist).bind fun statements _ => ?_
  refine .ite (fun _ => ?_) fun _ => .ok nofun
  exact (h.answers_loc htype (by decide)).bind fun loc hloc =>
    .ok (List.forall_mem_singleton.2 hloc)

theorem answers_anyLexicalCase {cases : List Json}
    (h : ∀ case ∈ cases, case.Intact ∧ case.isAny ["SwitchCase"] = true) :
    Answers Answers.Any (Node.anyLexicalCase cases) := by
  induction cases with
  | nil => exact .ok trivial
  | cons case rest ih =>
    obtain ⟨⟨hintact, hcase⟩, hrest⟩ := List.forall_mem_cons.1 h
    unfold Node.anyLexicalCase
    cases case with
    | object m =>
      have hlist : FieldKind.objects.admits (Node.get m "consequent") = true :=
        hintact.node.admits hcase (by decide)
      rw [Json.field, Json.field?_object, readable_some, ok_bind]
      refine ((hintact.get _).answers_entries hlist).bind fun statements _ => ?_
      exact .ite (fun _ => .ok trivial) fun _ => ih hrest
    | _ => cases hcase

theorem answers_switchCases (h : (Json.object n).Intact)
    (htype : n.isAny ["SwitchStatement"] = true) :
    Answers (fun cases => ∀ case ∈ cases, case.Intact ∧ case.isAny ["SwitchCase"] = true)
      n.switchCases := by
  have hlist : FieldKind.objects.admits (n.get "cases") = true := h.node.admits htype (by decide)
  refine ((h.get _).answers_entries hlist).bind fun cases hcases => ?_
  refine .ite (fun hall => .ok fun case hcase => ?_) fun _ => h.answers_malformed _
  exact ⟨hcases case hcase, List.all_eq_true.1 hall case hcase⟩

theorem answers_switchActions (h : (Json.object n).Intact)
    (htype : n.isAny ["SwitchStatement"] = true) : Answers AllExportable n.switchActions := by
  refine (answers_switchCases h htype).bind fun cases hcases => ?_
  refine (answers_anyLexicalCase hcases).bind fun _ _ => ?_
  refine .ite (fun _ => ?_) fun _ => .ok nofun
  exact (h.answers_loc htype (by decide)).bind fun loc hloc =>
    .ok (List.forall_mem_singleton.2 hloc)

theorem answers_classFieldActions {holder : Node} (h : (Json.object n).Intact)
    (hholder : holder.IsReadable) (htype : holder.isAny NodeType.classFields = true)
    (hvalue : holder.get "value" = .object n) : Answers AllExportable n.classFieldActions := by
  have hloc : Answers (fun loc => (Json.object loc).IsSpan) n.loc := by
    refine h.answers_loc_of_mem hholder ?_ ?_ <;>
      simp [Node.leading, Node.trailing, htype, hvalue]
  exact hloc.bind fun loc hloc =>
    .ok (by simpa [AllExportable, Action.IsExportable] using hloc)

theorem answers_programActions (h : (Json.object n).Intact) (htype : n.isAny ["Program"] = true) :
    Answers AllExportable n.programActions :=
  (h.answers_loc htype (by decide)).bind fun loc hloc =>
    .ok (by simpa [AllExportable, Action.IsExportable] using hloc)

/-! ## Nodes -/

theorem answers_identifierActions (h : p.Intact) (htype : p.node.isAny ["Identifier"] = true) :
    Answers AllExportable p.identifierActions := by
  unfold Path.identifierActions
  refine .ite (fun _ => ?_) fun _ => .ok nofun
  refine (answers_scalarName h.node.node htype).bind fun name _ => .ok ?_
  exact List.forall_mem_singleton.2 (answers_occurrence h htype (by decide))

/-- No type named like a role is in an intact tree. -/
theorem isAny_of_role {role : Role} {types : List String} (h : p.Intact)
    (hrole : p.node.role? = some role)
    (htable : ∀ x ∈ Role.table, x.2 = role → x.1 ∈ types ++ NodeType.aliases) :
    p.node.isAny types = true := by
  have hany := Node.isAny_of_role? (types ++ NodeType.aliases) htable hrole
  obtain ⟨t, ht, htype⟩ := Node.isAny_iff.1 hany
  rcases List.mem_append.1 ht with ht | ht
  · exact Node.isAny_iff.2 ⟨t, ht, htype⟩
  · have halias := Node.isAny_iff.2 ⟨t, ht, htype⟩
    rw [h.node.node.known] at halias
    cases halias

theorem answers_roleActions (h : p.Intact) : Answers AllExportable p.roleActions := by
  have hn := h.node
  unfold Path.roleActions
  cases hrole : p.node.role? with
  | none => exact .ok nofun
  | some role =>
    cases role with
    | program =>
      have halias := Node.isAny_of_role? NodeType.aliases (by decide) hrole
      rw [hn.node.known] at halias
      cases halias
    | function => exact answers_functionActions h (isAny_of_role h hrole (by decide))
    | classScope => exact answers_classActions hn (isAny_of_role h hrole (by decide))
    | loop => exact answers_loopActions hn (isAny_of_role h hrole (by decide))
    | catchClause => exact answers_catchActions hn (isAny_of_role h hrole (by decide))
    | block =>
      have htype : p.node.isAny ["BlockStatement"] = true := isAny_of_role h hrole (by decide)
      exact .ite (fun _ => .ok nofun) fun _ => answers_blockActions hn htype
    | switch => exact answers_switchActions hn (isAny_of_role h hrole (by decide))
    | classField =>
      have halias := Node.isAny_of_role? NodeType.aliases (by decide) hrole
      rw [hn.node.known] at halias
      cases halias
    | «variables» => exact answers_variableActions hn (isAny_of_role h hrole (by decide))
    | imports => exact answers_importActions hn (isAny_of_role h hrole (by decide))
    | exports => exact .ok (List.forall_mem_singleton.2 trivial)
    | identifier => exact answers_identifierActions h (isAny_of_role h hrole (by decide))
    | this =>
      have htype : p.node.isAny ["ThisExpression"] = true := isAny_of_role h hrole (by decide)
      exact .ok (List.forall_mem_singleton.2 (answers_occurrence h htype (by decide)))

theorem answers_ownActions (h : p.Intact) : Answers AllExportable p.ownActions := by
  have hrest (field : List Action) (hfield : AllExportable field) :
      Answers AllExportable (p.roleActions >>= fun rest => pure (field ++ rest)) :=
    (answers_roleActions h).bind fun _ hrest => .ok (List.forall_mem_append.2 ⟨hfield, hrest⟩)
  unfold Path.ownActions
  dsimp only
  refine .ite (fun hplace => ?_) fun _ => hrest [] nofun
  cases p with
  | root n => cases hplace
  | child parent key index n =>
    obtain ⟨htype, hvalue⟩ := h.get_of_isChildOf hplace (by decide)
    exact (answers_classFieldActions h.node h.1.node.node htype hvalue).bind hrest

/-! ## Walks -/

theorem allExportable_attempt {x : Except Cause (List Action)} (h : Answers AllExportable x) :
    AllExportable (Action.attempt x) := by
  cases h with
  | ok h => exact h
  | reported e => exact List.forall_mem_singleton.2 ⟨e, rfl⟩

theorem allExportable_enterActions (h : p.Intact) : AllExportable p.enterActions := by
  have hown := allExportable_attempt (answers_ownActions h)
  unfold Path.enterActions
  split
  · exact allExportable_attempt (answers_programActions h.node ‹_›)
  · dsimp only
    split
    · exact List.forall_mem_cons.2 ⟨trivial, hown⟩
    · exact hown

theorem allExportable_exitActions (p : Path) : AllExportable p.exitActions := by
  unfold Path.exitActions
  split
  · exact List.forall_mem_singleton.2 trivial
  · split
    · exact List.forall_mem_singleton.2 trivial
    · exact nofun

theorem answers_childFields (hn : n.IsReadable) : Answers Answers.Any n.childFields := by
  obtain ⟨s, hs⟩ := hn.exists_type
  unfold Node.childFields
  rw [hs]
  cases s <;> exact .ok trivial

/-- Everything that walking an intact node does can be shown. -/
theorem allExportable_script (h : p.Intact) : AllExportable p.script := by
  -- The children of an intact node are intact, so the invariant goes down the tree with the walk.
  induction p using Path.induction_on_kids with
  | step p ih =>
    have hkids : AllExportable (Path.scripts p.children) := by
      cases hchildren : p.children with
      | error fault =>
        have hanswers : Answers Answers.Any p.children :=
          (answers_childFields h.node.node).bind fun _ _ => .ok trivial
        exact List.forall_mem_singleton.2 (hanswers.exists_of_error hchildren)
      | ok cs =>
        rw [← Path.kids_of_children hchildren]
        intro a ha
        obtain ⟨c, hc, ha⟩ := List.mem_flatMap.1 ha
        exact ih c hc (h.of_mem_kids hc) a ha
    rw [Path.script_eq]
    refine List.forall_mem_append.2 ⟨List.forall_mem_append.2 ⟨?_, hkids⟩, ?_⟩
    · exact allExportable_enterActions h
    · exact allExportable_exitActions p

end LexicalScopes
