import LexicalScopes.Proofs.Renaming.Names
import LexicalScopes.Proofs.Run.Script

/-!
# Actions of renamed trees

A node of a renamed tree does what the node itself does, to renamed names.
-/

namespace LexicalScopes

/-! ## Masks -/

/-- The name under which a scope is shown, unless it is the name of a function. -/
def ScopeType.maskedName : ScopeType → Json → Json
  | .function, _ => .null
  | _, name => name

/-- The action with its names changed by `r` and its texts masked. -/
def Action.masked (r : String → String) : Action → Action
  | .openScope type name loc => .openScope type (type.maskedName name) loc
  | .declare bound kind => .declare (bound.renamed r) kind
  | .hoist bound => .hoist (bound.renamed r)
  | .declareFunction bound => .declareFunction (bound.renamed r)
  | .introduce names => .introduce (names.map r)
  | .refer name occurrence => .refer (name.renamed r) (Occurrence.masked <$> occurrence)
  | action => action

/-- The first actions are the second ones in a renamed tree. -/
def Action.Renamed (r : String → String) (after before : List Action) : Prop :=
  after.map (Action.masked id) = before.map (Action.masked r)

/-- The same of actions that have to be read. -/
def Action.RenamedIn (r : String → String) (after before : Except Cause (List Action)) : Prop :=
  List.map (Action.masked id) <$> after = List.map (Action.masked r) <$> before

variable {r : String → String} {n : Node} {j : Json} {p : Path}

/-- Reserved names stay as they are. -/
theorem Renaming.map_eq (hr : Renaming r) {names : List String} (h : names ⊆ reservedNames) :
    names.map r = names :=
  (List.map_congr_left fun name hname => hr.fixes name (h hname)).trans (List.map_id names)

namespace Action

@[simp] theorem opens_masked (a : Action) : (a.masked r).opens = a.opens := by
  cases a <;> rfl

section Lists

variable {after before more more' : List Action}

theorem Renamed.any_opens (h : Renamed r after before) : after.any opens = before.any opens := by
  have hany (s : String → String) (l : List Action) :
      (l.map (masked s)).any opens = l.any opens := by
    simp [List.any_map, Function.comp_def]
  rw [← hany id after, h, hany r before]

theorem Renamed.append (h : Renamed r after before) (hmore : Renamed r more more') :
    Renamed r (after ++ more) (before ++ more') := by
  unfold Renamed at *
  rw [List.map_append, List.map_append, h, hmore]

end Lists

namespace RenamedIn

variable {α β γ : Type} {x : Except Cause α} {y : Except Cause β}
  {f f' : α → Except Cause (List Action)} {g : β → Except Cause (List Action)}

theorem pure {after before : List Action} (h : Renamed r after before) :
    RenamedIn r (.ok after) (.ok before) := congrArg Except.ok h

/-- Actions that go on from values read alike. -/
theorem bind {k : α → γ} {l : β → γ} (h : k <$> x = l <$> y)
    (hfg : ∀ a b, k a = l b → RenamedIn r (f a) (g b)) : RenamedIn r (x >>= f) (y >>= g) := by
  unfold RenamedIn
  rw [map_bind, map_bind]
  exact bind_congr_map h hfg

/-- Actions that go on from the same value. -/
theorem reading (hf : ∀ a, RenamedIn r (f a) (f' a)) : RenamedIn r (x >>= f) (x >>= f') := by
  cases x with
  | error fault => rfl
  | ok a => exact hf a

theorem ite {c : Prop} [Decidable c] {x x' y y' : Except Cause (List Action)}
    (hx : RenamedIn r x x') (hy : RenamedIn r y y') :
    RenamedIn r (if c then x else y) (if c then x' else y') := by
  split
  · exact hx
  · exact hy

theorem attempt {after before : Except Cause (List Action)} (h : RenamedIn r after before) :
    Renamed r (attempt after) (attempt before) := by
  unfold RenamedIn at h
  cases after <;> cases before <;>
    simp_all [Functor.map, Except.map, Renamed, Action.attempt, masked]

end RenamedIn

/-- The actions of the entries of a list. -/
theorem mapM_renamed {f : Json → Except Cause (List Action)}
    (hf : ∀ j : Json, RenamedIn r (f (j.renamed r)) (f j)) (entries : List Json) :
    List.map (List.map (masked id)) <$> (entries.map (Json.renamed r)).mapM f =
      List.map (List.map (masked r)) <$> entries.mapM f := by
  rw [List.mapM_map]
  exact map_mapM_congr entries fun j _ => hf j

theorem Renamed.flatten {after before : List (List Action)}
    (h : after.map (List.map (masked id)) = before.map (List.map (masked r))) :
    Renamed r after.flatten before.flatten := by
  rw [Renamed, List.map_flatten, List.map_flatten, h]

end Action

open LexicalScopes.Action (Renamed RenamedIn)

/-! ## Targets -/

theorem mapM_boundNames_renamed (target : Json) :
    (boundNames (target.renamed r)).mapM id =
      List.map (BoundName.renamed r) <$> (boundNames target).mapM id := by
  rw [boundNames_renamed, List.mapM_map]
  have hread (x : Except Cause BoundName) (_ : x ∈ boundNames target) :
      id <$> id (BoundName.renamed r <$> x) = BoundName.renamed r <$> id x := id_map _
  simpa [Function.comp_def] using map_mapM_congr (boundNames target) hread

theorem declareTarget_renamed (target : Json) (kind : BindingKind) :
    RenamedIn r (declareTarget (target.renamed r) kind) (declareTarget target kind) := by
  unfold declareTarget
  rw [mapM_boundNames_renamed, bind_map_left]
  refine .reading fun bounds => .pure ?_
  simp [Renamed, Action.masked]

theorem hoistTarget_renamed (target : Json) :
    RenamedIn r (hoistTarget (target.renamed r)) (hoistTarget target) := by
  unfold hoistTarget
  rw [mapM_boundNames_renamed, bind_map_left]
  refine .reading fun bounds => .pure ?_
  simp [Renamed, Action.masked]

namespace Node

theorem declarationKind_renamed : (n.renamed r).declarationKind = n.declarationKind := by
  unfold declarationKind
  rw [get_renamed (by decide) (by decide)]
  cases n.get "kind" with
  | scalar s =>
    cases s <;>
      simp only [Json.renamed_scalar, ← Json.renamed_object, Cause.malformed_renamed]
  | array items => simp
  | object m => simp

theorem declaratorTarget_renamed (declarator : Json) :
    declaratorTarget (declarator.renamed r) = Json.renamed r <$> declaratorTarget declarator := by
  unfold declaratorTarget
  rw [Json.field_renamed (by decide) (by decide), bind_map_left, map_bind]
  congr 1
  funext target
  rw [Json.isNull_renamed, Cause.malformed_renamed]
  split <;> rfl

theorem variableActions_renamed : RenamedIn r (n.renamed r).variableActions n.variableActions := by
  unfold variableActions
  rw [declarationKind_renamed, get_renamed (by decide) (by decide), Json.entries_renamed]
  refine .reading fun kind => ?_
  rw [bind_map_left]
  refine .reading fun declarators => ?_
  refine .bind (Action.mapM_renamed (fun declarator => ?_) declarators) fun _ _ h =>
    .pure (.flatten h)
  rw [declaratorTarget_renamed, bind_map_left]
  exact .reading fun target => .ite (hoistTarget_renamed target) (declareTarget_renamed target kind)

theorem specifierAction_renamed (specifier : Json) :
    Action.masked id <$> specifierAction (specifier.renamed r) =
      Action.masked r <$> specifierAction specifier := by
  unfold specifierAction
  rw [Json.field_renamed (by decide) (by decide), bind_map_left, map_bind, map_bind]
  congr 1
  funext name
  rw [Json.isAny_renamed, Json.node?_renamed, Json.isAny_renamed, Json.field_type_renamed]
  cases hid : name.isAny ["Identifier"] with
  | false => cases specifier.field "type" <;> simp
  | true =>
    cases hnode : name.node? with
    | none => cases specifier.field "type" <;> simp
    | some identifier =>
      rw [Json.isAny, hnode] at hid
      simp [boundName_renamed hid, Action.masked]

theorem importActions_renamed : RenamedIn r (n.renamed r).importActions n.importActions := by
  unfold importActions
  rw [get_renamed (by decide) (by decide), Json.entries_renamed, bind_map_left]
  refine .reading fun specifiers => ?_
  rw [List.mapM_map]
  have hspecifiers := map_mapM_congr specifiers fun s _ => specifierAction_renamed (r := r) s
  refine .bind hspecifiers fun _ _ h => .pure ?_
  simp [Renamed, Action.masked, h]

/-! ## Scopes -/

theorem programActions_renamed (hr : Renaming r) :
    RenamedIn r (n.renamed r).programActions n.programActions := by
  unfold programActions
  rw [loc_renamed]
  have hhost : Graph.hostNames.map r = Graph.hostNames := hr.map_eq (by decide)
  have hthis : ["this"].map r = ["this"] := hr.map_eq (by decide)
  refine .reading fun loc => .pure ?_
  simp [Renamed, Action.masked, ScopeType.maskedName, hhost, hthis]

theorem functionRange_renamed : (n.renamed r).functionRange = n.functionRange := by
  unfold functionRange
  rw [loc_renamed, get_renamed (by decide) (by decide)]
  simp only [Json.isPresent_renamed]
  cases n.get "params" with
  | scalar s => rw [Json.renamed_scalar]
  | array items =>
    cases items with
    | nil => rfl
    | cons first rest =>
      simp only [Json.renamed_array, List.map_cons, Json.fields_renamed, bind_map_left]
      simp only [start_renamed]
  | object m => simp [noFirstNode]

theorem ownNameActions_renamed : RenamedIn r (n.renamed r).ownNameActions n.ownNameActions := by
  unfold ownNameActions
  rw [identifier?_renamed]
  cases hid : n.identifier? with
  | none => rfl
  | some identifier =>
    have hname := boundName_renamed (r := r) (isAny_of_identifier? hid).2
    simp only [Option.map_some, isAny_renamed, loc_renamed, hname, bind_map_left]
    refine .ite (.reading fun loc => .reading fun bound => .pure ?_)
      (.ite (.reading fun bound => .pure ?_) (.pure rfl))
    · simp [Renamed, Action.masked, ScopeType.maskedName]
    · simp [Renamed, Action.masked]

theorem parameterActions_renamed (hr : Renaming r) :
    RenamedIn r (n.renamed r).parameterActions n.parameterActions := by
  unfold parameterActions
  rw [get_renamed (by decide) (by decide), Json.entries_renamed, bind_map_left, isAny_renamed]
  refine .reading fun params => ?_
  refine .bind (Action.mapM_renamed (fun param => declareTarget_renamed param .var) params)
    fun _ _ h => .pure (.append (.flatten h) ?_)
  have hnames : ["this", "arguments"].map r = ["this", "arguments"] := hr.map_eq (by decide)
  split
  · rfl
  · simp [Renamed, Action.masked, hnames]

theorem classActions_renamed : RenamedIn r (n.renamed r).classActions n.classActions := by
  unfold classActions
  rw [identifier?_renamed]
  cases hid : n.identifier? with
  | none => rfl
  | some identifier =>
    have hname := boundName_renamed (r := r) (isAny_of_identifier? hid).2
    simp only [Option.map_some, isAny_renamed, loc_renamed, hname, bind_map_left]
    refine .ite (.reading fun bound => .reading fun loc => .pure ?_)
      (.reading fun loc => .reading fun bound => .pure ?_)
    · simp [Renamed, Action.masked, ScopeType.maskedName]
    · simp [Renamed, Action.masked, ScopeType.maskedName]

theorem loopHead_renamed : (n.renamed r).loopHead = n.loopHead.renamed r := by
  simp (disch := decide) only [loopHead, get_renamed, Json.isPresent_renamed]
  split <;> rfl

theorem loopActions_renamed : RenamedIn r (n.renamed r).loopActions n.loopActions := by
  unfold loopActions
  rw [loopHead_renamed]
  simp only [Json.isLexicalDeclaration_renamed, Json.node?_renamed]
  cases n.loopHead.isLexicalDeclaration with
  | false => rfl
  | true =>
    cases n.loopHead.node? with
    | none => rfl
    | some declaration =>
      simp only [Option.map_some, start_renamed, loc_renamed]
      exact .reading fun start => .reading fun loc => .pure rfl

theorem catchActions_renamed : RenamedIn r (n.renamed r).catchActions n.catchActions := by
  unfold catchActions
  rw [loc_renamed, get_renamed (by decide) (by decide)]
  refine .reading fun loc => .bind (declareTarget_renamed _ _) fun _ _ h => .pure ?_
  simp [Renamed, Action.masked, ScopeType.maskedName, h]

theorem blockActions_renamed : RenamedIn r (n.renamed r).blockActions n.blockActions := by
  unfold blockActions
  rw [get_renamed (by decide) (by decide), Json.entries_renamed, bind_map_left, loc_renamed]
  refine .reading fun statements => ?_
  simp only [List.any_map, Function.comp_def, Json.declaresInBlock_renamed]
  exact .ite (.reading fun loc => .pure rfl) (.pure rfl)

theorem anyLexicalCase_renamed (cases : List Json) :
    anyLexicalCase (cases.map (Json.renamed r)) = anyLexicalCase cases := by
  induction cases with
  | nil => rfl
  | cons case rest ih =>
    simp (disch := decide) only [List.map_cons, anyLexicalCase, Json.field_renamed, bind_map_left,
      Json.entries_renamed, List.any_map, Function.comp_def, Json.isLexicalDeclaration_renamed, ih]

theorem switchCases_renamed :
    (n.renamed r).switchCases = List.map (Json.renamed r) <$> n.switchCases := by
  unfold switchCases
  rw [get_renamed (by decide) (by decide), Json.entries_renamed, bind_map_left, map_bind]
  congr 1
  funext cases
  simp only [List.all_map, Function.comp_def, Json.isAny_renamed, ← Json.renamed_object,
    Cause.malformed_renamed]
  split <;> rfl

theorem switchActions_renamed : RenamedIn r (n.renamed r).switchActions n.switchActions := by
  unfold switchActions
  rw [switchCases_renamed, bind_map_left, loc_renamed]
  simp only [anyLexicalCase_renamed]
  exact .reading fun cases => .reading fun found => .ite (.reading fun loc => .pure rfl) (.pure rfl)

theorem classFieldActions_renamed (hr : Renaming r) :
    RenamedIn r (n.renamed r).classFieldActions n.classFieldActions := by
  unfold classFieldActions
  rw [loc_renamed]
  have hnames : ["this", "arguments"].map r = ["this", "arguments"] := hr.map_eq (by decide)
  refine .reading fun loc => .pure ?_
  simp [Renamed, Action.masked, ScopeType.maskedName, hnames]

end Node

namespace Path

theorem identifierActions_renamed (hr : Renaming r) :
    RenamedIn r (p.renamed r).identifierActions p.identifierActions := by
  unfold identifierActions
  rw [isReferenced_renamed, node_renamed]
  cases href : p.isReferenced with
  | false => rfl
  | true =>
    rw [if_pos rfl, if_pos rfl, Node.scalarName_renamed (isAny_of_isReferenced href), bind_map_left]
    refine .reading fun name => .pure ?_
    simp [Renamed, Action.masked, hr.occurrence_renamed]

theorem functionActions_renamed (hr : Renaming r) :
    RenamedIn r (p.renamed r).functionActions p.functionActions := by
  unfold functionActions
  simp only [node_renamed, Node.functionRange_renamed]
  refine .bind Node.ownNameActions_renamed fun own own' hown => ?_
  refine .bind functionName_renamed fun name name' _ => ?_
  refine .reading fun range => ?_
  refine .bind (Node.parameterActions_renamed hr) fun params params' hparams => .pure ?_
  exact .append hown (by simp [Renamed, Action.masked, ScopeType.maskedName, hparams])

/-! ## Nodes -/

theorem roleActions_renamed (hr : Renaming r) :
    RenamedIn r (p.renamed r).roleActions p.roleActions := by
  unfold roleActions
  rw [node_renamed, Node.role?_renamed, isChildOf_renamed]
  cases p.node.role? with
  | none => rfl
  | some role =>
    cases role with
    | program => exact Node.programActions_renamed hr
    | function => exact functionActions_renamed hr
    | classScope => exact Node.classActions_renamed
    | loop => exact Node.loopActions_renamed
    | catchClause => exact Node.catchActions_renamed
    | block => exact .ite rfl Node.blockActions_renamed
    | switch => exact Node.switchActions_renamed
    | classField => exact Node.classFieldActions_renamed hr
    | «variables» => exact Node.variableActions_renamed
    | imports => exact Node.importActions_renamed
    | exports => rfl
    | identifier => exact identifierActions_renamed hr
    | this =>
      have hthis : r "this" = "this" := hr.fixes "this" (by decide)
      exact .pure (by simp [Renamed, Action.masked, Scalar.renamed, hr.occurrence_renamed, hthis])

theorem ownActions_renamed (hr : Renaming r) :
    RenamedIn r (p.renamed r).ownActions p.ownActions := by
  have hrest (field field' : List Action) (hfield : Renamed r field field') :
      RenamedIn r ((p.renamed r).roleActions >>= fun actions => .ok (field ++ actions))
        (p.roleActions >>= fun actions => .ok (field' ++ actions)) :=
    .bind (roleActions_renamed hr) fun _ _ h => .pure (hfield.append h)
  unfold ownActions
  rw [isChildOf_renamed, node_renamed]
  exact .ite (.bind (Node.classFieldActions_renamed hr) hrest) (hrest [] [] rfl)

theorem enterActions_renamed (hr : Renaming r) :
    Renamed r (p.renamed r).enterActions p.enterActions := by
  have hown := (ownActions_renamed hr (p := p)).attempt
  unfold enterActions
  rw [isProgram_renamed, node_renamed]
  split
  · exact (Node.programActions_renamed hr).attempt
  · dsimp only
    rw [hown.any_opens]
    split
    · simpa [Renamed, Action.masked] using hown
    · exact hown

theorem exitActions_renamed (hr : Renaming r) :
    Renamed r (p.renamed r).exitActions p.exitActions := by
  unfold exitActions
  rw [isProgram_renamed, (ownActions_renamed hr).attempt.any_opens]
  split
  · rfl
  · split <;> rfl

theorem scripts_renamed {ps : Except Cause (List Path)}
    (h : ∀ cs, ps = .ok cs → ∀ c ∈ cs, Renamed r (c.renamed r).script c.script) :
    Renamed r (scripts (List.map (Path.renamed r) <$> ps)) (scripts ps) := by
  cases ps with
  | error fault => rfl
  | ok cs =>
    have hscripts := List.flatMap_congr (h cs rfl)
    simpa [scripts, Renamed, Functor.map, Except.map, List.map_flatMap, List.flatMap_map]
      using hscripts

/-- The script of a renamed tree is the script of the tree, with renamed names. -/
theorem script_renamed (hr : Renaming r) (p : Path) : Renamed r (p.renamed r).script p.script := by
  -- Induction on the tree: the children of the renamed node are the renamed children.
  induction p using induction_on_kids with
  | step p ih =>
    rw [script_eq, script_eq, children_renamed]
    refine .append (.append (enterActions_renamed hr) ?_) (exitActions_renamed hr)
    refine scripts_renamed fun cs hcs c hc => ih c ?_
    rwa [kids_of_children hcs]

end Path

end LexicalScopes
