import LexicalScopes.Proofs.Ranges.Parts
import LexicalScopes.Proofs.Renaming.Names
import LexicalScopes.Proofs.Run.Performs
import LexicalScopes.Proofs.Run.Script

/-!
# Faults of the tree

Reading a tree can only find fault with the tree: a node is malformed, or a value has no meaning
where it stands. Nothing that is read complains about the layers of the graph, whatever the values
are.
-/

namespace LexicalScopes

/-- The reading succeeds, or finds fault with the tree. -/
inductive BlamesTree {α : Type} : Except Cause α → Prop where
  | ok (a : α) : BlamesTree (.ok a)
  | malformed (defect : Defect) (position : Option Position) :
      BlamesTree (.error (.reported (.malformed defect position)))
  | misread (m : Misreading) : BlamesTree (.error (.misread m))

namespace BlamesTree

variable {α β : Type} {x : Except Cause α} {f : α → Except Cause β}

/-- What follows a reading only matters for the value that was read. -/
theorem read (h : BlamesTree x) (hf : ∀ a, x = .ok a → BlamesTree (f a)) :
    BlamesTree (x >>= f) := by
  cases h with
  | ok a => exact hf a rfl
  | malformed defect position => exact .malformed defect position
  | misread m => exact .misread _

theorem bind (h : BlamesTree x) (hf : ∀ a, BlamesTree (f a)) : BlamesTree (x >>= f) :=
  h.read fun a _ => hf a

theorem map (h : BlamesTree x) (g : α → β) : BlamesTree (g <$> x) := by
  cases h with
  | ok a => exact .ok _
  | malformed defect position => exact .malformed defect position
  | misread m => exact .misread _

theorem ite {c : Prop} [Decidable c] {y : Except Cause α} (hx : BlamesTree x)
    (hy : BlamesTree y) : BlamesTree (if c then x else y) := by
  split
  · exact hx
  · exact hy

theorem mapM {xs : List α} (h : ∀ a ∈ xs, BlamesTree (f a)) : BlamesTree (xs.mapM f) := by
  induction xs with
  | nil => exact .ok []
  | cons a xs ih =>
    rw [List.mapM_cons]
    refine (h a List.mem_cons_self).bind fun _ => ?_
    exact (ih fun a ha => h a (List.mem_cons_of_mem _ ha)).bind fun _ => .ok _

/-- Whether a value is read or not, the fault is the same. -/
theorem of_verdict (h : BlamesTree (verdict x)) : BlamesTree x := by
  cases x with
  | ok a => exact .ok a
  | error fault =>
    cases h with
    | malformed defect position => exact .malformed defect position
    | misread m => exact .misread _

/-- A fault that one reading ends with may end another one. -/
theorem error {fault : Cause} (h : BlamesTree x) (hx : x = .error fault) :
    BlamesTree (.error fault : Except Cause β) := by
  subst hx
  cases h with
  | malformed defect position => exact .malformed defect position
  | misread m => exact .misread _

theorem ne_inconsistent (h : BlamesTree x) (breach : Breach) :
    x ≠ .error (.inconsistent breach) := by
  rintro rfl
  cases h

end BlamesTree

variable {α : Type} {p : Path}

/-! ## Values -/

theorem blamesTree_readable (o : Option α) (m : Misreading) :
    BlamesTree (readable o (.misread m)) := by
  cases o with
  | none => exact .misread _
  | some a => exact .ok a

theorem blamesTree_field (j : Json) (key : String) : BlamesTree (j.field key) :=
  blamesTree_readable _ _

theorem blamesTree_entries (j : Json) : BlamesTree j.entries := blamesTree_readable _ _

theorem blamesTree_counted (j : Json) : BlamesTree j.counted := blamesTree_readable _ _

theorem blamesTree_record (j : Json) : BlamesTree j.record := blamesTree_readable _ _

theorem blamesTree_required (n : Node) (key : String) : BlamesTree (n.required key) :=
  blamesTree_readable _ _

theorem blamesTree_optionalNode (j : Json) : BlamesTree j.optionalNode :=
  .ite (blamesTree_readable _ _) (.ok _)

theorem blamesTree_position (node : Json) : BlamesTree (Position.ofNode? node) := by
  unfold Position.ofNode?
  split
  · refine (blamesTree_optionalNode _).bind fun _ => ?_
    exact (blamesTree_optionalNode _).bind fun _ => .ok _
  · exact .ok _

/-- A malformed node is to blame, also if its position cannot be read. -/
theorem blamesTree_malformed (defect : Defect) (node : Json) :
    BlamesTree (.error (.malformed defect node) : Except Cause α) := by
  unfold Cause.malformed
  split
  · exact .malformed defect _
  · rename_i fault hposition
    exact (blamesTree_position node).error hposition

/-! ## Nodes -/

theorem blamesTree_loc (n : Node) : BlamesTree n.loc := by
  unfold Node.loc
  split
  · exact .ite (.ok _) (blamesTree_malformed _ _)
  · exact blamesTree_malformed _ _

theorem blamesTree_start (n : Node) : BlamesTree n.start :=
  (blamesTree_loc n).bind fun _ => .ok _

theorem blamesTree_scalarName (n : Node) : BlamesTree n.scalarName := by
  unfold Node.scalarName
  split
  · exact .ok _
  · exact .misread _

theorem blamesTree_boundName (n : Node) : BlamesTree n.boundName :=
  (blamesTree_loc n).bind fun _ => (blamesTree_scalarName n).bind fun _ => .ok _

theorem blamesTree_propertySlot (pattern property : Json) :
    BlamesTree (propertySlot pattern property) := by
  unfold propertySlot
  split
  · exact .ok _
  · exact blamesTree_malformed _ _

/-- The faults that stand in the list of the names of a target are faults of the tree. -/
theorem blamesTree_boundNames (target : Json) : ∀ x ∈ boundNames target, BlamesTree x := by
  fun_induction boundNames target with
  | case1 n htype =>
    intro x hx
    rw [List.mem_singleton.1 hx]
    exact blamesTree_boundName n
  | case2 n htype hentries =>
    intro x hx
    rw [List.mem_singleton.1 hx]
    exact .misread _
  | case3 n htype properties hentries ih =>
    intro x hx
    obtain ⟨⟨property, hmem⟩, -, hx⟩ := List.mem_flatMap.1 hx
    dsimp only at hx
    split at hx
    · rename_i fault hslot
      rw [List.mem_singleton.1 hx]
      exact (blamesTree_propertySlot _ _).error hslot
    · rename_i slot hslot
      exact ih property hmem slot hslot x hx
  | case4 n htype hentries =>
    intro x hx
    rw [List.mem_singleton.1 hx]
    exact .misread _
  | case5 n htype elements hentries ih =>
    intro x hx
    obtain ⟨⟨element, hmem⟩, -, hx⟩ := List.mem_flatMap.1 hx
    exact ih element hmem x hx
  | case6 n htype ih => exact ih
  | case7 n htype ih => exact ih
  | case8 => nofun
  | case9 => nofun

theorem blamesTree_childFields (n : Node) : BlamesTree n.childFields := by
  unfold Node.childFields
  split
  · exact .ok _
  · exact .ok _
  · exact .misread _

theorem blamesTree_children (p : Path) : BlamesTree p.children :=
  (blamesTree_childFields _).bind fun _ => .ok _

/-! ## Wrappers -/

theorem blamesTree_nextColumn (column : Json) : BlamesTree column.nextColumn := by
  unfold Json.nextColumn
  split
  · exact .ok _
  · exact .ok _
  · exact .ok _
  · exact .misread _

theorem blamesTree_nextPlace (place : Json) : BlamesTree place.nextPlace :=
  (blamesTree_record _).bind fun _ => (blamesTree_required _ _).bind fun _ =>
    (blamesTree_nextColumn _).bind fun _ => .ok _

theorem blamesTree_pairWrapper (pair : Path) : BlamesTree (pairWrapper pair) := by
  unfold pairWrapper
  refine (blamesTree_loc _).bind fun loc => ?_
  split
  · refine .ite ?_ (.ok _)
    exact (blamesTree_start _).bind fun _ => (blamesTree_nextPlace _).bind fun _ => .ok _
  · exact .ok _

theorem blamesTree_isBoxingPair (expressions : Json) : BlamesTree expressions.isBoxingPair := by
  refine (blamesTree_counted _).bind fun entries => ?_
  split
  · exact .misread _
  · exact .ok _
  · exact .ok _

theorem blamesTree_covering (form : WrapperForm) (n : Node) :
    BlamesTree (Wrapper.covering form n) :=
  (blamesTree_loc n).bind fun _ => .ok _

theorem blamesTree_argumentCount (n : Node) : BlamesTree n.argumentCount :=
  (blamesTree_counted _).bind fun _ => .ok _

theorem blamesTree_accessedProperty? (n : Node) : BlamesTree n.accessedProperty? :=
  .ite (.ok _) ((blamesTree_field _ _).map some)

theorem blamesTree_wrapperAt? (parent : Path) (key : String) (index : Option Nat) :
    BlamesTree (wrapperAt? parent key index) := by
  unfold wrapperAt?
  refine .ite ?_ (.ite ?_ (.ite ?_ (.ok _)))
  · refine (blamesTree_isBoxingPair _).bind fun _ => .ite (.ite ?_ (.ok _)) (.ok _)
    exact (blamesTree_pairWrapper _).map some
  · refine .ite ?_ (.ite ?_ (.ok _))
    · exact (blamesTree_argumentCount _).bind fun _ =>
        .ite ((blamesTree_covering _ _).map some) (.ok _)
    · exact (blamesTree_argumentCount _).bind fun _ =>
        .ite ((blamesTree_covering _ _).map some) (.ok _)
  · exact (blamesTree_loc _).bind fun _ => (blamesTree_accessedProperty? _).map _

theorem blamesTree_wrappers (p : Path) : BlamesTree p.wrappers := by
  induction p with
  | root n => exact .ok []
  | child parent key index n ih =>
    rw [Path.wrappers_child]
    refine (blamesTree_wrapperAt? parent key index).bind fun w => ?_
    cases w with
    | none => exact .ok _
    | some w => exact ih.map _

theorem blamesTree_occurrence (p : Path) : BlamesTree p.occurrence :=
  (blamesTree_loc _).bind fun _ => (blamesTree_wrappers p).bind fun _ => .ok _

/-! ## Names of functions -/

theorem blamesTree_scalarType (type : Json) : BlamesTree type.scalarType := by
  unfold Json.scalarType
  split
  · exact .ok _
  · exact .misread _

theorem blamesTree_plainProperty? (target : Json) : BlamesTree target.plainProperty? := by
  unfold Json.plainProperty?
  split
  · exact .ok _
  · exact (blamesTree_scalarType _).bind fun _ => .ite (.ok _) (.ok _)

theorem blamesTree_nameFromParent (function parent : Json) (field : Option String) :
    BlamesTree (nameFromParent function parent field) := by
  refine .of_verdict ?_
  rw [verdict_nameFromParent]
  refine (blamesTree_readable _ _).bind fun _ => (blamesTree_scalarType _).bind fun _ => ?_
  exact .ite (.ok _) (.ite ((blamesTree_plainProperty? _).map _) (.ok _))

theorem blamesTree_functionName (p : Path) : BlamesTree p.functionName := by
  unfold Path.functionName LexicalScopes.functionName
  refine (blamesTree_readable _ _).bind fun _ => ?_
  split
  · exact .ok _
  · exact .ite (.ok _) (.ite (.ok _) (blamesTree_nameFromParent _ _ _))

/-! ## Actions -/

theorem blamesTree_declareTarget (target : Json) (kind : BindingKind) :
    BlamesTree (declareTarget target kind) :=
  (BlamesTree.mapM (blamesTree_boundNames target)).bind fun _ => .ok _

theorem blamesTree_hoistTarget (target : Json) : BlamesTree (hoistTarget target) :=
  (BlamesTree.mapM (blamesTree_boundNames target)).bind fun _ => .ok _

theorem blamesTree_declarationKind (n : Node) : BlamesTree n.declarationKind := by
  unfold Node.declarationKind
  split
  · split
    · exact .ok _
    · exact blamesTree_malformed _ _
  · exact blamesTree_malformed _ _
  · exact .misread _

theorem blamesTree_declaratorTarget (declarator : Json) :
    BlamesTree (Node.declaratorTarget declarator) :=
  (blamesTree_field _ _).bind fun _ => .ite (blamesTree_malformed _ _) (.ok _)

theorem blamesTree_variableActions (n : Node) : BlamesTree n.variableActions := by
  refine (blamesTree_declarationKind n).bind fun kind => (blamesTree_entries _).bind fun _ => ?_
  refine (BlamesTree.mapM fun declarator _ => ?_).bind fun _ => .ok _
  refine (blamesTree_declaratorTarget declarator).bind fun target => ?_
  exact .ite (blamesTree_hoistTarget target) (blamesTree_declareTarget target kind)

theorem blamesTree_specifierAction (specifier : Json) :
    BlamesTree (Node.specifierAction specifier) := by
  refine (blamesTree_field _ _).bind fun name => ?_
  split
  · exact (blamesTree_boundName _).bind fun _ => .ok _
  · exact (blamesTree_field _ _).bind fun _ => blamesTree_malformed _ _

theorem blamesTree_importActions (n : Node) : BlamesTree n.importActions := by
  refine (blamesTree_entries _).bind fun _ => ?_
  exact (BlamesTree.mapM fun _ _ => blamesTree_specifierAction _).bind fun _ => .ok _

theorem blamesTree_programActions (n : Node) : BlamesTree n.programActions :=
  (blamesTree_loc n).bind fun _ => .ok _

theorem blamesTree_functionRange (n : Node) : BlamesTree n.functionRange := by
  refine (blamesTree_loc n).bind fun _ => .ite ?_ (.ok _)
  split
  · exact (blamesTree_readable _ _).bind fun _ => (blamesTree_start _).bind fun _ => .ok _
  · exact .misread _

theorem blamesTree_ownNameActions (n : Node) : BlamesTree n.ownNameActions := by
  unfold Node.ownNameActions
  split
  · exact .ok _
  · refine .ite ?_ (.ite ?_ (.ok _))
    · exact (blamesTree_loc _).bind fun _ => (blamesTree_boundName _).bind fun _ => .ok _
    · exact (blamesTree_boundName _).bind fun _ => .ok _

theorem blamesTree_parameterActions (n : Node) : BlamesTree n.parameterActions := by
  refine (blamesTree_entries _).bind fun _ => ?_
  exact (BlamesTree.mapM fun _ _ => blamesTree_declareTarget _ _).bind fun _ => .ok _

theorem blamesTree_functionActions (p : Path) : BlamesTree p.functionActions := by
  refine (blamesTree_ownNameActions _).bind fun _ => (blamesTree_functionName p).bind fun _ => ?_
  refine (blamesTree_functionRange _).bind fun _ => ?_
  exact (blamesTree_parameterActions _).bind fun _ => .ok _

theorem blamesTree_classActions (n : Node) : BlamesTree n.classActions := by
  unfold Node.classActions
  split
  · exact .ok _
  · refine .ite ?_ ?_
    · exact (blamesTree_boundName _).bind fun _ => (blamesTree_loc _).bind fun _ => .ok _
    · exact (blamesTree_loc _).bind fun _ => (blamesTree_boundName _).bind fun _ => .ok _

theorem blamesTree_loopActions (n : Node) : BlamesTree n.loopActions := by
  unfold Node.loopActions
  dsimp only
  split
  · exact (blamesTree_start _).bind fun _ => (blamesTree_loc _).bind fun _ => .ok _
  · exact .ok _

theorem blamesTree_catchActions (n : Node) : BlamesTree n.catchActions :=
  (blamesTree_loc n).bind fun _ => (blamesTree_declareTarget _ _).map _

theorem blamesTree_blockActions (n : Node) : BlamesTree n.blockActions :=
  (blamesTree_entries _).bind fun _ => .ite ((blamesTree_loc n).bind fun _ => .ok _) (.ok _)

theorem blamesTree_anyLexicalCase (cases : List Json) : BlamesTree (Node.anyLexicalCase cases) := by
  induction cases with
  | nil => exact .ok _
  | cons first rest ih =>
    refine (blamesTree_field _ _).bind fun _ => (blamesTree_entries _).bind fun _ => ?_
    exact .ite (.ok _) ih

theorem blamesTree_switchCases (n : Node) : BlamesTree n.switchCases :=
  (blamesTree_entries _).bind fun _ => .ite (.ok _) (blamesTree_malformed _ _)

theorem blamesTree_switchActions (n : Node) : BlamesTree n.switchActions := by
  refine (blamesTree_switchCases n).bind fun _ => (blamesTree_anyLexicalCase _).bind fun _ => ?_
  exact .ite ((blamesTree_loc n).bind fun _ => .ok _) (.ok _)

theorem blamesTree_classFieldActions (n : Node) : BlamesTree n.classFieldActions :=
  (blamesTree_loc n).bind fun _ => .ok _

theorem blamesTree_identifierActions (p : Path) : BlamesTree p.identifierActions :=
  .ite ((blamesTree_scalarName _).bind fun _ => .ok _) (.ok _)

theorem blamesTree_roleActions (p : Path) : BlamesTree p.roleActions := by
  unfold Path.roleActions
  split
  · exact .ok _
  · exact blamesTree_programActions _
  · exact blamesTree_functionActions p
  · exact blamesTree_classActions _
  · exact blamesTree_loopActions _
  · exact blamesTree_catchActions _
  · exact .ite (.ok _) (blamesTree_blockActions _)
  · exact blamesTree_switchActions _
  · exact blamesTree_classFieldActions _
  · exact blamesTree_variableActions _
  · exact blamesTree_importActions _
  · exact .ok _
  · exact blamesTree_identifierActions p
  · exact .ok _

theorem blamesTree_ownActions (p : Path) : BlamesTree p.ownActions := by
  unfold Path.ownActions
  have hfield : BlamesTree (if p.isChildOf NodeType.classFields "value" then
      p.node.classFieldActions else .ok []) :=
    .ite (blamesTree_classFieldActions _) (.ok _)
  split at hfield
  · simp only [*, if_true]
    exact hfield.bind fun _ => (blamesTree_roleActions p).bind fun _ => .ok _
  · simp only [*]
    exact hfield.bind fun _ => (blamesTree_roleActions p).bind fun _ => .ok _

/-! ## Scripts -/

/-- The faults that come with the action are faults of the tree. -/
def Action.BlamesTree : Action → Prop
  | .refer _ occurrence => LexicalScopes.BlamesTree occurrence
  | .fail fault => LexicalScopes.BlamesTree (.error fault : Except Cause Unit)
  | _ => True

theorem blamesTree_of_performs {a : Action} (h : p.Performs a) : a.BlamesTree := by
  cases h with
  | refer h => exact blamesTree_occurrence p
  | _ => trivial

theorem blamesTree_attempt {x : Except Cause (List Action)} (h : BlamesTree x)
    (hperforms : ∀ actions, x = .ok actions → ∀ a ∈ actions, p.Performs a) :
    ∀ a ∈ Action.attempt x, a.BlamesTree := by
  cases hx : x with
  | ok actions => exact fun a ha => blamesTree_of_performs (hperforms actions hx a ha)
  | error fault => exact List.forall_mem_singleton.2 (h.error hx)

theorem blamesTree_enterActions (p : Path) : ∀ a ∈ p.enterActions, a.BlamesTree := by
  have hown := blamesTree_attempt (blamesTree_ownActions p) fun _ => performs_ownActions
  unfold Path.enterActions
  split
  · exact blamesTree_attempt (blamesTree_programActions p.node) fun _ =>
      performs_programActions (.inl ‹_›)
  · dsimp only
    split
    · exact List.forall_mem_cons.2 ⟨trivial, hown⟩
    · exact hown

theorem blamesTree_exitActions (p : Path) : ∀ a ∈ p.exitActions, a.BlamesTree := by
  unfold Path.exitActions
  split
  · exact List.forall_mem_singleton.2 trivial
  · split
    · exact List.forall_mem_singleton.2 trivial
    · exact nofun

/-- Whatever walking a node meets, it finds fault with the tree only. -/
theorem blamesTree_script (p : Path) : ∀ a ∈ p.script, a.BlamesTree := by
  induction p using Path.induction_on_kids with
  | step p ih =>
    have hkids : ∀ a ∈ Path.scripts p.children, a.BlamesTree := by
      cases hchildren : p.children with
      | error fault => exact List.forall_mem_singleton.2 ((blamesTree_children p).error hchildren)
      | ok cs =>
        rw [← Path.kids_of_children hchildren]
        intro a ha
        obtain ⟨c, hc, ha⟩ := List.mem_flatMap.1 ha
        exact ih c hc a ha
    rw [Path.script_eq]
    intro a ha
    rcases List.mem_append.1 ha with ha | ha
    · exact (List.mem_append.1 ha).elim (blamesTree_enterActions p a) (hkids a)
    · exact blamesTree_exitActions p a ha

/-! ## Replaying -/

namespace Builder

theorem blamesTree_here (b : Builder) (method : String) : BlamesTree (b.here method) :=
  blamesTree_readable _ _

theorem blamesTree_refer (b : Builder) (name : Scalar) {occurrence : Except Cause Occurrence}
    (h : BlamesTree occurrence) : BlamesTree (b.refer name occurrence) := by
  refine (b.blamesTree_here _).bind fun s => ?_
  split
  · exact .ok _
  · split
    · exact .ok _
    · exact h.bind fun _ => .ok _

theorem blamesTree_apply (b : Builder) {a : Action} (h : a.BlamesTree) :
    BlamesTree (b.apply a) := by
  cases a with
  | restore =>
    rw [apply]
    split <;> exact .ok _
  | declare | hoist | declareFunction | introduce => exact (b.blamesTree_here _).bind fun _ => .ok _
  | refer name occurrence => exact b.blamesTree_refer name h
  | fail fault => exact LexicalScopes.BlamesTree.error h rfl
  | _ => exact .ok _

theorem blamesTree_replay (b : Builder) {actions : List Action}
    (h : ∀ a ∈ actions, a.BlamesTree) : BlamesTree (b.replay actions) := by
  induction actions generalizing b with
  | nil => exact .ok b
  | cons a actions ih =>
    obtain ⟨ha, hactions⟩ := List.forall_mem_cons.1 h
    rw [replay_cons]
    exact (b.blamesTree_apply ha).bind fun b' => ih b' hactions

end Builder

theorem blamesTree_collect (ast : Json) : BlamesTree (collect ast) := by
  unfold collect
  split
  · rw [Builder.ofTree_eq_replay]
    exact .ite (Builder.blamesTree_replay _ (blamesTree_script _)) (blamesTree_malformed _ _)
  · exact blamesTree_malformed _ _

/-! ## Copying -/

theorem blamesTree_ofPlace (place : Json) : BlamesTree (Location.ofPlace place) :=
  (blamesTree_record _).bind fun _ => (blamesTree_required _ _).bind fun _ =>
    (blamesTree_required _ _).bind fun _ => .ok _

theorem blamesTree_ofPlaces (start stop : Json) : BlamesTree (Range.ofPlaces start stop) :=
  (blamesTree_ofPlace _).bind fun _ => (blamesTree_ofPlace _).bind fun _ => .ok _

theorem blamesTree_ofLoc (loc : Json) : BlamesTree (Range.ofLoc loc) :=
  (blamesTree_record _).bind fun _ => (blamesTree_required _ _).bind fun _ =>
    (blamesTree_ofPlace _).bind fun _ => (blamesTree_required _ _).bind fun _ =>
      (blamesTree_ofPlace _).bind fun _ => .ok _

theorem blamesTree_toWrapping (w : Wrapper) : BlamesTree w.toWrapping :=
  (blamesTree_ofPlaces _ _).bind fun _ => .ok _

theorem blamesTree_exportChain (ws : List Wrapper) : BlamesTree (Wrapper.exportChain ws) := by
  induction ws with
  | nil => exact .ok []
  | cons w ws ih =>
    rw [Wrapper.exportChain_cons]
    exact ih.bind fun _ => (blamesTree_toWrapping w).bind fun _ => .ok _

theorem blamesTree_toReference (o : Occurrence) : BlamesTree o.toReference :=
  (blamesTree_ofPlaces _ _).bind fun _ => (blamesTree_exportChain _).bind fun _ => .ok _

theorem blamesTree_toBinding (e : Entry) : BlamesTree e.toBinding :=
  (BlamesTree.mapM fun _ _ => blamesTree_ofLoc _).bind fun _ =>
    (BlamesTree.mapM fun _ _ => blamesTree_toReference _).bind fun _ => .ok _

theorem blamesTree_treeFrom (g : Graph) (fuel : Nat) (s : ScopeId) :
    BlamesTree (g.treeFrom fuel s) := by
  induction fuel generalizing s with
  | zero => exact .misread _
  | succ fuel ih =>
    refine (blamesTree_ofLoc _).bind fun _ => ?_
    refine (BlamesTree.mapM fun _ _ => (blamesTree_toBinding _).bind fun _ => .ok _).bind
      fun _ => ?_
    exact (BlamesTree.mapM fun s _ => ih s).bind fun _ => .ok _

end LexicalScopes
