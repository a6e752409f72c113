import LexicalScopes.Proofs.Run.Script
import LexicalScopes.Proofs.Spelling.Paths

/-!
# Actions of respelled trees

A node of a respelled tree does what the node itself does. A method that is merged with its function
does what the function does, and the node around the function does nothing.
-/

namespace LexicalScopes

/-- The actions do the same to the scopes, or both fail. -/
inductive Action.Matches : Action → Action → Prop where
  | same (a : Action) : Matches a a
  | refer (name : Scalar) {o o' : Except Cause Occurrence} (h : Alike Eq o o') :
      Matches (.refer name o) (.refer name o')
  | fail (fault fault' : Cause) : Matches (.fail fault) (.fail fault')

variable {n m method f : Node} {j k : Json} {p q : Path} {key : String} {types : List String}
  {methods : Option (String × String)}

namespace Action

theorem Matches.refl_list (actions : List Action) : List.Forall₂ Matches actions actions :=
  List.forall₂_same.2 fun a _ => .same a

theorem Matches.opens_eq {a a' : Action} (h : Matches a a') : a'.opens = a.opens := by
  cases h <;> rfl

theorem Matches.any_opens {actions actions' : List Action}
    (h : List.Forall₂ Matches actions actions') : actions'.any opens = actions.any opens := by
  induction h with
  | nil => rfl
  | cons ha _ ih => rw [List.any_cons, List.any_cons, ha.opens_eq, ih]

/-- Actions that match, or two failures to read them. -/
abbrev Match (x y : Except Cause (List Action)) : Prop := Alike (List.Forall₂ Matches) x y

theorem Match.of_alike {x y : Except Cause (List Action)} (h : Alike Eq x y) : Match x y := by
  cases h with
  | ok h => exact .ok (h ▸ Matches.refl_list _)
  | error fault fault' => exact .error fault fault'

theorem Match.attempt {x y : Except Cause (List Action)} (h : Match x y) :
    List.Forall₂ Matches (attempt x) (attempt y) := by
  cases h with
  | ok h => exact h
  | error fault fault' => exact .cons (.fail fault fault') .nil

end Action

open LexicalScopes.Action (Matches Match)

/-! ## Values -/

namespace Json.Respells

theorem names (h : Respells none j k) :
    Alike Eq ((boundNames j).mapM id) ((boundNames k).mapM id) :=
  .mapM_eq (forall₂_boundNames h) fun _ _ h => h

theorem declareTarget (h : Respells none j k) (kind : BindingKind) :
    Alike Eq (declareTarget j kind) (declareTarget k kind) :=
  h.names.bind_eq fun _ => .refl _

theorem hoistTarget (h : Respells none j k) : Alike Eq (hoistTarget j) (hoistTarget k) :=
  h.names.bind_eq fun _ => .refl _

theorem any_items {g : Json → Bool} {xs ys : List Json} (h : List.Forall₂ (Respells none) xs ys)
    (hg : ∀ x y, Respells none x y → g y = g x) : ys.any g = xs.any g := by
  induction h with
  | nil => rfl
  | cons hxy _ ih => rw [List.any_cons, List.any_cons, hg _ _ hxy, ih]

theorem declaratorTarget (h : Respells none j k) :
    Alike (Respells none) (Node.declaratorTarget j) (Node.declaratorTarget k) := by
  refine (h.field (by decide)).bind fun x y hxy => ?_
  rw [hxy.isNull_eq]
  exact .ite (.error _ _) (.ok hxy)

theorem specifierAction (h : Respells none j k) :
    Alike Eq (Node.specifierAction j) (Node.specifierAction k) := by
  have hnamespace := h.isAny_eq (by decide : NodeType.closed ["ImportNamespaceSpecifier"] = true)
  -- Without a local name both fail, whatever is said of their types.
  have hfault (e e' : Json → Cause) : Alike Eq
      (j.field "type" >>= fun type => (.error (e type) : Except Cause Action))
      (k.field "type" >>= fun type => .error (e' type)) := by
    cases j.field "type" <;> cases k.field "type" <;> exact .error _ _
  unfold Node.specifierAction
  refine (h.field (by decide)).bind fun x y hxy => ?_
  rw [hxy.isAny_eq (by decide), hnamespace]
  cases hid : x.isAny ["Identifier"] with
  | false => exact hfault _ _
  | true =>
    rcases hxy.cases with ⟨s, rfl, rfl⟩ | ⟨xs, ys, rfl, rfl, -⟩ | ⟨n, m, rfl, rfl, hn⟩
    · exact hfault _ _
    · exact hfault _ _
    · exact (hn.boundName hid).bind_eq fun _ => .refl _

end Json.Respells

/-! ## Declarations -/

namespace Node.Respelled

theorem declarationKind (h : n.Respelled m) : Alike Eq n.declarationKind m.declarationKind := by
  have hkind := h.get_plain (by decide : "kind" ∉ _)
  unfold Node.declarationKind
  rcases hkind.cases with ⟨s, hn, hm⟩ | ⟨xs, ys, hn, hm, -⟩ | ⟨n', m', hn, hm, -⟩
  · rw [hn, hm]
    cases s with
    | string kind =>
      dsimp only
      cases declarationKinds.lookup kind with
      | some k => exact .refl _
      | none => exact .error _ _
    | _ => exact .error _ _
  · rw [hn, hm]
    exact .error _ _
  · rw [hn, hm]
    exact .error _ _

theorem variableActions (h : n.Respelled m) : Alike Eq n.variableActions m.variableActions := by
  have hdeclarations := h.get_plain (by decide : "declarations" ∉ _)
  refine h.declarationKind.bind_eq fun kind => hdeclarations.entries.bind fun xs ys hitems => ?_
  refine (Alike.mapM_eq hitems fun x y hxy => ?_).bind_eq fun _ => .refl _
  exact hxy.declaratorTarget.bind fun _ _ htarget =>
    .ite htarget.hoistTarget (htarget.declareTarget kind)

theorem importActions (h : n.Respelled m) : Alike Eq n.importActions m.importActions := by
  have hspecifiers := h.get_plain (by decide : "specifiers" ∉ _)
  refine hspecifiers.entries.bind fun xs ys hitems => ?_
  exact (Alike.mapM_eq hitems fun _ _ hxy => hxy.specifierAction).bind_eq fun _ => .refl _

end Node.Respelled

/-! ## Scopes -/

namespace Node

/-- The range of a function is read off its location and its parameters alone. -/
theorem alike_functionRange (hloc : m.get "loc" = n.get "loc")
    (hparams : Json.Respells none (n.get "params") (m.get "params")) :
    Alike Eq n.functionRange m.functionRange := by
  unfold functionRange
  refine (alike_loc_of_get hloc).bind_eq fun loc => ?_
  dsimp only
  rw [hparams.isPresent_eq]
  refine .ite ?_ (.refl _)
  rcases hparams.cases with ⟨s, hn, hm⟩ | ⟨xs, ys, hn, hm, hitems⟩ | ⟨n', m', hn, hm, -⟩
  · rw [hn, hm]
    exact .error _ _
  · rw [hn, hm]
    cases hitems with
    | nil => exact .error _ _
    | cons hfirst _ =>
      exact (Alike.readable hfirst.node? _ _).bind fun _ _ h => h.start.bind_eq fun _ => .refl _
  · rw [hn, hm]
    exact .error _ _

/-- What the parameters do does not depend on the other fields of the function. -/
theorem alike_parameterActions (hparams : Json.Respells none (n.get "params") (m.get "params"))
    (harrow : m.isAny ["ArrowFunctionExpression"] = n.isAny ["ArrowFunctionExpression"]) :
    Alike Eq n.parameterActions m.parameterActions := by
  unfold parameterActions
  rw [harrow]
  refine hparams.entries.bind fun xs ys hitems => ?_
  exact (Alike.mapM_eq hitems fun _ _ hxy => hxy.declareTarget .var).bind_eq fun _ => .refl _

namespace Respelled

theorem programActions (h : n.Respelled m) : Alike Eq n.programActions m.programActions :=
  h.loc.bind_eq fun _ => .refl _

theorem ownNameActions (h : n.Respelled m) : Alike Eq n.ownNameActions m.ownNameActions := by
  have hid := h.identifier?
  unfold Node.ownNameActions
  rw [h.isAny_eq (by decide), h.isAny_eq (by decide)]
  generalize n.identifier? = o, m.identifier? = o' at hid
  cases hid with
  | none => exact .refl _
  | some hid =>
    have hname := hid.1.boundName hid.2
    exact .ite (h.loc.bind_eq fun _ => hname.bind_eq fun _ => .refl _)
      (.ite (hname.bind_eq fun _ => .refl _) (.refl _))

theorem classActions (h : n.Respelled m) : Alike Eq n.classActions m.classActions := by
  have hid := h.identifier?
  unfold Node.classActions
  rw [h.isAny_eq (by decide)]
  generalize n.identifier? = o, m.identifier? = o' at hid
  cases hid with
  | none => exact .refl _
  | some hid =>
    have hname := hid.1.boundName hid.2
    exact .ite (hname.bind_eq fun _ => h.loc.bind_eq fun _ => .refl _)
      (h.loc.bind_eq fun _ => hname.bind_eq fun _ => .refl _)

theorem loopHead (h : n.Respelled m) : Json.Respells none n.loopHead m.loopHead := by
  have hinit := h.get_plain (by decide : "init" ∉ _)
  unfold Node.loopHead
  rw [hinit.isPresent_eq]
  split
  · exact hinit
  · exact h.get_plain (by decide)

theorem loopActions (h : n.Respelled m) : Alike Eq n.loopActions m.loopActions := by
  have hhead := h.loopHead
  unfold Node.loopActions
  dsimp only
  rw [hhead.isLexicalDeclaration_eq]
  cases n.loopHead.isLexicalDeclaration with
  | false => exact .refl _
  | true =>
    rcases hhead.cases with ⟨s, hn, hm⟩ | ⟨xs, ys, hn, hm, -⟩ | ⟨n', m', hn, hm, hdeclaration⟩
    · rw [hn, hm]
      exact .refl _
    · rw [hn, hm]
      exact .refl _
    · rw [hn, hm]
      exact hdeclaration.start.bind_eq fun _ => h.loc.bind_eq fun _ => .refl _

theorem catchActions (h : n.Respelled m) : Alike Eq n.catchActions m.catchActions :=
  h.loc.bind_eq fun _ => ((h.get_plain (by decide)).declareTarget .var).bind_eq fun _ => .refl _

theorem blockActions (h : n.Respelled m) (hblock : n.isAny ["BlockStatement"] = true) :
    Alike Eq n.blockActions m.blockActions := by
  have hbody := h.get (by decide : "body" ≠ "type")
    (methodTypes?_eq_none_of_isAny hblock (by decide))
  refine hbody.entries.bind fun xs ys hitems => ?_
  rw [Json.Respells.any_items hitems fun _ _ hxy => hxy.declaresInBlock_eq]
  exact .ite (h.loc.bind_eq fun _ => .refl _) (.refl _)

theorem anyLexicalCase {xs ys : List Json} (h : List.Forall₂ (Json.Respells none) xs ys) :
    Alike Eq (Node.anyLexicalCase xs) (Node.anyLexicalCase ys) := by
  induction h with
  | nil => exact .refl _
  | cons hcase _ ih =>
    unfold Node.anyLexicalCase
    refine (hcase.field (by decide)).bind fun _ _ hstatements => ?_
    refine hstatements.entries.bind fun _ _ hitems => ?_
    rw [Json.Respells.any_items hitems fun _ _ hxy => hxy.isLexicalDeclaration_eq]
    exact .ite (.refl _) ih

theorem switchCases (h : n.Respelled m) :
    Alike (List.Forall₂ (Json.Respells none)) n.switchCases m.switchCases := by
  refine (h.get_plain (by decide)).entries.bind fun xs ys hitems => ?_
  have hcases : ys.all (·.isAny ["SwitchCase"]) = xs.all (·.isAny ["SwitchCase"]) := by
    rw [List.all_eq_not_any_not, List.all_eq_not_any_not]
    refine congrArg _ (Json.Respells.any_items hitems fun _ _ hxy => ?_)
    rw [hxy.isAny_eq (by decide)]
  rw [hcases]
  exact .ite (.ok hitems) (.error _ _)

theorem switchActions (h : n.Respelled m) : Alike Eq n.switchActions m.switchActions :=
  h.switchCases.bind fun _ _ hcases => (anyLexicalCase hcases).bind_eq fun _ =>
    .ite (h.loc.bind_eq fun _ => .refl _) (.refl _)

theorem classFieldActions (h : n.Respelled m) : Alike Eq n.classFieldActions m.classFieldActions :=
  h.loc.bind_eq fun _ => .refl _

end Respelled

end Node

/-! ## Nodes -/

namespace Path.Respells

theorem identifierActions (h : Respells p q) (hnode : p.node.Respelled q.node) :
    Match p.identifierActions q.identifierActions := by
  unfold Path.identifierActions
  rw [h.isReferenced_eq]
  split
  · rw [hnode.scalarName_eq (isAny_of_isReferenced ‹_›)]
    cases p.node.scalarName with
    | error fault => exact .error _ _
    | ok name => exact .ok (.cons (.refer name (h.occurrence hnode)) .nil)
  · exact .ok .nil

theorem functionActions (h : Respells p q)
    (hown : Alike Eq p.node.ownNameActions q.node.ownNameActions)
    (hrange : Alike Eq p.node.functionRange q.node.functionRange)
    (hparams : Alike Eq p.node.parameterActions q.node.parameterActions) :
    Alike Eq p.functionActions q.functionActions :=
  hown.bind_eq fun _ => h.functionName.bind_eq fun _ => hrange.bind_eq fun _ =>
    hparams.bind_eq fun _ => .refl _

theorem roleActions (h : Respells p q) (hnode : p.node.Respelled q.node) :
    Match p.roleActions q.roleActions := by
  unfold Path.roleActions
  rw [hnode.tag.type.role?_eq, h.isFunctionBody_eq]
  cases hrole : p.node.role? with
  | none => exact .ok .nil
  | some role =>
    cases role with
    | program => exact .of_alike hnode.programActions
    | function =>
      have hparams := hnode.get_plain (by decide : "params" ∉ _)
      exact .of_alike (h.functionActions hnode.ownNameActions
        (Node.alike_functionRange hnode.get_loc hparams)
        (Node.alike_parameterActions hparams (hnode.isAny_eq (by decide))))
    | classScope => exact .of_alike hnode.classActions
    | loop => exact .of_alike hnode.loopActions
    | catchClause => exact .of_alike hnode.catchActions
    | block =>
      have hblock := Node.isAny_of_role? ["BlockStatement"] (by decide) hrole
      exact .of_alike (.ite (.refl _) (hnode.blockActions hblock))
    | switch => exact .of_alike hnode.switchActions
    | classField => exact .of_alike hnode.classFieldActions
    | «variables» => exact .of_alike hnode.variableActions
    | imports => exact .of_alike hnode.importActions
    | exports => exact .of_alike (.refl _)
    | identifier => exact h.identifierActions hnode
    | this => exact .ok (.cons (.refer _ (h.occurrence hnode)) .nil)

theorem ownActions (h : Respells p q)
    (hfield : p.isChildOf NodeType.classFields "value" = true →
      Alike Eq p.node.classFieldActions q.node.classFieldActions)
    (hrole : Match p.roleActions q.roleActions) : Match p.ownActions q.ownActions := by
  have hrest (field : List Action) : Match (p.roleActions >>= fun actions => .ok (field ++ actions))
      (q.roleActions >>= fun actions => .ok (field ++ actions)) :=
    hrole.bind fun _ _ hactions => .ok (List.rel_append (Matches.refl_list field) hactions)
  unfold Path.ownActions
  rw [h.isFieldValue_eq]
  split
  · exact (hfield ‹_›).bind_eq hrest
  · exact hrest []

/-- A node and its counterpart do the same when they are entered and when they are left. -/
theorem hooks (hprogram : q.isProgram = p.isProgram)
    (hnode : p.isProgram = true → Alike Eq p.node.programActions q.node.programActions)
    (hown : Match p.ownActions q.ownActions) :
    List.Forall₂ Matches p.enterActions q.enterActions ∧
      List.Forall₂ Matches p.exitActions q.exitActions := by
  have hactions := hown.attempt
  have hopens := Matches.any_opens hactions
  unfold Path.enterActions Path.exitActions
  rw [hprogram, hopens]
  constructor
  · split
    · exact (Match.of_alike (hnode ‹_›)).attempt
    · dsimp only
      rw [hopens]
      split
      · exact .cons (.same .mark) hactions
      · exact hactions
  · exact Matches.refl_list _

end Path.Respells

end LexicalScopes
