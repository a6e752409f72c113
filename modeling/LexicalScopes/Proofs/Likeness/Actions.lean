import LexicalScopes.Proofs.Likeness.Names

/-!
# What nodes do that are read alike

Nodes that are read alike do the same to the scopes, as far as it depends on them alone.
-/

namespace LexicalScopes

variable {R : Bool → Json → Json → Prop} {a : Bool} {j k : Json} {n m : Node}

/-! ## Targets -/

namespace Likeness

theorem declareTarget_eq (hR : Likeness R) (h : R a j k) (kind : BindingKind) :
    declareTarget k kind = declareTarget j kind := by
  rw [declareTarget, hR.mapM_boundNames_eq h, declareTarget]

theorem hoistTarget_eq (hR : Likeness R) (h : R a j k) : hoistTarget k = hoistTarget j := by
  rw [hoistTarget, hR.mapM_boundNames_eq h, hoistTarget]

/-- What is done with the target of a declarator. -/
theorem bind_declaratorTarget_eq (hR : Likeness R) (h : R a j k) {α : Type}
    {f : Json → Except Cause α} (hf : ∀ x y, R false x y → f y = f x) :
    Node.declaratorTarget k >>= f = Node.declaratorTarget j >>= f := by
  unfold Node.declaratorTarget
  rw [bind_assoc, bind_assoc]
  refine readable_bind_congr ((hR h).field? (by decide)) ((hR h).misread_eq (.method · "get"))
    fun x y hxy => ?_
  rw [(hR hxy).isNull_eq, (hR h).malformed_eq]
  split
  · rfl
  · exact hf x y hxy

theorem specifierAction_eq (hR : Likeness R) (h : R a j k) :
    Node.specifierAction k = Node.specifierAction j := by
  unfold Node.specifierAction
  refine readable_bind_congr ((hR h).field? (by decide)) ((hR h).misread_eq (.method · "get"))
    fun name name' hname => ?_
  have hnode := (hR hname).node?
  have htype : k.field "type" = j.field "type" := by
    rw [Json.field, (hR h).field?_type, (hR h).kind_eq, Json.field]
  rw [(hR hname).isAny_eq, htype]
  simp only [(hR h).malformed_eq, (hR h).isAny_eq]
  cases hid : name.isAny ["Identifier"] with
  | false => rfl
  | true =>
    cases hR hname with
    | scalar s => cases hid
    | array _ => cases hid
    | object hm =>
      dsimp only [Json.node?]
      rw [hm.boundName_eq hid]

end Likeness

/-! ## Nodes -/

namespace Node.Matches

variable {α : Type}

/-- What is done with the entries of a field. -/
theorem entries_bind_congr (h : n.Matches R a m) (hR : Likeness R) {key : String}
    (hkey : key ∈ inspected) {f g : List Json → Except Cause α}
    (hfg : ∀ xs ys, Listed R xs ys → g ys = f xs) :
    (m.get key).entries >>= g = (n.get key).entries >>= f :=
  have hlist := hR (h.part key hkey)
  readable_bind_congr hlist.entries? (hlist.misread_eq .entries) hfg

theorem declarationKind_eq (h : n.Matches R a m) (hR : Likeness R) :
    m.declarationKind = n.declarationKind := by
  have hkind := hR (h.part "kind" (by decide))
  unfold Node.declarationKind
  generalize n.get "kind" = kind, m.get "kind" = kind' at hkind
  cases hkind with
  | scalar s => cases s <;> simp only [h.malformed_eq]
  | array _ => simp
  | object _ => simp

theorem variableActions_eq (h : n.Matches R a m) (hR : Likeness R) :
    m.variableActions = n.variableActions := by
  unfold Node.variableActions
  rw [h.declarationKind_eq hR]
  congr 1
  funext kind
  refine h.entries_bind_congr hR (by decide) fun xs ys hlisted => ?_
  -- A text has no target.
  rw [hlisted.mapM_eq (.misread (.method .string "get")) (fun x y hxy => ?_) fun s => rfl]
  refine hR.bind_declaratorTarget_eq hxy fun target target' htarget => ?_
  rw [hR.hoistTarget_eq htarget, hR.declareTarget_eq htarget]

theorem importActions_eq (h : n.Matches R a m) (hR : Likeness R) :
    m.importActions = n.importActions := by
  unfold Node.importActions
  refine h.entries_bind_congr hR (by decide) fun xs ys hlisted => ?_
  rw [hlisted.mapM_eq (.misread (.method .string "get"))
    (fun x y hxy => hR.specifierAction_eq hxy) fun s => rfl]

theorem programActions_eq (h : n.Matches R a m) : m.programActions = n.programActions := by
  rw [programActions, h.loc_eq, programActions]

theorem functionRange_eq (h : n.Matches R a m) (hR : Likeness R) :
    m.functionRange = n.functionRange := by
  have hparams := hR (h.part "params" (by decide))
  unfold Node.functionRange
  rw [h.loc_eq]
  congr 1
  funext loc
  dsimp only
  rw [hparams.isPresent_eq]
  generalize n.get "params" = params, m.get "params" = params' at hparams
  cases hparams with
  | scalar s => rfl
  | array hitems =>
    cases hitems with
    | nil => rfl
    | cons hfirst _ =>
      congr 1
      refine readable_bind_congr (hR hfirst).node? ((hR hfirst).misread_eq (.method · "get"))
        fun first first' hmatches => ?_
      rw [hmatches.start_eq]
  | object _ => rfl

theorem ownNameActions_eq (h : n.Matches R a m) (hR : Likeness R) :
    m.ownNameActions = n.ownNameActions := by
  have hid := h.identifier? hR
  unfold Node.ownNameActions
  generalize hname : n.identifier? = o, m.identifier? = o' at hid
  cases hid with
  | none => rfl
  | some hid => simp only [h.isAny_eq, h.loc_eq, hid.boundName_eq (isAny_of_identifier? hname).2]

theorem parameterActions_eq (h : n.Matches R a m) (hR : Likeness R) :
    m.parameterActions = n.parameterActions := by
  unfold Node.parameterActions
  rw [h.isAny_eq]
  refine h.entries_bind_congr hR (by decide) fun xs ys hlisted => ?_
  refine bind_congr_map (hlisted.flatten_mapM_eq
    (fun x y hxy => hR.declareTarget_eq hxy .var) fun s => ?_) fun made made' hmade => ?_
  · rw [declareTarget, boundNames_string]
    rfl
  · rw [hmade]

theorem classActions_eq (h : n.Matches R a m) (hR : Likeness R) :
    m.classActions = n.classActions := by
  have hid := h.identifier? hR
  unfold Node.classActions
  generalize hname : n.identifier? = o, m.identifier? = o' at hid
  cases hid with
  | none => rfl
  | some hid => simp only [h.isAny_eq, h.loc_eq, hid.boundName_eq (isAny_of_identifier? hname).2]

theorem loopHead (h : n.Matches R a m) (hR : Likeness R) : R false n.loopHead m.loopHead := by
  have hinit := h.part "init" (by decide)
  unfold Node.loopHead
  rw [(hR hinit).isPresent_eq]
  split
  · exact hinit
  · exact h.part "left" (by decide)

theorem loopActions_eq (h : n.Matches R a m) (hR : Likeness R) :
    m.loopActions = n.loopActions := by
  have hhead := h.loopHead hR
  have hnode := (hR hhead).node?
  unfold Node.loopActions
  dsimp only
  rw [hR.isLexicalDeclaration_eq hhead]
  cases n.loopHead.isLexicalDeclaration with
  | false => rfl
  | true =>
    generalize n.loopHead.node? = o, m.loopHead.node? = o' at hnode
    cases hnode with
    | none => rfl
    | some hdeclaration => simp only [hdeclaration.start_eq, h.loc_eq]

theorem catchActions_eq (h : n.Matches R a m) (hR : Likeness R) :
    m.catchActions = n.catchActions := by
  rw [catchActions, h.loc_eq, hR.declareTarget_eq (h.part "param" (by decide)), catchActions]

/-- A block is no function, so its statements are looked at. -/
theorem blockActions_eq (h : n.Matches R a m) (hR : Likeness R)
    (hblock : n.isAny NodeType.functions = false) : m.blockActions = n.blockActions := by
  unfold Node.blockActions
  have hbody := hR (h.body hblock)
  refine readable_bind_congr hbody.entries? (hbody.misread_eq .entries) fun xs ys hlisted => ?_
  rw [hlisted.any_eq (fun x y hxy => hR.declaresInBlock_eq hxy) fun s => rfl, h.loc_eq]

theorem anyLexicalCase_eq (hR : Likeness R) {xs ys : List Json} (h : List.Forall₂ (R false) xs ys) :
    anyLexicalCase ys = anyLexicalCase xs := by
  induction h with
  | nil => rfl
  | cons hxy _ ih =>
    rw [anyLexicalCase, anyLexicalCase]
    refine readable_bind_congr ((hR hxy).field? (by decide)) ((hR hxy).misread_eq (.method · "get"))
      fun s s' hs => ?_
    refine readable_bind_congr (hR hs).entries? ((hR hs).misread_eq .entries)
      fun zs zs' hlisted => ?_
    rw [hlisted.any_eq (fun z z' hz => hR.isLexicalDeclaration_eq hz) fun s => rfl, ih]

theorem switchActions_eq (h : n.Matches R a m) (hR : Likeness R) :
    m.switchActions = n.switchActions := by
  unfold Node.switchActions Node.switchCases
  rw [bind_assoc, bind_assoc]
  refine h.entries_bind_congr hR (by decide) fun xs ys hlisted => ?_
  have hall : ys.all (·.isAny ["SwitchCase"]) = xs.all (·.isAny ["SwitchCase"]) :=
    hlisted.all_eq (fun x y hxy => (hR hxy).isAny_eq) fun s => rfl
  rw [hall, h.malformed_eq, h.loc_eq]
  split
  · rename_i hcases
    -- Cases are nodes, so they are related one by one.
    have hitems := hlisted.forall₂_of_all (fun s => rfl) hcases
    rw [pure_bind, pure_bind, anyLexicalCase_eq hR hitems]
  · rfl

theorem classFieldActions_eq (h : n.Matches R a m) : m.classFieldActions = n.classFieldActions := by
  rw [classFieldActions, h.loc_eq, classFieldActions]

end Node.Matches

end LexicalScopes
