import LexicalScopes.Proofs.Likeness.Actions
import LexicalScopes.Proofs.Spelling.Script
import LexicalScopes.Proofs.Wrapping.Forms

/-!
# Paths to nodes that are read alike

What a node does depends on the nodes above it, too: whether it is read, what name a function has
and how it is wrapped. Two paths are akin if they lead to related nodes and the nodes above are
related as well, up to two nodes that mean nothing to what they hold. Akin paths have the same
actions, and the same script if their children are akin again.
-/

namespace LexicalScopes

variable {R : Bool → Json → Json → Prop} {a : Bool} {n m : Node} {p q : Path} {key : String}
  {index : Option Nat} {types : List String}

/-! ## Nodes that mean nothing to what they hold -/

/-- Types of nodes on which it depends what a node in one of their fields does. -/
def NodeType.significant : List String :=
  Reading.table.map (·.1) ++ NodeType.calls ++ ["SequenceExpression", "ExportDefaultDeclaration"]

/-- A node in a field of this node does the same as in a field of any other such node. -/
structure Node.IsInert (n : Node) : Prop where
  type : ∃ t, n.type = .string t ∧ t ∉ NodeType.significant
  source : (n.get "source").isPresent = false

namespace Node.IsInert

theorem isAny_eq_false (h : n.IsInert) (htypes : ∀ t ∈ types, t ∈ NodeType.significant) :
    n.isAny types = false := by
  obtain ⟨t, htype, ht⟩ := h.type
  rw [Bool.eq_false_iff]
  intro hany
  obtain ⟨t', ht', htype'⟩ := isAny_iff.1 hany
  cases htype.symm.trans htype'
  exact ht (htypes t ht')

theorem isChildOf_eq_false {p : Path} (h : p.node.IsInert)
    (htypes : ∀ t ∈ types, t ∈ NodeType.significant) {field : String} :
    (Path.child p key index n).isChildOf types field = false := by
  rw [Path.isChildOf, h.isAny_eq_false htypes, Bool.and_false]

theorem readsIn_eq_true {p : Path} (h : p.node.IsInert) : p.readsIn key = true := by
  obtain ⟨t, htype, ht⟩ := h.type
  have hlookup : Reading.table.lookup t = none := by
    rw [List.lookup_eq_none_iff]
    intro entry hentry
    rw [bne_iff_ne]
    rintro rfl
    refine ht (List.mem_append_left _ (List.mem_append_left _ ?_))
    exact List.mem_map_of_mem hentry
  rw [Path.readsIn, Node.reading, htype]
  simp only [hlookup]
  rfl

theorem wrapperAt?_eq {p : Path} (h : p.node.IsInert) :
    wrapperAt? p key index = .ok none := by
  have hsequence : p.node.isAny ["SequenceExpression"] = false := h.isAny_eq_false (by decide)
  have hcalls : p.node.isAny NodeType.calls = false := h.isAny_eq_false (by decide)
  have hmembers : p.node.isAny NodeType.members = false := h.isAny_eq_false (by decide)
  simp only [wrapperAt?, hsequence, hcalls, hmembers, Bool.false_and, Bool.false_eq_true, if_false]
  rfl

theorem nameFromParent_eq (h : n.IsInert) (function : Json) (field : Option String) :
    nameFromParent function (.object n) field = .ok (.string "anonymous") := by
  obtain ⟨t, htype, ht⟩ := h.type
  have hnone (types : List String) (htypes : ∀ t ∈ types, t ∈ NodeType.significant) :
      (Scalar.string t).isOneOf types = false := by
    rw [Scalar.isOneOf, ← Bool.not_eq_true, List.contains_iff_mem]
    exact fun hmem => ht (htypes t hmem)
  simp only [nameFromParent, Json.fields_object, ok_bind, htype, Json.scalarType,
    hnone (NodeType.properties ++ NodeType.classFields ++ ["MethodDefinition"]) (by decide),
    hnone ["AssignmentExpression"] (by decide), hnone ["AssignmentPattern"] (by decide),
    hnone ["VariableDeclarator"] (by decide), hnone ["ExportDefaultDeclaration"] (by decide),
    Bool.false_and, Bool.false_eq_true, if_false]
  rfl

end Node.IsInert

/-! ## Akin paths -/

/-- The paths lead to related nodes, below nodes that are related, or mean nothing to them. The
arguments of a call may be an object; then it has to count for one argument in both trees or in
neither. -/
inductive Path.Akin (R : Bool → Json → Json → Prop) : Path → Path → Prop where
  | root {n m : Node} (h : R false (.object n) (.object m)) : Akin R (.root n) (.root m)
  | child {p q : Path} {n m : Node} (hp : Akin R p q) (h : R false (.object n) (.object m))
      (key : String) (index : Option Nat)
      (hcount : key = "arguments" → n.loc.isOk = true →
        (q.node.argumentCount = .ok 1 ↔ p.node.argumentCount = .ok 1)) :
      Akin R (.child p key index n) (.child q key index m)
  | inert {p q : Path} {n m : Node} (hp : p.node.IsInert) (hq : q.node.IsInert)
      (h : R false (.object n) (.object m)) (key key' : String) (index index' : Option Nat) :
      Akin R (.child p key index n) (.child q key' index' m)

namespace Path.Akin

theorem node (h : Akin R p q) : R false (.object p.node) (.object q.node) := by
  cases h with
  | root h => exact h
  | child _ h _ _ _ => exact h
  | inert _ _ h _ _ _ _ => exact h

theorem matches_node (h : Akin R p q) (hR : Likeness R) : p.node.Matches R false q.node := by
  cases hR h.node with
  | object h => exact h

theorem isChildOf_eq (h : Akin R p q) (hR : Likeness R)
    (htypes : ∀ t ∈ types, t ∈ NodeType.significant) :
    q.isChildOf types key = p.isChildOf types key := by
  cases h with
  | root h => rfl
  | child hp h key' index hcount => rw [isChildOf, isChildOf, (hp.matches_node hR).isAny_eq]
  | inert hp hq h key' key'' index index' =>
    rw [hp.isChildOf_eq_false htypes, hq.isChildOf_eq_false htypes]

/-- Something is said of both parents or of neither, if it is not said of inert nodes. -/
theorem any_parent?_eq (h : Akin R p q) (hR : Likeness R) {f : Node → Bool}
    (hf : ∀ n m : Node, n.Matches R false m → f m = f n)
    (hinert : ∀ n : Node, n.IsInert → f n = false) :
    (q.parent?.any fun holder => f holder.node) = p.parent?.any fun holder => f holder.node := by
  cases h with
  | root h => rfl
  | child hp h key index hcount => exact hf _ _ (hp.matches_node hR)
  | inert hp hq h key key' index index' => exact (hinert _ hq).trans (hinert _ hp).symm

/-! ## Reads -/

theorem readsIn_eq (h : Akin R p q) (hR : Likeness R) : q.readsIn key = p.readsIn key := by
  have hnode := h.matches_node hR
  have hpattern := h.any_parent?_eq hR (f := fun n => n.isAny ["ObjectPattern"])
    (fun n m hmatches => hmatches.isAny_eq) fun n hn => hn.isAny_eq_false (by decide)
  have hsource := h.any_parent?_eq hR (f := fun n => (n.get "source").isPresent)
    (fun n m hmatches => (hR (hmatches.part "source" (by decide))).isPresent_eq)
    fun n hn => hn.source
  unfold readsIn
  rw [hnode.reading_eq, (hR (hnode.part "computed" (by decide))).isPresent_eq, hpattern, hsource]

theorem isReferenced_eq (h : Akin R p q) (hR : Likeness R) :
    q.isReferenced = p.isReferenced := by
  have hnode := h.matches_node hR
  unfold isReferenced
  rw [hnode.isAny_eq]
  cases h with
  | root h => rfl
  | child hp h key index hcount =>
    dsimp only
    rw [hp.readsIn_eq hR]
  | inert hp hq h key key' index index' =>
    dsimp only
    rw [hp.readsIn_eq_true, hq.readsIn_eq_true]

/-! ## Names of functions -/

theorem functionName_eq (h : Akin R p q) (hR : Likeness R) : q.functionName = p.functionName := by
  have hnode := hR h.node
  cases h with
  | root h => exact hR.functionName_eq hnode rfl rfl
  | @child p q n m hp h key index hcount =>
    have hfield : (Path.child q key index m).ownField? = (Path.child p key index n).ownField? := by
      cases index <;> rfl
    unfold functionName
    rw [hfield]
    exact hR.functionName_eq hnode rfl
      (hR.nameFromParent_eq hnode (.object (hp.matches_node hR)))
  | inert hp hq h key key' index index' =>
    refine hR.functionName_eq hnode rfl ?_
    exact (hq.nameFromParent_eq _ _).trans (hp.nameFromParent_eq _ _).symm

end Path.Akin

/-! ## Wrappers -/

namespace Node.Matches

theorem covering_eq (h : n.Matches R a m) (form : WrapperForm) :
    Wrapper.covering form m = Wrapper.covering form n := by
  rw [Wrapper.covering, h.loc_eq, Wrapper.covering]

/-- The numbers of arguments may differ, but none is none. -/
theorem argumentCount_bind_congr (h : n.Matches R a m) (hR : Likeness R) {α : Type}
    {f g : Nat → Except Cause α}
    (hfg : ∀ c d, n.argumentCount = .ok c → m.argumentCount = .ok d → (d = 0 ↔ c = 0) →
      g d = f c) : m.argumentCount >>= g = n.argumentCount >>= f := by
  have hlisted := (hR (h.part "arguments" (by decide))).entries?
  unfold argumentCount Json.counted at hfg ⊢
  rw [(hR (h.part "arguments" (by decide))).kind_eq] at hfg ⊢
  generalize (n.get "arguments").entries? = o, (m.get "arguments").entries? = o' at hlisted hfg
  cases hlisted with
  | none => rfl
  | some hlisted =>
    refine hfg _ _ rfl rfl ?_
    rw [List.length_eq_zero_iff, List.length_eq_zero_iff, ← List.isEmpty_iff, ← List.isEmpty_iff,
      hlisted.isEmpty_eq]

/-- An access hands on the name of its property, or the text of the literal that it holds. -/
theorem accessedProperty?_eq (h : n.Matches R a m) (hR : Likeness R)
    (hmember : n.isAny NodeType.members = true) : m.accessedProperty? = n.accessedProperty? := by
  have hproperty := hR (h.property hmember)
  unfold accessedProperty?
  dsimp only
  rw [(hR (h.part "computed" (by decide))).isPresent_eq, hproperty.isStringLiteral_eq]
  split
  · split
    · rw [hproperty.field?_value (Json.Respells.isAny_literals ‹_›)]
    · rfl
  · rw [Json.field, hproperty.field?_name (.inl rfl), hproperty.kind_eq, Json.field]

theorem namesObject_eq (h : n.Matches R a m) (hR : Likeness R) :
    ((m.get "callee").isAny ["Identifier"] &&
        (m.get "callee").field? "name" == some (.string "Object")) =
      ((n.get "callee").isAny ["Identifier"] &&
        (n.get "callee").field? "name" == some (.string "Object")) := by
  have hcallee := hR (h.part "callee" (by decide))
  rw [hcallee.isAny_eq]
  cases hid : (n.get "callee").isAny ["Identifier"] with
  | false => rfl
  | true => rw [hcallee.field?_name (.inr hid)]

end Node.Matches

namespace Path.Akin

theorem pairWrapper_eq (h : Akin R p q) (hR : Likeness R) : pairWrapper q = pairWrapper p := by
  have hloc := (h.matches_node hR).loc_eq
  have hcalled : q.isChildOf NodeType.calls "callee" = p.isChildOf NodeType.calls "callee" :=
    h.isChildOf_eq hR (by decide)
  unfold pairWrapper
  rw [hloc, hcalled]
  cases h with
  | root h => rfl
  | child hp h key index hcount =>
    dsimp only
    rw [(hp.matches_node hR).start_eq]
  | @inert p q n m hp hq h key key' index index' =>
    have huncalled : (Path.child p key index n).isChildOf NodeType.calls "callee" = false :=
      hp.isChildOf_eq_false (by decide)
    simp only [huncalled, Bool.false_eq_true, if_false]

theorem wrapperAt?_eq (h : Akin R p q) (hR : Likeness R)
    (hcount : key = "arguments" → (q.node.argumentCount = .ok 1 ↔ p.node.argumentCount = .ok 1)) :
    wrapperAt? q key index = wrapperAt? p key index := by
  have hnode := h.matches_node hR
  unfold wrapperAt?
  dsimp only
  simp only [hnode.isAny_eq, Bool.and_assoc, hnode.namesObject_eq hR, hnode.covering_eq,
    hnode.loc_eq]
  split
  · rename_i hsequence
    rw [hR.isBoxingPair_eq (hnode.part "expressions" (by decide)) (hnode.counted hsequence),
      h.pairWrapper_eq hR]
  · split
    · split
      · rename_i hboxing
        simp only [Bool.and_eq_true, beq_iff_eq] at hboxing
        refine hnode.argumentCount_bind_congr hR fun c d hc hd _ => ?_
        have hone := hcount hboxing.1
        rw [hc, hd, Except.ok.injEq, Except.ok.injEq] at hone
        simp only [hone]
      · split
        · exact hnode.argumentCount_bind_congr hR fun c d _ _ hzero => by simp only [hzero]
        · rfl
    · split
      · rename_i hmember
        rw [hnode.accessedProperty?_eq hR (Bool.and_eq_true_iff.1 hmember).1]
      · rfl

/-- A node with a location has the same wrappers in both trees. -/
theorem wrappers_eq (h : Akin R p q) (hR : Likeness R) (hloc : p.node.loc.isOk = true) :
    q.wrappers = p.wrappers := by
  induction h with
  | root h => rfl
  | @child p q n m hp h key index hcount ih =>
    rw [wrappers_child, wrappers_child, hp.wrapperAt?_eq hR fun hkey => hcount hkey hloc]
    cases hfound : wrapperAt? p key index with
    | error fault => rfl
    | ok found =>
      cases found with
      | none => rfl
      | some w =>
        -- What wraps anything has a location.
        cases Hold.answered_of_wrapperAt? (s := ⟨p, key, index⟩) hfound with
        | shown _ hw => rw [ih hw.isOk_loc]
  | inert hp hq h key key' index index' =>
    rw [wrappers_child, wrappers_child, hp.wrapperAt?_eq, hq.wrapperAt?_eq]
    rfl

theorem occurrence_eq (h : Akin R p q) (hR : Likeness R) : q.occurrence = p.occurrence := by
  unfold occurrence
  rw [(h.matches_node hR).loc_eq]
  cases hloc : p.node.loc with
  | error fault => rfl
  | ok loc =>
    rw [h.wrappers_eq hR]
    rw [hloc]
    rfl

/-! ## Actions -/

theorem identifierActions_eq (h : Akin R p q) (hR : Likeness R) :
    q.identifierActions = p.identifierActions := by
  unfold identifierActions
  rw [h.isReferenced_eq hR, h.occurrence_eq hR]
  cases hread : p.isReferenced with
  | false => rfl
  | true => rw [(h.matches_node hR).scalarName_eq (isAny_of_isReferenced hread)]

theorem functionActions_eq (h : Akin R p q) (hR : Likeness R) :
    q.functionActions = p.functionActions := by
  have hnode := h.matches_node hR
  rw [functionActions, hnode.ownNameActions_eq hR, h.functionName_eq hR, hnode.functionRange_eq hR,
    hnode.parameterActions_eq hR, functionActions]

theorem roleActions_eq (h : Akin R p q) (hR : Likeness R) : q.roleActions = p.roleActions := by
  have hnode := h.matches_node hR
  unfold roleActions
  rw [hnode.role?_eq]
  cases hrole : p.node.role? with
  | none => rfl
  | some role =>
    cases role with
    | program => exact hnode.programActions_eq
    | function => exact h.functionActions_eq hR
    | classScope => exact hnode.classActions_eq hR
    | loop => exact hnode.loopActions_eq hR
    | catchClause => exact hnode.catchActions_eq hR
    | block =>
      have hblock := Node.isAny_of_role? ["BlockStatement"] (by decide) hrole
      dsimp only
      rw [h.isChildOf_eq hR (by decide),
        hnode.blockActions_eq hR (Node.isAny_eq_false hblock (by decide))]
    | switch => exact hnode.switchActions_eq hR
    | classField => exact hnode.classFieldActions_eq
    | «variables» => exact hnode.variableActions_eq hR
    | imports => exact hnode.importActions_eq hR
    | exports => rfl
    | identifier => exact h.identifierActions_eq hR
    | this =>
      dsimp only
      rw [h.occurrence_eq hR]

theorem ownActions_eq (h : Akin R p q) (hR : Likeness R) : q.ownActions = p.ownActions := by
  rw [ownActions, h.isChildOf_eq hR (by decide), (h.matches_node hR).classFieldActions_eq,
    h.roleActions_eq hR, ownActions]

theorem isProgram_eq (h : Akin R p q) (hR : Likeness R) : q.isProgram = p.isProgram :=
  (h.matches_node hR).isAny_eq

theorem enterActions_eq (h : Akin R p q) (hR : Likeness R) : q.enterActions = p.enterActions := by
  rw [enterActions, h.isProgram_eq hR, (h.matches_node hR).programActions_eq, h.ownActions_eq hR,
    enterActions]

theorem exitActions_eq (h : Akin R p q) (hR : Likeness R) : q.exitActions = p.exitActions := by
  rw [exitActions, h.isProgram_eq hR, h.ownActions_eq hR, exitActions]

end Path.Akin

/-! ## Scripts -/

/-- Related nodes have their children in the same fields, whose values are related. -/
def Likeness.Deep (R : Bool → Json → Json → Prop) : Prop :=
  ∀ n m : Node, R false (.object n) (.object m) → m.childFields = n.childFields ∧
    ∀ keys, n.childFields = .ok keys → ∀ key ∈ keys, R false (n.get key) (m.get key)

theorem Likeness.deep_eq : Deep fun _ j k => k = j := by
  rintro n m h
  cases h
  exact ⟨rfl, fun _ _ _ _ => rfl⟩

@[simp] theorem Json.holdsChildren_object (n : Node) :
    (Json.object n).holdsChildren = (Json.object n).child?.isSome := rfl

theorem Json.child?_of_not_has (h : n.has "type" = false) : (Json.object n).child? = none := by
  simp [child?, node?, h]

/-- A node with a type and a location has more than one field. -/
theorem Node.length_ne_one (htype : n.has "type" = true) (hloc : n.get "loc" ≠ .null) :
    n.length ≠ 1 := by
  intro hone
  obtain ⟨⟨key, value⟩, rfl⟩ := List.length_eq_one_iff.1 hone
  have hkey : "type" = key := by
    by_contra hne
    simp [has, List.lookup_cons, beq_eq_false_iff_ne.2 hne] at htype
  subst hkey
  exact hloc rfl

theorem Node.get_loc_ne_null (h : n.loc.isOk = true) : n.get "loc" ≠ .null := by
  intro hnull
  rw [loc, hnull] at h
  cases h

theorem Node.argumentCount_of_array {items : List Json} (h : n.get "arguments" = .array items) :
    n.argumentCount = .ok items.length := by
  rw [argumentCount, h]
  rfl

theorem Node.argumentCount_of_object (h : n.get "arguments" = .object m) :
    n.argumentCount = .ok m.length := by
  rw [argumentCount, h]
  exact congrArg Except.ok (List.length_map _)

namespace Path.Akin

theorem forall₂_listed (h : Akin R p q) (hR : Likeness R) {xs ys : List Json}
    (hitems : List.Forall₂ (R false) xs ys) (start : Nat)
    (hcount : key = "arguments" → (q.node.argumentCount = .ok 1 ↔ p.node.argumentCount = .ok 1)) :
    List.Forall₂ (Akin R) (p.listed key start xs) (q.listed key start ys) := by
  induction hitems generalizing start with
  | nil => exact .nil
  | @cons x y xs ys hxy _ ih =>
    rw [listed, listed]
    cases hR hxy with
    | scalar s => exact ih (start + 1)
    | array _ => exact ih (start + 1)
    | @object n m hm =>
      cases htyped : n.has "type" with
      | true =>
        rw [child?_of_has htyped, child?_of_has (hm.hasType.trans htyped)]
        exact .cons (.child h hxy key (some start) fun hkey _ => hcount hkey) (ih (start + 1))
      | false =>
        rw [Json.child?_of_not_has htyped, Json.child?_of_not_has (hm.hasType.trans htyped)]
        exact ih (start + 1)

/-- The children in a field of akin nodes are akin if the values of the field are related. -/
theorem forall₂_inField (h : Akin R p q) (hR : Likeness R)
    (hkey : R false (p.node.get key) (q.node.get key)) :
    List.Forall₂ (Akin R) (p.inField key) (q.inField key) := by
  generalize hj : p.node.get key = j, hk : q.node.get key = k at hkey
  unfold inField
  rw [hj, hk]
  cases hR hkey with
  | scalar s => exact .nil
  | array hitems =>
    refine h.forall₂_listed hR hitems 0 fun hargument => ?_
    subst hargument
    rw [Node.argumentCount_of_array hj, Node.argumentCount_of_array hk, hitems.length_eq]
  | @object n m hm =>
    cases htyped : n.has "type" with
    | false =>
      dsimp only
      rw [Json.child?_of_not_has htyped, Json.child?_of_not_has (hm.hasType.trans htyped)]
      exact .nil
    | true =>
      dsimp only
      rw [child?_of_has htyped, child?_of_has (hm.hasType.trans htyped)]
      refine .cons (.child h hkey key none fun hargument hloc => ?_) .nil
      -- Nodes with a location have more fields than one.
      subst hargument
      have hne := Node.get_loc_ne_null hloc
      have hone := Node.length_ne_one htyped hne
      have hone' := Node.length_ne_one (hm.hasType.trans htyped) (hm.loc ▸ hne)
      rw [Node.argumentCount_of_object hj, Node.argumentCount_of_object hk]
      simp [hone, hone']

/-- Akin paths have the same script if akin nodes have akin children. -/
theorem script_eq (h : Akin R p q) (hR : Likeness R) (hdeep : Likeness.Deep R) :
    q.script = p.script := by
  induction p using induction_on_kids generalizing q with
  | step p ih =>
    obtain ⟨hfields, hrelated⟩ := hdeep _ _ h.node
    rw [Path.script_eq, Path.script_eq p, h.enterActions_eq hR, h.exitActions_eq hR]
    congr 2
    cases hkeys : p.node.childFields with
    | error fault =>
      rw [hkeys] at hfields
      simp only [children, hkeys, hfields, error_bind]
    | ok keys =>
      rw [scripts_children hkeys, scripts_children (hfields.trans hkeys)]
      refine List.flatMap_congr fun key hkey => ?_
      have hall := h.forall₂_inField hR (hrelated keys hkeys key hkey)
      have hkids : ∀ c ∈ p.inField key, c ∈ p.kids := fun c hc => by
        rw [kids_eq hkeys]
        exact List.mem_flatMap.2 ⟨key, hkey, hc⟩
      generalize p.inField key = cs, q.inField key = ds at hall hkids
      induction hall with
      | nil => rfl
      | cons hcd _ ihall =>
        obtain ⟨hc, hcs⟩ := List.forall_mem_cons.1 hkids
        rw [List.flatMap_cons, List.flatMap_cons, ih _ hc hcd, ihall hcs]

end Path.Akin

/-! ## Trees -/

/-- Trees whose roots have the same type, the same location and the same script have the same scope
tree, or fail with the same fault. -/
theorem analyze_eq_of_script (htype : m.type = n.type) (hloc : m.get "loc" = n.get "loc")
    (hscript : (Path.root m).script = (Path.root n).script) (generated : Bool) :
    analyze (.object m) generated = analyze (.object n) generated := by
  simp only [analyze, collect, Json.node?, Node.isAny, htype, Builder.ofTree_eq_replay, hscript,
    Cause.malformed_congr hloc]

/-- Trees that are read alike have the same scope tree, or fail with the same fault. -/
theorem Likeness.analyze_eq (hR : Likeness R) (hdeep : Deep R)
    (h : R false (.object n) (.object m)) (generated : Bool) :
    analyze (.object m) generated = analyze (.object n) generated := by
  have hakin : Path.Akin R (.root n) (.root m) := .root h
  have hnode := hakin.matches_node hR
  exact analyze_eq_of_script hnode.type hnode.loc (hakin.script_eq hR hdeep) generated

end LexicalScopes
