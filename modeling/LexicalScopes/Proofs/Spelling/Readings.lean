import LexicalScopes.Proofs.Alike
import LexicalScopes.Proofs.Spelling.Tree

/-!
# Readings of respelled trees

What is read off a respelled node is what is read off the node: its place, the names that it binds,
the name of a function in it.
-/

namespace LexicalScopes

variable {n m : Node} {j k : Json} {key : String} {types : List String}

/-! ## Places and fields -/

namespace Node

/-- The place of a node is read off its location alone. -/
theorem alike_loc_of_get (h : m.get "loc" = n.get "loc") : Alike Eq n.loc m.loc := by
  unfold loc
  rw [h]
  cases (n.get "loc").node? with
  | none => exact .error _ _
  | some loc => exact .ite (.refl _) (.error _ _)

namespace Respelled

theorem loc (h : n.Respelled m) : Alike Eq n.loc m.loc := alike_loc_of_get h.get_loc

theorem start (h : n.Respelled m) : Alike Eq n.start m.start :=
  h.loc.bind_eq fun _ => .refl _

theorem type_eq (h : n.Respelled m) {t : String} (htype : n.type = .string t)
    (hclosed : NodeType.closed [t] = true) : m.type = .string t := by
  have hisAny := h.isAny_eq hclosed
  rw [isAny_iff.2 ⟨t, List.mem_singleton_self t, htype⟩] at hisAny
  obtain ⟨t', ht', htype'⟩ := isAny_iff.1 hisAny
  rwa [List.mem_singleton.1 ht'] at htype'

theorem scalarName_eq (h : n.Respelled m) (hid : n.isAny ["Identifier"] = true) :
    m.scalarName = n.scalarName := by
  rw [scalarName, h.get_name hid, scalarName]

theorem boundName (h : n.Respelled m) (hid : n.isAny ["Identifier"] = true) :
    Alike Eq n.boundName m.boundName := by
  unfold Node.boundName
  rw [h.scalarName_eq hid]
  exact h.loc.bind_eq fun _ => .refl _

/-- The name of a respelled function or class is a respelled identifier. -/
theorem identifier? (h : n.Respelled m) :
    Option.Rel (fun i j : Node => i.Respelled j ∧ i.isAny ["Identifier"] = true) n.identifier?
      m.identifier? := by
  have hid := (h.get_plain (by decide : "id" ∉ ["type", "body", "properties"])).node?
  unfold Node.identifier?
  revert hid
  generalize (n.get "id").node? = o
  generalize (m.get "id").node? = o'
  intro hid
  cases hid with
  | none => exact .none
  | some h =>
    dsimp only
    rw [h.isAny_eq (by decide)]
    split
    · exact .some ⟨h, ‹_›⟩
    · exact .none

end Respelled

end Node

namespace Json.Respells

theorem entries (h : Respells none j k) :
    Alike (List.Forall₂ (Respells none)) j.entries k.entries :=
  .readable h.entries? _ _

theorem counted (h : Respells none j k) :
    Alike (List.Forall₂ (Respells none)) j.counted k.counted :=
  .readable h.entries? _ _

theorem field (h : Respells none j k) (hkey : key ∉ ["type", "body", "properties"]) :
    Alike (Respells none) (j.field key) (k.field key) :=
  .readable (h.field? hkey) _ _

/-- A node respells as a node. -/
theorem exists_object (h : Respells none (.object n) k) :
    ∃ m : Node, k = .object m ∧ n.Respelled m := by
  rcases h.cases with ⟨s, h, -⟩ | ⟨xs, ys, h, -⟩ | ⟨n', m, hn, rfl, hm⟩
  · cases h
  · cases h
  · cases hn
    exact ⟨m, rfl, hm⟩

end Json.Respells

/-! ## Targets -/

theorem Node.Respelled.get_properties (h : n.Respelled m)
    (htype : n.type = .string "ObjectPattern") :
    Json.Respells none (n.get "properties") (m.get "properties") := by
  have hpattern := isAny_iff.2 ⟨_, List.mem_singleton_self _, htype⟩
  exact h.get (by decide) (methodTypes?_eq_none_of_isAny hpattern (by decide))

theorem Node.Respelled.get_targetField (h : n.Respelled m) :
    Json.Respells none (n.get n.targetField) (m.get m.targetField) := by
  unfold targetField
  rw [h.isAny_eq (by decide)]
  split
  · exact h.get_plain (by decide)
  · exact h.get_plain (by decide)

theorem forall₂_flatMap {α β γ δ : Type} {R : α → β → Prop} {S : γ → δ → Prop} {f : α → List γ}
    {g : β → List δ} {xs : List α} {ys : List β} (h : List.Forall₂ R xs ys)
    (hfg : ∀ x ∈ xs, ∀ y, R x y → List.Forall₂ S (f x) (g y)) :
    List.Forall₂ S (xs.flatMap f) (ys.flatMap g) := by
  induction h with
  | nil => exact .nil
  | cons hxy _ ih =>
    rw [List.flatMap_cons, List.flatMap_cons]
    exact List.rel_append (hfg _ List.mem_cons_self _ hxy)
      (ih fun x hx => hfg x (List.mem_cons_of_mem _ hx))

theorem forall₂_listedNames {names names' : Json → List (Except Cause BoundName)}
    {entries entries' : Except Cause (List Json)}
    (h : Alike (List.Forall₂ (Json.Respells none)) entries entries')
    (hnames : ∀ items, entries = .ok items → ∀ x ∈ items, ∀ y, Json.Respells none x y →
      List.Forall₂ (Alike Eq) (names x) (names' y)) :
    List.Forall₂ (Alike Eq) (listedNames names entries) (listedNames names' entries') := by
  cases h with
  | error fault fault' => exact .cons (.error _ _) .nil
  | ok h => exact forall₂_flatMap h (hnames _ rfl)

theorem forall₂_slotNames {pattern pattern' property property' : Json}
    (h : Json.Respells none property property')
    (hnames : ∀ slot slot' : Node, propertySlot pattern property = .ok slot →
      slot.Respelled slot' → List.Forall₂ (Alike Eq) (boundNames (slot.get slot.targetField))
        (boundNames (slot'.get slot'.targetField))) :
    List.Forall₂ (Alike Eq) (slotNames pattern property) (slotNames pattern' property') := by
  rcases h.cases with ⟨s, rfl, rfl⟩ | ⟨xs, ys, rfl, rfl, -⟩ | ⟨n, m, rfl, rfl, hn⟩
  · exact .cons (.error _ _) .nil
  · exact .cons (.error _ _) .nil
  · exact hnames n m rfl hn

/-- A respelled target binds the same names. -/
theorem forall₂_boundNames (h : Json.Respells none j k) :
    List.Forall₂ (Alike Eq) (boundNames j) (boundNames k) := by
  -- Induction on the target: its parts bind the same names.
  induction j using boundNames.induct generalizing k with
  | case1 n htype =>
    obtain ⟨m, rfl, hn⟩ := h.exists_object
    have hid := Node.isAny_iff.2 ⟨_, List.mem_singleton_self _, htype⟩
    rw [boundNames_identifier hid, boundNames_identifier ((hn.isAny_eq (by decide)).trans hid)]
    exact .cons (hn.boundName hid) .nil
  | case2 n htype hentries =>
    obtain ⟨m, rfl, hn⟩ := h.exists_object
    rw [boundNames_objectPattern htype, boundNames_objectPattern (hn.type_eq htype (by decide))]
    refine forall₂_listedNames (hn.get_properties htype).entries fun items hitems => ?_
    cases hentries.symm.trans (readable_eq_ok.1 hitems)
  | case3 n htype properties hentries ih =>
    obtain ⟨m, rfl, hn⟩ := h.exists_object
    rw [boundNames_objectPattern htype, boundNames_objectPattern (hn.type_eq htype (by decide))]
    refine forall₂_listedNames (hn.get_properties htype).entries fun items hitems => ?_
    cases hentries.symm.trans (readable_eq_ok.1 hitems)
    intro property hproperty property' hrespells
    exact forall₂_slotNames hrespells fun slot slot' hslot hrespelled =>
      ih property hproperty slot hslot hrespelled.get_targetField
  | case4 n htype hentries =>
    obtain ⟨m, rfl, hn⟩ := h.exists_object
    rw [boundNames_arrayPattern htype, boundNames_arrayPattern (hn.type_eq htype (by decide))]
    refine forall₂_listedNames (hn.get_plain (by decide)).entries fun items hitems => ?_
    cases hentries.symm.trans (readable_eq_ok.1 hitems)
  | case5 n htype elements hentries ih =>
    obtain ⟨m, rfl, hn⟩ := h.exists_object
    rw [boundNames_arrayPattern htype, boundNames_arrayPattern (hn.type_eq htype (by decide))]
    refine forall₂_listedNames (hn.get_plain (by decide)).entries fun items hitems => ?_
    cases hentries.symm.trans (readable_eq_ok.1 hitems)
    exact fun element helement element' helement' => ih element helement helement'
  | case6 n htype ih =>
    obtain ⟨m, rfl, hn⟩ := h.exists_object
    rw [boundNames_assignmentPattern htype,
      boundNames_assignmentPattern (hn.type_eq htype (by decide))]
    exact ih (hn.get_plain (by decide))
  | case7 n htype ih =>
    obtain ⟨m, rfl, hn⟩ := h.exists_object
    rw [boundNames_restElement htype, boundNames_restElement (hn.type_eq htype (by decide))]
    exact ih (hn.get_plain (by decide))
  | case8 n hidentifier hobject harray hdefault hrest =>
    obtain ⟨m, rfl, hn⟩ := h.exists_object
    have hother : ∀ t ∈ NodeType.targets, Node.type n ≠ .string t := by
      simpa [NodeType.targets] using ⟨hidentifier, hobject, harray, hdefault, hrest⟩
    have hother' : ∀ t ∈ NodeType.targets, m.type ≠ .string t := by
      intro t ht htype
      have hclosed : ∀ t ∈ NodeType.targets, NodeType.closed [t] = true := by decide
      have hisAny := hn.isAny_eq (hclosed t ht)
      rw [Node.isAny_iff.2 ⟨t, List.mem_singleton_self t, htype⟩] at hisAny
      obtain ⟨t', ht', htype'⟩ := Node.isAny_iff.1 hisAny.symm
      rw [List.mem_singleton.1 ht'] at htype'
      exact hother t ht htype'
    rw [boundNames_other hother, boundNames_other hother']
    exact .nil
  | case9 target hobject =>
    rcases h.cases with ⟨s, rfl, rfl⟩ | ⟨xs, ys, rfl, rfl, -⟩ | ⟨n, m, rfl, rfl, -⟩
    · simp [boundNames]
    · simp [boundNames]
    · exact (hobject n rfl).elim

/-! ## Names of functions -/

/-- Two types that no closed set of types tells apart. -/
def Scalar.SameKind (s s' : Scalar) : Prop :=
  ∀ types, NodeType.closed types = true → s'.isOneOf types = s.isOneOf types

theorem Node.Spells.scalarType (h : n.Spells m) :
    Alike Scalar.SameKind n.type.scalarType m.type.scalarType := by
  rcases h.cases with heq | ⟨p, hp, hplain, hother⟩
  · rw [heq]
    cases n.type.scalarType with
    | error fault => exact .error _ _
    | ok s => exact .ok fun _ _ => rfl
  · rw [hplain, hother]
    exact .ok fun types hclosed => (beq_iff_eq.1 (List.all_eq_true.1 hclosed p hp)).symm

theorem Json.Respells.plainProperty? (h : Json.Respells none j k) :
    Alike Eq j.plainProperty? k.plainProperty? := by
  rcases h.cases with ⟨s, rfl, rfl⟩ | ⟨xs, ys, rfl, rfl, -⟩ | ⟨n, m, rfl, rfl, hn⟩
  · exact .refl _
  · exact .refl _
  · have hcomputed := (hn.get_plain (by decide : "computed" ∉ _)).isPresent_eq
    have hproperty := hn.get_plain (by decide : "property" ∉ _)
    refine hn.tag.type.scalarType.bind fun s s' hs => ?_
    rw [hs _ (by decide), hcomputed, hproperty.isAny_eq (by decide)]
    split
    · rename_i h
      rw [hproperty.field?_name (Bool.and_eq_true_iff.1 h).2]
      exact .refl _
    · exact .refl _

theorem Node.Respelled.isPlainAssignment_eq (h : n.Respelled m) :
    m.isPlainAssignment = n.isPlainAssignment := by
  have hoperator := h.get_plain (by decide : "operator" ∉ _)
  rw [isPlainAssignment, h.tag.has_eq, isPlainAssignment, beq_eq_decide, beq_eq_decide]
  simp only [hoperator.eq_scalar_iff]

theorem Node.Respelled.nameFromParent (h : n.Respelled m) {function function' : Json}
    (hfunction : function'.isAny ["FunctionDeclaration"] = function.isAny ["FunctionDeclaration"])
    (field : Option String) :
    Alike Eq (nameFromParent function (.object n) field)
      (nameFromParent function' (.object m) field) := by
  have hcomputed := (h.get_plain (by decide : "computed" ∉ _)).isPresent_eq
  have hkey := (h.get_plain (by decide : "key" ∉ _)).keyName_eq
  have hleft := h.get_plain (by decide : "left" ∉ _)
  have hid := (h.get_plain (by decide : "id" ∉ _)).targetName?_eq
  have hproperty := hleft.plainProperty?
  unfold LexicalScopes.nameFromParent
  refine h.tag.type.scalarType.bind fun s s' hs => ?_
  dsimp only
  rw [hs _ (by decide), hs _ (by decide), hs _ (by decide), hs _ (by decide), hs _ (by decide),
    hcomputed, hkey, hleft.targetName?_eq, hid, h.isPlainAssignment_eq, hfunction]
  -- Only an access on the left of an assignment is a reading of its own.
  revert hproperty
  generalize (n.get "left").plainProperty? = property
  generalize (m.get "left").plainProperty? = property'
  intro hproperty
  cases hproperty with
  | ok h => rw [h]; exact .refl _
  | error fault fault' =>
    refine .ite (.refl _) (.ite ?_ (.refl _))
    split
    · exact .refl _
    · exact .error _ _

/-- A respelled function has the same name if its place gives it the same one. -/
theorem Node.Respelled.functionName (h : n.Respelled m) {parent parent' : Json}
    {field : Option String} (hnull : parent'.isNull = parent.isNull)
    (hname : Alike Eq (LexicalScopes.nameFromParent (.object n) parent field)
      (LexicalScopes.nameFromParent (.object m) parent' field)) :
    Alike Eq (LexicalScopes.functionName (.object n) parent field)
      (LexicalScopes.functionName (.object m) parent' field) := by
  have hcomputed := (h.get_plain (by decide : "computed" ∉ _)).isPresent_eq
  have hkey := (h.get_plain (by decide : "key" ∉ _)).keyName_eq
  have hid := (h.get_plain (by decide : "id" ∉ _)).targetName?_eq
  unfold LexicalScopes.functionName
  simp only [Json.fields_object, ok_bind]
  rw [hid, hkey, hcomputed, h.isAny_eq (by decide), hnull]
  cases (n.get "id").targetName? with
  | some name => exact .refl _
  | none => exact .ite (.refl _) (.ite (.refl _) hname)

/-! ## Methods -/

/-- The types of a node around a function, with the field of the list in which it stands. -/
theorem Node.methodTypes?_eq_some {methods : String × String}
    (h : n.methodTypes? key = some methods) :
    (n.isAny ["ClassBody"] = true ∧ key = "body" ∧ methods = ("MethodDefinition", "ClassMethod")) ∨
      (n.isAny ["ObjectExpression"] = true ∧ key = "properties" ∧
        methods = ("Property", "ObjectMethod")) := by
  unfold methodTypes? at h
  split at h
  · rename_i hbody
    simp only [Bool.and_eq_true, beq_iff_eq] at hbody
    cases h
    exact .inl ⟨hbody.1, hbody.2, rfl⟩
  · split at h
    · rename_i hobject
      simp only [Bool.and_eq_true, beq_iff_eq] at hobject
      cases h
      exact .inr ⟨hobject.1, hobject.2, rfl⟩
    · cases h

/-- Neither a function nor what holds methods gives a function in it a name. -/
theorem nameFromParent_of_holder {function : Json} {field : Option String}
    (h : n.isAny ["ClassBody", "ObjectExpression", "FunctionExpression", "ObjectMethod",
      "ClassMethod"] = true) :
    nameFromParent function (.object n) field = .ok (.string "anonymous") := by
  obtain ⟨t, ht, htype⟩ := Node.isAny_iff.1 h
  simp only [List.mem_cons, List.not_mem_nil, or_false] at ht
  rcases ht with rfl | rfl | rfl | rfl | rfl <;>
    simp [nameFromParent, htype, Json.scalarType, Scalar.isOneOf, NodeType.properties,
      NodeType.classFields, ok_bind, pure, Except.pure]

/-- The function of a method has the name of the key. -/
theorem nameFromParent_of_method {function : Json}
    (h : n.isAny ["MethodDefinition", "Property"] = true)
    (hplain : (n.get "computed").isPresent = false) :
    nameFromParent function (.object n) (some "value") =
      .ok (if (n.get "key").keyName.isNull then .string "anonymous"
        else (n.get "key").keyName) := by
  obtain ⟨t, ht, htype⟩ := Node.isAny_iff.1 h
  simp only [List.mem_cons, List.not_mem_nil, or_false] at ht
  rcases ht with rfl | rfl <;> cases hnull : (n.get "key").keyName.isNull <;>
    simp [nameFromParent, htype, Json.scalarType, Scalar.isOneOf, NodeType.properties,
      NodeType.classFields, ok_bind, pure, Except.pure, hplain, hnull]

namespace Node.Merges

variable {methods : String × String} {method f holder : Node}

theorem isAny_method (h : Merges methods method f m) :
    method.isAny ["MethodDefinition", "Property"] = true := by
  have htable : ∀ p ∈ NodeType.methods, ["MethodDefinition", "Property"].contains p.1 = true := by
    decide
  rw [isAny_of_type h.methodType]
  exact htable methods h.known

theorem isAny_merged (h : Merges methods method f m) :
    m.isAny ["ObjectMethod", "ClassMethod"] = true := by
  have htable : ∀ p ∈ NodeType.methods, ["ObjectMethod", "ClassMethod"].contains p.2 = true := by
    decide
  rw [isAny_of_type h.mergedType]
  exact htable methods h.known

theorem isAny_function (h : Merges methods method f m) :
    f.isAny ["FunctionExpression"] = true := by
  rw [isAny_of_type h.function]
  decide

/-- A method has the name of its key, whether its function is a node of its own or not. -/
theorem functionName_eq (h : Merges methods method f m)
    (hkey : (m.get "key").keyName = (method.get "key").keyName)
    (hholder : holder.isAny ["ClassBody", "ObjectExpression"] = true) (field : Option String) :
    functionName (.object m) (.object holder) field =
      functionName (.object f) (.object method) (some "value") := by
  have hf : f.isAny ["ObjectMethod", "ClassMethod"] = false :=
    isAny_eq_false h.isAny_function (by decide)
  have hnull : Json.null.targetName? = none := rfl
  have hanonymous : nameFromParent (.object m) (.object holder) field =
      .ok (.string "anonymous") :=
    nameFromParent_of_holder (isAny_mono hholder (by decide))
  unfold functionName
  simp only [Json.fields_object, ok_bind, h.unnamed, h.mergedUnnamed, hnull, hf,
    h.isAny_merged, h.mergedPlain, hkey, nameFromParent_of_method h.isAny_method h.plain,
    hanonymous]
  cases (method.get "key").keyName.isNull <;> simp [Json.isNull, pure, Except.pure]

end Node.Merges

end LexicalScopes
