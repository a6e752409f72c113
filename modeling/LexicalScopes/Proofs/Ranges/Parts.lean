import LexicalScopes.Proofs.Ranges.Located
import LexicalScopes.Proofs.Run.Performs

/-!
# Parts of a node

The nodes that stand in a field of a known type are children of the node. With the plain spelling,
the identifiers that a declaration target binds are therefore among the nodes below it.
-/

namespace LexicalScopes

variable {p c q : Path} {n m : Node} {key : String} {types : List String} {bound : BoundName}

/-! ## Children by field -/

namespace Path

theorem key?_of_mem_listed {start : Nat} {items : List Json} (h : c ∈ p.listed key start items) :
    c.key? = some key := by
  induction items generalizing start with
  | nil => cases h
  | cons item rest ih =>
    rw [listed] at h
    split at h
    · rcases List.mem_cons.1 h with rfl | h
      · rfl
      · exact ih h
    · exact ih h

theorem key?_of_mem_inField (h : c ∈ p.inField key) : c.key? = some key := by
  unfold inField at h
  split at h
  · exact key?_of_mem_listed h
  · split at h
    · rw [List.mem_singleton.1 h]
      rfl
    · cases h

theorem child?_of_has {n : Node} (h : n.has "type" = true) :
    (Json.object n).child? = some n := by
  simp [Json.child?, Json.node?, h]

theorem exists_mem_listed {items : List Json} (hn : .object n ∈ items)
    (htyped : n.has "type" = true) (start : Nat) : ∃ c ∈ p.listed key start items, c.node = n := by
  induction items generalizing start with
  | nil => cases hn
  | cons item rest ih =>
    rw [listed]
    rcases List.mem_cons.1 hn with rfl | hn
    · simp [child?_of_has htyped]
    · obtain ⟨c, hc, hnode⟩ := ih hn (start + 1)
      split
      · exact ⟨c, List.mem_cons_of_mem _ hc, hnode⟩
      · exact ⟨c, hc, hnode⟩

/-- A typed node in a field is one of the children that stand there. -/
theorem exists_mem_inField (hn : n ∈ p.node.parts key) (htyped : n.has "type" = true) :
    ∃ c ∈ p.inField key, c.node = n := by
  unfold Node.parts at hn
  unfold inField
  split at hn
  · rename_i items hitems
    obtain ⟨item, hitem, hnode⟩ := List.mem_filterMap.1 hn
    rw [Json.node?_eq_some_iff.1 hnode] at hitem
    simpa only [hitems] using exists_mem_listed hitem htyped 0
  · rename_i hnot
    have hobject : p.node.get key = .object n := by
      rw [Option.mem_toList] at hn
      exact Json.node?_eq_some_iff.1 hn
    simp [hobject, child?_of_has htyped]

theorem kids_eq {keys : List String} (h : p.node.childFields = .ok keys) :
    p.kids = keys.flatMap p.inField := by
  refine kids_of_children ?_
  rw [children, h]
  rfl

/-- The child fields of a known type are the ones that the table lists. -/
theorem exists_childFields {good : List String → Bool} (h : n.isAny types = true)
    (hgood : ∀ t ∈ types, (NodeType.childFields.lookup t).any good = true) :
    ∃ keys, n.childFields = .ok keys ∧ good keys = true := by
  obtain ⟨t, ht, htype⟩ := Node.isAny_iff.1 h
  obtain ⟨keys, hkeys, hgood⟩ := (Option.any_eq_true _ _).1 (hgood t ht)
  refine ⟨keys, ?_, hgood⟩
  rw [Node.childFields, htype]
  simp [hkeys]

/-- A typed node in a field that holds children is a child. -/
theorem exists_kid (h : p.node.isAny types = true)
    (hfield : ∀ t ∈ types, (NodeType.childFields.lookup t).any (·.contains key) = true)
    (hn : n ∈ p.node.parts key) (htyped : n.has "type" = true) :
    ∃ c ∈ p.kids, c.node = n ∧ c.key? = some key := by
  obtain ⟨keys, hkeys, hkey⟩ := exists_childFields h hfield
  obtain ⟨c, hc, hnode⟩ := exists_mem_inField hn htyped
  refine ⟨c, ?_, hnode, key?_of_mem_inField hc⟩
  rw [kids_eq hkeys]
  exact List.mem_flatMap.2 ⟨key, List.contains_iff_mem.1 hkey, hc⟩

/-- A child stands in a field that holds children. -/
theorem exists_key_of_mem_kids {allowed : List String} (h : p.node.isAny types = true)
    (hfield : ∀ t ∈ types, (NodeType.childFields.lookup t).any (·.all allowed.contains) = true)
    (hc : c ∈ p.kids) : ∃ key ∈ allowed, c ∈ p.inField key := by
  obtain ⟨keys, hkeys, hall⟩ := exists_childFields h hfield
  rw [kids_eq hkeys] at hc
  obtain ⟨key, hkey, hc⟩ := List.mem_flatMap.1 hc
  exact ⟨key, List.contains_iff_mem.1 (List.all_eq_true.1 hall key hkey), hc⟩

end Path

/-! ## Parts of plain nodes -/

theorem Node.has_type_of_isAny (h : n.isAny types = true) : n.has "type" = true := by
  obtain ⟨t, -, htype⟩ := Node.isAny_iff.1 h
  rw [Node.type] at htype
  by_contra hnot
  rw [Node.get_eq_null_of_has_eq_false (Bool.eq_false_iff.2 hnot)] at htype
  cases htype

theorem Node.mem_parts_of_array {items : List Json} (h : n.get key = .array items)
    (hm : .object m ∈ items) : m ∈ n.parts key := by
  rw [parts, h]
  exact List.mem_filterMap.2 ⟨_, hm, rfl⟩

theorem Node.mem_parts_of_object (h : n.get key = .object m) : m ∈ n.parts key := by
  simp [parts, h, Json.node?]

theorem Path.mem_parts_of_mem_inField (h : c ∈ p.inField key) : c.node ∈ p.node.parts key := by
  unfold inField at h
  split at h
  · rename_i items hitems
    exact Node.mem_parts_of_array hitems (exists_item_of_mem_listed h)
  · split at h
    · rename_i m hm
      rw [List.mem_singleton.1 h]
      exact Node.mem_parts_of_object (Json.eq_object_of_child? hm)
    · cases h

/-- In the fields of plain nodes stand nodes of the types that the grammar has there. -/
theorem Node.isAny_of_mem_parts {allowed : List String} {part : Node} (hplain : n.isPlain = true)
    (hfield : (types, key, allowed) ∈ Node.plainFields) (htype : n.isAny types = true)
    (hpart : part ∈ n.parts key) : part.isAny allowed = true := by
  have hall := List.all_eq_true.1 (Bool.and_eq_true_iff.1 hplain).2 _ hfield
  simp only [htype, Bool.not_true, Bool.false_or] at hall
  exact List.all_eq_true.1 hall part hpart

/-- Only a list has nodes for entries. -/
theorem Node.mem_parts_of_entries? {entries : List Json} (h : (n.get key).entries? = some entries)
    (hm : .object m ∈ entries) : m ∈ n.parts key := by
  unfold Json.entries? at h
  split at h
  · rename_i items hitems
    cases h
    exact mem_parts_of_array hitems hm
  · cases h
    simp at hm
  · cases h
    simp at hm
  · split at h
    · cases h
    · cases h
      simp at hm

/-! ## Names of targets -/

/-- The target binds the name: it is the identifier, or a part of it binds the name. -/
inductive TargetBinds (bound : BoundName) : Json → Prop where
  | identifier {n : Node} (htype : n.isAny ["Identifier"] = true)
      (h : n.boundName = .ok bound) : TargetBinds bound (.object n)
  | property {n slot : Node} {properties : List Json} (htype : n.isAny ["ObjectPattern"] = true)
      (hentries : (n.get "properties").entries? = some properties)
      (hmem : .object slot ∈ properties) (h : TargetBinds bound (slot.get slot.targetField)) :
      TargetBinds bound (.object n)
  | element {n : Node} {elements : List Json} {element : Json}
      (htype : n.isAny ["ArrayPattern"] = true)
      (hentries : (n.get "elements").entries? = some elements) (hmem : element ∈ elements)
      (h : TargetBinds bound element) : TargetBinds bound (.object n)
  | default {n : Node} (htype : n.isAny ["AssignmentPattern"] = true)
      (h : TargetBinds bound (n.get "left")) : TargetBinds bound (.object n)
  | rest {n : Node} (htype : n.isAny ["RestElement"] = true)
      (h : TargetBinds bound (n.get "argument")) : TargetBinds bound (.object n)

theorem targetBinds_of_mem_boundNames {target : Json} (h : .ok bound ∈ boundNames target) :
    TargetBinds bound target := by
  fun_induction boundNames target with
  | case1 n htype => exact .identifier (Node.isAny_singleton htype) (List.mem_singleton.1 h).symm
  | case2 n htype hentries => simp at h
  | case3 n htype properties hentries ih =>
    obtain ⟨⟨property, hmem⟩, -, h⟩ := List.mem_flatMap.1 h
    dsimp only at h
    split at h
    · simp at h
    · rename_i slot hslot
      have hobject := object_of_propertySlot hslot
      exact .property (Node.isAny_singleton htype) hentries (hobject ▸ hmem)
        (ih property hmem slot hslot h)
  | case4 n htype hentries => simp at h
  | case5 n htype elements hentries ih =>
    obtain ⟨⟨element, hmem⟩, -, h⟩ := List.mem_flatMap.1 h
    exact .element (Node.isAny_singleton htype) hentries hmem (ih element hmem h)
  | case6 n htype ih => exact .default (Node.isAny_singleton htype) (ih h)
  | case7 n htype ih => exact .rest (Node.isAny_singleton htype) (ih h)
  | case8 => cases h
  | case9 => cases h

/-- What binds a name is a typed node. -/
theorem TargetBinds.exists_object {target : Json} (h : TargetBinds bound target) :
    ∃ m : Node, target = .object m ∧ m.has "type" = true := by
  cases h with
  | identifier htype _ => exact ⟨_, rfl, Node.has_type_of_isAny htype⟩
  | property htype _ _ _ => exact ⟨_, rfl, Node.has_type_of_isAny htype⟩
  | element htype _ _ _ => exact ⟨_, rfl, Node.has_type_of_isAny htype⟩
  | default htype _ => exact ⟨_, rfl, Node.has_type_of_isAny htype⟩
  | rest htype _ => exact ⟨_, rfl, Node.has_type_of_isAny htype⟩

/-- At and below the node everything has the plain spelling. -/
def Path.HoldsPlain (p : Path) : Prop := ∀ q ∈ p :: p.descendants, q.node.isPlain = true

theorem Path.HoldsPlain.of_mem_kids (h : p.HoldsPlain) (hc : c ∈ p.kids) : c.HoldsPlain :=
  fun q hq => h q (List.mem_cons_of_mem _ (mem_descendants_iff.2 ⟨c, hc, List.mem_cons.1 hq⟩))

/-- Some identifier at or below the node declares the name. -/
def Path.HoldsIdentifier (p : Path) (bound : BoundName) : Prop :=
  ∃ q ∈ p :: p.descendants, q.node.boundName = .ok bound

theorem Path.HoldsIdentifier.of_mem_kids (h : c.HoldsIdentifier bound) (hc : c ∈ p.kids) :
    p.HoldsIdentifier bound := by
  obtain ⟨q, hq, hbound⟩ := h
  exact ⟨q, List.mem_cons_of_mem _ (mem_descendants_iff.2 ⟨c, hc, List.mem_cons.1 hq⟩), hbound⟩

/-- The target of a property is a child of the property. -/
theorem Path.exists_target_kid
    (htype : p.node.isAny ["Property", "ObjectProperty", "RestElement"] = true)
    (htarget : p.node.get p.node.targetField = .object m) (htyped : m.has "type" = true) :
    ∃ c ∈ p.kids, c.node = m := by
  have hpart := Node.mem_parts_of_object htarget
  rw [Node.targetField] at hpart
  cases hrest : p.node.isAny ["RestElement"] with
  | true =>
    rw [hrest, if_pos rfl] at hpart
    obtain ⟨c, hc, hnode, -⟩ := exists_kid hrest (by decide) hpart htyped
    exact ⟨c, hc, hnode⟩
  | false =>
    have hproperty : p.node.isAny NodeType.properties = true := by
      have hsplit : ["Property", "ObjectProperty", "RestElement"] =
          NodeType.properties ++ ["RestElement"] := rfl
      simpa only [hsplit, Node.isAny_append, hrest, Bool.or_false] using htype
    simp only [hrest, Bool.false_eq_true, if_false] at hpart
    obtain ⟨c, hc, hnode, -⟩ := exists_kid hproperty (by decide) hpart htyped
    exact ⟨c, hc, hnode⟩

/-- The identifiers of the names that a target binds stand at or below it. -/
theorem TargetBinds.holdsIdentifier {target : Json} (h : TargetBinds bound target)
    (htarget : target = .object p.node) (hplain : p.HoldsPlain) : p.HoldsIdentifier bound := by
  -- Induction on the way into the pattern: every step leads to a child.
  induction h generalizing p with
  | identifier htype hbound =>
    cases htarget
    exact ⟨p, List.mem_cons_self, hbound⟩
  | property htype hentries hmem h ih =>
    cases htarget
    obtain ⟨m, hm, htyped⟩ := h.exists_object
    have hpart := Node.mem_parts_of_entries? hentries hmem
    have hfield : (["ObjectPattern"], "properties", ["Property", "ObjectProperty", "RestElement"]) ∈
        Node.plainFields := by decide
    have hslot := Node.isAny_of_mem_parts (hplain p List.mem_cons_self) hfield htype hpart
    obtain ⟨c, hc, rfl, -⟩ :=
      Path.exists_kid htype (by decide) hpart (Node.has_type_of_isAny hslot)
    obtain ⟨d, hd, rfl⟩ := c.exists_target_kid hslot hm htyped
    have hplain' := (hplain.of_mem_kids hc).of_mem_kids hd
    exact ((ih hm hplain').of_mem_kids hd).of_mem_kids hc
  | element htype hentries hmem h ih =>
    cases htarget
    obtain ⟨m, rfl, htyped⟩ := h.exists_object
    obtain ⟨c, hc, rfl, -⟩ :=
      Path.exists_kid htype (by decide) (Node.mem_parts_of_entries? hentries hmem) htyped
    exact (ih rfl (hplain.of_mem_kids hc)).of_mem_kids hc
  | default htype h ih =>
    cases htarget
    obtain ⟨m, hm, htyped⟩ := h.exists_object
    obtain ⟨c, hc, rfl, -⟩ :=
      Path.exists_kid htype (by decide) (Node.mem_parts_of_object hm) htyped
    exact (ih hm (hplain.of_mem_kids hc)).of_mem_kids hc
  | rest htype h ih =>
    cases htarget
    obtain ⟨m, hm, htyped⟩ := h.exists_object
    obtain ⟨c, hc, rfl, -⟩ :=
      Path.exists_kid htype (by decide) (Node.mem_parts_of_object hm) htyped
    exact (ih hm (hplain.of_mem_kids hc)).of_mem_kids hc

/-! ## Declared names -/

namespace Path

/-- The target of a plain node that stands in a field with children declares names of identifiers
at and below a child. -/
theorem HoldsPlain.exists_kid_of_target {target : Json} (h : p.HoldsPlain)
    (htype : p.node.isAny types = true)
    (hfield : ∀ t ∈ types, (NodeType.childFields.lookup t).any (·.contains key) = true)
    (hpart : ∀ m, target = .object m → m ∈ p.node.parts key)
    (hbound : .ok bound ∈ boundNames target) :
    ∃ c ∈ p.kids, c.key? = some key ∧ c.HoldsIdentifier bound := by
  have hbinds := targetBinds_of_mem_boundNames hbound
  obtain ⟨m, rfl, htyped⟩ := hbinds.exists_object
  obtain ⟨c, hc, rfl, hkey⟩ := exists_kid htype hfield (hpart m rfl) htyped
  exact ⟨c, hc, hkey, hbinds.holdsIdentifier rfl (h.of_mem_kids hc)⟩

/-- The same of a target that stands in a field of an entry of the plain node. -/
theorem HoldsPlain.holdsIdentifier_of_entry {allowed : List String} {sub : String}
    {entries : List Json} {entry target : Json} (h : p.HoldsPlain)
    (hplain : (types, key, allowed) ∈ Node.plainFields) (htype : p.node.isAny types = true)
    (hfield : ∀ t ∈ types, (NodeType.childFields.lookup t).any (·.contains key) = true)
    (hsub : ∀ t ∈ allowed, (NodeType.childFields.lookup t).any (·.contains sub) = true)
    (hentries : (p.node.get key).entries = .ok entries) (hmem : entry ∈ entries)
    (htarget : entry.field sub = .ok target) (hbound : .ok bound ∈ boundNames target) :
    p.HoldsIdentifier bound := by
  obtain ⟨n, hn, hget⟩ := Option.map_eq_some_iff.1 (readable_eq_ok.1 htarget)
  rw [Json.node?_eq_some_iff.1 hn] at hmem
  have hpart := Node.mem_parts_of_entries? (readable_eq_ok.1 hentries) hmem
  have hallowed := Node.isAny_of_mem_parts (h p List.mem_cons_self) hplain htype hpart
  obtain ⟨c, hc, rfl, -⟩ := exists_kid htype hfield hpart (Node.has_type_of_isAny hallowed)
  obtain ⟨d, hd, -, hidentifier⟩ := (h.of_mem_kids hc).exists_kid_of_target hallowed hsub
    (fun m hm => Node.mem_parts_of_object (hget.trans hm)) hbound
  exact (hidentifier.of_mem_kids hd).of_mem_kids hc

end Path

theorem field_of_declaratorTarget {declarator target : Json}
    (h : Node.declaratorTarget declarator = .ok target) : declarator.field "id" = .ok target := by
  obtain ⟨value, hvalue, h⟩ := bind_eq_ok.1 h
  split at h
  · cases h
  · cases h
    exact hvalue

theorem Node.isAny_functions_of_role? (halias : n.isAny NodeType.aliases = false)
    (hrole : n.role? = some .function) : n.isAny NodeType.functions = true := by
  rw [isAny_eq_decide_role? NodeType.functions .function halias (by decide) (by decide)]
  exact decide_eq_true hrole

/-- The names that a node declares are names of identifiers at and below it. -/
theorem Path.HoldsPlain.holdsIdentifier_of_binds (h : p.HoldsPlain)
    (halias : p.node.isAny NodeType.aliases = false) (hbinds : p.node.Binds bound) :
    p.HoldsIdentifier bound := by
  obtain ⟨target, htarget, hbound⟩ := hbinds
  cases htarget with
  | name hname hid =>
    have hpart : ∀ m, Json.object _ = .object m → m ∈ p.node.parts "id" :=
      fun m hm => Node.mem_parts_of_object ((isAny_of_identifier? hid).1.trans hm)
    rcases hname with htype | hrole
    · obtain ⟨c, hc, -, hidentifier⟩ := h.exists_kid_of_target htype (by decide) hpart hbound
      exact hidentifier.of_mem_kids hc
    · have htype : p.node.isAny NodeType.classes = true := by
        rw [Node.isAny_eq_decide_role? NodeType.classes .classScope halias (by decide) (by decide)]
        exact decide_eq_true hrole
      obtain ⟨c, hc, -, hidentifier⟩ := h.exists_kid_of_target htype (by decide) hpart hbound
      exact hidentifier.of_mem_kids hc
  | @parameter params param hrole hparams hmem =>
    have htype := Node.isAny_functions_of_role? halias hrole
    have hpart : ∀ m, target = .object m → m ∈ p.node.parts "params" := by
      rintro m rfl
      exact Node.mem_parts_of_entries? (readable_eq_ok.1 hparams) hmem
    obtain ⟨c, hc, -, hidentifier⟩ := h.exists_kid_of_target htype (by decide) hpart hbound
    exact hidentifier.of_mem_kids hc
  | caught hrole =>
    have htype := Node.isAny_of_role? ["CatchClause"] (by decide) hrole
    obtain ⟨c, hc, -, hidentifier⟩ := h.exists_kid_of_target htype (by decide)
      (fun m => Node.mem_parts_of_object) hbound
    exact hidentifier.of_mem_kids hc
  | declarator hrole hdeclarators hmem htarget =>
    have htype := Node.isAny_of_role? ["VariableDeclaration"] (by decide) hrole
    have hplain : (["VariableDeclaration"], "declarations", ["VariableDeclarator"]) ∈
        Node.plainFields := by decide
    exact h.holdsIdentifier_of_entry hplain htype (by decide) (by decide) hdeclarators hmem
      (field_of_declaratorTarget htarget) hbound
  | specifier hrole hspecifiers hmem hname =>
    have htype := Node.isAny_of_role? ["ImportDeclaration"] (by decide) hrole
    have hplain : (["ImportDeclaration"], "specifiers",
        ["ImportSpecifier", "ImportDefaultSpecifier", "ImportNamespaceSpecifier"]) ∈
          Node.plainFields := by decide
    exact h.holdsIdentifier_of_entry hplain htype (by decide) (by decide) hspecifiers hmem hname
      hbound

end LexicalScopes
