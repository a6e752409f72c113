import LexicalScopes.Proofs.Ranges.Parts
import LexicalScopes.Proofs.Spelling.Paths
import LexicalScopes.Proofs.Targets

/-!
# Identifiers that patterns bind

A pattern hands its binding on to nodes below it, and in the end identifiers bind their names. These
are the names that `boundNames` lists. All of the nodes on the way are visited, and none of the
identifiers stands where a name is read.
-/

namespace LexicalScopes

variable {p q c : Path} {n : Node} {j target : Json} {key : String} {types : List String}

/-! ## Plainly spelled bindings -/

namespace Node

/-- For some types of nodes, a field and the types of the nodes that stand there and bind names. -/
def bindingFields : List (List String × String × List String) :=
  [(["ObjectPattern"], "properties", ["Property", "ObjectProperty", "RestElement"]),
   (["VariableDeclaration"], "declarations", ["VariableDeclarator"]),
   (["ImportDeclaration"], "specifiers",
     ["ImportSpecifier", "ImportDefaultSpecifier", "ImportNamespaceSpecifier"])]

/-- What stands in the fields that bind names has the types that the grammar gives it. -/
def bindsPlainly (n : Node) : Bool :=
  bindingFields.all fun (types, key, allowed) =>
    !n.isAny types || (n.parts key).all fun part => part.isAny allowed

/-- All nodes of the tree bind names plainly. -/
def BindsPlainly (root : Node) : Prop :=
  ∀ p ∈ .root root :: (Path.root root).descendants, p.node.bindsPlainly = true

instance (root : Node) : Decidable root.BindsPlainly :=
  inferInstanceAs (Decidable (∀ p ∈ .root root :: (Path.root root).descendants,
    p.node.bindsPlainly = true))

theorem isAny_of_bindsPlainly {allowed : List String} {part : Node} (h : n.bindsPlainly = true)
    (hfield : (types, key, allowed) ∈ bindingFields) (htype : n.isAny types = true)
    (hpart : part ∈ n.parts key) : part.isAny allowed = true := by
  have hall := List.all_eq_true.1 h _ hfield
  simp only [htype, Bool.not_true, Bool.false_or] at hall
  exact List.all_eq_true.1 hall part hpart

end Node

/-- No identifier in the field reads its name, whatever the node and its parent are like. -/
def Reading.skips (r : Reading) (key : String) : Bool :=
  match r with
  | .nowhere => true
  | .only field => key != field
  | .member => key != "key" && key != "value"
  | _ => false

namespace Path

/-! ## Nodes in a field -/

/-- The node in a field that is no list. -/
def single (p : Path) (key : String) : List Path :=
  match (p.node.get key).child? with
  | some n => [.child p key none n]
  | none => []

/-- The nodes in a field that is a list. -/
def items (p : Path) (key : String) : List Path :=
  match p.node.get key with
  | .array items => p.listed key 0 items
  | _ => []

theorem mem_inField_of_mem_single (h : c ∈ p.single key) : c ∈ p.inField key := by
  unfold single at h
  unfold inField
  split at h
  · rename_i n hn
    have hobject := Json.eq_object_of_child? hn
    rw [hobject] at hn
    simpa [hobject, hn] using h
  · cases h

theorem mem_inField_of_mem_items (h : c ∈ p.items key) : c ∈ p.inField key := by
  rw [items] at h
  rw [inField]
  cases hget : p.node.get key with
  | array items =>
    simp only [hget] at h ⊢
    exact h
  | scalar s =>
    simp only [hget] at h
    cases h
  | object n =>
    simp only [hget] at h
    cases h

/-- A node in a field that holds children is a child. -/
theorem mem_kids_of_mem_inField (htype : p.node.isAny types = true)
    (hfield : ∀ t ∈ types, (NodeType.childFields.lookup t).any (·.contains key) = true)
    (h : c ∈ p.inField key) : c ∈ p.kids := by
  obtain ⟨keys, hkeys, hkey⟩ := exists_childFields htype hfield
  rw [kids_eq hkeys]
  exact List.mem_flatMap.2 ⟨key, List.contains_iff_mem.1 hkey, h⟩

/-! ## Patterns -/

/-- The nodes to which a pattern hands its binding on. -/
def targets (p : Path) : List Path :=
  match p.node.type with
  | .string "ObjectPattern" =>
    (p.items "properties").flatMap fun property => property.single property.node.targetField
  | .string "ArrayPattern" => p.items "elements"
  | .string "AssignmentPattern" => p.single "left"
  | .string "RestElement" => p.single "argument"
  | _ => []

theorem size_lt_of_mem_targets (h : c ∈ p.targets) :
    (Json.object c.node).size < (Json.object p.node).size := by
  unfold targets at h
  split at h
  · obtain ⟨property, hproperty, h⟩ := List.mem_flatMap.1 h
    exact Nat.lt_trans (size_lt_of_mem_inField (mem_inField_of_mem_single h))
      (size_lt_of_mem_inField (mem_inField_of_mem_items hproperty))
  · exact size_lt_of_mem_inField (mem_inField_of_mem_items h)
  · exact size_lt_of_mem_inField (mem_inField_of_mem_single h)
  · exact size_lt_of_mem_inField (mem_inField_of_mem_single h)
  · cases h

/-- The identifiers that a pattern binds, from left to right. -/
def bound (p : Path) : List Path :=
  if p.node.isAny ["Identifier"] then [p]
  else p.targets.attach.flatMap fun ⟨c, _⟩ => c.bound
termination_by (Json.object p.node).size
decreasing_by exact size_lt_of_mem_targets ‹_›

theorem bound_of_identifier (h : p.node.isAny ["Identifier"] = true) : p.bound = [p] := by
  rw [bound, if_pos h]

theorem bound_eq_flatMap (h : p.node.isAny ["Identifier"] = false) :
    p.bound = p.targets.flatMap bound := by
  rw [bound, h, if_neg Bool.false_ne_true, List.flatMap_subtype (g := bound) (by intros; rfl),
    List.unattach_attach]

/-- What holds of an identifier, and of a pattern whenever it holds of the nodes to which it hands
its binding on, holds of every node. -/
theorem induction_on_targets {motive : Path → Prop}
    (step : ∀ p, (∀ c ∈ p.targets, motive c) → motive p) (p : Path) : motive p :=
  step p fun c _ => induction_on_targets step c
termination_by (Json.object p.node).size
decreasing_by exact size_lt_of_mem_targets ‹_›

/-- The target of a property is a child of the property. -/
theorem mem_kids_of_mem_targetField
    (htype : p.node.isAny ["Property", "ObjectProperty", "RestElement"] = true)
    (h : c ∈ p.single p.node.targetField) : c ∈ p.kids := by
  have hfield := mem_inField_of_mem_single h
  rw [Node.targetField] at hfield
  cases hrest : p.node.isAny ["RestElement"] with
  | true =>
    rw [hrest, if_pos rfl] at hfield
    exact mem_kids_of_mem_inField hrest (by decide) hfield
  | false =>
    have hsplit : ["Property", "ObjectProperty", "RestElement"] =
        NodeType.properties ++ ["RestElement"] := rfl
    rw [hsplit, Node.isAny_append, hrest, Bool.or_false] at htype
    rw [hrest, if_neg Bool.false_ne_true] at hfield
    exact mem_kids_of_mem_inField htype (by decide) hfield

theorem isAny_of_mem_properties {part : Node} (hplain : n.bindsPlainly = true)
    (htype : n.isAny ["ObjectPattern"] = true) (h : part ∈ n.parts "properties") :
    part.isAny ["Property", "ObjectProperty", "RestElement"] = true :=
  Node.isAny_of_bindsPlainly hplain (by decide) htype h

/-- All nodes on the way to the identifiers are visited. -/
theorem mem_descendants_of_mem_targets (hplain : p.node.bindsPlainly = true) (h : c ∈ p.targets) :
    c ∈ p.descendants := by
  unfold targets at h
  split at h
  · rename_i htype
    have htype := Node.isAny_singleton htype
    obtain ⟨property, hproperty, h⟩ := List.mem_flatMap.1 h
    refine mem_descendants_iff.2 ⟨property, ?_, .inr (mem_descendants_of_mem_kids ?_)⟩
    · exact mem_kids_of_mem_inField htype (by decide) (mem_inField_of_mem_items hproperty)
    · exact mem_kids_of_mem_targetField (isAny_of_mem_properties hplain htype
        (mem_parts_of_mem_inField (mem_inField_of_mem_items hproperty))) h
  · rename_i htype
    exact mem_descendants_of_mem_kids (mem_kids_of_mem_inField (Node.isAny_singleton htype)
      (by decide) (mem_inField_of_mem_items h))
  · rename_i htype
    exact mem_descendants_of_mem_kids (mem_kids_of_mem_inField (Node.isAny_singleton htype)
      (by decide) (mem_inField_of_mem_single h))
  · rename_i htype
    exact mem_descendants_of_mem_kids (mem_kids_of_mem_inField (Node.isAny_singleton htype)
      (by decide) (mem_inField_of_mem_single h))
  · cases h

/-- At and below the node all names are bound plainly. -/
def BindsPlainly (p : Path) : Prop := ∀ q ∈ p :: p.descendants, q.node.bindsPlainly = true

theorem BindsPlainly.of_mem_descendants (h : p.BindsPlainly) (hc : c ∈ p.descendants) :
    c.BindsPlainly := by
  intro q hq
  rcases List.mem_cons.1 hq with rfl | hq
  · exact h q (List.mem_cons_of_mem _ hc)
  · exact h q (List.mem_cons_of_mem _ (mem_descendants_trans hc hq))

theorem mem_descendants_of_mem_bound (h : p.BindsPlainly) (hq : q ∈ p.bound) :
    q ∈ p :: p.descendants := by
  induction p using induction_on_targets with
  | step p ih =>
    cases hid : p.node.isAny ["Identifier"] with
    | true =>
      rw [bound_of_identifier hid] at hq
      exact List.mem_singleton.1 hq ▸ List.mem_cons_self
    | false =>
      rw [bound_eq_flatMap hid] at hq
      obtain ⟨c, hc, hq⟩ := List.mem_flatMap.1 hq
      have hbelow := mem_descendants_of_mem_targets (h p List.mem_cons_self) hc
      refine List.mem_cons_of_mem _ ?_
      rcases List.mem_cons.1 (ih c hc (h.of_mem_descendants hbelow) hq) with rfl | hq
      · exact hbelow
      · exact mem_descendants_trans hbelow hq

/-! ## Bound names -/

/-- What is no child binds nothing. -/
theorem boundNames_eq_of_child? (j : Json) :
    boundNames j = j.child?.toList.flatMap fun n => boundNames (.object n) := by
  cases j with
  | scalar s => simp [boundNames, Json.child?, Json.node?]
  | array items => simp [boundNames, Json.child?, Json.node?]
  | object n =>
    cases htyped : Node.has n "type" with
    | true => simp [child?_of_has htyped]
    | false =>
      have htype : Node.type n = .null := Node.get_eq_null_of_has_eq_false htyped
      rw [boundNames_other fun t _ => by rw [htype]; simp]
      simp [Json.child?, Json.node?, htyped]

theorem boundNames_get (p : Path) (key : String) :
    boundNames (p.node.get key) = (p.single key).flatMap fun c => boundNames (.object c.node) := by
  rw [boundNames_eq_of_child?, single]
  cases (p.node.get key).child? <;> rfl

theorem flatMap_listed {α : Type} {f : Json → List α} {g : Node → List α} {items : List Json}
    (h : ∀ item ∈ items, f item = item.child?.toList.flatMap g) (start : Nat) :
    items.flatMap f = (p.listed key start items).flatMap fun c => g c.node := by
  induction items generalizing start with
  | nil => rfl
  | cons item items ih =>
    have hrest := ih (fun other hother => h other (List.mem_cons_of_mem _ hother)) (start + 1)
    rw [List.flatMap_cons, h item List.mem_cons_self, hrest, listed]
    cases item.child? <;> simp

/-- The entries of a field are those of its list, or they are no nodes. -/
theorem flatMap_items {α : Type} {f : Json → List α} {g : Node → List α} {entries : List Json}
    (hentries : (p.node.get key).entries? = some entries)
    (h : ∀ entry ∈ entries, f entry = entry.child?.toList.flatMap g) :
    entries.flatMap f = (p.items key).flatMap fun c => g c.node := by
  have hnone : (∀ entry ∈ entries, ∃ s, entry = .string s) → entries.flatMap f = [] := by
    intro hstrings
    refine List.flatMap_eq_nil_iff.2 fun entry hentry => ?_
    obtain ⟨s, rfl⟩ := hstrings entry hentry
    exact h _ hentry
  unfold items
  unfold Json.entries? at hentries
  split at hentries
  · rename_i items hitems
    cases hentries
    rw [hitems]
    exact flatMap_listed h 0
  · rename_i fields hfields
    cases hentries
    rw [hfields]
    exact hnone fun entry hentry => by
      obtain ⟨x, -, rfl⟩ := List.mem_map.1 hentry
      exact ⟨_, rfl⟩
  · rename_i s hs
    cases hentries
    rw [hs]
    exact hnone (by simp)
  · rename_i s hnot hs
    split at hentries
    · cases hentries
    · cases hentries
      rw [hs]
      rfl

/-- A pattern binds the names that the nodes below it bind to which it hands its binding on. -/
theorem boundNames_eq_flatMap (hplain : p.node.bindsPlainly = true)
    (hid : p.node.isAny ["Identifier"] = false)
    (hsound : ∀ x ∈ boundNames (.object p.node), ∃ b, x = .ok b) :
    boundNames (.object p.node) = p.targets.flatMap fun c => boundNames (.object c.node) := by
  unfold targets
  split
  · rename_i htype
    rw [boundNames_objectPattern htype] at hsound ⊢
    cases hentries : (p.node.get "properties").entries? with
    | none => simp [listedNames, Json.entries, hentries] at hsound
    | some entries =>
      rw [Json.entries, hentries, readable_some, listedNames] at hsound
      rw [Json.entries, hentries, readable_some, listedNames,
        flatMap_items (g := fun n => boundNames (n.get n.targetField)) hentries,
        List.flatMap_assoc]
      · exact List.flatMap_congr fun property _ => boundNames_get property _
      · intro entry hentry
        have hslots := fun x hx => hsound x (List.mem_flatMap.2 ⟨entry, hentry, hx⟩)
        unfold slotNames at hslots ⊢
        cases hslot : propertySlot (.object p.node) entry with
        | error fault => simp [hslot] at hslots
        | ok slot =>
          -- A property is a typed node, so it is visited.
          rw [object_of_propertySlot hslot] at hentry ⊢
          have htyped := isAny_of_mem_properties hplain (Node.isAny_singleton htype)
            (Node.mem_parts_of_entries? hentries hentry)
          simp [child?_of_has (Node.has_type_of_isAny htyped)]
  · rename_i htype
    rw [boundNames_arrayPattern htype] at hsound ⊢
    cases hentries : (p.node.get "elements").entries? with
    | none => simp [listedNames, Json.entries, hentries] at hsound
    | some entries =>
      rw [Json.entries, hentries, readable_some, listedNames]
      exact flatMap_items hentries fun entry _ => boundNames_eq_of_child? entry
  · rename_i htype
    rw [boundNames_assignmentPattern htype, boundNames_get]
  · rename_i htype
    rw [boundNames_restElement htype, boundNames_get]
  · rename_i hobject harray hdefault hrest
    refine boundNames_other fun t ht htype => ?_
    simp only [NodeType.targets, List.mem_cons, List.not_mem_nil, or_false] at ht
    rcases ht with rfl | rfl | rfl | rfl | rfl
    · rw [Node.isAny_singleton htype] at hid
      cases hid
    · exact hobject htype
    · exact harray htype
    · exact hdefault htype
    · exact hrest htype

/-- The names that a pattern binds are those of its identifiers. -/
theorem boundNames_eq_map_bound (hplain : p.BindsPlainly)
    (hsound : ∀ x ∈ boundNames (.object p.node), ∃ b, x = .ok b) :
    boundNames (.object p.node) = p.bound.map fun q => q.node.boundName := by
  induction p using induction_on_targets with
  | step p ih =>
    cases hid : p.node.isAny ["Identifier"] with
    | true => rw [boundNames_identifier hid, bound_of_identifier hid, List.map_singleton]
    | false =>
      have hnode := hplain p List.mem_cons_self
      have hnames := boundNames_eq_flatMap hnode hid hsound
      rw [hnames] at hsound
      rw [hnames, bound_eq_flatMap hid, List.map_flatMap]
      refine List.flatMap_congr fun c hc => ?_
      exact ih c hc (hplain.of_mem_descendants (mem_descendants_of_mem_targets hnode hc))
        fun x hx => hsound x (List.mem_flatMap.2 ⟨c, hc, hx⟩)

/-! ## Places of reads -/

/-- An identifier that stands here reads its name. -/
def inReadPlace : Path → Bool
  | .root _ => true
  | .child parent key _ _ => parent.readsIn key

theorem isReferenced_eq (p : Path) :
    p.isReferenced = (p.node.isAny ["Identifier"] && p.inReadPlace) := by
  cases p <;> rfl

theorem inReadPlace_of_mem_inField (h : c ∈ p.inField key) : c.inReadPlace = p.readsIn key := by
  obtain ⟨index, hc⟩ := exists_eq_child h
  rw [hc]
  rfl

theorem readsIn_eq_false (h : p.node.isAny types = true)
    (htypes : ∀ t ∈ types, (Reading.table.lookup t).any (·.skips key) = true) :
    p.readsIn key = false := by
  obtain ⟨t, ht, htype⟩ := Node.isAny_iff.1 h
  obtain ⟨r, hr, hskips⟩ := (Option.any_eq_true _ _).1 (htypes t ht)
  have hreading : p.node.reading = r := by
    rw [Node.reading, htype]
    simp [hr]
  unfold readsIn
  rw [hreading]
  cases r with
  | nowhere => rfl
  | only field => simpa [Reading.skips] using hskips
  | member => simp_all [Reading.skips]
  | _ => cases hskips

/-- A property of a pattern hands its binding on to a place where nothing is read. -/
theorem inReadPlace_of_mem_property (htype : p.node.isAny ["ObjectPattern"] = true)
    (hq : q ∈ p.items "properties")
    (hproperty : q.node.isAny ["Property", "ObjectProperty", "RestElement"] = true)
    (h : c ∈ q.single q.node.targetField) : c.inReadPlace = false := by
  rw [inReadPlace_of_mem_inField (mem_inField_of_mem_single h), Node.targetField]
  cases hrest : q.node.isAny ["RestElement"] with
  | true => exact readsIn_eq_false hrest (by decide)
  | false =>
    have hsplit : ["Property", "ObjectProperty", "RestElement"] =
        NodeType.properties ++ ["RestElement"] := rfl
    rw [hsplit, Node.isAny_append, hrest, Bool.or_false] at hproperty
    obtain ⟨index, heq⟩ := exists_eq_child (mem_inField_of_mem_items hq)
    rw [readsIn, Node.reading_of_isAny (r := .property) (by decide) hproperty, heq]
    simp [parent?, htype]

theorem inReadPlace_of_mem_targets (hplain : p.node.bindsPlainly = true) (h : c ∈ p.targets) :
    c.inReadPlace = false := by
  unfold targets at h
  split at h
  · rename_i htype
    have htype := Node.isAny_singleton htype
    obtain ⟨property, hproperty, h⟩ := List.mem_flatMap.1 h
    exact inReadPlace_of_mem_property htype hproperty (isAny_of_mem_properties hplain htype
      (mem_parts_of_mem_inField (mem_inField_of_mem_items hproperty))) h
  · rename_i htype
    rw [inReadPlace_of_mem_inField (mem_inField_of_mem_items h)]
    exact readsIn_eq_false (Node.isAny_singleton htype) (by decide)
  · rename_i htype
    rw [inReadPlace_of_mem_inField (mem_inField_of_mem_single h)]
    exact readsIn_eq_false (Node.isAny_singleton htype) (by decide)
  · rename_i htype
    rw [inReadPlace_of_mem_inField (mem_inField_of_mem_single h)]
    exact readsIn_eq_false (Node.isAny_singleton htype) (by decide)
  · cases h

/-- If a pattern stands where nothing is read, so do the identifiers that it binds. -/
theorem inReadPlace_of_mem_bound (hplain : p.BindsPlainly) (hp : p.inReadPlace = false)
    (hq : q ∈ p.bound) : q.inReadPlace = false := by
  induction p using induction_on_targets with
  | step p ih =>
    cases hid : p.node.isAny ["Identifier"] with
    | true =>
      rw [bound_of_identifier hid] at hq
      rwa [List.mem_singleton.1 hq]
    | false =>
      rw [bound_eq_flatMap hid] at hq
      obtain ⟨c, hc, hq⟩ := List.mem_flatMap.1 hq
      have hnode := hplain p List.mem_cons_self
      exact ih c hc (hplain.of_mem_descendants (mem_descendants_of_mem_targets hnode hc))
        (inReadPlace_of_mem_targets hnode hc) hq

end Path

end LexicalScopes
