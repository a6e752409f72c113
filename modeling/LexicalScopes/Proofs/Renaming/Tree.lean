import LexicalScopes.Proofs.Run.Contribution

/-!
# Renamed trees

A tree is renamed by changing the name of each of its identifiers. Locations and the other
bookkeeping of a node hold no identifiers and stay as they are. Whatever is read off a renamed tree
is what is read off the tree itself, renamed.
-/

namespace LexicalScopes

/-! ## Renaming -/

/-- The scalar with a text changed by `r`. -/
def Scalar.renamed (r : String → String) : Scalar → Scalar
  | .string s => .string (r s)
  | s => s

/-- The name of an identifier, changed by `r`. -/
def Json.renamedName (r : String → String) : Json → Json
  | .scalar s => .scalar (s.renamed r)
  | j => j

mutual

/-- The value with the names of all identifiers in it changed by `r`. -/
def Json.renamed (r : String → String) : Json → Json
  | .scalar s => .scalar s
  | .array items => .array (Json.renamedItems r items)
  | .object fields => .object (Json.renamedFields r (Node.isAny fields ["Identifier"]) fields)

def Json.renamedItems (r : String → String) : List Json → List Json
  | [] => []
  | item :: rest => item.renamed r :: Json.renamedItems r rest

/-- The fields of a node, which is an identifier or not. -/
def Json.renamedFields (r : String → String) (identifier : Bool) :
    List (String × Json) → List (String × Json)
  | [] => []
  | (key, value) :: rest =>
    (key,
      if NodeType.bookkeeping.contains key then value
      else if identifier && key == "name" then value.renamedName r
      else value.renamed r) :: Json.renamedFields r identifier rest

end

/-- The node with the names of all identifiers in it changed by `r`. -/
def Node.renamed (r : String → String) (n : Node) : Node :=
  Json.renamedFields r (n.isAny ["Identifier"]) n

/-- The same way in the renamed tree. -/
def Path.renamed (r : String → String) : Path → Path
  | .root n => .root (n.renamed r)
  | .child parent key index n => .child (parent.renamed r) key index (n.renamed r)

variable {r : String → String} {n : Node} {j : Json} {p : Path} {key : String} {types : List String}

@[simp] theorem Path.node_renamed : (p.renamed r).node = p.node.renamed r := by
  cases p <;> rfl

/-! ## Fields -/

namespace Json

@[simp] theorem renamed_scalar (s : Scalar) : (Json.scalar s).renamed r = .scalar s := by
  rw [renamed]

@[simp] theorem renamed_object (n : Node) : (Json.object n).renamed r = .object (n.renamed r) := by
  rw [renamed, Node.renamed]

theorem renamedItems_eq (items : List Json) : renamedItems r items = items.map (renamed r) := by
  induction items with
  | nil => rw [renamedItems, List.map_nil]
  | cons item rest ih => rw [renamedItems, ih, List.map_cons]

@[simp] theorem renamed_array (items : List Json) :
    (Json.array items).renamed r = .array (items.map (renamed r)) := by
  rw [renamed, renamedItems_eq]

end Json

namespace Node

/-- The value of a field in the renamed node. -/
def renamedValue (r : String → String) (identifier : Bool) (key : String) (value : Json) : Json :=
  if NodeType.bookkeeping.contains key then value
  else if identifier && key == "name" then value.renamedName r
  else value.renamed r

theorem renamedFields_eq (identifier : Bool) (fields : List (String × Json)) :
    Json.renamedFields r identifier fields =
      fields.map fun (key, value) => (key, renamedValue r identifier key value) := by
  induction fields with
  | nil => rw [Json.renamedFields, List.map_nil]
  | cons field rest ih =>
    rw [Json.renamedFields, ih]
    rfl

theorem renamed_eq :
    n.renamed r =
      n.map fun (key, value) => (key, renamedValue r (n.isAny ["Identifier"]) key value) :=
  renamedFields_eq _ n

theorem lookup_map (f : String → Json → Json) (fields : List (String × Json)) (key : String) :
    (fields.map fun (k, v) => (k, f k v)).lookup key = (fields.lookup key).map (f key) := by
  induction fields with
  | nil => rfl
  | cons field rest ih =>
    obtain ⟨k, v⟩ := field
    rw [List.map_cons, List.lookup_cons, List.lookup_cons, ih]
    split
    · rename_i heq
      rw [eq_of_beq heq]
      rfl
    · rfl

theorem lookup_renamed :
    (n.renamed r).lookup key =
      (n.lookup key).map (renamedValue r (n.isAny ["Identifier"]) key) := by
  rw [renamed_eq, lookup_map]

@[simp] theorem has_renamed : (n.renamed r).has key = n.has key := by
  rw [has, lookup_renamed, Option.isSome_map, has]

theorem get_renamed_eq :
    (n.renamed r).get key = renamedValue r (n.isAny ["Identifier"]) key (n.get key) := by
  rw [get, lookup_renamed, get]
  cases n.lookup key with
  | some v => rfl
  | none =>
    rw [Option.map_none, Option.getD_none, renamedValue]
    split
    · rfl
    · split <;> simp [Json.renamedName, Scalar.renamed]

/-- What is no part of the tree stays as it is. -/
theorem get_renamed_bookkeeping (h : NodeType.bookkeeping.contains key = true) :
    (n.renamed r).get key = n.get key := by
  rw [get_renamed_eq, renamedValue, if_pos h]

theorem get_renamed (h : NodeType.bookkeeping.contains key = false) (hname : key ≠ "name") :
    (n.renamed r).get key = (n.get key).renamed r := by
  rw [get_renamed_eq, renamedValue, h]
  simp [hname]

theorem get_name_renamed (h : n.isAny ["Identifier"] = true) :
    (n.renamed r).get "name" = (n.get "name").renamedName r := by
  rw [get_renamed_eq, renamedValue, h]
  rfl

@[simp] theorem type_renamed : (n.renamed r).type = n.type := get_renamed_bookkeeping (by decide)

@[simp] theorem isAny_renamed : (n.renamed r).isAny types = n.isAny types := by
  rw [isAny, type_renamed, isAny]

end Node

namespace Json

@[simp] theorem node?_renamed : (j.renamed r).node? = j.node?.map (Node.renamed r) := by
  cases j <;> simp [node?]

@[simp] theorem isAny_renamed : (j.renamed r).isAny types = j.isAny types := by
  rw [isAny, node?_renamed, isAny]
  cases j.node? <;> simp

@[simp] theorem isPresent_renamed : (j.renamed r).isPresent = j.isPresent := by
  cases j <;> simp [isPresent, Node.renamed_eq]

@[simp] theorem isNull_renamed : (j.renamed r).isNull = j.isNull := by
  cases j <;> simp [isNull]

@[simp] theorem entries?_renamed :
    (j.renamed r).entries? = j.entries?.map (List.map (renamed r)) := by
  cases j with
  | scalar s =>
    rw [renamed_scalar]
    cases s <;> simp [entries?, apply_ite]
  | array items => simp [entries?]
  | object n => simp [entries?, Node.renamed_eq, Function.comp_def]

theorem field?_renamed (h : NodeType.bookkeeping.contains key = false) (hname : key ≠ "name") :
    (j.renamed r).field? key = (j.field? key).map (renamed r) := by
  rw [field?, node?_renamed, field?]
  cases j.node? with
  | none => rfl
  | some n => simp [Node.get_renamed h hname]

/-- A value that is no list and no object stays as it is. -/
theorem renamed_eq_scalar_iff {s : Scalar} : j.renamed r = .scalar s ↔ j = .scalar s := by
  cases j <;> simp

@[simp] theorem isNumber_renamed : (j.renamed r).isNumber = j.isNumber := by
  cases j <;> simp [isNumber]

@[simp] theorem string?_renamed : (j.renamed r).string? = j.string? := by
  cases j <;> simp [string?]

@[simp] theorem isNumericLiteral_renamed : (j.renamed r).isNumericLiteral = j.isNumericLiteral := by
  simp (disch := decide) [isNumericLiteral, field?_renamed, Option.any_map]

@[simp] theorem isStringLiteral_renamed : (j.renamed r).isStringLiteral = j.isStringLiteral := by
  simp (disch := decide) [isStringLiteral, field?_renamed, Option.any_map]

@[simp] theorem isLexicalDeclaration_renamed :
    (j.renamed r).isLexicalDeclaration = j.isLexicalDeclaration := by
  simp (disch := decide) [isLexicalDeclaration, field?_renamed, Option.any_map,
    renamed_eq_scalar_iff]

@[simp] theorem declaresInBlock_renamed : (j.renamed r).declaresInBlock = j.declaresInBlock := by
  simp [declaresInBlock]

@[simp] theorem kind_renamed : (j.renamed r).kind = j.kind := by
  cases j with
  | scalar s => rw [renamed_scalar]
  | array items => rw [renamed, kind, kind]
  | object n => rw [renamed_object, kind_object, kind_object]

@[simp] theorem entries_renamed : (j.renamed r).entries = List.map (renamed r) <$> j.entries := by
  rw [entries, entries?_renamed, kind_renamed, entries]
  cases j.entries? <;> rfl

@[simp] theorem counted_renamed : (j.renamed r).counted = List.map (renamed r) <$> j.counted := by
  rw [counted, entries?_renamed, kind_renamed, counted]
  cases j.entries? <;> rfl

@[simp] theorem fields_renamed : (j.renamed r).fields = Node.renamed r <$> j.fields := by
  rw [fields, node?_renamed, kind_renamed, fields]
  cases j.node? <;> rfl

theorem field_renamed (h : NodeType.bookkeeping.contains key = false) (hname : key ≠ "name") :
    (j.renamed r).field key = renamed r <$> j.field key := by
  rw [field, field?_renamed h hname, kind_renamed, field]
  cases j.field? key <;> rfl

theorem field_type_renamed : (j.renamed r).field "type" = j.field "type" := by
  rw [field, field?, node?_renamed, kind_renamed, field, field?]
  cases j.node? with
  | none => rfl
  | some n => exact congrArg (fun type => readable (some type) _) Node.type_renamed

end Json

/-! ## Locations -/

theorem Position.ofNode?_renamed : Position.ofNode? (j.renamed r) = Position.ofNode? j := by
  rw [ofNode?, Json.node?_renamed, ofNode?]
  cases j.node? with
  | none => rfl
  | some n => rw [Option.map_some]; simp (disch := decide) [Node.get_renamed_bookkeeping]

@[simp] theorem Cause.malformed_renamed (defect : Defect) :
    Cause.malformed defect (j.renamed r) = Cause.malformed defect j := by
  rw [malformed, Position.ofNode?_renamed, malformed]

namespace Node

@[simp] theorem loc_renamed : (n.renamed r).loc = n.loc := by
  have hobject : Json.object (n.renamed r) = (Json.object n).renamed r :=
    (Json.renamed_object n).symm
  unfold loc
  rw [get_renamed_bookkeeping (by decide), type_renamed, hobject, Cause.malformed_renamed]

@[simp] theorem start_renamed : (n.renamed r).start = n.start := by
  rw [start, loc_renamed, start]

@[simp] theorem role?_renamed : (n.renamed r).role? = n.role? := by
  rw [role?, type_renamed, role?]

end Node

/-! ## Children -/

@[simp] theorem Json.child?_renamed : (j.renamed r).child? = j.child?.map (Node.renamed r) := by
  rw [child?, node?_renamed, child?]
  cases j.node? with
  | none => rfl
  | some n => simp [apply_ite]

@[simp] theorem Json.holdsChildren_renamed : (j.renamed r).holdsChildren = j.holdsChildren := by
  cases j with
  | scalar s => simp
  | array items => simp [holdsChildren, Function.comp_def]
  | object n =>
    rw [renamed_object, holdsChildren, holdsChildren, ← renamed_object, child?_renamed,
      Option.isSome_map]
    · simp
    · simp

namespace Node

theorem searchedFields_renamed (h : n.isAny ["Identifier"] = false) :
    (n.renamed r).searchedFields = n.searchedFields := by
  rw [searchedFields, renamed_eq, List.filter_map, List.map_map, searchedFields, h]
  -- The search looks at keys and at which fields hold children, neither of which changes.
  have hkeep : ∀ field ∈ n, (!NodeType.bookkeeping.contains field.1 &&
      (renamedValue r false field.1 field.2).holdsChildren) =
        (!NodeType.bookkeeping.contains field.1 && field.2.holdsChildren) := by
    intro field _
    unfold renamedValue
    cases NodeType.bookkeeping.contains field.1 <;> simp
  rw [List.filter_congr (q := fun field => !NodeType.bookkeeping.contains field.1 &&
    field.2.holdsChildren) (by simpa using hkeep)]
  rfl

theorem childFields_renamed : (n.renamed r).childFields = n.childFields := by
  cases hid : n.isAny ["Identifier"] with
  | false => rw [childFields, type_renamed, searchedFields_renamed hid, childFields]
  | true => rw [childFields_identifier (by simpa using hid), childFields_identifier hid]

/-- Neither the bookkeeping of a node nor the name of an identifier is a child. -/
theorem get_renamed_of_mem_childFields {keys : List String} (h : n.childFields = .ok keys)
    (hkey : key ∈ keys) : (n.renamed r).get key = (n.get key).renamed r := by
  have hid : n.isAny ["Identifier"] = false := by
    rw [Bool.eq_false_iff]
    intro hid
    rw [childFields_identifier hid] at h
    cases h
    cases hkey
  rw [get_renamed_eq, renamedValue, bookkeeping_of_mem_childFields h hkey, hid]
  rfl

end Node

namespace Path

theorem listed_renamed (p : Path) (key : String) (start : Nat) (items : List Json) :
    (p.renamed r).listed key start (items.map (Json.renamed r)) =
      (p.listed key start items).map (renamed r) := by
  induction items generalizing start with
  | nil => rfl
  | cons item rest ih =>
    rw [List.map_cons, listed, listed, Json.child?_renamed, ih]
    cases item.child? <;> rfl

theorem inField_renamed (h : (p.node.renamed r).get key = (p.node.get key).renamed r) :
    (p.renamed r).inField key = (p.inField key).map (renamed r) := by
  rw [inField, node_renamed, h, inField]
  cases p.node.get key with
  | scalar s => rfl
  | array items => simp [listed_renamed]
  | object n =>
    have hchild := Json.child?_renamed (r := r) (j := .object n)
    rw [Json.renamed_object] at hchild ⊢
    simp only [hchild]
    cases (Json.object n).child? <;> rfl

/-- The renamed tree has the same children everywhere, renamed. -/
theorem children_renamed : (p.renamed r).children = List.map (renamed r) <$> p.children := by
  rw [children, node_renamed, Node.childFields_renamed, children]
  cases hkeys : p.node.childFields with
  | error fault => rfl
  | ok keys =>
    have hfields : ∀ key ∈ keys, (p.renamed r).inField key = (p.inField key).map (renamed r) :=
      fun key hkey => inField_renamed (Node.get_renamed_of_mem_childFields hkeys hkey)
    simp only [bind, Except.bind, pure, Except.pure, Functor.map, Except.map, List.map_flatMap]
    rw [List.flatMap_congr hfields]

/-! ## Places -/

@[simp] theorem isChildOf_renamed : (p.renamed r).isChildOf types key = p.isChildOf types key := by
  cases p <;> simp [isChildOf, renamed]

@[simp] theorem parent?_renamed : (p.renamed r).parent? = p.parent?.map (renamed r) := by
  cases p <;> rfl

@[simp] theorem ownField?_renamed : (p.renamed r).ownField? = p.ownField? := by
  cases p with
  | root n => rfl
  | child parent key index n => cases index <;> rfl

@[simp] theorem isProgram_renamed : (p.renamed r).isProgram = p.isProgram := by
  simp [isProgram]

@[simp] theorem readsIn_renamed : (p.renamed r).readsIn key = p.readsIn key := by
  have hreading : (p.node.renamed r).reading = p.node.reading := by
    rw [Node.reading, Node.type_renamed, Node.reading]
  simp (disch := decide) [readsIn, hreading, Node.get_renamed, Option.any_map]

@[simp] theorem isReferenced_renamed : (p.renamed r).isReferenced = p.isReferenced := by
  cases p <;> simp [isReferenced, renamed]

end Path

end LexicalScopes
