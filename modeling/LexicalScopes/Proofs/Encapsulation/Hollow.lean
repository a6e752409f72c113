import LexicalScopes.Proofs.Renaming.Tree
import LexicalScopes.Proofs.Spelling.Tree

/-!
# Hollow trees

A tree is hollow once the bodies of all its functions are taken out. Values that are handed on as
they stand are left whole: locations, the names of identifiers and of accessed properties, and the
values of literals. A hollow node has the type and the fields of the node itself, and holds children
in the same fields.
-/

namespace LexicalScopes

/-! ## Hollowing out -/

namespace Node

/-- The field holds a value that is handed on as it stands. Of the property of an access the name
is. -/
def keeps (n : Node) (accessed : Bool) (key : String) : Bool :=
  key == "type" || key == "loc" || (key == "name" && (accessed || n.isAny ["Identifier"]))
    || (key == "value" && n.isAny NodeType.literals)

/-- The field holds the body of a function. -/
def holdsBody (n : Node) (key : String) : Bool := key == "body" && n.isAny NodeType.functions

/-- The field holds the property of an access. -/
def holdsAccessed (n : Node) (key : String) : Bool := key == "property" && n.isAny NodeType.members

end Node

mutual

/-- The value without the bodies of the functions in it. -/
def Json.hollow (accessed : Bool) : Json → Json
  | .scalar s => .scalar s
  | .array items => .array (Json.hollowItems items)
  | .object n => .object (Json.hollowFields n accessed n)

def Json.hollowItems : List Json → List Json
  | [] => []
  | item :: rest => item.hollow false :: Json.hollowItems rest

/-- Some of the fields of a node. -/
def Json.hollowFields (n : Node) (accessed : Bool) : List (String × Json) → List (String × Json)
  | [] => []
  | (key, value) :: rest =>
    (key,
      if n.keeps accessed key then value
      else if n.holdsBody key then .null
      else value.hollow (n.holdsAccessed key)) :: Json.hollowFields n accessed rest

end

/-- The node without the bodies of the functions in it, and without its own if it is a function. -/
def Node.hollow (n : Node) (accessed : Bool) : Node := Json.hollowFields n accessed n

/-- The same way in the hollow tree. -/
def Path.hollow : Path → Path
  | .root n => .root (n.hollow false)
  | .child parent key index n => .child parent.hollow key index (n.hollow false)

variable {n : Node} {j : Json} {p : Path} {a : Bool} {key : String} {types : List String}

@[simp] theorem Path.node_hollow : p.hollow.node = p.node.hollow false := by
  cases p <;> rfl

/-! ## Fields -/

namespace Json

@[simp] theorem hollow_scalar (s : Scalar) : (Json.scalar s).hollow a = .scalar s := by
  rw [hollow]

@[simp] theorem hollow_object (n : Node) : (Json.object n).hollow a = .object (n.hollow a) := by
  rw [hollow, Node.hollow]

theorem hollowItems_eq (items : List Json) : hollowItems items = items.map (hollow false) := by
  induction items with
  | nil => rw [hollowItems, List.map_nil]
  | cons item rest ih => rw [hollowItems, ih, List.map_cons]

@[simp] theorem hollow_array (items : List Json) :
    (Json.array items).hollow a = .array (items.map (hollow false)) := by
  rw [hollow, hollowItems_eq]

end Json

namespace Node

/-- The value of a field in the hollow node. -/
def hollowValue (n : Node) (accessed : Bool) (key : String) (value : Json) : Json :=
  if n.keeps accessed key then value
  else if n.holdsBody key then .null
  else value.hollow (n.holdsAccessed key)

theorem hollowFields_eq (fields : List (String × Json)) :
    Json.hollowFields n a fields =
      fields.map fun (key, value) => (key, n.hollowValue a key value) := by
  induction fields with
  | nil => rw [Json.hollowFields, List.map_nil]
  | cons field rest ih =>
    rw [Json.hollowFields, ih]
    rfl

theorem hollow_eq : n.hollow a = n.map fun (key, value) => (key, n.hollowValue a key value) :=
  hollowFields_eq n

theorem lookup_hollow : (n.hollow a).lookup key = (n.lookup key).map (n.hollowValue a key) := by
  rw [hollow_eq, lookup_map]

@[simp] theorem has_hollow : (n.hollow a).has key = n.has key := by
  rw [has, lookup_hollow, Option.isSome_map, has]

theorem get_hollow_eq : (n.hollow a).get key = n.hollowValue a key (n.get key) := by
  rw [get, lookup_hollow, get]
  cases n.lookup key with
  | some v => rfl
  | none =>
    rw [Option.map_none, Option.getD_none, hollowValue]
    split
    · rfl
    · split <;> simp

/-- A value that is handed on stays as it is. -/
theorem get_hollow_of_keeps (h : n.keeps a key = true) : (n.hollow a).get key = n.get key := by
  rw [get_hollow_eq, hollowValue, if_pos h]

@[simp] theorem type_hollow : (n.hollow a).type = n.type :=
  get_hollow_of_keeps (by simp [keeps])

@[simp] theorem isAny_hollow : (n.hollow a).isAny types = n.isAny types := by
  rw [isAny, type_hollow, isAny]

end Node

namespace Json

@[simp] theorem node?_hollow : (j.hollow a).node? = j.node?.map (Node.hollow · a) := by
  cases j <;> simp [node?]

@[simp] theorem entries?_hollow :
    (j.hollow a).entries? = j.entries?.map (List.map (hollow false)) := by
  cases j with
  | scalar s =>
    rw [hollow_scalar]
    cases s <;> simp [entries?, apply_ite]
  | array items => simp [entries?]
  | object n => simp [entries?, Node.hollow_eq, Function.comp_def]

end Json

/-! ## Children -/

theorem Json.child?_hollow : (j.hollow a).child? = j.child?.map (Node.hollow · a) := by
  rw [child?, node?_hollow, child?]
  cases j.node? with
  | none => rfl
  | some n => simp [apply_ite]

@[simp] theorem Json.holdsChildren_hollow : (j.hollow a).holdsChildren = j.holdsChildren := by
  have hchild (j : Json) (a : Bool) : (j.hollow a).child?.isSome = j.child?.isSome := by
    rw [child?_hollow, Option.isSome_map]
  cases j with
  | scalar s => simp
  | array items =>
    simp only [hollow_array, holdsChildren, List.any_map, Function.comp_def, hchild]
  | object n =>
    have h := hchild (.object n) a
    rw [hollow_object] at h ⊢
    exact h

/-- The fields that hold children are the same, for a function is of a known type. -/
theorem Node.childFields_hollow : (n.hollow a).childFields = n.childFields := by
  unfold childFields
  rw [type_hollow]
  have hsearched (hother : n.isAny NodeType.functions = false) :
      (n.hollow a).searchedFields = n.searchedFields := by
    rw [searchedFields, hollow_eq, List.filter_map, List.map_map, searchedFields]
    have hkeep : ∀ field ∈ n, (!NodeType.bookkeeping.contains field.1 &&
        (n.hollowValue a field.1 field.2).holdsChildren) =
          (!NodeType.bookkeeping.contains field.1 && field.2.holdsChildren) := by
      intro field _
      simp only [hollowValue, holdsBody, hother, Bool.and_false, Bool.false_eq_true, if_false]
      split <;> simp
    rw [List.filter_congr (q := fun field => !NodeType.bookkeeping.contains field.1 &&
      field.2.holdsChildren) (by simpa using hkeep)]
    rfl
  split
  · rename_i t htype
    cases hlookup : NodeType.childFields.lookup t with
    | some keys => rfl
    | none =>
      rw [Option.getD_none, Option.getD_none, hsearched]
      rw [Bool.eq_false_iff]
      intro hfunction
      have htable : ∀ t ∈ NodeType.functions, NodeType.childFields.lookup t ≠ none := by decide
      obtain ⟨t', ht', htype'⟩ := isAny_iff.1 hfunction
      rw [htype] at htype'
      cases htype'
      exact htable t ht' hlookup
  · rename_i s hs htype
    rw [hsearched]
    rw [Bool.eq_false_iff]
    intro hfunction
    obtain ⟨t, -, htype'⟩ := isAny_iff.1 hfunction
    rw [htype] at htype'
    exact hs t (Json.scalar.inj htype')
  · rfl

end LexicalScopes
