import LexicalScopes.Proofs.Encapsulation.Hollow
import LexicalScopes.Proofs.Likeness.Paths

/-!
# Bare trees

A tree is bare once the incidental fields of its nodes are taken out: offsets, comments, tokens and
whatever else a parser may leave in a node without meaning anything by it. Values that are handed on
as they stand are left whole, and of an object that stands in the place of the expressions of a
sequence the number of fields is kept, for they are counted. Trees that are the same when bare are
read alike.
-/

namespace LexicalScopes

/-! ## Taking fields out -/

/-- Fields of a node that are not looked at. -/
def NodeType.incidental : List String :=
  ["range", "start", "end", "extra", "comments", "leadingComments", "trailingComments",
    "innerComments", "tokens", "errors"]

/-- Where a value stands, as far as it matters for its own fields. -/
inductive Standing where
  | plain
  /-- It is the property of an access. -/
  | accessed
  /-- It takes the place of the expressions of a sequence. -/
  | counted
deriving DecidableEq

namespace Node

/-- The field does not matter to the node. -/
def isIncidental (n : Node) (key : String) : Bool :=
  n.has "type" && NodeType.incidental.contains key

/-- Where the value of a field stands. -/
def standing (n : Node) (key : String) : Standing :=
  if n.holdsAccessed key then .accessed
  else if key == "expressions" && n.isAny ["SequenceExpression"] then .counted
  else .plain

/-- What is left of the incidental fields: where the fields are counted, as many of one kind. -/
def tally (n : Node) (s : Standing) : Node :=
  if s = .counted then
    (n.filter fun field => n.isIncidental field.1).map fun _ => ("range", .null)
  else []

end Node

mutual

/-- The value without the incidental fields of its nodes. -/
def Json.bare (s : Standing) : Json → Json
  | .scalar value => .scalar value
  | .array items => .array (Json.bareItems items)
  | .object n => .object (Json.bareFields n s n ++ Node.tally n s)

def Json.bareItems : List Json → List Json
  | [] => []
  | item :: rest => item.bare .plain :: Json.bareItems rest

/-- The fields of a node that matter to it. -/
def Json.bareFields (n : Node) (s : Standing) : List (String × Json) → List (String × Json)
  | [] => []
  | (key, value) :: rest =>
    if n.isIncidental key then Json.bareFields n s rest
    else
      (key, if n.keeps (s = .accessed) key then value else value.bare (n.standing key)) ::
        Json.bareFields n s rest

end

/-- The node without incidental fields. -/
def Node.bare (n : Node) (s : Standing) : Node := Json.bareFields n s n ++ n.tally s

variable {n m : Node} {j k : Json} {a : Bool} {s : Standing} {key : String} {types : List String}

/-! ## Bare values -/

namespace Json

@[simp] theorem bare_scalar (value : Scalar) : (Json.scalar value).bare s = .scalar value := by
  rw [bare]

@[simp] theorem bare_object (n : Node) : (Json.object n).bare s = .object (n.bare s) := by
  rw [bare, Node.bare]

theorem bareItems_eq (items : List Json) : bareItems items = items.map (bare .plain) := by
  induction items with
  | nil => rw [bareItems, List.map_nil]
  | cons item rest ih => rw [bareItems, ih, List.map_cons]

@[simp] theorem bare_array (items : List Json) :
    (Json.array items).bare s = .array (items.map (bare .plain)) := by
  rw [bare, bareItems_eq]

end Json

/-- The first field with a name is found among those of all chosen names. -/
theorem lookup_filter {α : Type} (f : String → Bool) (key : String) (fields : List (String × α)) :
    (fields.filter fun field => f field.1).lookup key =
      if f key then fields.lookup key else none := by
  induction fields with
  | nil => simp
  | cons field rest ih =>
    obtain ⟨k, v⟩ := field
    cases hk : key == k with
    | true =>
      obtain rfl := eq_of_beq hk
      cases hf : f key <;> simp [hf, ih]
    | false => cases hf : f k <;> simp [hf, hk, ih, List.lookup_cons]

namespace Node

/-- The value of a field in the bare node. -/
def bareValue (n : Node) (s : Standing) (key : String) (value : Json) : Json :=
  if n.keeps (s = .accessed) key then value else value.bare (n.standing key)

theorem bare_eq : n.bare s =
    ((n.filter fun field => !n.isIncidental field.1).map fun (key, value) =>
      (key, n.bareValue s key value)) ++ n.tally s := by
  have hfields (fields : List (String × Json)) : Json.bareFields n s fields =
      (fields.filter fun field => !n.isIncidental field.1).map fun (key, value) =>
        (key, n.bareValue s key value) := by
    induction fields with
    | nil => rw [Json.bareFields]; rfl
    | cons field rest ih =>
      rw [Json.bareFields, ih, List.filter_cons]
      cases n.isIncidental field.1 <;> rfl
  rw [bare, hfields]

theorem isIncidental_eq_false (h : key ∉ NodeType.incidental) : n.isIncidental key = false := by
  simp [isIncidental, h]

theorem mem_tally {field : String × Json} (h : field ∈ n.tally s) : field.1 = "range" := by
  unfold tally at h
  split at h
  · obtain ⟨-, -, rfl⟩ := List.mem_map.mp h
    rfl
  · cases h

theorem lookup_bare (h : key ∉ NodeType.incidental) :
    (n.bare s).lookup key = (n.lookup key).map (n.bareValue s key) := by
  have htally : (n.tally s).lookup key = none := by
    refine List.lookup_eq_none_iff.mpr fun field hfield => ?_
    rw [mem_tally hfield, bne_iff_ne]
    rintro rfl
    exact h (by decide)
  rw [bare_eq, List.lookup_append, htally, Option.or_none, lookup_map,
    lookup_filter fun key => !n.isIncidental key, isIncidental_eq_false h]
  rfl

theorem has_bare (h : key ∉ NodeType.incidental) : (n.bare s).has key = n.has key := by
  rw [has, lookup_bare h, Option.isSome_map, has]

theorem get_bare (h : key ∉ NodeType.incidental) :
    (n.bare s).get key =
      if n.keeps (s = .accessed) key then n.get key else (n.get key).bare (n.standing key) := by
  rw [get, lookup_bare h, get]
  cases n.lookup key with
  | some value => simp [bareValue]
  | none => split <;> simp

/-- A value that is handed on stays as it is. -/
theorem get_bare_of_keeps (h : key ∉ NodeType.incidental)
    (hkeeps : n.keeps (s = .accessed) key = true) : (n.bare s).get key = n.get key := by
  rw [get_bare h, if_pos hkeeps]

@[simp] theorem type_bare : (n.bare s).type = n.type :=
  get_bare_of_keeps (by decide) (by simp [keeps])

@[simp] theorem isAny_bare : (n.bare s).isAny types = n.isAny types := by
  rw [isAny, type_bare, isAny]

theorem isEmpty_bare : (n.bare s).isEmpty = n.isEmpty := by
  cases htyped : n.has "type" with
  | false =>
    have hincidental (key : String) : n.isIncidental key = false := by simp [isIncidental, htyped]
    simp [bare_eq, tally, hincidental]
  | true =>
    -- The type stays, so neither is empty.
    have hnot (m : Node) (h : m.has "type" = true) : m.isEmpty = false := by
      cases m with
      | nil => cases h
      | cons field rest => rfl
    rw [hnot n htyped, hnot (n.bare s) (by rw [has_bare (by decide), htyped])]

/-- Where the fields are counted, the bare node has as many. -/
theorem length_bare : (n.bare .counted).length = n.length := by
  have hsplit := List.length_eq_length_filter_add (l := n) fun field => n.isIncidental field.1
  rw [bare_eq, tally, if_pos rfl, List.length_append, List.length_map, List.length_map, hsplit,
    Nat.add_comm]

end Node

namespace Json

/-- Where the entries of a value are counted, the bare value has as many. -/
theorem length_entries?_bare :
    (j.bare .counted).entries?.map List.length = j.entries?.map List.length := by
  cases j with
  | scalar value => rw [bare_scalar]
  | array items => simp [entries?]
  | object n => simp [entries?, Node.length_bare]

theorem holdsChildren_bare : (j.bare s).holdsChildren = j.holdsChildren := by
  have hchild (j : Json) (s : Standing) : (j.bare s).child?.isSome = j.child?.isSome := by
    cases j with
    | scalar value => rw [bare_scalar]
    | array items => rw [bare_array]; rfl
    | object n =>
      simp only [bare_object, child?, node?, Node.has_bare (by decide : "type" ∉ _)]
      split <;> rfl
  cases j with
  | scalar value => rw [bare_scalar]
  | array items =>
    simp only [bare_array, holdsChildren, List.any_map, Function.comp_def, hchild]
  | object n =>
    have h := hchild (.object n) s
    rw [bare_object] at h ⊢
    exact h

end Json

/-! ## Trees that are the same when bare -/

/-- The values are the same when bare, wherever they stand. -/
def Json.EqualBare (accessed : Bool) (j k : Json) : Prop :=
  ∃ s : Standing, (accessed = true → s = .accessed) ∧ j.bare s = k.bare s

theorem Json.EqualBare.of_eq (h : j = k) : EqualBare false j k := ⟨.plain, nofun, by rw [h]⟩

theorem Json.EqualBare.of_bare_eq (h : j.bare s = k.bare s) : EqualBare false j k :=
  ⟨s, nofun, h⟩

namespace Node

variable (h : n.bare s = m.bare s)

include h

theorem type_eq_of_bare_eq : m.type = n.type := by
  rw [← type_bare (s := s), ← h, type_bare]

theorem isAny_eq_of_bare_eq : m.isAny types = n.isAny types := by
  rw [isAny, type_eq_of_bare_eq h, isAny]

theorem has_eq_of_bare_eq (hkey : key ∉ NodeType.incidental) : m.has key = n.has key := by
  rw [← has_bare (s := s) hkey, ← h, has_bare hkey]

theorem keeps_eq_of_bare_eq (accessed : Bool) : m.keeps accessed key = n.keeps accessed key := by
  simp only [keeps, isAny_eq_of_bare_eq h]

theorem standing_eq_of_bare_eq : m.standing key = n.standing key := by
  unfold standing holdsAccessed
  rw [isAny_eq_of_bare_eq h, isAny_eq_of_bare_eq h]

/-- A value that is handed on is the same. -/
theorem get_eq_of_keeps (hkey : key ∉ NodeType.incidental)
    (hkeeps : n.keeps (s = .accessed) key = true) : m.get key = n.get key := by
  have hkeeps' : m.keeps (s = .accessed) key = true := by rw [keeps_eq_of_bare_eq h, hkeeps]
  rw [← get_bare_of_keeps hkey hkeeps', ← h, get_bare_of_keeps hkey hkeeps]

/-- Other values are the same when bare. -/
theorem bare_get_eq (hkey : key ∉ NodeType.incidental)
    (hkeeps : n.keeps (s = .accessed) key = false) :
    (n.get key).bare (n.standing key) = (m.get key).bare (n.standing key) := by
  have hkeeps' : m.keeps (s = .accessed) key = false := by rw [keeps_eq_of_bare_eq h, hkeeps]
  have hget := congrArg (Node.get · key) h
  simpa only [get_bare hkey, hkeeps, hkeeps', Bool.false_eq_true, if_false,
    standing_eq_of_bare_eq h] using hget

theorem equalBare_get (hkey : key ∉ NodeType.incidental) :
    Json.EqualBare false (n.get key) (m.get key) := by
  cases hkeeps : n.keeps (s = .accessed) key with
  | true => exact .of_eq (get_eq_of_keeps h hkey hkeeps).symm
  | false => exact .of_bare_eq (bare_get_eq h hkey hkeeps)

theorem searchedFields_eq_of_bare_eq : m.searchedFields = n.searchedFields := by
  -- Incidental fields are not searched.
  have hsearched (n : Node) : (n.bare s).searchedFields = n.searchedFields := by
    have hvalue (key : String) (value : Json) :
        (n.bareValue s key value).holdsChildren = value.holdsChildren := by
      rw [bareValue]
      split
      · rfl
      · exact Json.holdsChildren_bare
    have htally : (n.tally s).filter (fun field => !NodeType.bookkeeping.contains field.1 &&
        field.2.holdsChildren) = [] := by
      refine List.filter_eq_nil_iff.mpr fun field hfield => ?_
      rw [mem_tally hfield]
      simp [NodeType.bookkeeping]
    rw [searchedFields, bare_eq, List.filter_append, htally, List.append_nil, List.filter_map,
      List.map_map, List.filter_filter, searchedFields]
    simp only [Function.comp_def, hvalue]
    congr 1
    refine List.filter_congr fun field _ => ?_
    cases hincidental : n.isIncidental field.1 with
    | false => simp
    | true =>
      have hsubset : ∀ key ∈ NodeType.incidental, NodeType.bookkeeping.contains key = true := by
        decide
      have hmem : field.1 ∈ NodeType.incidental := by
        rw [isIncidental, Bool.and_eq_true, List.contains_iff_mem] at hincidental
        exact hincidental.2
      rw [hsubset _ hmem]
      simp
  rw [← hsearched m, ← h, hsearched]

theorem childFields_eq_of_bare_eq : m.childFields = n.childFields := by
  unfold childFields
  rw [type_eq_of_bare_eq h, searchedFields_eq_of_bare_eq h]

end Node

/-- Values that are the same when bare are read alike. -/
theorem Json.EqualBare.likeness : Likeness EqualBare := by
  rintro a j k ⟨s, hs, h⟩
  rcases j with value | xs | n <;> rcases k with value' | ys | m <;>
    simp only [bare_scalar, bare_array, bare_object, reduceCtorEq, Json.scalar.injEq,
      Json.array.injEq, Json.object.injEq] at h
  · subst h
    exact .scalar _
  · refine .array ?_
    rw [← List.forall₂_eq_eq_eq, List.forall₂_map_left_iff, List.forall₂_map_right_iff] at h
    exact h.imp fun _ _ => .of_bare_eq
  · refine .object ?_
    have hpart (key : String) (hkey : key ∉ NodeType.incidental) := Node.equalBare_get h hkey
    have hinspected : ∀ key ∈ Node.inspected, key ∉ NodeType.incidental := by decide
    exact {
      type := Node.type_eq_of_bare_eq h
      hasType := Node.has_eq_of_bare_eq h (by decide)
      hasOperator := Node.has_eq_of_bare_eq h (by decide)
      isEmpty := by rw [← Node.isEmpty_bare (s := s), ← h, Node.isEmpty_bare]
      loc := Node.get_eq_of_keeps h (by decide) (by simp [Node.keeps])
      name := fun hname => Node.get_eq_of_keeps h (by decide) (by
        rcases hname with haccessed | hid
        · simp [Node.keeps, hs haccessed]
        · simp [Node.keeps, hid])
      literal := fun hliteral =>
        Node.get_eq_of_keeps h (by decide) (by simp [Node.keeps, hliteral])
      value := fun _ => hpart "value" (by decide)
      body := fun _ => hpart "body" (by decide)
      property := fun hmember => by
        have haccessed : Node.standing n "property" = .accessed := by
          simp [Node.standing, Node.holdsAccessed, hmember]
        have hproperty : (Node.get n "property").bare (Node.standing n "property") =
            (Node.get m "property").bare (Node.standing n "property") :=
          Node.bare_get_eq h (by decide) (by simp [Node.keeps])
        rw [haccessed] at hproperty
        exact ⟨.accessed, fun _ => rfl, hproperty⟩
      counted := fun hsequence => by
        have hcounted : Node.standing n "expressions" = .counted := by
          simp [Node.standing, Node.holdsAccessed, hsequence]
        have hexpressions : (Node.get n "expressions").bare (Node.standing n "expressions") =
            (Node.get m "expressions").bare (Node.standing n "expressions") :=
          Node.bare_get_eq h (by decide) (by simp [Node.keeps])
        rw [hcounted] at hexpressions
        rw [← length_entries?_bare, ← hexpressions, length_entries?_bare]
      part := fun key hkey => hpart key (hinspected key hkey) }

/-- Nodes that are the same when bare have such children. -/
theorem Json.EqualBare.deep : Likeness.Deep EqualBare := by
  rintro n m ⟨s, -, h⟩
  rw [bare_object, bare_object, Json.object.injEq] at h
  refine ⟨Node.childFields_eq_of_bare_eq h, fun keys hkeys key hkey => ?_⟩
  refine Node.equalBare_get h fun hincidental => ?_
  -- Fields that hold children are no incidental ones.
  have hsubset : ∀ key ∈ NodeType.incidental, NodeType.bookkeeping.contains key = true := by decide
  have hbookkeeping := Node.bookkeeping_of_mem_childFields hkeys hkey
  rw [hsubset key hincidental] at hbookkeeping
  cases hbookkeeping

end LexicalScopes
