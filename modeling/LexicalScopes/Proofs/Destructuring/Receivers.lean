import LexicalScopes.Proofs.Targets

/-!
# Receivers of a binding

A pattern does not bind a name itself. It hands the binding on to receivers: an object pattern to
the targets of its properties, an array pattern to its elements, and the two other forms to the one
target that they hold. The names that it binds are those that its receivers bind, from left to
right.
-/

namespace LexicalScopes.Node

variable {n slot : Node} {k : Json} {i : Nat}

/-- What receives the binding from a slot of an object pattern. -/
def slotReceiver (pattern : Node) (property : Json) : Except Cause Json :=
  (propertySlot (.object pattern) property).map fun slot : Node => slot.get slot.targetField

/-- The values that receive the binding from a node. From a list that is none nothing receives
it. -/
def receivers (n : Node) : Except Cause (List (Except Cause Json)) :=
  match n.type with
  | .string "ObjectPattern" => List.map n.slotReceiver <$> (n.get "properties").entries
  | .string "ArrayPattern" => List.map .ok <$> (n.get "elements").entries
  | .string "AssignmentPattern" => .ok [.ok (n.get "left")]
  | .string "RestElement" => .ok [.ok (n.get "argument")]
  | _ => .ok []

theorem receivers_identifier (h : n.type = .string "Identifier") : n.receivers = .ok [] := by
  simp [receivers, h]

theorem receivers_of_unlisted_properties (h : n.type = .string "ObjectPattern")
    (hlist : (n.get "properties").entries? = none) :
    n.receivers = .error (.misread (.entries (n.get "properties").kind)) := by
  simp [receivers, h, Json.entries, hlist]

theorem receivers_of_unlisted_elements (h : n.type = .string "ArrayPattern")
    (hlist : (n.get "elements").entries? = none) :
    n.receivers = .error (.misread (.entries (n.get "elements").kind)) := by
  simp [receivers, h, Json.entries, hlist]

theorem slotReceiver_object : n.slotReceiver (.object slot) = .ok (slot.get slot.targetField) := rfl

theorem slotReceiver_of_empty {entry : Json} (h : entry.node? = none) :
    n.slotReceiver entry = .error (.malformed .emptySlot (.object n)) := by
  rw [slotReceiver, propertySlot, h]
  rfl

/-- A slot either holds an object, or its pattern is malformed. -/
theorem slotReceiver_cases (entry : Json) :
    (∃ slot : Node, entry = .object slot ∧ n.slotReceiver entry = .ok (slot.get slot.targetField)) ∨
      entry.node? = none ∧ n.slotReceiver entry = .error (.malformed .emptySlot (.object n)) := by
  cases hentry : entry.node? with
  | none => exact .inr ⟨rfl, slotReceiver_of_empty hentry⟩
  | some slot =>
    rw [Json.node?_eq_some_iff] at hentry
    exact .inl ⟨slot, hentry, hentry ▸ slotReceiver_object⟩

/-- The target of a rest is its argument. -/
theorem get_targetField_of_rest (h : slot.type = .string "RestElement") :
    slot.get slot.targetField = slot.get "argument" := by
  rw [targetField, if_pos (isAny_singleton h)]

/-- The target of any other property is its value. -/
theorem get_targetField_of_ne (h : slot.type ≠ .string "RestElement") :
    slot.get slot.targetField = slot.get "value" := by
  have hrest : slot.isAny ["RestElement"] ≠ true := fun hrest => by
    obtain ⟨t, ht, htype⟩ := isAny_iff.1 hrest
    exact h (List.mem_singleton.1 ht ▸ htype)
  rw [targetField, if_neg hrest]

/-- The names that a receiver binds. -/
def receivedNames : Except Cause Json → List (Except Cause BoundName)
  | .ok k => boundNames k
  | .error fault => [.error fault]

theorem receivedNames_slotReceiver (entry : Json) :
    receivedNames (n.slotReceiver entry) = slotNames (.object n) entry := by
  rw [slotReceiver, slotNames]
  cases propertySlot (.object n) entry <;> rfl

/-- The names that receivers bind. -/
def allReceivedNames : Except Cause (List (Except Cause Json)) → List (Except Cause BoundName)
  | .ok receivers => receivers.flatMap receivedNames
  | .error fault => [.error fault]

/-- A node that is no identifier binds the names that its receivers bind. -/
theorem boundNames_eq_allReceivedNames (h : n.type ≠ .string "Identifier") :
    boundNames (.object n) = allReceivedNames n.receivers := by
  unfold receivers
  split
  · rename_i htype
    rw [boundNames_objectPattern htype]
    cases (n.get "properties").entries with
    | error fault => rfl
    | ok entries =>
      simp only [listedNames, Functor.map, Except.map, allReceivedNames, List.flatMap_map,
        receivedNames_slotReceiver]
  · rename_i htype
    rw [boundNames_arrayPattern htype]
    cases (n.get "elements").entries with
    | error fault => rfl
    | ok entries =>
      simp only [listedNames, Functor.map, Except.map, allReceivedNames, List.flatMap_map,
        receivedNames]
  · rename_i htype
    rw [boundNames_assignmentPattern htype]
    exact (List.append_nil _).symm
  · rename_i htype
    rw [boundNames_restElement htype]
    exact (List.append_nil _).symm
  · rename_i hobject harray hdefault hrest
    refine boundNames_other fun t ht htype => ?_
    simp only [NodeType.targets, List.mem_cons, List.not_mem_nil, or_false] at ht
    rcases ht with rfl | rfl | rfl | rfl | rfl
    · exact h htype
    · exact hobject htype
    · exact harray htype
    · exact hdefault htype
    · exact hrest htype

theorem size_lt_of_mem_receivers {found : List (Except Cause Json)}
    (hreceivers : n.receivers = .ok found) (h : .ok k ∈ found) :
    k.size < (Json.object n).size := by
  unfold receivers at hreceivers
  split at hreceivers
  · obtain ⟨properties, hproperties, rfl⟩ := map_eq_ok.1 hreceivers
    obtain ⟨entry, hentry, hk⟩ := List.mem_map.1 h
    rcases slotReceiver_cases (n := n) entry with ⟨slot, rfl, hok⟩ | ⟨-, herror⟩
    · cases hok.symm.trans hk
      have hslot := size_get_lt slot slot.targetField
      have hle := Json.size_le_of_mem_entries? (readable_eq_ok.1 hproperties) hentry
      have hlt := size_get_lt n "properties"
      omega
    · cases herror.symm.trans hk
  · obtain ⟨elements, helements, rfl⟩ := map_eq_ok.1 hreceivers
    obtain ⟨element, helement, ⟨⟩⟩ := List.mem_map.1 h
    have hle := Json.size_le_of_mem_entries? (readable_eq_ok.1 helements) helement
    have hlt := size_get_lt n "elements"
    omega
  · cases hreceivers
    cases List.mem_singleton.1 h
    exact size_get_lt n "left"
  · cases hreceivers
    cases List.mem_singleton.1 h
    exact size_get_lt n "argument"
  · cases hreceivers
    cases h

/-! ## One receiver -/

/-- The receiver with the number `i`. -/
def Receives (n : Node) (i : Nat) (receiver : Except Cause Json) : Prop :=
  ∃ found, n.receivers = .ok found ∧ found[i]? = some receiver

theorem receives_property {properties : List Json} {entry : Json}
    (htype : n.type = .string "ObjectPattern")
    (hproperties : (n.get "properties").entries? = some properties)
    (hentry : properties[i]? = some entry) : n.Receives i (n.slotReceiver entry) :=
  ⟨properties.map n.slotReceiver, by simp [receivers, htype, Json.entries, hproperties],
    by simp [hentry]⟩

theorem receives_element {elements : List Json} {element : Json}
    (htype : n.type = .string "ArrayPattern")
    (helements : (n.get "elements").entries? = some elements)
    (helement : elements[i]? = some element) : n.Receives i (.ok element) :=
  ⟨elements.map .ok, by simp [receivers, htype, Json.entries, helements], by simp [helement]⟩

theorem receives_left (htype : n.type = .string "AssignmentPattern") :
    n.Receives 0 (.ok (n.get "left")) :=
  ⟨[.ok (n.get "left")], by simp [receivers, htype], rfl⟩

theorem receives_argument (htype : n.type = .string "RestElement") :
    n.Receives 0 (.ok (n.get "argument")) :=
  ⟨[.ok (n.get "argument")], by simp [receivers, htype], rfl⟩

/-- A receiver stands in one of the four kinds of patterns. -/
theorem Receives.cases {receiver : Except Cause Json} (h : n.Receives i receiver) :
    (∃ properties entry, n.type = .string "ObjectPattern" ∧
        (n.get "properties").entries? = some properties ∧ properties[i]? = some entry ∧
        receiver = n.slotReceiver entry) ∨
      (∃ elements element, n.type = .string "ArrayPattern" ∧
        (n.get "elements").entries? = some elements ∧ elements[i]? = some element ∧
        receiver = .ok element) ∨
      (n.type = .string "AssignmentPattern" ∧ i = 0 ∧ receiver = .ok (n.get "left")) ∨
      n.type = .string "RestElement" ∧ i = 0 ∧ receiver = .ok (n.get "argument") := by
  obtain ⟨found, hreceivers, hi⟩ := h
  unfold receivers at hreceivers
  split at hreceivers
  · rename_i htype
    obtain ⟨properties, hproperties, rfl⟩ := map_eq_ok.1 hreceivers
    rw [List.getElem?_map, Option.map_eq_some_iff] at hi
    obtain ⟨entry, hentry, rfl⟩ := hi
    exact .inl ⟨properties, entry, htype, readable_eq_ok.1 hproperties, hentry, rfl⟩
  · rename_i htype
    obtain ⟨elements, helements, rfl⟩ := map_eq_ok.1 hreceivers
    rw [List.getElem?_map, Option.map_eq_some_iff] at hi
    obtain ⟨element, helement, rfl⟩ := hi
    exact .inr (.inl ⟨elements, element, htype, readable_eq_ok.1 helements, helement, rfl⟩)
  · rename_i htype
    cases hreceivers
    obtain ⟨hlt, rfl⟩ := List.getElem?_eq_some_iff.1 hi
    cases Nat.lt_one_iff.1 hlt
    exact .inr (.inr (.inl ⟨htype, rfl, rfl⟩))
  · rename_i htype
    cases hreceivers
    obtain ⟨hlt, rfl⟩ := List.getElem?_eq_some_iff.1 hi
    cases Nat.lt_one_iff.1 hlt
    exact .inr (.inr (.inr ⟨htype, rfl, rfl⟩))
  · cases hreceivers
    cases hi

end LexicalScopes.Node
