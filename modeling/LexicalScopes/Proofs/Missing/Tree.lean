import LexicalScopes.Proofs.Run.Contribution

/-!
# Trees with missing parts

A tree loses parts if fields and list entries are removed or replaced by null. What is left of a
program of the grammar still has lists, nodes and scalars where the grammar has them, or null.
-/

namespace LexicalScopes

/-! ## Objects of a value -/

namespace Json

mutual

/-- The objects inside a value, at any depth. An object is not inside itself. -/
def inside : Json → List Node
  | .scalar _ => []
  | .array items => insideItems items
  | .object fields => insideFields fields

def insideItems : List Json → List Node
  | [] => []
  | item :: rest => item.node?.toList ++ item.inside ++ insideItems rest

def insideFields : List (String × Json) → List Node
  | [] => []
  | (_, value) :: rest => value.node?.toList ++ value.inside ++ insideFields rest

end

/-- The value, if it is an object, and the objects inside it. -/
def objects (j : Json) : List Node := j.node?.toList ++ j.inside

variable {j item : Json} {n m : Node} {key : String} {items : List Json}

theorem mem_objects_self : n ∈ (Json.object n).objects := List.mem_cons_self

theorem mem_objects_iff : m ∈ j.objects ↔ j = .object m ∨ m ∈ j.inside := by
  rw [objects, List.mem_append, Option.mem_toList, node?_eq_some_iff]

theorem mem_inside_array : m ∈ (Json.array items).inside ↔ ∃ item ∈ items, m ∈ item.objects := by
  rw [inside]
  induction items with
  | nil => simp [insideItems]
  | cons first rest ih => simp [insideItems, ih, objects, or_assoc]

theorem mem_inside_object : m ∈ (Json.object n).inside ↔ ∃ x ∈ n, m ∈ x.2.objects := by
  rw [inside]
  induction n with
  | nil => simp [insideFields]
  | cons first rest ih => simp [insideFields, ih, objects, or_assoc]

theorem mem_inside_of_item (hitem : item ∈ items) (hm : m ∈ item.objects) :
    m ∈ (Json.array items).inside :=
  mem_inside_array.2 ⟨item, hitem, hm⟩

theorem mem_inside_of_get (hm : m ∈ (n.get key).objects) : m ∈ (Json.object n).inside := by
  unfold Node.get at hm
  cases hlookup : n.lookup key with
  | none =>
    rw [hlookup] at hm
    cases hm
  | some value =>
    rw [hlookup] at hm
    exact mem_inside_object.2 ⟨_, Node.mem_of_lookup_eq_some hlookup, hm⟩

/-- The objects of an entry are inside the value that is read as a list. -/
theorem mem_inside_of_mem_entries? (hitems : j.entries? = some items) (hitem : item ∈ items)
    (hm : m ∈ item.objects) : m ∈ j.inside := by
  unfold entries? at hitems
  split at hitems
  · cases hitems
    exact mem_inside_of_item hitem hm
  · cases hitems
    obtain ⟨_, -, rfl⟩ := List.mem_map.1 hitem
    cases hm
  · cases hitems
    obtain ⟨_, -, rfl⟩ := List.mem_map.1 hitem
    cases hm
  · split at hitems
    · cases hitems
    · cases hitems
      cases hitem

/-- What is inside an object inside a value is inside the value. -/
theorem mem_inside_trans (hn : n ∈ j.inside) (hm : m ∈ (Json.object n).inside) : m ∈ j.inside := by
  -- The object is one of the parts of the value or inside one of them, which is smaller.
  induction hsize : j.size using Nat.strongRecOn generalizing j with
  | ind size ih =>
    have hpart (part : Json) (hlt : part.size < size) (hn : n ∈ part.objects) :
        m ∈ part.objects := by
      refine mem_objects_iff.2 (.inr ?_)
      rcases mem_objects_iff.1 hn with rfl | hn
      · exact hm
      · exact ih part.size hlt hn rfl
    subst hsize
    cases j with
    | scalar s => cases hn
    | array items =>
      obtain ⟨item, hitem, hn⟩ := mem_inside_array.1 hn
      have hle := size_le_sizeItems hitem
      exact mem_inside_array.2 ⟨item, hitem, hpart item (by rw [size]; omega) hn⟩
    | object fields =>
      obtain ⟨x, hx, hn⟩ := mem_inside_object.1 hn
      have hle := size_le_sizeFields hx
      exact mem_inside_object.2 ⟨x, hx, hpart x.2 (by rw [size]; omega) hn⟩

/-- The objects of an object of a value are objects of the value. -/
theorem mem_objects_trans (hn : n ∈ j.objects) (hm : m ∈ (Json.object n).objects) :
    m ∈ j.objects := by
  rcases mem_objects_iff.1 hm with heq | hm
  · cases heq
    exact hn
  · rcases mem_objects_iff.1 hn with rfl | hn
    · exact mem_objects_iff.2 (.inr hm)
    · exact mem_objects_iff.2 (.inr (mem_inside_trans hn hm))

end Json

/-! ## Grammar -/

/-- What a field holds if it is not null. -/
inductive FieldKind where
  | scalar
  | number
  | object
  /-- A list, of which each entry is null or an object. -/
  | objects
deriving DecidableEq, Repr

/-- The value is null or of the kind. -/
def FieldKind.admits (kind : FieldKind) (j : Json) : Bool :=
  j.isNull ||
    match kind with
    | .scalar => j.node?.isNone && j.items?.isNone
    | .number => j.isNumber
    | .object => j.node?.isSome
    | .objects => j.items?.any fun items => items.all fun item => item.isNull || item.node?.isSome

namespace FieldKind

variable {j : Json}

theorem admits_scalar_iff : FieldKind.scalar.admits j = true ↔ ∃ s, j = .scalar s := by
  cases j <;> simp [admits, Json.isNull, Json.node?, Json.items?]

theorem admits_object_iff : FieldKind.object.admits j = true ↔ j = .null ∨ ∃ n, j = .object n := by
  cases j with
  | scalar s => cases s <;> simp [admits, Json.isNull, Json.node?]
  | _ => simp [admits, Json.isNull, Json.node?]

theorem admits_objects_iff : FieldKind.objects.admits j = true ↔
    j = .null ∨ ∃ items, j = .array items ∧
      ∀ item ∈ items, FieldKind.object.admits item = true := by
  cases j with
  | scalar s => cases s <;> simp [admits, Json.isNull, Json.items?]
  | _ => simp [admits, Json.isNull, Json.items?]

end FieldKind

/-- The value is null or a place: an object in which the column is a number. -/
def Json.isPlace (j : Json) : Bool :=
  FieldKind.object.admits j && (j.field? "column").all FieldKind.number.admits

/-- The value is null or a location: an object with two places. -/
def Json.isLocation (j : Json) : Bool :=
  FieldKind.object.admits j && (j.field? "start").all Json.isPlace
    && (j.field? "end").all Json.isPlace

namespace Node

/-- Fields that have one kind in all nodes of the given types. -/
def kinds : List (List String × String × FieldKind) :=
  [(["Identifier"], "name", .scalar),
   (["VariableDeclaration"], "kind", .scalar),
   (["VariableDeclaration"], "declarations", .objects),
   (NodeType.functions, "params", .objects),
   (["BlockStatement"], "body", .objects),
   (["SwitchStatement"], "cases", .objects),
   (["SwitchCase"], "consequent", .objects),
   (["ImportDeclaration"], "specifiers", .objects),
   (["ObjectPattern"], "properties", .objects),
   (["ArrayPattern"], "elements", .objects),
   (["SequenceExpression"], "expressions", .objects),
   (NodeType.calls, "callee", .object),
   (NodeType.calls, "arguments", .objects),
   (NodeType.members, "property", .object),
   (NodeType.classFields, "value", .object)]

/-- The fields of the node hold what they hold in a program, or null. -/
def isGrammatical (n : Node) : Bool :=
  FieldKind.scalar.admits n.type && (n.get "loc").isLocation
    && kinds.all fun (types, key, kind) => !n.isAny types || kind.admits (n.get key)

/-- A program of the grammar. No other program is inside it, and every object has each of its fields
once. -/
structure IsProgram (root : Node) : Prop where
  type : root.isAny ["Program"] = true
  errors : FieldKind.objects.admits (root.get "errors") = true
  distinct : ∀ n ∈ (Json.object root).objects, (n.map (·.1)).Nodup
  grammatical : ∀ n ∈ (Json.object root).objects, n.isGrammatical = true
  inner : ∀ n ∈ (Json.object root).inside, n.isAny ("Program" :: NodeType.aliases) = false

end Node

/-! ## Missing parts -/

namespace Json

/-- The second value is the first without some fields and list entries. Some of them are removed,
and others are replaced by null. -/
inductive Prunes : Json → Json → Prop where
  | null (j : Json) : Prunes j .null
  | scalar (s : Scalar) : Prunes (.scalar s) (.scalar s)
  | noItems : Prunes (.array []) (.array [])
  | item {j k : Json} {items items' : List Json} (h : Prunes j k)
      (hrest : Prunes (.array items) (.array items')) :
      Prunes (.array (j :: items)) (.array (k :: items'))
  | dropItem (j : Json) {items items' : List Json} (hrest : Prunes (.array items) (.array items')) :
      Prunes (.array (j :: items)) (.array items')
  | noFields : Prunes (.object []) (.object [])
  | field (key : String) {j k : Json} {n m : Node} (h : Prunes j k)
      (hrest : Prunes (.object n) (.object m)) :
      Prunes (.object ((key, j) :: n)) (.object ((key, k) :: m))
  | dropField (key : String) (j : Json) {n m : Node} (hrest : Prunes (.object n) (.object m)) :
      Prunes (.object ((key, j) :: n)) (.object m)

namespace Prunes

variable {j k item : Json} {n m : Node} {key : String} {items items' : List Json} {s : Scalar}
  {types : List String} {kind : FieldKind}

theorem exists_of_object (h : Prunes j (.object m)) : ∃ n, j = .object n := by
  cases h <;> exact ⟨_, rfl⟩

theorem eq_of_scalar (h : Prunes j (.scalar s)) : j = .scalar s ∨ s = .null := by
  cases h with
  | null => exact .inr rfl
  | scalar => exact .inl rfl

theorem mem_keys (h : Prunes (.object n) (.object m)) (hkey : key ∈ m.map (·.1)) :
    key ∈ n.map (·.1) := by
  induction n generalizing m with
  | nil =>
    cases h
    exact hkey
  | cons x n ih =>
    cases h with
    | field key' h hrest =>
      rcases List.mem_cons.1 hkey with rfl | hkey
      · exact List.mem_cons_self
      · exact List.mem_cons_of_mem _ (ih hrest hkey)
    | dropField key' j hrest => exact List.mem_cons_of_mem _ (ih hrest hkey)

/-- A field of what is left is what is left of the field. -/
theorem get (h : Prunes (.object n) (.object m)) (hn : (n.map (·.1)).Nodup) (key : String) :
    Prunes (n.get key) (m.get key) := by
  induction n generalizing m with
  | nil =>
    cases h
    exact .null _
  | cons x n ih =>
    rw [List.map_cons, List.nodup_cons] at hn
    cases h with
    | @field key' j k n m h hrest =>
      simp only [Node.get, List.lookup_cons]
      cases key == key' with
      | true => exact h
      | false => exact ih hrest hn.2
    | @dropField key' j n m hrest =>
      have hlater := ih hrest hn.2
      simp only [Node.get, List.lookup_cons]
      cases hkey : key == key' with
      | false => exact hlater
      | true =>
        -- Without its only field of the name the object has none.
        cases hm : m.lookup key with
        | none => exact .null _
        | some v =>
          rw [eq_of_beq hkey] at hm
          have hmem := hrest.mem_keys (List.mem_map_of_mem (Node.mem_of_lookup_eq_some hm))
          exact absurd hmem hn.1

theorem exists_of_mem (h : Prunes (.array items) (.array items')) (hitem : item ∈ items') :
    ∃ i ∈ items, Prunes i item := by
  induction items generalizing items' with
  | nil =>
    cases h
    cases hitem
  | cons first rest ih =>
    cases h with
    | item h hrest =>
      rcases List.mem_cons.1 hitem with rfl | hitem
      · exact ⟨first, List.mem_cons_self, h⟩
      · obtain ⟨i, hi, hprunes⟩ := ih hrest hitem
        exact ⟨i, List.mem_cons_of_mem _ hi, hprunes⟩
    | dropItem j hrest =>
      obtain ⟨i, hi, hprunes⟩ := ih hrest hitem
      exact ⟨i, List.mem_cons_of_mem _ hi, hprunes⟩

theorem exists_of_mem_objects_of_inside {o : Node} (h : Prunes j k)
    (ih : o ∈ k.inside → ∃ p ∈ j.inside, Prunes (.object p) (.object o)) (ho : o ∈ k.objects) :
    ∃ p ∈ j.objects, Prunes (.object p) (.object o) := by
  rcases mem_objects_iff.1 ho with rfl | ho
  · obtain ⟨p, rfl⟩ := h.exists_of_object
    exact ⟨p, mem_objects_self, h⟩
  · obtain ⟨p, hp, hprunes⟩ := ih ho
    exact ⟨p, mem_objects_iff.2 (.inr hp), hprunes⟩

/-- Every object inside what is left is left of an object inside the value. -/
theorem exists_of_mem_inside {o : Node} (h : Prunes j k) (ho : o ∈ k.inside) :
    ∃ p ∈ j.inside, Prunes (.object p) (.object o) := by
  -- Induction on what is kept. A dropped part only adds objects in front, which nobody asks for.
  induction h with
  | null j => cases ho
  | scalar s => cases ho
  | noItems => cases ho
  | noFields => cases ho
  | item h hrest ih ihrest =>
    rcases List.mem_append.1 ho with ho | ho
    · obtain ⟨p, hp, hprunes⟩ := exists_of_mem_objects_of_inside h ih ho
      exact ⟨p, List.mem_append_left _ hp, hprunes⟩
    · obtain ⟨p, hp, hprunes⟩ := ihrest ho
      exact ⟨p, List.mem_append_right _ hp, hprunes⟩
  | dropItem j hrest ihrest =>
    obtain ⟨p, hp, hprunes⟩ := ihrest ho
    exact ⟨p, List.mem_append_right _ hp, hprunes⟩
  | field key h hrest ih ihrest =>
    rcases List.mem_append.1 ho with ho | ho
    · obtain ⟨p, hp, hprunes⟩ := exists_of_mem_objects_of_inside h ih ho
      exact ⟨p, List.mem_append_left _ hp, hprunes⟩
    · obtain ⟨p, hp, hprunes⟩ := ihrest ho
      exact ⟨p, List.mem_append_right _ hp, hprunes⟩
  | dropField key j hrest ihrest =>
    obtain ⟨p, hp, hprunes⟩ := ihrest ho
    exact ⟨p, List.mem_append_right _ hp, hprunes⟩

theorem exists_of_mem_objects {o : Node} (h : Prunes j k) (ho : o ∈ k.objects) :
    ∃ p ∈ j.objects, Prunes (.object p) (.object o) :=
  exists_of_mem_objects_of_inside h h.exists_of_mem_inside ho

/-! ## What is left of a program -/

theorem isAny (h : Prunes (.object n) (.object m)) (hn : (n.map (·.1)).Nodup)
    (hm : m.isAny types = true) : n.isAny types = true := by
  obtain ⟨t, ht, htype⟩ := Node.isAny_iff.1 hm
  have hpruned : Prunes n.type m.type := h.get hn "type"
  rw [htype] at hpruned
  rcases hpruned.eq_of_scalar with htype | hnull
  · exact Node.isAny_iff.2 ⟨t, ht, htype⟩
  · cases hnull

theorem admits_object (h : Prunes j k) (hj : FieldKind.object.admits j = true) :
    FieldKind.object.admits k = true := by
  rw [FieldKind.admits_object_iff] at hj ⊢
  rcases hj with rfl | ⟨n, rfl⟩ <;> cases h <;> simp

/-- What is left of a field has the kind of the field. -/
theorem admits (h : Prunes j k) (hj : kind.admits j = true) : kind.admits k = true := by
  cases kind with
  | scalar =>
    obtain ⟨s, rfl⟩ := FieldKind.admits_scalar_iff.1 hj
    cases h with
    | null => rfl
    | scalar => exact hj
  | number =>
    cases h with
    | null => rfl
    | scalar => exact hj
    | _ => cases hj
  | object => exact h.admits_object hj
  | objects =>
    rw [FieldKind.admits_objects_iff] at hj ⊢
    rcases hj with rfl | ⟨items, rfl, hitems⟩
    · cases h <;> exact .inl rfl
    · -- A list is lost as a whole, or each entry that is left comes from one of the list.
      cases k with
      | scalar s => exact .inl (congrArg Json.scalar (h.eq_of_scalar.resolve_left nofun))
      | object m =>
        obtain ⟨n, hn⟩ := h.exists_of_object
        cases hn
      | array items' =>
        refine .inr ⟨items', rfl, fun item hitem => ?_⟩
        obtain ⟨i, hi, hprunes⟩ := h.exists_of_mem hitem
        exact hprunes.admits_object (hitems i hi)

/-- The objects of the value have each of their fields once. -/
abbrev Distinct (j : Json) : Prop := ∀ n ∈ j.objects, (n.map (·.1)).Nodup

theorem all_field? {q : Json → Bool} (h : Prunes j k) (hdistinct : Distinct j)
    (hq : ∀ a b, Prunes a b → Distinct a → q a = true → q b = true)
    (hj : (j.field? key).all q = true) : (k.field? key).all q = true := by
  cases k with
  | object m =>
    obtain ⟨n, rfl⟩ := h.exists_of_object
    refine hq _ _ (h.get (hdistinct n mem_objects_self) key) (fun o ho => ?_) hj
    exact hdistinct o (mem_objects_iff.2 (.inr (mem_inside_of_get ho)))
  | _ => rfl

theorem isPlace (h : Prunes j k) (hdistinct : Distinct j) (hj : j.isPlace = true) :
    k.isPlace = true := by
  obtain ⟨hobject, hcolumn⟩ := Bool.and_eq_true_iff.1 hj
  exact Bool.and_eq_true_iff.2
    ⟨h.admits hobject, h.all_field? hdistinct (fun _ _ h _ => h.admits) hcolumn⟩

theorem isLocation (h : Prunes j k) (hdistinct : Distinct j) (hj : j.isLocation = true) :
    k.isLocation = true := by
  simp only [Json.isLocation, Bool.and_eq_true] at hj ⊢
  have hplaces (a b) (h : Prunes a b) := h.isPlace
  exact ⟨⟨h.admits hj.1.1, h.all_field? hdistinct hplaces hj.1.2⟩,
    h.all_field? hdistinct hplaces hj.2⟩

/-- What is left of a node of the grammar is one. -/
theorem isGrammatical (h : Prunes (.object n) (.object m)) (hdistinct : Distinct (.object n))
    (hn : n.isGrammatical = true) : m.isGrammatical = true := by
  have hkeys := hdistinct n mem_objects_self
  simp only [Node.isGrammatical, Bool.and_eq_true] at hn ⊢
  obtain ⟨⟨htype, hloc⟩, hkinds⟩ := hn
  refine ⟨⟨(h.get hkeys "type").admits htype, ?_⟩, ?_⟩
  · refine (h.get hkeys "loc").isLocation (fun o ho => ?_) hloc
    exact hdistinct o (mem_objects_iff.2 (.inr (mem_inside_of_get ho)))
  · rw [List.all_eq_true] at hkinds ⊢
    intro entry hentry
    have hkind := hkinds entry hentry
    rw [Bool.or_eq_true, Bool.not_eq_true'] at hkind ⊢
    rcases hkind with hother | hadmits
    · -- A node does not gain a type.
      refine .inl (Bool.eq_false_iff.2 fun hany => ?_)
      rw [h.isAny hkeys hany] at hother
      cases hother
    · exact .inr ((h.get hkeys _).admits hadmits)

end Prunes

end Json

end LexicalScopes
