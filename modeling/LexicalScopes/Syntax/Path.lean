import LexicalScopes.Syntax.Node

/-!
# Paths

A path is a node together with the way to it from the root: the path of its parent, the field that
holds it and, if that field is a list, its index there. `Path.children` lists the paths one step
further down, in the order of the source; each leads to a smaller node. `Path.next` hands the same
paths out one at a time, and looks no further than it has to.
-/

namespace LexicalScopes

/-- A node and where it stands in the tree. -/
inductive Path where
  | root (node : Node)
  | child (parent : Path) (key : String) (index : Option Nat) (node : Node)

namespace Path

/-- The node that the path leads to. -/
def node : Path → Node
  | .root n => n
  | .child _ _ _ n => n

/-- The path of the parent. -/
def parent? : Path → Option Path
  | .root _ => none
  | .child parent _ _ _ => some parent

/-- The field of the parent that holds the node. -/
def key? : Path → Option String
  | .root _ => none
  | .child _ key _ _ => some key

/-- The place of the node in its field, if the field is a list. -/
def index? : Path → Option Nat
  | .root _ => none
  | .child _ _ index _ => index

/-- The field of the parent that is the node itself and not a list of nodes. -/
def ownField? : Path → Option String
  | .child _ key none _ => some key
  | _ => none

/-- The node stands in field `key` of a parent of one of the given types. -/
def isChildOf (p : Path) (types : List String) (key : String) : Bool :=
  match p with
  | .root _ => false
  | .child parent k _ _ => k == key && parent.node.isAny types

@[simp] theorem node_root (n : Node) : (root n).node = n := rfl
@[simp] theorem node_child (p : Path) (key : String) (index : Option Nat) (n : Node) :
    (child p key index n).node = n := rfl

/-! ## Children -/

/-- The paths to the nodes of a list in field `key`, of which the first has index `start`. Entries
that are no nodes are skipped and keep their index. -/
def listed (p : Path) (key : String) (start : Nat) : List Json → List Path
  | [] => []
  | item :: rest =>
    match item.child? with
    | some n => .child p key (some start) n :: listed p key (start + 1) rest
    | none => listed p key (start + 1) rest

/-- The paths to the nodes in one field. -/
def inField (p : Path) (key : String) : List Path :=
  match p.node.get key with
  | .array items => p.listed key 0 items
  | j =>
    match j.child? with
    | some n => [.child p key none n]
    | none => []

/-- The paths one step down, in the order of the source. -/
def children (p : Path) : Except Cause (List Path) := do
  return (← p.node.childFields).flatMap p.inField

/-! ## Children one at a time -/

/-- The children of a node that are still to come. The fields that hold them are not listed before
the first child is asked for. -/
inductive Upcoming where
  | all
  /-- Those in the fields `keys`. -/
  | fields (keys : List String)
  /-- Those among the last items of the list in field `key`, of which the first has index `index`,
  then those in the fields `keys`. -/
  | items (key : String) (index : Nat) (rest : List Json) (keys : List String)

/-- The first node among the last items of a list, its index, and the items after it. -/
def nextItem? (index : Nat) : List Json → Option (Node × Nat × List Json)
  | [] => none
  | item :: rest =>
    match item.child? with
    | some n => some (n, index, rest)
    | none => nextItem? (index + 1) rest

/-- The first child in some fields, and what comes after it. -/
def nextIn (p : Path) : List String → Option (Path × Upcoming)
  | [] => none
  | key :: keys =>
    match p.node.get key with
    | .array items =>
      match nextItem? 0 items with
      | some (n, index, rest) =>
        some (.child p key (some index) n, .items key (index + 1) rest keys)
      | none => p.nextIn keys
    | j =>
      match j.child? with
      | some n => some (.child p key none n, .fields keys)
      | none => p.nextIn keys

/-- The next child, if there is one, and what comes after it. -/
def next (p : Path) : Upcoming → Except Cause (Option (Path × Upcoming))
  | .all => do return p.nextIn (← p.node.childFields)
  | .fields keys => .ok (p.nextIn keys)
  | .items key index rest keys =>
    match nextItem? index rest with
    | some (n, index, rest) =>
      .ok (some (.child p key (some index) n, .items key (index + 1) rest keys))
    | none => .ok (p.nextIn keys)

/-- All the children that are still to come. -/
def upcoming (p : Path) : Upcoming → Except Cause (List Path)
  | .all => p.children
  | .fields keys => .ok (keys.flatMap p.inField)
  | .items key index rest keys => .ok (p.listed key index rest ++ keys.flatMap p.inField)

/-- The next child is the first of those still to come, and the others come after it. -/
inductive Hands (p : Path) : List Path → Option (Path × Upcoming) → Prop where
  | none : Hands p [] none
  | some {c : Path} {cs : List Path} {after : Upcoming} (h : p.upcoming after = .ok cs) :
      Hands p (c :: cs) (some (c, after))

theorem listed_of_nextItem?_eq_none {p : Path} {key : String} {index : Nat} {items : List Json}
    (h : nextItem? index items = none) : p.listed key index items = [] := by
  induction items generalizing index with
  | nil => rfl
  | cons item rest ih =>
    rw [nextItem?] at h
    rw [listed]
    cases hitem : item.child? with
    | some n => simp [hitem] at h
    | none => exact ih (by simpa [hitem] using h)

theorem listed_of_nextItem?_eq_some {p : Path} {key : String} {index place : Nat}
    {items rest : List Json} {n : Node} (h : nextItem? index items = some (n, place, rest)) :
    p.listed key index items =
      .child p key (some place) n :: p.listed key (place + 1) rest := by
  induction items generalizing index with
  | nil => cases h
  | cons item items ih =>
    rw [nextItem?] at h
    rw [listed]
    cases hitem : item.child? with
    | some m =>
      simp only [hitem, Option.some.injEq, Prod.mk.injEq] at h
      obtain ⟨rfl, rfl, rfl⟩ := h
      rfl
    | none => exact ih (by simpa [hitem] using h)

theorem hands_nextIn (p : Path) (keys : List String) :
    Hands p (keys.flatMap p.inField) (p.nextIn keys) := by
  induction keys with
  | nil => exact .none
  | cons key keys ih =>
    rw [List.flatMap_cons, nextIn, inField]
    cases p.node.get key with
    | array items =>
      dsimp only
      cases hnext : nextItem? 0 items with
      | none =>
        rw [listed_of_nextItem?_eq_none hnext]
        exact ih
      | some found =>
        rw [listed_of_nextItem?_eq_some hnext]
        exact .some rfl
    | scalar s => exact ih
    | object n =>
      dsimp only
      cases (Json.object n).child? with
      | none => exact ih
      | some n => exact .some rfl

/-- Children are handed out in order until none is left, unless their fields cannot be listed. -/
theorem hands_next (p : Path) (u : Upcoming) :
    (∃ fault, p.upcoming u = .error fault ∧ p.next u = .error fault) ∨
      ∃ cs found, p.upcoming u = .ok cs ∧ p.next u = .ok found ∧ p.Hands cs found := by
  cases u with
  | all =>
    rw [upcoming, next, children]
    cases p.node.childFields with
    | error fault => exact .inl ⟨fault, rfl, rfl⟩
    | ok keys => exact .inr ⟨_, _, rfl, rfl, p.hands_nextIn keys⟩
  | fields keys => exact .inr ⟨_, _, rfl, rfl, p.hands_nextIn keys⟩
  | items key index rest keys =>
    right
    rw [upcoming, next]
    cases hnext : nextItem? index rest with
    | none =>
      rw [listed_of_nextItem?_eq_none hnext]
      exact ⟨_, _, rfl, rfl, p.hands_nextIn keys⟩
    | some found =>
      rw [listed_of_nextItem?_eq_some hnext]
      exact ⟨_, _, rfl, rfl, .some rfl⟩

theorem upcoming_of_next_eq_error {p : Path} {u : Upcoming} {fault : Cause}
    (h : p.next u = .error fault) : p.upcoming u = .error fault := by
  obtain ⟨fault', hall, hnext⟩ | ⟨cs, found, -, hnext, -⟩ := p.hands_next u
  · rw [h] at hnext
    cases hnext
    exact hall
  · rw [h] at hnext
    cases hnext

theorem upcoming_of_next_eq_none {p : Path} {u : Upcoming} (h : p.next u = .ok none) :
    p.upcoming u = .ok [] := by
  obtain ⟨fault, -, hnext⟩ | ⟨cs, found, hall, hnext, hhands⟩ := p.hands_next u
  · rw [h] at hnext
    cases hnext
  · rw [h] at hnext
    cases hnext
    cases hhands
    exact hall

theorem upcoming_of_next_eq_some {p c : Path} {u after : Upcoming}
    (h : p.next u = .ok (some (c, after))) :
    ∃ cs, p.upcoming u = .ok (c :: cs) ∧ p.upcoming after = .ok cs := by
  obtain ⟨fault, -, hnext⟩ | ⟨cs, found, hall, hnext, hhands⟩ := p.hands_next u
  · rw [h] at hnext
    cases hnext
  · rw [h] at hnext
    cases hnext
    cases hhands with
    | some hafter => exact ⟨_, hall, hafter⟩

/-! ## Sizes -/

theorem exists_item_of_mem_listed {p c : Path} {key : String} {start : Nat} {items : List Json}
    (h : c ∈ p.listed key start items) : .object c.node ∈ items := by
  induction items generalizing start with
  | nil => simp [listed] at h
  | cons item rest ih =>
    rw [listed] at h
    split at h
    · rename_i n hn
      rcases List.mem_cons.1 h with rfl | h
      · simp [Json.eq_object_of_child? hn]
      · exact List.mem_cons_of_mem _ (ih h)
    · exact List.mem_cons_of_mem _ (ih h)

theorem size_lt_of_mem_inField {p c : Path} {key : String} (h : c ∈ p.inField key) :
    (Json.object c.node).size < (Json.object p.node).size := by
  have hget := Node.size_get_lt p.node key
  unfold inField at h
  split at h
  · rename_i items hitems
    have hle := Json.size_le_sizeItems (exists_item_of_mem_listed h)
    rw [hitems, Json.size] at hget
    omega
  · split at h
    · rename_i n hn
      rw [List.mem_singleton.1 h, node_child, ← Json.eq_object_of_child? hn]
      exact hget
    · simp at h

/-- A child is smaller than its parent. -/
theorem size_lt_of_mem_children {p c : Path} {cs : List Path} (h : p.children = .ok cs)
    (hc : c ∈ cs) : (Json.object c.node).size < (Json.object p.node).size := by
  unfold children at h
  cases hf : p.node.childFields with
  | error f => simp [hf, bind, Except.bind] at h
  | ok keys =>
    simp only [hf, bind, Except.bind, pure, Except.pure, Except.ok.injEq] at h
    subst h
    obtain ⟨key, _, hmem⟩ := List.mem_flatMap.1 hc
    exact size_lt_of_mem_inField hmem

end Path

end LexicalScopes
