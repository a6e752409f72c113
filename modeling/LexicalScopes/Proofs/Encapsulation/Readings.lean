import LexicalScopes.Proofs.Encapsulation.Hollow
import LexicalScopes.Proofs.Likeness.Paths

/-!
# What hollow nodes do

Values that are the same when hollow are read alike, for nothing is read in the body of a function.
Nodes at the ends of paths that are the same when hollow have the same actions.
-/

namespace LexicalScopes

variable {n m : Node} {p q : Path} {a : Bool} {key : String} {types : List String}

/-! ## Values that are the same when hollow -/

/-- The values are the same when hollow. -/
def Json.EqualHollow (accessed : Bool) (j k : Json) : Prop := j.hollow accessed = k.hollow accessed

namespace Node

variable (h : n.hollow a = m.hollow a)

include h

theorem isAny_eq_of_hollow_eq : m.isAny types = n.isAny types := by
  rw [← isAny_hollow (a := a), ← h, isAny_hollow]

theorem has_eq_of_hollow_eq : m.has key = n.has key := by
  rw [← has_hollow (a := a), ← h, has_hollow]

theorem hollowValue_get_eq :
    n.hollowValue a key (n.get key) = n.hollowValue a key (m.get key) := by
  have hsame (value : Json) : m.hollowValue a key value = n.hollowValue a key value := by
    rw [hollowValue, keeps, holdsBody, holdsAccessed, isAny_eq_of_hollow_eq h,
      isAny_eq_of_hollow_eq h, isAny_eq_of_hollow_eq h, isAny_eq_of_hollow_eq h]
    rfl
  rw [← get_hollow_eq, h, get_hollow_eq, hsame]

/-- A value that is handed on is the same. -/
theorem get_eq_of_hollow_eq (hkeeps : n.keeps a key = true) : m.get key = n.get key := by
  have hget : n.hollowValue a key (n.get key) = n.hollowValue a key (m.get key) :=
    hollowValue_get_eq h
  simpa [hollowValue, hkeeps] using hget.symm

/-- Other values are the same when hollow, the bodies of functions apart. -/
theorem equalHollow_get {accessed : Bool} (hkeeps : n.keeps a key = false)
    (hbody : n.holdsBody key = false) (haccessed : n.holdsAccessed key = accessed) :
    Json.EqualHollow accessed (n.get key) (m.get key) := by
  have hget : n.hollowValue a key (n.get key) = n.hollowValue a key (m.get key) :=
    hollowValue_get_eq h
  rw [Json.EqualHollow]
  simpa [hollowValue, hkeeps, hbody, haccessed] using hget

theorem equalHollow_part (hkey : key ∈ inspected) :
    Json.EqualHollow false (n.get key) (m.get key) := by
  have hplain : ∀ key ∈ inspected,
      key ∉ ["type", "loc", "name", "value", "body", "property"] := by decide
  have hne := hplain key hkey
  simp only [List.mem_cons, List.not_mem_nil, or_false, not_or,
    ← beq_eq_false_iff_ne (α := String)] at hne
  exact equalHollow_get h (by simp [keeps, hne]) (by simp [holdsBody, hne])
    (by simp [holdsAccessed, hne])

end Node

/-- Values that are the same when hollow have as many entries. -/
theorem Json.EqualHollow.length_entries?_eq {j k : Json} (h : EqualHollow a j k) :
    k.entries?.map List.length = j.entries?.map List.length := by
  have hentries := congrArg (fun j => (entries? j).map List.length) h
  simpa [Function.comp_def] using hentries.symm

/-- Values that are the same when hollow are read alike. -/
theorem Json.EqualHollow.likeness : Likeness EqualHollow := by
  intro a j k h
  rw [EqualHollow] at h
  rcases j with value | xs | n <;> rcases k with value' | ys | m <;>
    simp only [hollow_scalar, hollow_array, hollow_object, reduceCtorEq, Json.scalar.injEq,
      Json.array.injEq, Json.object.injEq] at h
  · subst h
    exact .scalar _
  · refine .array ?_
    rw [← List.forall₂_eq_eq_eq, List.forall₂_map_left_iff, List.forall₂_map_right_iff] at h
    exact h
  · exact .object {
      type := Node.get_eq_of_hollow_eq h (by simp [Node.keeps])
      hasType := Node.has_eq_of_hollow_eq h
      hasOperator := Node.has_eq_of_hollow_eq h
      isEmpty := by simpa [Node.hollow_eq] using congrArg List.isEmpty h.symm
      loc := Node.get_eq_of_hollow_eq h (by simp [Node.keeps])
      name := fun hname => Node.get_eq_of_hollow_eq h (by
        rcases hname with haccessed | hid
        · simp [Node.keeps, haccessed]
        · simp [Node.keeps, hid])
      literal := fun hliteral => Node.get_eq_of_hollow_eq h (by simp [Node.keeps, hliteral])
      value := fun hother => Node.equalHollow_get h (by simp [Node.keeps, hother]) rfl rfl
      body := fun hother =>
        Node.equalHollow_get h (by simp [Node.keeps]) (by simp [Node.holdsBody, hother]) rfl
      property := fun hmember => Node.equalHollow_get h (by simp [Node.keeps]) rfl
        (by simp [Node.holdsAccessed, hmember])
      counted := fun _ => (Node.equalHollow_part h (by decide)).length_entries?_eq
      part := fun key hkey => Node.equalHollow_part h hkey }

theorem Node.argumentCount_eq_of_hollow_eq (h : n.hollow false = m.hollow false) :
    m.argumentCount = n.argumentCount := by
  have hpart := equalHollow_part h (by decide : "arguments" ∈ inspected)
  have hlength := hpart.length_entries?_eq
  unfold argumentCount Json.counted
  rw [(Json.EqualHollow.likeness hpart).kind_eq]
  generalize (m.get "arguments").entries? = ys, (n.get "arguments").entries? = xs at hlength
  cases ys <;> cases xs <;> simp_all

/-! ## Paths that are the same when hollow -/

namespace Path

theorem akin_of_hollow (h : q.hollow = p.hollow) : Akin Json.EqualHollow p q := by
  have hobject {n m : Node} (h : m.hollow false = n.hollow false) :
      Json.EqualHollow false (.object n) (.object m) := by
    rw [Json.EqualHollow, Json.hollow_object, Json.hollow_object, h]
  induction p generalizing q with
  | root n =>
    cases q with
    | root m => exact .root (hobject (Path.root.inj h))
    | child parent key index m => cases h
  | child parent key index n ih =>
    cases q with
    | root m => cases h
    | child parent' key' index' m =>
      obtain ⟨hparent, rfl, rfl, hnode⟩ := Path.child.inj h
      refine .child (ih hparent) (hobject hnode) _ _ fun _ _ => ?_
      have hholder := congrArg Path.node hparent
      rw [node_hollow, node_hollow] at hholder
      rw [Node.argumentCount_eq_of_hollow_eq hholder]

/-- What a node does is read off without looking into a body. -/
theorem enterActions_of_hollow (h : q.hollow = p.hollow) : q.enterActions = p.enterActions :=
  (akin_of_hollow h).enterActions_eq Json.EqualHollow.likeness

theorem exitActions_of_hollow (h : q.hollow = p.hollow) : q.exitActions = p.exitActions :=
  (akin_of_hollow h).exitActions_eq Json.EqualHollow.likeness

end Path

end LexicalScopes
