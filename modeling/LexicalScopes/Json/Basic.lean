import LexicalScopes.Decimal.Shortest
import LexicalScopes.Text.CodePoint

/-!
# JSON values with ordered fields

Syntax trees arrive as JSON. The order of an object's fields is kept, because an unknown node is
walked in that order, and integers stay exact next to 64-bit floats. A *node* is the field list of
an object. Reading is lenient in two ways: a missing field reads as `null`, and a value that is
null, false, zero or empty counts as absent wherever a part is optional.
-/

namespace LexicalScopes

/-! ## Values -/

/-- A value without parts. A number written with a point or an exponent is a float, any other
number an integer. -/
inductive Scalar where
  | null
  | bool (b : Bool)
  | int (n : Int)
  | float (x : Float)
  | string (s : String)
deriving DecidableEq, Repr, Inhabited

/-- A JSON value; the fields of an object are in the order of the text. -/
inductive Json where
  | scalar (value : Scalar)
  | array (items : List Json)
  | object (fields : List (String × Json))
deriving Repr

/-- The fields of an object. -/
abbrev Node : Type := List (String × Json)

namespace Json

@[match_pattern] abbrev null : Json := .scalar .null
@[match_pattern] abbrev bool (b : Bool) : Json := .scalar (.bool b)
@[match_pattern] abbrev int (n : Int) : Json := .scalar (.int n)
@[match_pattern] abbrev float (x : Float) : Json := .scalar (.float x)
@[match_pattern] abbrev string (s : String) : Json := .scalar (.string s)

instance : Inhabited Json := ⟨.null⟩

mutual

/-- Two values are equal if they are built alike; object fields are compared in order. -/
def decEq : (a b : Json) → Decidable (a = b)
  | .scalar a, .scalar b =>
    if h : a = b then .isTrue (by rw [h]) else .isFalse (by simpa using h)
  | .array a, .array b =>
    match decEqItems a b with
    | .isTrue h => .isTrue (by rw [h])
    | .isFalse h => .isFalse (by simpa using h)
  | .object a, .object b =>
    match decEqFields a b with
    | .isTrue h => .isTrue (by rw [h])
    | .isFalse h => .isFalse (by simpa using h)
  | .scalar _, .array _ => .isFalse (by simp)
  | .scalar _, .object _ => .isFalse (by simp)
  | .array _, .scalar _ => .isFalse (by simp)
  | .array _, .object _ => .isFalse (by simp)
  | .object _, .scalar _ => .isFalse (by simp)
  | .object _, .array _ => .isFalse (by simp)

def decEqItems : (a b : List Json) → Decidable (a = b)
  | [], [] => .isTrue rfl
  | [], _ :: _ => .isFalse (by simp)
  | _ :: _, [] => .isFalse (by simp)
  | a :: as, b :: bs =>
    match decEq a b, decEqItems as bs with
    | .isTrue h, .isTrue t => .isTrue (by rw [h, t])
    | .isFalse h, _ => .isFalse (by simp [h])
    | _, .isFalse t => .isFalse (by simp [t])

def decEqFields : (a b : List (String × Json)) → Decidable (a = b)
  | [], [] => .isTrue rfl
  | [], _ :: _ => .isFalse (by simp)
  | _ :: _, [] => .isFalse (by simp)
  | (k, a) :: as, (l, b) :: bs =>
    if hk : k = l then
      match decEq a b, decEqFields as bs with
      | .isTrue h, .isTrue t => .isTrue (by rw [hk, h, t])
      | .isFalse h, _ => .isFalse (by simp [h])
      | _, .isFalse t => .isFalse (by simp [t])
    else .isFalse (by simp [hk])

end

instance : DecidableEq Json := decEq

end Json

/-! ## Size -/

namespace Json

mutual

/-- The number of lists and objects in a value. A part is smaller than the object that holds it. -/
def size : Json → Nat
  | .scalar _ => 0
  | .array items => 1 + sizeItems items
  | .object fields => 1 + sizeFields fields

def sizeItems : List Json → Nat
  | [] => 0
  | item :: rest => item.size + sizeItems rest

def sizeFields : List (String × Json) → Nat
  | [] => 0
  | (_, value) :: rest => value.size + sizeFields rest

end

theorem size_le_sizeItems {item : Json} {items : List Json} (h : item ∈ items) :
    item.size ≤ sizeItems items := by
  induction items with
  | nil => simp at h
  | cons head rest ih =>
    rw [sizeItems]
    rcases List.mem_cons.1 h with rfl | h
    · omega
    · have := ih h
      omega

theorem size_le_sizeFields {key : String} {value : Json} {fields : List (String × Json)}
    (h : (key, value) ∈ fields) : value.size ≤ sizeFields fields := by
  induction fields with
  | nil => simp at h
  | cons head rest ih =>
    obtain ⟨k, v⟩ := head
    rw [sizeFields]
    rcases List.mem_cons.1 h with h | h
    · obtain ⟨rfl, rfl⟩ := Prod.mk.inj h
      omega
    · have := ih h
      omega

end Json

/-! ## Reading a node -/

namespace Node

/-- The value of a field; a missing field reads as `null`. -/
def get (n : Node) (key : String) : Json := (n.lookup key).getD .null

/-- The field is there, whatever its value. -/
def has (n : Node) (key : String) : Bool := (n.lookup key).isSome

@[simp] theorem get_nil (key : String) : get [] key = .null := rfl

theorem get_eq_null_of_has_eq_false {n : Node} {key : String} (h : n.has key = false) :
    n.get key = .null := by
  unfold has at h
  unfold get
  cases hl : n.lookup key with
  | none => rfl
  | some v => simp [hl] at h

theorem mem_of_lookup_eq_some {n : Node} {key : String} {value : Json}
    (h : n.lookup key = some value) : (key, value) ∈ n := by
  induction n with
  | nil => simp at h
  | cons head rest ih =>
    obtain ⟨k, v⟩ := head
    rw [List.lookup_cons] at h
    split at h
    · rename_i heq
      have hk : key = k := by simpa using heq
      cases h
      simp [hk]
    · exact List.mem_cons_of_mem _ (ih h)

/-- A field is no larger than all fields together. -/
theorem size_get_le (n : Node) (key : String) : (n.get key).size ≤ Json.sizeFields n := by
  unfold get
  cases h : n.lookup key with
  | none => exact Nat.zero_le _
  | some value => exact Json.size_le_sizeFields (mem_of_lookup_eq_some h)

/-- A field is smaller than the object that holds it. -/
theorem size_get_lt (n : Node) (key : String) : (n.get key).size < (Json.object n).size := by
  have := size_get_le n key
  rw [Json.size]
  omega

end Node

namespace Json

/-- The fields of an object; `none` for any other value. -/
def node? : Json → Option Node
  | .object fields => some fields
  | _ => none

/-- The items of an array; `none` for any other value. -/
def items? : Json → Option (List Json)
  | .array items => some items
  | _ => none

/-- The text of a string; `none` for any other value. -/
def string? : Json → Option String
  | .string s => some s
  | _ => none

/-- A value is null exactly when its field is missing or written `null`. -/
def isNull : Json → Bool
  | .null => true
  | _ => false

end Json

namespace Scalar

/-- Null, false, zero and the empty string count as absent. -/
def isPresent : Scalar → Bool
  | .null => false
  | .bool b => b
  | .int n => n != 0
  | .float x => Decimal.wholeValue? x != some 0
  | .string s => s != ""

end Scalar

namespace Json

/-- Null, false, zero and empty values count as absent. -/
def isPresent : Json → Bool
  | .scalar s => s.isPresent
  | .array items => !items.isEmpty
  | .object fields => !fields.isEmpty

/-- The entries of an optional list. An absent value has none; an object is read as the list of
its keys and a string as the list of its code points. A number or `true` is no list. -/
def entries? : Json → Option (List Json)
  | .array items => some items
  | .object fields => some (fields.map fun (key, _) => .string key)
  | .string s => some ((Text.singles s).map .string)
  | .scalar s => if s.isPresent then none else some []

/-- An entry is no larger than the list. -/
theorem size_le_of_mem_entries? {j entry : Json} {entries : List Json}
    (h : j.entries? = some entries) (hmem : entry ∈ entries) : entry.size ≤ j.size := by
  unfold entries? at h
  split at h
  · rename_i items
    cases h
    have := size_le_sizeItems hmem
    rw [size]
    omega
  · cases h
    obtain ⟨_, _, rfl⟩ := List.mem_map.1 hmem
    simp [size]
  · cases h
    obtain ⟨_, _, rfl⟩ := List.mem_map.1 hmem
    simp [size]
  · split at h
    · cases h
    · cases h
      simp at hmem

theorem node?_eq_some_iff {j : Json} {n : Node} : j.node? = some n ↔ j = .object n := by
  cases j <;> simp [node?]

/-- The value of a field of an object; `none` where the value is no object. -/
def field? (j : Json) (key : String) : Option Json :=
  j.node?.map (·.get key)

@[simp] theorem field?_object (n : Node) (key : String) :
    (Json.object n).field? key = some (n.get key) := rfl

end Json

end LexicalScopes
