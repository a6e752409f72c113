import LexicalScopes.Json.Order

/-!
# Remembered results

A cache remembers one result for each source name, together with the fingerprint of what it was
computed from. A result is handed out only under the same fingerprint; asking under another one
drops it.
-/

namespace LexicalScopes

/-- What a result depends on besides the name of the source, in normal form. -/
structure Fingerprint where
  hash : Json
  sourceType : Json
  generated : Json
deriving DecidableEq, Repr

/-- The fingerprint of three values. -/
def Fingerprint.of (hash sourceType generated : Json) : Fingerprint :=
  ⟨hash.normal, sourceType.normal, generated.normal⟩

/-- The remembered results, one for each name. -/
structure Cache (α : Type) where
  entries : List (Key × Fingerprint × α) := []

namespace Cache

variable {α : Type}

/-- The number of names with a result. -/
def size (c : Cache α) : Nat := c.entries.length

/-- What is remembered under a name. -/
def find? (c : Cache α) (name : Key) : Option (Fingerprint × α) := c.entries.lookup name

/-- Forget what is remembered under a name. -/
def invalidate (c : Cache α) (name : Key) : Cache α :=
  ⟨c.entries.filter fun e => e.1 != name⟩

/-- Forget what is remembered under a value. A cache that remembers nothing does not ask whether the
value can be a name. -/
def forget? (c : Cache α) (value : Json) : Option (Cache α) :=
  if c.entries.isEmpty then some c else value.key?.map c.invalidate

/-- Forget everything. -/
def clear (_ : Cache α) : Cache α := ⟨[]⟩

/-- Remember a result under a name, instead of an earlier one. -/
def put (c : Cache α) (name : Key) (fingerprint : Fingerprint) (a : α) : Cache α :=
  ⟨(c.invalidate name).entries ++ [(name, fingerprint, a)]⟩

@[simp] theorem find?_clear (c : Cache α) (name : Key) : c.clear.find? name = none := rfl

theorem find?_invalidate (c : Cache α) (name other : Key) :
    (c.invalidate name).find? other = if other = name then none else c.find? other := by
  unfold find? invalidate
  induction c.entries with
  | nil => simp
  | cons e rest ih =>
    obtain ⟨n, v⟩ := e
    by_cases hn : n = name
    · subst hn
      rw [List.filter_cons_of_neg (by simp), ih]
      by_cases ho : other = n
      · simp [ho]
      · simp [ho, List.lookup_cons, beq_false_of_ne ho]
    · rw [List.filter_cons_of_pos (by simpa using hn), List.lookup_cons, List.lookup_cons, ih]
      by_cases ho : other = n
      · simp [ho, hn]
      · simp [beq_false_of_ne ho]

theorem find?_put (c : Cache α) (name other : Key) (fingerprint : Fingerprint) (a : α) :
    (c.put name fingerprint a).find? other =
      if other = name then some (fingerprint, a) else c.find? other := by
  have h := find?_invalidate c name other
  unfold find? at h ⊢
  rw [put, List.lookup_append, h]
  by_cases ho : other = name
  · simp [ho]
  · simp [ho, List.lookup_cons, beq_false_of_ne ho]

/-- What a cache knows about a source. -/
inductive Lookup (α : Type) where
  /-- Nothing. -/
  | absent
  /-- A result that was computed from something else. -/
  | stale
  | hit (result : α)

/-- Look a result up. -/
def lookup (c : Cache α) (name : Key) (fingerprint : Fingerprint) : Lookup α :=
  match c.find? name with
  | none => .absent
  | some (found, a) => if found = fingerprint then .hit a else .stale

/-- The cache after a look-up: a stale result is dropped. -/
def afterLookup (c : Cache α) (name : Key) (fingerprint : Fingerprint) : Cache α :=
  match c.lookup name fingerprint with
  | .stale => c.invalidate name
  | _ => c

/-- The result, if there is one. -/
def Lookup.result? : Lookup α → Option α
  | .hit a => some a
  | _ => none

end Cache

end LexicalScopes
