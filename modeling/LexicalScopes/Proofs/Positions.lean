import LexicalScopes.Proofs.Missing.Readings

/-!
# Reports on a node

A report on a node says where the node starts, so it reads the very location that may be the reason
for the report. It gets by with a location that is absent and with one that has no start. A location
or a start that is there without being an object is one it cannot read, and then nothing is
reported.
-/

namespace LexicalScopes

/-! ## Optional nodes -/

namespace Json

variable {j : Json}

/-- The value is an object, or absent. -/
def isOptionalNode (j : Json) : Bool := !j.isPresent || j.node?.isSome

theorem optionalNode_eq_ok (h : j.isOptionalNode = true) :
    j.optionalNode = .ok (j.node?.getD []) := by
  unfold optionalNode
  split
  · rename_i hpresent
    rw [isOptionalNode, hpresent, Bool.not_true, Bool.false_or] at h
    obtain ⟨n, hn⟩ := Option.isSome_iff_exists.1 h
    rw [fields, hn]
    rfl
  · rename_i habsent
    cases j with
    | object fields =>
      cases fields with
      | nil => rfl
      | cons field rest => exact absurd rfl habsent
    | _ => rfl

theorem isNull_iff : j.isNull = true ↔ j = .null := by
  constructor
  · intro h
    cases j with
    | scalar s =>
      cases s with
      | null => rfl
      | _ => cases h
    | _ => cases h
  · rintro rfl
    rfl

/-- A value with a field is an object. -/
theorem eq_object_of_get_ne {key : String} (h : (j.node?.getD []).get key ≠ .null) :
    j = .object (j.node?.getD []) := by
  cases j with
  | object fields => rfl
  | _ => exact absurd rfl h

theorem optionalNode_eq_error (h : j.isOptionalNode = false) :
    j.optionalNode = .error (.misread (.method j.kind "get")) := by
  obtain ⟨habsent, hnode⟩ := Bool.or_eq_false_iff.1 h
  have hpresent : j.isPresent = true := by simpa using habsent
  have hnone : j.node? = none := by simpa using hnode
  rw [optionalNode, if_pos hpresent, fields, hnone, readable_none]

end Json

/-! ## Positions -/

namespace Node

variable {n : Node}

/-- The location of a node, with a start and an end. -/
structure LocatedBy (n loc : Node) : Prop where
  get_eq : n.get "loc" = .object loc
  start : (loc.get "start").isPresent = true
  stop : (loc.get "end").isPresent = true

/-- The node has an object as its location, with an object as the start, which tells both the line
and the column. -/
def StartsAt (n : Node) (p : Position) : Prop :=
  ∃ loc start : Node, n.get "loc" = .object loc ∧ loc.get "start" = .object start ∧
    start.get "line" = p.line ∧ start.get "column" = p.column ∧ p.line ≠ .null ∧ p.column ≠ .null

/-- The position of the node can be read: the location is an object if it is there, and so is the
start of it. -/
def isPlaceable (n : Node) : Bool :=
  (n.get "loc").isOptionalNode &&
    (n.get "loc").node?.all fun loc => (loc.get "start").isOptionalNode

/-- The kind of what stands in the way of reading the position of the node, if something does: its
location, or else the start of that. -/
def misplacedKind (n : Node) : Json.Kind :=
  if (n.get "loc").isOptionalNode then (((n.get "loc").node?.getD []).get "start").kind
  else (n.get "loc").kind

/-- The fields of the place where the node starts, none if there is no such place. -/
def startFields (n : Node) : Node :=
  (((n.get "loc").node?.getD []).get "start").node?.getD []

theorem startsAt_iff {p : Position} :
    n.StartsAt p ↔ n.startFields.get "line" = p.line ∧ n.startFields.get "column" = p.column ∧
      p.line ≠ .null ∧ p.column ≠ .null := by
  constructor
  · rintro ⟨loc, start, hloc, hstart, htold⟩
    simpa only [startFields, hloc, hstart, Json.node?, Option.getD_some] using htold
  · rintro ⟨hline, hcolumn, hline', hcolumn'⟩
    have hstart : ((n.get "loc").node?.getD []).get "start" = .object n.startFields := by
      have hget : n.startFields.get "line" ≠ .null := hline ▸ hline'
      exact Json.eq_object_of_get_ne hget
    have hloc : n.get "loc" = .object ((n.get "loc").node?.getD []) := by
      have hget : ((n.get "loc").node?.getD []).get "start" ≠ .null := by
        intro hnull
        cases hstart.symm.trans hnull
      exact Json.eq_object_of_get_ne hget
    exact ⟨_, _, hloc, hstart, hline, hcolumn, hline', hcolumn'⟩

theorem isPlaceable_eq :
    n.isPlaceable = ((n.get "loc").isOptionalNode &&
      (((n.get "loc").node?.getD []).get "start").isOptionalNode) := by
  rw [isPlaceable]
  cases (n.get "loc").node? with
  | none => rfl
  | some loc => rfl

end Node

variable {n : Node}

/-- The position of a node is read from where it starts. -/
theorem Position.ofNode?_eq_ok (h : n.isPlaceable = true) :
    ∃ position, Position.ofNode? (.object n) = .ok position ∧
      ∀ p, position = some p ↔ n.StartsAt p := by
  rw [Node.isPlaceable_eq, Bool.and_eq_true] at h
  simp only [Position.ofNode?, Json.node?]
  rw [Json.optionalNode_eq_ok h.1, ok_bind, Json.optionalNode_eq_ok h.2, ok_bind]
  refine ⟨_, rfl, fun p => ?_⟩
  rw [Node.startsAt_iff, ← Node.startFields]
  split
  · rename_i hnull
    rw [Bool.or_eq_true, Json.isNull_iff, Json.isNull_iff] at hnull
    constructor
    · intro h
      cases h
    · rintro ⟨hline, hcolumn, hline', hcolumn'⟩
      rw [hline, hcolumn] at hnull
      exact (hnull.elim hline' hcolumn').elim
  · rename_i htold
    rw [Bool.or_eq_true, not_or, Json.isNull_iff, Json.isNull_iff] at htold
    constructor
    · rintro ⟨⟩
      exact ⟨rfl, rfl, htold⟩
    · rintro ⟨hline, hcolumn, -⟩
      rw [hline, hcolumn]

theorem Position.ofNode?_eq_error (h : n.isPlaceable = false) :
    Position.ofNode? (.object n) = .error (.misread (.method n.misplacedKind "get")) := by
  rw [Node.isPlaceable_eq] at h
  rw [Position.ofNode?, Json.node?, Node.misplacedKind]
  dsimp only
  cases hloc : (n.get "loc").isOptionalNode with
  | false => rw [Json.optionalNode_eq_error hloc, error_bind, if_neg Bool.false_ne_true]
  | true =>
    rw [hloc, Bool.true_and] at h
    rw [Json.optionalNode_eq_ok hloc, ok_bind, Json.optionalNode_eq_error h, error_bind, if_pos rfl]

/-! ## Locations -/

namespace Node

theorem loc_eq_ok_iff {loc : Node} : n.loc = .ok loc ↔ n.LocatedBy loc := by
  constructor
  · intro h
    have hget := get_of_loc h
    rw [Node.loc, hget] at h
    simp only [Json.node?] at h
    split at h
    · rename_i hpresent
      obtain ⟨hstart, hstop⟩ := Bool.and_eq_true_iff.1 hpresent
      exact ⟨hget, hstart, hstop⟩
    · cases h
  · rintro ⟨hget, hstart, hstop⟩
    rw [Node.loc, hget]
    simp only [Json.node?, hstart, hstop, Bool.and_self, if_true]

theorem loc_eq_error (h : ∀ loc, ¬n.LocatedBy loc) :
    n.loc = .error (.malformed (.noLocation n.type) (.object n)) := by
  cases hloc : n.loc with
  | ok loc => exact absurd (loc_eq_ok_iff.1 hloc) (h loc)
  | error fault => rw [error_of_loc hloc]

end Node

/-- If the position of a node can be read, then the lack of its location is reported with it, and so
is every message about the node. If it cannot be read then the location may still be there, but
nothing is reported: what stands in its place is asked for a field that values of its kind do not
have. -/
theorem Node.reported_of_isPlaceable (n : Node) (message : String) :
    (∀ loc, n.loc = .ok loc ↔ n.LocatedBy loc) ∧
      (n.isPlaceable = true → ∃ position, (∀ p, position = some p ↔ n.StartsAt p) ∧
        ((∀ loc, ¬n.LocatedBy loc) →
          n.loc = .error (.reported (.malformed (.noLocation n.type) position))) ∧
        located message (.object n) = .ok (message ++ Position.suffix position)) ∧
      (n.isPlaceable = false →
        ((∀ loc, ¬n.LocatedBy loc) →
          n.loc = .error (.misread (.method n.misplacedKind "get"))) ∧
        located message (.object n) = .error (.misread (.method n.misplacedKind "get"))) := by
  refine ⟨fun loc => loc_eq_ok_iff, fun hplace => ?_, fun hplace => ?_⟩
  · obtain ⟨position, hread, hposition⟩ := Position.ofNode?_eq_ok hplace
    refine ⟨position, hposition, fun hlack => ?_, ?_⟩
    · rw [loc_eq_error hlack, Cause.malformed, hread]
    · rw [located, hread]
      rfl
  · have hread := Position.ofNode?_eq_error hplace
    constructor
    · intro hlack
      rw [loc_eq_error hlack, Cause.malformed, hread]
    · rw [located, hread]
      rfl

/-- An identifier with a number for its location. -/
def Sample.misplaced : Node := [("type", .string "Identifier"), ("loc", .int 5)]

/-- Nobody is told that this location is none. -/
theorem misplaced_is_unreported :
    Sample.misplaced.loc = .error (.misread (.method .int "get")) ∧
      ∀ message, located message (.object Sample.misplaced) =
        .error (.misread (.method .int "get")) :=
  ⟨rfl, fun _ => rfl⟩

end LexicalScopes
