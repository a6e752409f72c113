import LexicalScopes.Proofs.Destructuring.Meetings
import LexicalScopes.Proofs.Samples
import LexicalScopes.Scope.Graph

/-!
# Declaring a pattern

Declaring a pattern declares the identifiers that it binds, one by one from left to right, each with
its name and its location. Where the pattern cannot be read further, the declaration ends; what has
been declared by then are the identifiers to the left of that place. An object pattern with an empty
slot ends it with a report, unless the report itself fails because the position of the pattern
cannot be read.
-/

namespace LexicalScopes

variable {g : Graph} {s : ScopeId} {kind : BindingKind} {fault : Cause} {way : Way}
  {b : BoundName} {met : List (Way × Except Cause BoundName)}

/-! ## Declaring names -/

namespace Graph

/-- Declare names one by one. -/
def declareEach (g : Graph) (s : ScopeId) (kind : BindingKind) (bound : List BoundName) : Graph :=
  bound.foldl (fun g b => g.declare s b.name kind b.loc) g

theorem declareAll_ok (bound : List BoundName) :
    declareAll s kind (bound.map .ok) g = .ok () (g.declareEach s kind bound) := by
  induction bound generalizing g with
  | nil => rfl
  | cons b bound ih => exact ih

theorem declareAll_error (bound : List BoundName) (rest : List (Except Cause BoundName)) :
    declareAll s kind (bound.map .ok ++ .error fault :: rest) g =
      .error fault (g.declareEach s kind bound) := by
  induction bound generalizing g with
  | nil => rfl
  | cons b bound ih => exact ih

end Graph

/-! ## The names among the meetings -/

namespace Way

/-- The names that were met, with their ways. -/
def named (met : List (Way × Except Cause BoundName)) : List (Way × BoundName) :=
  met.filterMap fun (way, x) => x.toOption.map (way, ·)

theorem mem_named : (way, b) ∈ named met ↔ (way, .ok b) ∈ met := by
  simp only [named, List.mem_filterMap, Option.map_eq_some_iff, Prod.mk.injEq]
  constructor
  · rintro ⟨⟨_, x⟩, hx, _, hb, rfl, rfl⟩
    cases x with
    | ok _ =>
      cases hb
      exact hx
    | error _ => cases hb
  · intro h
    exact ⟨_, h, b, rfl, rfl, rfl⟩

theorem InOrder.named (h : InOrder met) : InOrder (named met) := by
  refine List.Pairwise.filterMap _ (fun x y hlt a ha c hc => ?_) h
  obtain ⟨_, -, rfl⟩ := Option.map_eq_some_iff.1 ha
  obtain ⟨_, -, rfl⟩ := Option.map_eq_some_iff.1 hc
  exact hlt

theorem filter_named (p : Way → Bool) :
    (named met).filter (fun x => p x.1) = named (met.filter fun x => p x.1) := by
  rw [named, named, List.filter_filterMap, List.filterMap_filter]
  congr 1
  funext ⟨way, x⟩
  cases x <;> cases hp : p way <;> simp [Except.toOption, hp]

/-- Up to the first fault everything that is met is a name. -/
theorem names_or_fault (met : List (Way × Except Cause BoundName)) :
    met.map (·.2) = ((named met).map (·.2)).map .ok ∨
      ∃ before way fault after, met = before ++ (way, .error fault) :: after ∧
        before.map (·.2) = ((named before).map (·.2)).map .ok := by
  induction met with
  | nil => exact .inl rfl
  | cons x met ih =>
    obtain ⟨way, x⟩ := x
    cases x with
    | error fault => exact .inr ⟨[], way, fault, met, rfl, rfl⟩
    | ok b =>
      rcases ih with hall | ⟨before, way', fault, after, rfl, hbefore⟩
      · exact .inl (congrArg (Except.ok b :: ·) hall)
      · exact .inr ⟨(way, .ok b) :: before, way', fault, after, rfl,
          congrArg (Except.ok b :: ·) hbefore⟩

theorem not_mem_of_names {bound : List BoundName} (h : met.map (·.2) = bound.map .ok) :
    (way, .error fault) ∉ met := by
  intro hmem
  have hfault := List.mem_map_of_mem (f := (·.2)) hmem
  rw [h] at hfault
  simp at hfault

end Way

/-! ## Patterns -/

/-- Declaring a pattern declares the names that the target meets, in the order of the ways. If it
meets nothing else, all of them are declared. Otherwise the first thing that is no name ends the
declaration, after exactly the names that are met before it. -/
theorem Graph.declarePattern_in_order (target : Json) (s : ScopeId) (kind : BindingKind)
    (g : Graph) :
    ∃ bound : List (Way × BoundName), Way.InOrder bound ∧
      (∀ way b, (way, b) ∈ bound ↔ target.Meets way (.ok b)) ∧
      ((∀ way fault, ¬target.Meets way (.error fault)) ∧
          declarePattern s target kind g = .ok () (g.declareEach s kind (bound.map (·.2))) ∨
        ∃ way fault, target.Meets way (.error fault) ∧
          (∀ way' fault', target.Meets way' (.error fault') → way ≤ way') ∧
          declarePattern s target kind g =
            .error fault (g.declareEach s kind ((bound.filter (·.1 < way)).map (·.2)))) := by
  have horder := target.inOrder_meetings
  refine ⟨Way.named target.meetings, horder.named, fun way b => ?_, ?_⟩
  · rw [Way.mem_named, Json.mem_meetings_iff]
  rw [declarePattern, ← Json.map_snd_meetings]
  rcases Way.names_or_fault target.meetings with hall | ⟨before, way, fault, after, hmet, hbefore⟩
  · refine .inl ⟨fun way fault h => ?_, ?_⟩
    · exact Way.not_mem_of_names hall (Json.mem_meetings_iff.2 h)
    · rw [hall, declareAll_ok]
  · rw [hmet] at horder
    refine .inr ⟨way, fault, ?_, fun way' fault' h => ?_, ?_⟩
    · rw [← Json.mem_meetings_iff, hmet]
      exact List.mem_append_right before List.mem_cons_self
    · -- No fault stands before the first one.
      rw [← Json.mem_meetings_iff, hmet, List.mem_append, List.mem_cons] at h
      rcases h with h | ⟨⟨⟩⟩ | h
      · exact absurd h (Way.not_mem_of_names hbefore)
      · exact le_refl way
      · have hafter := (List.pairwise_append.1 horder).2.1
        exact ((List.pairwise_cons.1 hafter).1 _ h).le
    · rw [Way.filter_named (fun w => w < way), hmet, horder.filter_lt, List.map_append, hbefore,
        List.map_cons, declareAll_error]

namespace Sample

/-- A property of a pattern. -/
def property (start stop : Nat) (key : String) (value : Node) : Json :=
  .object (node "Property" start stop
    [("key", .object (identifier key start)), ("value", .object value)])

/-- `{a: [b = c, , ...d], , e}` -/
def slotted : Json :=
  .object (node "ObjectPattern" 0 25 [("properties", .array
    [property 1 19 "a" (node "ArrayPattern" 4 19 [("elements", .array
        [.object (node "AssignmentPattern" 5 10 [("left", .object (identifier "b" 5)),
            ("right", .object (identifier "c" 9))]),
          .null, .object (node "RestElement" 14 18 [("argument", .object (identifier "d" 17))])])]),
      .null, property 23 24 "e" (identifier "e" 23)])])

/-- `{a, }` with a number for its location. -/
def unplaced : Json :=
  .object [("type", .string "ObjectPattern"), ("loc", .int 5), ("properties", .array
    [property 1 2 "a" (identifier "a" 1), .null])]

/-- A function in which nothing is declared yet. -/
def emptyFunction : Graph := ({} : Graph).addScope .function (.string "f") (place 0) none

end Sample

open Sample

example : boundNames slotted =
    [.ok ⟨.string "b", span (place 5) (place 6)⟩, .ok ⟨.string "d", span (place 17) (place 18)⟩,
      .error (.reported (.malformed .emptySlot (some ⟨.int 1, .int 0⟩))),
      .ok ⟨.string "e", span (place 23) (place 24)⟩] := by decide +kernel

/-- The empty slot ends the declaration after `a`, but nobody is told of it. -/
theorem Graph.empty_slot_is_unreported :
    Graph.declarePattern 0 unplaced .var emptyFunction =
      .error (.misread (.method .int "get"))
        (emptyFunction.declare 0 (.string "a") .var (span (place 1) (place 2))) := by
  have hnames : boundNames unplaced =
      [.ok ⟨.string "a", span (place 1) (place 2)⟩, .error (.misread (.method .int "get"))] := by
    decide +kernel
  rw [Graph.declarePattern, hnames]
  rfl

end LexicalScopes
