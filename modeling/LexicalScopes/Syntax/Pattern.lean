import LexicalScopes.Syntax.Node

/-!
# Names bound by a pattern

A declaration target is an identifier or a pattern of identifiers. `boundNames` lists the names
that it binds from left to right, each with the location of its identifier. Keys and default
values bind nothing, and neither does any other value. Where the pattern is malformed, the fault
stands in the list at its place.
-/

namespace LexicalScopes

/-- A name and the location of the identifier that declares it. -/
structure BoundName where
  name : Scalar
  loc : Json
deriving DecidableEq, Repr

/-- The name of an identifier. A list or an object is no name. -/
def Node.scalarName (n : Node) : Except Cause Scalar :=
  match n.get "name" with
  | .scalar name => .ok name
  | name => .error (.misread (.stored name.kind))

/-- The name that an identifier declares. -/
def Node.boundName (n : Node) : Except Cause BoundName := do
  let loc ← n.loc
  let name ← n.scalarName
  return ⟨name, .object loc⟩

/-- The node of a property of an object pattern. -/
def propertySlot (pattern property : Json) : Except Cause Node :=
  match property.node? with
  | some n => .ok n
  | none => .error (.malformed .emptySlot pattern)

/-- The field of a property that is its target. -/
def Node.targetField (n : Node) : String :=
  if n.isAny ["RestElement"] then "argument" else "value"

/-- The names that a declaration target binds, from left to right, and the faults met on the
way. -/
def boundNames (target : Json) : List (Except Cause BoundName) :=
  match _h : target with
  | .object n =>
    match Node.type n with
    | .string "Identifier" => [Node.boundName n]
    | .string "ObjectPattern" =>
      match _hp : (Node.get n "properties").entries? with
      | none => [.error (.misread (.entries (Node.get n "properties").kind))]
      | some properties => properties.attach.flatMap fun ⟨property, _⟩ =>
        match _hn : propertySlot target property with
        | .error fault => [.error fault]
        | .ok slot => boundNames (slot.get slot.targetField)
    | .string "ArrayPattern" =>
      match _he : (Node.get n "elements").entries? with
      | none => [.error (.misread (.entries (Node.get n "elements").kind))]
      | some elements => elements.attach.flatMap fun ⟨element, _⟩ => boundNames element
    | .string "AssignmentPattern" => boundNames (Node.get n "left")
    | .string "RestElement" => boundNames (Node.get n "argument")
    | _ => []
  | _ => []
termination_by target.size
decreasing_by
  · have hle := Json.size_le_of_mem_entries? _hp ‹_›
    have hlt := Node.size_get_lt n "properties"
    have hslot : property = .object slot := by
      unfold propertySlot at _hn
      split at _hn
      · cases _hn
        exact Json.node?_eq_some_iff.1 ‹_›
      · cases _hn
    have := Node.size_get_lt slot slot.targetField
    rw [hslot] at hle
    omega
  · have hle := Json.size_le_of_mem_entries? _he ‹_›
    have hlt := Node.size_get_lt n "elements"
    omega
  · exact Node.size_get_lt n "left"
  · exact Node.size_get_lt n "argument"

end LexicalScopes
