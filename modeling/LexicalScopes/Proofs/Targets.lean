import LexicalScopes.Proofs.Run.Performs

/-!
# Names of a target, one step at a time

The names that a target binds are those of its parts, as the type of its node says. The equations
here leave out the proof that the parts are smaller.
-/

namespace LexicalScopes

/-- The names that a property of an object pattern binds. -/
def slotNames (pattern property : Json) : List (Except Cause BoundName) :=
  match propertySlot pattern property with
  | .error fault => [.error fault]
  | .ok slot => boundNames (slot.get slot.targetField)

/-- The names that the entries of a list bind. -/
def listedNames (names : Json → List (Except Cause BoundName))
    (entries : Except Cause (List Json)) : List (Except Cause BoundName) :=
  match entries with
  | .error cause => [.error cause]
  | .ok entries => entries.flatMap names

variable {n : Node}

theorem boundNames_objectPattern (h : n.type = .string "ObjectPattern") :
    boundNames (.object n) =
      listedNames (slotNames (.object n)) (n.get "properties").entries := by
  rw [boundNames, Json.entries]
  simp only [h]
  split
  · rename_i hentries
    rw [hentries, readable_none, listedNames]
  · rename_i properties hentries
    rw [hentries, readable_some, listedNames]
    rw [List.flatMap_subtype (g := slotNames (.object n)) (fun property _ => ?_),
      List.unattach_attach]
    unfold slotNames
    split <;> rename_i hslot <;> rw [hslot]

theorem boundNames_arrayPattern (h : n.type = .string "ArrayPattern") :
    boundNames (.object n) = listedNames boundNames (n.get "elements").entries := by
  rw [boundNames, Json.entries]
  simp only [h]
  split
  · rename_i hentries
    rw [hentries, readable_none, listedNames]
  · rename_i elements hentries
    rw [hentries, readable_some, listedNames]
    rw [List.flatMap_subtype (g := boundNames) (fun _ _ => rfl), List.unattach_attach]

theorem boundNames_assignmentPattern (h : n.type = .string "AssignmentPattern") :
    boundNames (.object n) = boundNames (n.get "left") := by
  rw [boundNames]
  simp only [h]

theorem boundNames_restElement (h : n.type = .string "RestElement") :
    boundNames (.object n) = boundNames (n.get "argument") := by
  rw [boundNames]
  simp only [h]

/-- The types of nodes that bind names. -/
def NodeType.targets : List String :=
  ["Identifier", "ObjectPattern", "ArrayPattern", "AssignmentPattern", "RestElement"]

/-- No other node binds names. -/
theorem boundNames_other (h : ∀ t ∈ NodeType.targets, n.type ≠ .string t) :
    boundNames (.object n) = [] := by
  rw [boundNames]
  split <;> first | rfl | exact absurd ‹n.type = _› (h _ (by decide))

end LexicalScopes
