import LexicalScopes.Proofs.Samples
import LexicalScopes.Proofs.Spelling.Check
import LexicalScopes.Proofs.Spelling.Script

/-!
# Analysis does not depend on the spelling

A tree in which any of the nodes are spelled the other way has the same scope tree, or none if the
tree itself has none.
-/

namespace LexicalScopes

open LexicalScopes.Action (Matches)

namespace Builder

variable {b : Builder}

/-- Matching actions do the same, or both fail. -/
theorem apply_matches {a a' : Action} (h : Matches a a') : Alike Eq (b.apply a) (b.apply a') := by
  cases h with
  | same a => exact .refl _
  | fail fault fault' => exact .error _ _
  | refer name h =>
    unfold apply refer
    dsimp only
    refine (Alike.refl (b.here _)).bind_eq fun s => ?_
    cases b.graph.resolve s name with
    | none => exact .refl _
    | some t =>
      dsimp only
      cases b.graph.find? t name with
      | none => exact .refl _
      | some e => exact h.bind_eq fun _ => .refl _

theorem replay_matches {actions actions' : List Action}
    (h : List.Forall₂ Matches actions actions') :
    Alike Eq (b.replay actions) (b.replay actions') := by
  induction h generalizing b with
  | nil => exact .refl _
  | cons ha _ ih =>
    rw [replay_cons, replay_cons]
    exact (apply_matches ha).bind_eq fun _ => ih

end Builder

theorem alike_collect {ast ast' : Json} (h : Json.Respells none ast ast') :
    Alike Eq (collect ast) (collect ast') := by
  unfold collect
  rcases h.cases with ⟨s, rfl, rfl⟩ | ⟨xs, ys, rfl, rfl, -⟩ | ⟨n, m, rfl, rfl, hn⟩
  · exact .error _ _
  · exact .error _ _
  · simp only [Json.node?, hn.isAny_eq (by decide : NodeType.closed ["Program"] = true),
      Builder.ofTree_eq_replay]
    have hscript : List.Forall₂ Matches (Path.root n).script (Path.root m).script :=
      Path.Respells.script (.root hn)
    exact .ite (Builder.replay_matches hscript) (.error _ _)

/-- A respelled tree has the same scope tree. -/
theorem analyze_respelled {ast ast' : Json} (h : Json.Respells none ast ast') (generated : Bool)
    (tree : Scope) : analyze ast generated = .ok tree ↔ analyze ast' generated = .ok tree :=
  ((alike_collect h).bind_eq fun _ => .refl _).eq_ok_iff

section Spelled

open Sample

/-- A method of an object: a node of its own around its function, or merged with it. -/
def spelledMethod (merged : Bool) (key : Node) (start stop : Nat) (params : List Node)
    (body : Node) : Node :=
  let parts := [("id", .null), ("params", list params), ("body", .object body)]
  if merged then node "ObjectMethod" start stop (("key", .object key) :: parts)
  else node "Property" start stop
    [("key", .object key), ("value", .object (node "FunctionExpression" start stop parts))]

/-- An object with a method and a property, whose value is a call of a method of `a` with a number.
All types are plain, or all are the other ones. -/
def spelledProgram (other : Bool) : Node :=
  let type (plain spelled : String) := if other then spelled else plain
  let key := node (type "Literal" "StringLiteral") 18 21 [("value", .string "k")]
  let argument := node (type "Literal" "NumericLiteral") 26 27 [("value", .int 1)]
  let callee := node (type "MemberExpression" "OptionalMemberExpression") 22 25
    [("object", .object (identifier "a" 22)), ("property", .object (identifier "b" 24))]
  let call := node (type "CallExpression" "OptionalCallExpression") 22 28
    [("callee", .object callee), ("arguments", list [argument])]
  let property := node (type "Property" "ObjectProperty") 18 28
    [("key", .object key), ("value", .object call)]
  let method := spelledMethod other (identifier "f" 8) 9 17 [identifier "x" 10]
    (block 12 17 [reading "x" 13, reading "a" 15])
  program 30 [declaration "let" "a" 0,
    node "ExpressionStatement" 6 30 [("expression",
      .object (node "ObjectExpression" 7 29 [("properties", list [method, property])]))]]

theorem analyze_respelled_sample :
    ∃ tree, analyze (.object (spelledProgram false)) false = .ok tree ∧
      analyze (.object (spelledProgram true)) false = .ok tree := by
  have h : Json.Respells none (.object (spelledProgram false)) (.object (spelledProgram true)) :=
    Json.respells_of_check 12 none _ _ (by decide +kernel)
  obtain ⟨tree, htree⟩ :=
    exists_eq_ok (e := analyze (.object (spelledProgram false)) false) (by decide +kernel)
  exact ⟨tree, htree, (analyze_respelled h false tree).1 htree⟩

end Spelled

end LexicalScopes
