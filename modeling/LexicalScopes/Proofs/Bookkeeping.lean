import LexicalScopes.Proofs.Bookkeeping.Bare
import LexicalScopes.Proofs.Samples

/-!
# Incidental fields

Offsets, comments, tokens and other incidental fields of nodes do not matter, whatever they hold:
trees that are the same when bare have the same scope tree, or fail for the same cause. It does not
suffice that trees are the same once every object with a type has lost these fields, for such an
object may be shown as a name, or its fields may be counted.
-/

namespace LexicalScopes

/-! ## Trees that are the same when bare -/

/-- Whatever the incidental fields of the nodes, the scope tree is the same, or the cause for which
there is none, and so the class and the text of the error. -/
theorem analyze_eq_of_bare_eq {ast ast' : Json} (h : ast.bare .plain = ast'.bare .plain)
    (generated : Bool) : analyze ast' generated = analyze ast generated := by
  have hequal : Json.EqualBare false ast ast' := .of_bare_eq h
  cases Json.EqualBare.likeness hequal with
  | object _ => exact Json.EqualBare.likeness.analyze_eq Json.EqualBare.deep hequal generated
  -- What is no object is no program.
  | scalar value => rfl
  | array _ => rfl

namespace Sample

/-- A name is declared and read. -/
def readProgram : Node := program 7 [declaration "let" "a" 0, reading "a" 6]

/-- The same program with incidental fields, which hold a node, a statement and no list. -/
def annotatedProgram : Node :=
  ("comments", list [node "CommentLine" 0 4 [("value", .string "note")]]) ::
    program 7 [declaration "let" "a" 0 ++ [("trailingComments", .object (reading "b" 5))],
      ("tokens", .int 3) :: reading "a" 6]

end Sample

open Sample in
theorem analyze_eq_of_bare_eq_annotated :
    (Json.object readProgram).bare .plain = (Json.object annotatedProgram).bare .plain ∧
      ∃ tree, analyze (.object readProgram) false = .ok tree ∧
        analyze (.object annotatedProgram) false = .ok tree := by
  have hbare : (Json.object readProgram).bare .plain =
      (Json.object annotatedProgram).bare .plain := by decide +kernel
  obtain ⟨tree, htree⟩ :=
    exists_eq_ok (e := analyze (.object readProgram) false) (by decide +kernel)
  exact ⟨hbare, tree, htree, (analyze_eq_of_bare_eq hbare false).trans htree⟩

/-! ## Fields that are shown or counted -/

mutual

/-- The value where every object with a type has lost its incidental fields. Locations are left as
they are. -/
def Json.stripped : Json → Json
  | .scalar value => .scalar value
  | .array items => .array (Json.strippedItems items)
  | .object n => .object (Json.strippedFields n n)

def Json.strippedItems : List Json → List Json
  | [] => []
  | item :: rest => item.stripped :: Json.strippedItems rest

/-- Some of the fields of a node. -/
def Json.strippedFields (n : Node) : List (String × Json) → List (String × Json)
  | [] => []
  | (key, value) :: rest =>
    if n.isIncidental key then Json.strippedFields n rest
    else (key, if key = "loc" then value else value.stripped) :: Json.strippedFields n rest

end

namespace Sample

/-- The name `a` is declared, and a property of it is read whose name is an object. -/
def namingProgram (fields : Node) : Node :=
  program 10 [declaration "let" "a" 0, node "ExpressionStatement" 7 10 [("expression",
    .object (node "MemberExpression" 7 10
      [("object", .object (identifier "a" 7)), ("computed", .bool false),
        ("property", .object (node "Identifier" 9 10
          [("name", .object (("type", .string "Text") :: fields))]))]))]]

/-- The receiver is read in a sequence, in the place of its expressions. -/
def countingProgram (fields : Node) : Node :=
  program 4 [node "ExpressionStatement" 0 4 [("expression",
    .object (node "SequenceExpression" 0 4
      [("expressions", .object (node "ThisExpression" 0 4 fields))]))]]

end Sample

open Sample in
/-- The name of a property is shown with all its fields, and two expressions are expected to be in a
list. -/
theorem analyze_ne_of_stripped_eq :
    ((Json.object (namingProgram [])).stripped =
        (Json.object (namingProgram [("range", .null)])).stripped ∧
      ∃ tree tree', analyze (.object (namingProgram [])) false = .ok tree ∧
        analyze (.object (namingProgram [("range", .null)])) false = .ok tree' ∧
        tree ≠ tree') ∧
    ((Json.object (countingProgram [])).stripped =
        (Json.object (countingProgram [("range", .null)])).stripped ∧
      (analyze (.object (countingProgram [])) false).isOk = false ∧
      (analyze (.object (countingProgram [("range", .null)])) false).isOk = true) := by
  refine ⟨⟨by decide +kernel, ?_⟩, ⟨by decide +kernel, by decide +kernel, by decide +kernel⟩⟩
  obtain ⟨tree, htree⟩ :=
    exists_eq_ok (e := analyze (.object (namingProgram [])) false) (by decide +kernel)
  obtain ⟨tree', htree'⟩ :=
    exists_eq_ok (e := analyze (.object (namingProgram [("range", .null)])) false)
      (by decide +kernel)
  have hbindings :
      (analyze (.object (namingProgram [])) false).toOption.map
          (fun tree => tree.children.map Scope.bindings) ≠
        (analyze (.object (namingProgram [("range", .null)])) false).toOption.map
          (fun tree => tree.children.map Scope.bindings) := by decide +kernel
  refine ⟨tree, tree', htree, htree', ?_⟩
  rintro rfl
  rw [htree, htree'] at hbindings
  exact hbindings rfl

end LexicalScopes
