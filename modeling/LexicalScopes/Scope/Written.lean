import LexicalScopes.Json.Printer
import LexicalScopes.Linked
import LexicalScopes.Scope.Tree

/-!
# Scope trees as JSON

The form in which scope trees are handed to other programs. The wrappers of a reference form a
chain: each is written inside the one before it, under `parent`, and the chain ends with null.
-/

namespace LexicalScopes

/-- A location as an object. -/
def Location.toJson (l : Location) : Json := .object [("line", l.line), ("column", l.column)]

/-- The two ends of a range. -/
def Range.fields (r : Range) : List (String × Json) :=
  [("start", r.start.toJson), ("end", r.stop.toJson)]

/-- The word for a form of wrapper. -/
def WrapperForm.text : WrapperForm → String
  | .inherit => "inherit"
  | .call => "call"
  | .member _ => "member"

/-- Only a member names a property. -/
def WrapperForm.fields : WrapperForm → List (String × Json)
  | .member property => [("property", property)]
  | _ => []

/-- What is written about a wrapper itself. -/
def Wrapping.payload (w : Wrapping) : Node :=
  ("type", .string w.form.text) :: w.range.fields ++ w.form.fields

/-- A chain of objects, of which each holds the next one. -/
def Linked.toJson (chain : Linked Node) : Json :=
  chain.fold (fun payload outer => .object (payload ++ [("parent", outer)])) .null

/-- A chain of wrappers from its innermost on. -/
def Wrapping.chainToJson (ws : List Wrapping) : Json :=
  (Linked.appendAll {} (ws.map payload)).toJson

@[simp] theorem Wrapping.chainToJson_nil : chainToJson [] = .null := rfl

/-- A wrapper holds what is written for those around it. -/
theorem Wrapping.chainToJson_cons (w : Wrapping) (outer : List Wrapping) :
    chainToJson (w :: outer) = .object (w.payload ++ [("parent", chainToJson outer)]) := by
  simp only [chainToJson, Linked.toJson, Linked.fold_appendAll_empty, List.map_cons,
    List.foldr_cons]

/-- A read with its wrappers. -/
def Reference.toJson (r : Reference) : Json :=
  .object (r.range.fields ++ [("meta", Wrapping.chainToJson r.wrappers)])

/-- A binding with its declarations and reads. -/
def Binding.toJson (b : Binding) : Json :=
  .object [("type", .string b.kind.text),
    ("declarations", .array (b.declarations.map fun r => .object r.fields)),
    ("refs", .array (b.refs.map Reference.toJson))]

namespace Scope

mutual

/-- A scope with its bindings by name and the scopes below it. -/
def toJson : Scope → Json
  | ⟨type, name, range, bindings, children⟩ =>
    .object ([("type", .string type.text), ("displayName", name)] ++ range.fields
      ++ [("bindings", .object (bindings.map fun (n, b) => (n.keyText, b.toJson))),
        ("children", .array (allToJson children))])

def allToJson : List Scope → List Json
  | [] => []
  | s :: rest => s.toJson :: allToJson rest

end

end Scope

end LexicalScopes
