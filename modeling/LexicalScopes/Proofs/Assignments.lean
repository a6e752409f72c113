import LexicalScopes.Proofs.Binders.Patterns
import LexicalScopes.Proofs.Samples

/-!
# Assignment targets

An assignment writes to the identifiers of its target, and so does a loop that takes its values from
an object or a list and has no declaration in its head. A target may be a pattern, to any depth. No
identifier in it is read, with one exception: the whole target of a loop, if it is no pattern.
-/

namespace LexicalScopes

namespace NodeType

/-- Loops over the keys or the values of something. -/
def iterations : List String := ["ForInStatement", "ForOfStatement"]

/-- Nodes that write to their left side. -/
def assigning : List String := ["AssignmentExpression"] ++ iterations

end NodeType

namespace Path

/-- The node is the target of an assignment or of a loop, or a part of such a target that is written
to in its place. -/
inductive AssignmentTarget : Path → Prop where
  | left {p : Path} {index : Option Nat} {n : Node}
      (htype : p.node.isAny NodeType.assigning = true) : AssignmentTarget (.child p "left" index n)
  | element {p : Path} {index : Option Nat} {n : Node} (h : AssignmentTarget p)
      (htype : p.node.isAny ["ArrayPattern"] = true) :
      AssignmentTarget (.child p "elements" index n)
  | value {p : Path} {place index : Option Nat} {property n : Node} (h : AssignmentTarget p)
      (htype : p.node.isAny ["ObjectPattern"] = true)
      (hproperty : property.isAny NodeType.properties = true) :
      AssignmentTarget (.child (.child p "properties" place property) "value" index n)
  /-- The other properties of an object. -/
  | others {p : Path} {index : Option Nat} {n : Node} (h : AssignmentTarget p)
      (htype : p.node.isAny ["ObjectPattern"] = true) (hrest : n.isAny ["RestElement"] = true) :
      AssignmentTarget (.child p "properties" index n)
  /-- A target with a default value. -/
  | defaulted {p : Path} {index : Option Nat} {n : Node} (h : AssignmentTarget p)
      (htype : p.node.isAny ["AssignmentPattern"] = true) :
      AssignmentTarget (.child p "left" index n)
  | rest {p : Path} {index : Option Nat} {n : Node} (h : AssignmentTarget p)
      (htype : p.node.isAny ["RestElement"] = true) : AssignmentTarget (.child p "argument" index n)

variable {p : Path} {key : String} {index : Option Nat} {n : Node}

/-- The node is the whole target of a loop. -/
def isLoopTarget (p : Path) : Bool := p.isChildOf NodeType.iterations "left"

theorem isLoopTarget_child :
    (child p key index n).isLoopTarget = (key == "left" && p.node.isAny NodeType.iterations) := rfl

theorem assignmentTarget_of_isLoopTarget (h : p.isLoopTarget = true) : p.AssignmentTarget := by
  cases p with
  | root n => cases h
  | child p key index n =>
    obtain ⟨hkey, htype⟩ := Bool.and_eq_true_iff.1 h
    rw [beq_iff_eq.1 hkey]
    exact .left (Node.isAny_mono htype (by decide))

/-- A target is a place where nothing is read, unless it is the whole target of a loop. -/
theorem AssignmentTarget.inReadPlace_eq (h : p.AssignmentTarget) :
    p.inReadPlace = p.isLoopTarget := by
  cases h with
  | @left p index n htype =>
    rw [inReadPlace, isLoopTarget_child]
    have happend : p.node.isAny NodeType.assigning =
        (p.node.isAny ["AssignmentExpression"] || p.node.isAny NodeType.iterations) :=
      Node.isAny_append
    rw [happend] at htype
    rcases Bool.or_eq_true_iff.1 htype with hassignment | hloop
    · rw [readsIn_eq_false hassignment (by decide), Node.isAny_eq_false hassignment (by decide)]
      rfl
    · rw [readsIn, Node.reading_of_isAny (r := .everywhere) (by decide) hloop, hloop]
      rfl
  | @element p index n h htype =>
    rw [inReadPlace, readsIn_eq_false htype (by decide)]
    rfl
  | @others p index n h htype hrest =>
    rw [inReadPlace, readsIn_eq_false htype (by decide)]
    rfl
  | @value p place index property n h htype hproperty =>
    rw [inReadPlace, readsIn, node_child,
      Node.reading_of_isAny (r := .property) (by decide) hproperty]
    simp [parent?, htype, isLoopTarget_child]
  | @defaulted p index n h htype =>
    rw [inReadPlace, readsIn_eq_false htype (by decide), isLoopTarget_child,
      Node.isAny_eq_false htype (by decide)]
    rfl
  | @rest p index n h htype =>
    rw [inReadPlace, readsIn_eq_false htype (by decide)]
    rfl

end Path

/-- An identifier in the target of an assignment or of a loop is read exactly if it is the whole
target of a loop. -/
theorem Path.AssignmentTarget.isReferenced_iff {p : Path} (h : p.AssignmentTarget)
    (hid : p.node.isAny ["Identifier"] = true) :
    p.isReferenced = true ↔ p.isLoopTarget = true := by
  rw [Path.isReferenced_eq, hid, Bool.true_and, h.inReadPlace_eq]

namespace Sample

/-- `[...x]` -/
def listTarget : Node :=
  node "ArrayPattern" 9 15 [("elements", list [
    node "RestElement" 10 14 [("argument", .object (identifier "x" 13))]])]

/-- `a: [...x]` -/
def propertyTarget : Node :=
  node "Property" 6 15 [("key", .object (identifier "a" 6)), ("value", .object listTarget),
    ("computed", .bool false)]

/-- `{a: [...x]}` -/
def objectTarget : Node :=
  node "ObjectPattern" 5 16 [("properties", list [propertyTarget])]

/-- `for ({a: [...x]} of xs) ;` -/
def patternLoop : Node := forOf 0 25 objectTarget (identifier "xs" 20)

/-- `x` in `for ({a: [...x]} of xs) ;` -/
def patternTarget : Path :=
  .child (.child (.child (.child (.child (.child (.root (program 25 [patternLoop])) "body" (some 0)
    patternLoop) "left" none objectTarget) "properties" (some 0) propertyTarget) "value" none
    listTarget) "elements" (some 0) (node "RestElement" 10 14 [("argument",
      .object (identifier "x" 13))])) "argument" none (identifier "x" 13)

theorem assignmentTarget_patternTarget : patternTarget.AssignmentTarget := by
  apply Path.AssignmentTarget.rest _ (by decide)
  apply Path.AssignmentTarget.element _ (by decide)
  apply Path.AssignmentTarget.value _ (by decide) (by decide)
  exact Path.AssignmentTarget.left (by decide)

/-- `for (x of xs) ;` -/
def plainLoop : Node :=
  program 15 [forOf 0 15 (identifier "x" 5) (identifier "xs" 10)]

end Sample

open Sample

theorem Path.AssignmentTarget.isReferenced_iff_patternTarget :
    patternTarget.AssignmentTarget ∧ patternTarget.node.isAny ["Identifier"] = true ∧
      (patternTarget.isReferenced = true ↔ patternTarget.isLoopTarget = true) ∧
      patternTarget.isLoopTarget = false :=
  have hid : patternTarget.node.isAny ["Identifier"] = true := by decide
  ⟨assignmentTarget_patternTarget, hid,
    assignmentTarget_patternTarget.isReferenced_iff hid, by decide⟩

/-- The variable of a loop is read although the loop only writes to it. -/
theorem plain_loopTarget_is_read :
    ∃ p ∈ (Path.root plainLoop).descendants, p.AssignmentTarget ∧
      p.node.isAny ["Identifier"] = true ∧ p.isReferenced = true := by
  have hfound : ((Path.root plainLoop).descendants.any fun p =>
      p.isLoopTarget && p.node.isAny ["Identifier"] && p.isReferenced) = true := by decide +kernel
  simp only [List.any_eq_true, Bool.and_eq_true] at hfound
  obtain ⟨p, hp, ⟨htarget, hid⟩, hreferenced⟩ := hfound
  exact ⟨p, hp, p.assignmentTarget_of_isLoopTarget htarget, hid, hreferenced⟩

end LexicalScopes
