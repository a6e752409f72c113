import LexicalScopes.Proofs.Run.Visit
import LexicalScopes.Scope.Finish

/-!
# Well located trees

In a well located tree the location of a node encloses those of the nodes below it, and what stands
inside the scope of a function or a loop starts no earlier than this scope. Only nodes with a
location, and only places with a line and a column, are compared.
-/

namespace LexicalScopes

/-! ## Reading locations -/

theorem Location.ofPlace_eq_ok {place : Json} {l : Location} :
    Location.ofPlace place = .ok l ↔ ∃ n : Node, place = .object n ∧ n.has "line" = true ∧
      n.has "column" = true ∧ l = ⟨n.get "line", n.get "column"⟩ := by
  simp only [Location.ofPlace, bind_eq_ok, pure_eq_ok, Json.record_eq_ok, Node.required_eq_ok]
  constructor
  · rintro ⟨n, rfl, _, ⟨hline, rfl⟩, _, ⟨hcolumn, rfl⟩, rfl⟩
    exact ⟨n, rfl, hline, hcolumn, rfl⟩
  · rintro ⟨n, rfl, hline, hcolumn, rfl⟩
    exact ⟨n, rfl, _, ⟨hline, rfl⟩, _, ⟨hcolumn, rfl⟩, rfl⟩

/-- A field that holds a place is there. -/
theorem Location.has_of_ofPlace {n : Node} {key : String} {l : Location}
    (h : Location.ofPlace (n.get key) = .ok l) : n.has key = true := by
  obtain ⟨m, hm, -⟩ := ofPlace_eq_ok.1 h
  cases hhas : n.has key with
  | true => rfl
  | false => cases hm.symm.trans (Node.get_eq_null_of_has_eq_false hhas)

theorem Range.ofLoc_eq_ok {loc : Json} {r : Range} :
    Range.ofLoc loc = .ok r ↔ ∃ n : Node, loc = .object n ∧
      Location.ofPlace (n.get "start") = .ok r.start ∧
      Location.ofPlace (n.get "end") = .ok r.stop := by
  simp only [Range.ofLoc, bind_eq_ok, pure_eq_ok, Json.record_eq_ok, Node.required_eq_ok]
  constructor
  · rintro ⟨n, rfl, _, ⟨-, rfl⟩, start, hstart, _, ⟨-, rfl⟩, stop, hstop, rfl⟩
    exact ⟨n, rfl, hstart, hstop⟩
  · rintro ⟨n, rfl, hstart, hstop⟩
    exact ⟨n, rfl, _, ⟨Location.has_of_ofPlace hstart, rfl⟩, _, hstart, _,
      ⟨Location.has_of_ofPlace hstop, rfl⟩, _, hstop, rfl⟩

theorem Wrapper.exportChain_eq_ok {ws : List Wrapper} {wrappings : List Wrapping} :
    Wrapper.exportChain ws = .ok wrappings ↔
      List.Forall₂ (fun w wrapping => Wrapper.toWrapping w = .ok wrapping) ws wrappings := by
  induction ws generalizing wrappings with
  | nil => rw [exportChain_nil, Except.ok.injEq, List.forall₂_nil_left_iff, eq_comm]
  | cons w ws ih =>
    simp only [exportChain_cons, List.forall₂_cons_left_iff, bind_eq_ok, pure_eq_ok, ih]
    constructor
    · rintro ⟨outer, houter, wrapping, hw, rfl⟩
      exact ⟨wrapping, outer, hw, houter, rfl⟩
    · rintro ⟨wrapping, outer, hw, houter, rfl⟩
      exact ⟨outer, houter, wrapping, hw, rfl⟩

/-! ## Comparing locations -/

namespace Json

/-- The place where a location starts. -/
def startPlace (loc : Json) : Json := (loc.field? "start").getD .null

/-- The place where a location ends. -/
def endPlace (loc : Json) : Json := (loc.field? "end").getD .null

/-- The first place is not after the second one, if both have a line and a column. -/
def notAfter (a b : Json) : Bool :=
  match Location.ofPlace a, Location.ofPlace b with
  | .ok l, .ok m => (l.le m).toOption == some true
  | _, _ => true

/-- The first location starts no later than the second one. -/
def startsBy (l m : Json) : Bool := l.startPlace.notAfter m.startPlace

/-- The first location ends no later than the second one. -/
def endsBy (l m : Json) : Bool := l.endPlace.notAfter m.endPlace

/-- The first location encloses the second one. -/
def surrounds (l m : Json) : Bool := l.startsBy m && m.endsBy l

variable {l l' m m' a b : Json}

@[simp] theorem startPlace_object (n : Node) : (Json.object n).startPlace = n.get "start" := rfl

@[simp] theorem endPlace_object (n : Node) : (Json.object n).endPlace = n.get "end" := rfl

@[simp] theorem startPlace_span : (span a b).startPlace = a := rfl

@[simp] theorem endPlace_span : (span a b).endPlace = b := rfl

theorem surrounds_iff : l.surrounds m = true ↔ l.startsBy m = true ∧ m.endsBy l = true :=
  Bool.and_eq_true_iff

theorem startsBy_congr (hl : l.startPlace = l'.startPlace) (hm : m.startPlace = m'.startPlace) :
    l.startsBy m = l'.startsBy m' := by
  simp [startsBy, hl, hm]

theorem endsBy_congr (hl : l.endPlace = l'.endPlace) (hm : m.endPlace = m'.endPlace) :
    l.endsBy m = l'.endsBy m' := by
  simp [endsBy, hl, hm]

theorem le_of_notAfter {x y : Location} (h : a.notAfter b = true) (ha : Location.ofPlace a = .ok x)
    (hb : Location.ofPlace b = .ok y) : x.le y = .ok true := by
  rw [notAfter, ha, hb] at h
  exact eq_ok_of_toOption (by simpa using h)

theorem exists_of_ofLoc {r : Range} (h : Range.ofLoc l = .ok r) :
    Location.ofPlace l.startPlace = .ok r.start ∧ Location.ofPlace l.endPlace = .ok r.stop := by
  obtain ⟨n, rfl, hplaces⟩ := Range.ofLoc_eq_ok.1 h
  exact hplaces

/-- Enclosing locations become enclosing ranges. -/
theorem encloses_of_surrounds {r s : Range} (h : l.surrounds m = true)
    (hl : Range.ofLoc l = .ok r) (hm : Range.ofLoc m = .ok s) : r.encloses s = .ok true := by
  obtain ⟨hstart, hend⟩ := surrounds_iff.1 h
  obtain ⟨hlstart, hlend⟩ := exists_of_ofLoc hl
  obtain ⟨hmstart, hmend⟩ := exists_of_ofLoc hm
  have hle := le_of_notAfter hstart hlstart hmstart
  have hle' := le_of_notAfter hend hmend hlend
  simp only [Range.encloses, hle, hle', ok_bind, if_true]

end Json

/-! ## Located nodes -/

namespace Node

/-- The location of a node; null if the node has none. -/
def place (n : Node) : Json :=
  match n.loc with
  | .ok loc => .object loc
  | .error _ => .null

theorem place_of_loc {n loc : Node} (h : n.loc = .ok loc) : n.place = .object loc := by
  rw [place, h]

/-- The first parameter of a function. -/
def firstParameter? (n : Node) : Option Node :=
  match n.get "params" with
  | .array (first :: _) => first.node?
  | _ => none

end Node

namespace Path

/-- The node encloses itself and the nodes below it. -/
def encloses (p : Path) : Bool :=
  (p :: p.descendants).all fun q => p.node.place.surrounds q.node.place

/-- In the parameters and in the body of a function nothing starts before the first parameter. -/
def startsWithParameter (p : Path) : Bool :=
  !p.node.isAny NodeType.functions || p.node.firstParameter?.all fun first =>
    p.kids.all fun c => !(c.key? == some "params" || c.key? == some "body") ||
      (c :: c.descendants).all fun q => first.place.startsBy q.node.place

/-- In a loop nothing starts before its head. -/
def startsWithHead (p : Path) : Bool :=
  !p.node.isAny NodeType.loops || p.node.loopHead.node?.all fun head =>
    p.descendants.all fun q => head.place.startsBy q.node.place

end Path

namespace Node

/-- Nodes enclose what is below them, functions start with their first parameter and loops with
their head. -/
def WellLocated (root : Node) : Prop :=
  ∀ p ∈ .root root :: (Path.root root).descendants,
    p.encloses = true ∧ p.startsWithParameter = true ∧ p.startsWithHead = true

instance (root : Node) : Decidable root.WellLocated :=
  inferInstanceAs (Decidable (∀ p ∈ .root root :: (Path.root root).descendants,
    p.encloses = true ∧ p.startsWithParameter = true ∧ p.startsWithHead = true))

/-! ## Plain spelling -/

/-- The patterns of the grammar. -/
def patterns : List String :=
  ["Identifier", "ObjectPattern", "ArrayPattern", "RestElement", "AssignmentPattern",
    "MemberExpression"]

/-- For some types of nodes, a field and the types of the nodes that stand in it. -/
def plainFields : List (List String × String × List String) :=
  [(NodeType.functions, "id", ["Identifier"]),
   (NodeType.functions, "params", patterns),
   (["ForStatement"], "left", []),
   (["ForInStatement", "ForOfStatement"], "init", []),
   (["ObjectPattern"], "properties", ["Property", "ObjectProperty", "RestElement"]),
   (["VariableDeclaration"], "declarations", ["VariableDeclarator"]),
   (["ImportDeclaration"], "specifiers",
     ["ImportSpecifier", "ImportDefaultSpecifier", "ImportNamespaceSpecifier"])]

/-- The nodes that stand in a field, itself or as a list. -/
def parts (n : Node) (key : String) : List Node :=
  match n.get key with
  | .array items => items.filterMap Json.node?
  | j => j.node?.toList

/-- The node has the parts that the grammar gives it, and it is no method that holds its parameters
itself: the function of a method is a node of its own. -/
def isPlain (n : Node) : Bool :=
  !n.isAny ["ObjectMethod", "ClassMethod", "ClassPrivateMethod"] &&
    plainFields.all fun (types, key, allowed) =>
      !n.isAny types || (n.parts key).all fun part => part.isAny allowed

/-- All nodes of the tree have the plain spelling. -/
def PlainlySpelled (root : Node) : Prop :=
  ∀ p ∈ .root root :: (Path.root root).descendants, p.node.isPlain = true

instance (root : Node) : Decidable root.PlainlySpelled :=
  inferInstanceAs (Decidable (∀ p ∈ .root root :: (Path.root root).descendants,
    p.node.isPlain = true))

end Node

end LexicalScopes
