import LexicalScopes.Proofs.Missing.Tree
import LexicalScopes.Proofs.Run.Program
import LexicalScopes.Scope.Finish

/-!
# Holes

Most missing parts are met with a guard. A hole is a missing part that is read as if it were there.
A value is intact if its objects are those of a program and none of them has a hole; then so is
everything in it.
-/

namespace LexicalScopes

/-! ## Parts that are read without a guard -/

/-- A missing part that is read as if it were there. -/
inductive Hole where
  /-- A null among the declarators of a variable declaration. -/
  | declarator
  /-- A null among the specifiers of an import. -/
  | specifier
  /-- A null instead of the first parameter of a function. -/
  | firstParameter
  /-- An access without brackets that names no property. -/
  | property
  /-- A start or an end that the scope tree needs, without a line or without a column. -/
  | place
  /-- A called sequence that ends in a column that is null. -/
  | lastColumn
deriving DecidableEq, Repr

/-- One of the entries of a list is null. -/
def Json.listsNull (j : Json) : Bool := j.items?.any fun items => items.any Json.isNull

/-- The place has a line and a column. -/
def Json.isPoint (place : Json) : Bool := place.node?.any fun n => n.has "line" && n.has "column"

/-- The node starts at a place without a line or without a column. -/
def Json.startsOpen (j : Json) : Bool :=
  j.node?.any fun n => n.loc.toOption.any fun loc => !(loc.get "start").isPoint

/-- The node ends at a place without a line or without a column. -/
def Json.endsOpen (j : Json) : Bool :=
  j.node?.any fun n => n.loc.toOption.any fun loc => !(loc.get "end").isPoint

/-- The node ends in a column that is null. -/
def Json.endsInNull (j : Json) : Bool :=
  j.node?.any fun n => n.loc.toOption.any fun loc =>
    ((loc.get "end").field? "column").any Json.isNull

/-- Nodes of which the start and the end are read. -/
def NodeType.located : List String :=
  ["Program", "CatchClause", "BlockStatement", "SwitchStatement", "Identifier", "ThisExpression",
    "SequenceExpression"] ++ functions ++ classes ++ loops ++ calls ++ members

namespace Node

/-- The first parameter of a function. -/
def firstParam? (n : Node) : Option Json := (n.get "params").items?.bind List.head?

/-- The nodes that are read with the node for where they start. A function starts with its first
parameter, the scope of a loop with its head, and that of a class field with the value. -/
def leading (n : Node) : List Json :=
  (if n.isAny NodeType.located then [.object n] else [])
    ++ (if n.isAny NodeType.functions then n.firstParam?.toList else [])
    ++ (if n.isAny NodeType.loops then [n.loopHead] else [])
    ++ (if n.isAny NodeType.classFields then [n.get "value"] else [])

/-- The nodes that are read with the node for where they end. -/
def trailing (n : Node) : List Json :=
  (if n.isAny NodeType.located then [.object n] else [])
    ++ (if n.isAny NodeType.classFields then [n.get "value"] else [])

/-- The node has the hole. -/
def lacks (n : Node) : Hole → Bool
  | .declarator => n.isAny ["VariableDeclaration"] && (n.get "declarations").listsNull
  | .specifier => n.isAny ["ImportDeclaration"] && (n.get "specifiers").listsNull
  | .firstParameter => n.isAny NodeType.functions && n.firstParam?.any Json.isNull
  | .property =>
    n.isAny NodeType.members && !(n.get "computed").isPresent && (n.get "property").isNull
  | .place => n.leading.any Json.startsOpen || n.trailing.any Json.endsOpen
  | .lastColumn =>
    n.isAny NodeType.calls && (n.get "callee").isAny ["SequenceExpression"] &&
      (n.get "callee").endsInNull

end Node

/-- One of the objects of the value has the hole. -/
def Json.hasHole (j : Json) (hole : Hole) : Bool := j.objects.any fun n => n.lacks hole

/-! ## Intact values -/

/-- The node is one of a program, and no part of it is read without being there. -/
structure Node.IsReadable (n : Node) : Prop where
  grammatical : n.isGrammatical = true
  whole : ∀ hole, n.lacks hole = false
  known : n.isAny NodeType.aliases = false

/-- The objects of the value can be read. -/
def Json.Intact (j : Json) : Prop := ∀ n ∈ j.objects, n.IsReadable

namespace Json.Intact

variable {j item : Json} {n m : Node} {key : String} {items : List Json}

theorem node (h : (Json.object n).Intact) : n.IsReadable := h n mem_objects_self

theorem of_inside (h : j.Intact) (hm : ∀ m ∈ item.objects, m ∈ j.inside) : item.Intact :=
  fun m hmem => h m (mem_objects_iff.2 (.inr (hm m hmem)))

theorem get (h : (Json.object n).Intact) (key : String) : (n.get key).Intact :=
  h.of_inside fun _ => mem_inside_of_get

/-- The entries of an intact list are intact. -/
theorem of_mem_entries? (h : j.Intact) (hitems : j.entries? = some items) (hitem : item ∈ items) :
    item.Intact :=
  h.of_inside fun _ => mem_inside_of_mem_entries? hitems hitem

end Json.Intact

/-! ## Intact paths -/

namespace Path

variable {p c q : Path} {m : Node} {key : String}

/-- The node of the path and the nodes above it are intact, and each stands in a field of the one
above it. -/
def Intact : Path → Prop
  | .root n => (Json.object n).Intact
  | .child parent key index n =>
    parent.Intact ∧ (Json.object n).Intact ∧ .child parent key index n ∈ parent.inField key

theorem Intact.node (h : p.Intact) : (Json.object p.node).Intact := by
  cases p with
  | root n => exact h
  | child parent key index n => exact h.2.1

/-- The only node of a field that is no list. -/
theorem eq_of_mem_inField (hkind : FieldKind.object.admits (p.node.get key) = true)
    (hc : c ∈ p.inField key) : p.node.get key = .object c.node := by
  unfold inField at hc
  rcases FieldKind.admits_object_iff.1 hkind with hnull | ⟨m, hm⟩
  · rw [hnull] at hc
    cases hc
  · rw [hm] at hc ⊢
    dsimp only at hc
    split at hc
    · rename_i n hn
      rw [List.mem_singleton.1 hc]
      exact Json.eq_object_of_child? hn
    · cases hc

/-- The objects of a child are inside its parent. -/
theorem mem_inside_of_mem_inField (hc : c ∈ p.inField key)
    (hm : m ∈ (Json.object c.node).objects) : m ∈ (Json.object p.node).inside := by
  suffices hfield : m ∈ (p.node.get key).objects from Json.mem_inside_of_get hfield
  unfold inField at hc
  split at hc
  · rename_i items hitems
    rw [hitems, Json.mem_objects_iff]
    exact .inr (Json.mem_inside_of_item (exists_item_of_mem_listed hc) hm)
  · split at hc
    · rename_i n hn
      rw [List.mem_singleton.1 hc] at hm
      rwa [Json.eq_object_of_child? hn]
    · cases hc

theorem Intact.of_mem_kids (h : p.Intact) (hc : c ∈ p.kids) : c.Intact := by
  obtain ⟨key, hkey⟩ := exists_inField_of_mem_kids hc
  obtain ⟨index, heq⟩ := exists_eq_child hkey
  have hnode : (Json.object c.node).Intact :=
    h.node.of_inside fun _ => mem_inside_of_mem_inField hkey
  rw [heq] at hkey ⊢
  exact ⟨h, hnode, hkey⟩

/-- The nodes below a node are inside it. -/
theorem mem_inside_of_mem_descendants (hq : q ∈ p.descendants) :
    q.node ∈ (Json.object p.node).inside := by
  induction p using induction_on_kids with
  | step p ih =>
    obtain ⟨c, hc, hq⟩ := mem_descendants_iff.1 hq
    obtain ⟨key, hkey⟩ := exists_inField_of_mem_kids hc
    refine mem_inside_of_mem_inField hkey (Json.mem_objects_iff.2 ?_)
    rcases hq with rfl | hq
    · exact .inl rfl
    · exact .inr (ih c hc hq)

end Path

/-! ## What is left of a program -/

namespace Node.IsProgram

variable {root ast : Node} (hroot : root.IsProgram)
  (hprunes : Json.Prunes (.object root) (.object ast))

include hroot hprunes

/-- No other program is inside what is left of a program. -/
theorem isAny_of_mem_inside {m : Node} (hm : m ∈ (Json.object ast).inside) :
    m.isAny ("Program" :: NodeType.aliases) = false := by
  obtain ⟨n, hn, hpruned⟩ := hprunes.exists_of_mem_inside hm
  have hkeys := hroot.distinct n (Json.mem_objects_iff.2 (.inr hn))
  refine Bool.eq_false_iff.2 fun hany => ?_
  have hinner := hroot.inner n hn
  rw [hpruned.isAny hkeys hany] at hinner
  cases hinner

/-- What is left of a program is intact if it has no hole. -/
theorem intact (hwhole : ∀ hole, (Json.object ast).hasHole hole = false) :
    (Json.object ast).Intact := by
  intro m hm
  obtain ⟨n, hn, hpruned⟩ := hprunes.exists_of_mem_objects hm
  refine ⟨?_, fun hole => ?_, ?_⟩
  · refine hpruned.isGrammatical (fun o ho => hroot.distinct o ?_) (hroot.grammatical n hn)
    exact Json.mem_objects_trans hn ho
  · have hall := List.any_eq_false.1 (hwhole hole) m hm
    exact Bool.eq_false_iff.2 hall
  · refine Bool.eq_false_iff.2 fun hany => ?_
    rcases Json.mem_objects_iff.1 hm with heq | hinside
    · -- The root can lose its type, but it does not get another one.
      cases heq
      have hother : root.isAny NodeType.aliases = false :=
        Node.isAny_eq_false hroot.type (by decide)
      rw [hprunes.isAny (hroot.distinct root Json.mem_objects_self) hany] at hother
      cases hother
    · have hinner := isAny_of_mem_inside hroot hprunes hinside
      rw [Node.isAny_mono hany fun t ht => List.mem_cons_of_mem _ ht] at hinner
      cases hinner

/-- Below what is left of a program no node is called a program. -/
theorem isInner {q : Path} (hq : q ∈ (Path.root ast).descendants) : q.isInner = true := by
  have hinner := isAny_of_mem_inside hroot hprunes (Path.mem_inside_of_mem_descendants hq)
  have hother (types : List String) (hsub : ∀ t ∈ types, t ∈ "Program" :: NodeType.aliases) :
      q.node.isAny types = false := by
    refine Bool.eq_false_iff.2 fun hany => ?_
    rw [Node.isAny_mono hany hsub] at hinner
    cases hinner
  rw [Path.isInner, Path.isProgram, hother ["Program"] (by decide), hother ["program"] (by decide)]
  rfl

end Node.IsProgram

end LexicalScopes
