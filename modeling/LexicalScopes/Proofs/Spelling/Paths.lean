import LexicalScopes.Proofs.Spelling.Readings

/-!
# Places in respelled trees

A way through a tree and the way to the same node through a respelled tree. They run in parallel,
but that the way to the function of a method has one step less where the method is merged with it.
-/

namespace LexicalScopes

/-- The method is merged with its function, and the parts of both are respelled. -/
structure Node.MergedInto (methods : Option (String × String)) (method f m : Node) : Prop where
  exists_merges : ∃ types, methods = some types ∧ Merges types method f m
  key : Json.Respells none (method.get "key") (m.get "key")
  params : Json.Respells none (f.get "params") (m.get "params")
  body : Json.Respells none (f.get "body") (m.get "body")

/-- The second way leads through a respelled tree to the same node. -/
inductive Path.Respells : Path → Path → Prop where
  | root {n m : Node} (h : n.Respelled m) : Respells (.root n) (.root m)
  | child {p q : Path} {n m : Node} (hp : Respells p q) (hparent : p.node.Respelled q.node)
      (h : n.Respelled m) (key : String) (index : Option Nat) :
      Respells (.child p key index n) (.child q key index m)
  | function {p q : Path} {method f m : Node} {key : String} (hp : Respells p q)
      (hholder : p.node.Respelled q.node)
      (h : Node.MergedInto (p.node.methodTypes? key) method f m) (index : Option Nat) :
      Respells (.child (.child p key index method) "value" none f) (.child q key index m)
  | param {p q : Path} {n m : Node} (hp : Respells p q)
      (hf : p.node.isAny ["FunctionExpression"] = true)
      (hm : q.node.isAny ["ObjectMethod", "ClassMethod"] = true) (h : n.Respelled m)
      (hpattern : n.isAny Node.patterns = true) (index : Option Nat) :
      Respells (.child p "params" index n) (.child q "params" index m)
  | body {p q : Path} {n m : Node} (hp : Respells p q)
      (hf : p.node.isAny ["FunctionExpression"] = true)
      (hm : q.node.isAny ["ObjectMethod", "ClassMethod"] = true) (h : n.Respelled m)
      (hblock : n.isAny ["BlockStatement"] = true) (index : Option Nat) :
      Respells (.child p "body" index n) (.child q "body" index m)

variable {p q : Path} {n m method f : Node} {key : String} {types : List String}
  {methods : Option (String × String)}

namespace Node.MergedInto

theorem isAny_method (h : MergedInto methods method f m) :
    method.isAny ["MethodDefinition", "Property"] = true := by
  obtain ⟨_, -, hmerges⟩ := h.exists_merges
  exact hmerges.isAny_method

theorem isAny_merged (h : MergedInto methods method f m) :
    m.isAny ["ObjectMethod", "ClassMethod"] = true := by
  obtain ⟨_, -, hmerges⟩ := h.exists_merges
  exact hmerges.isAny_merged

theorem isAny_function (h : MergedInto methods method f m) :
    f.isAny ["FunctionExpression"] = true := by
  obtain ⟨_, -, hmerges⟩ := h.exists_merges
  exact hmerges.isAny_function

/-- Methods stand in class bodies and in objects. -/
theorem holder (h : MergedInto (n.methodTypes? key) method f m) :
    n.isAny ["ClassBody", "ObjectExpression"] = true ∧ key ∈ ["body", "properties"] := by
  obtain ⟨types, htypes, -⟩ := h.exists_merges
  rcases Node.methodTypes?_eq_some htypes with ⟨hany, rfl, -⟩ | ⟨hany, rfl, -⟩
  · exact ⟨isAny_mono hany (by decide), by decide⟩
  · exact ⟨isAny_mono hany (by decide), by decide⟩

end Node.MergedInto

/-- A function expression is not respelled as a method. -/
theorem Node.Respelled.not_method (h : n.Respelled m) (hf : n.isAny ["FunctionExpression"] = true)
    (hm : m.isAny ["ObjectMethod", "ClassMethod"] = true) : False := by
  have hany := h.isAny_eq (by decide : NodeType.closed ["FunctionExpression"] = true)
  rw [hf, isAny_eq_false hm (by decide)] at hany
  cases hany

theorem Node.isAny_of_reading {r : Reading} (hr : r ≠ .everywhere)
    (htable : ∀ x ∈ Reading.table, x.2 = r → x.1 ∈ types) (h : n.reading = r) :
    n.isAny types = true := by
  unfold reading at h
  split at h
  · rename_i t htype
    cases hlookup : Reading.table.lookup t with
    | none =>
      rw [hlookup] at h
      exact (hr h.symm).elim
    | some r' =>
      rw [hlookup] at h
      obtain ⟨before, after, heq, -⟩ := List.lookup_eq_some_iff.1 hlookup
      exact isAny_iff.2 ⟨t, htable (t, r') (by simp [heq]) h, htype⟩
  · exact (hr h.symm).elim

theorem Node.reading_of_isAny {r : Reading}
    (htable : ∀ t ∈ types, (Reading.table.lookup t).getD .everywhere = r)
    (h : n.isAny types = true) : n.reading = r := by
  obtain ⟨t, ht, htype⟩ := isAny_iff.1 h
  rw [reading, htype]
  exact htable t ht

namespace Path.Respells

/-! ## Parents -/

/-- The value of a class field stands there in both trees. -/
theorem isFieldValue_eq (h : Respells p q) :
    q.isChildOf NodeType.classFields "value" = p.isChildOf NodeType.classFields "value" := by
  cases h with
  | root h => rfl
  | child hp hparent h key index => rw [isChildOf, isChildOf, hparent.isAny_eq (by decide)]
  | function hp hholder h index =>
    have hvalue : ∀ key ∈ ["body", "properties"], (key == "value") = false := by decide
    rw [isChildOf, isChildOf, hvalue _ h.holder.2, node_child,
      Node.isAny_eq_false h.isAny_method (by decide)]
    rfl
  | param hp hf hm h hpattern index => rfl
  | body hp hf hm h hblock index => rfl

/-- The body of a function stands there in both trees. -/
theorem isFunctionBody_eq (h : Respells p q) :
    q.isChildOf NodeType.functions "body" = p.isChildOf NodeType.functions "body" := by
  cases h with
  | root h => rfl
  | child hp hparent h key index => rw [isChildOf, isChildOf, hparent.isAny_eq (by decide)]
  | function hp hholder h index =>
    rw [isChildOf, isChildOf, hholder.isAny_eq (by decide),
      Node.isAny_eq_false h.holder.1 (by decide), Bool.and_false]
    rfl
  | param hp hf hm h hpattern index => rfl
  | body hp hf hm h hblock index =>
    rw [isChildOf, isChildOf, Node.isAny_mono hf (by decide), Node.isAny_mono hm (by decide)]

/-- Only functions have parts whose node has another node above it in the other tree. -/
theorem parent? (h : Respells p q) (hnode : p.node.Respelled q.node)
    (hplain : p.node.isAny (Node.patterns ++ ["BlockStatement"]) = false) :
    Option.Rel (fun p q : Path => p.node.Respelled q.node) p.parent? q.parent? := by
  rw [Node.isAny_append, Bool.or_eq_false_iff] at hplain
  cases h with
  | root h => exact .none
  | child hp hparent h key index => exact .some hparent
  | function hp hholder h index => exact (hnode.not_method h.isAny_function h.isAny_merged).elim
  | param hp hf hm h hpattern index => exact absurd hpattern (by simpa using hplain.1)
  | body hp hf hm h hblock index => exact absurd hblock (by simpa using hplain.2)

theorem any_parent?_eq {o o' : Option Path}
    (h : Option.Rel (fun p q : Path => p.node.Respelled q.node) o o') {f : Node → Bool}
    (hf : ∀ n m : Node, n.Respelled m → f m = f n) :
    (o'.any fun holder => f holder.node) = o.any fun holder => f holder.node := by
  cases h with
  | none => rfl
  | some h => exact hf _ _ h

/-! ## Reads -/

theorem readsIn_eq (h : Respells p q) (hnode : p.node.Respelled q.node) (key : String) :
    q.readsIn key = p.readsIn key := by
  have hcomputed := (hnode.get_plain (by decide : "computed" ∉ _)).isPresent_eq
  unfold readsIn
  rw [hcomputed, hnode.tag.type.reading_eq]
  cases hreading : p.node.reading with
  | property =>
    have htable : ∀ x ∈ Reading.table, x.2 = .property → x.1 ∈ NodeType.properties := by decide
    have hany := Node.isAny_of_reading (by decide) htable hreading
    have hparent := h.parent? hnode (Node.isAny_eq_false hany (by decide))
    have hclosed : NodeType.closed ["ObjectPattern"] = true := by decide
    dsimp only
    rw [any_parent?_eq hparent fun n m hn => hn.isAny_eq hclosed]
  | exported =>
    have htable : ∀ x ∈ Reading.table, x.2 = .exported → x.1 ∈ ["ExportSpecifier"] := by decide
    have hany := Node.isAny_of_reading (by decide) htable hreading
    have hparent := h.parent? hnode (Node.isAny_eq_false hany (by decide))
    have hsource (n m : Node) (hn : n.Respelled m) :
        (m.get "source").isPresent = (n.get "source").isPresent :=
      (hn.get_plain (by decide)).isPresent_eq
    dsimp only
    rw [any_parent?_eq hparent hsource]
  | _ => rfl

theorem isReferenced_eq (h : Respells p q) : q.isReferenced = p.isReferenced := by
  have hclosed : NodeType.closed ["Identifier"] = true := by decide
  cases h with
  | root h => simp only [isReferenced, node_root, h.isAny_eq hclosed]
  | child hp hparent h key index =>
    simp only [isReferenced, node_child, h.isAny_eq hclosed, hp.readsIn_eq hparent]
  | @function p q method f m key hp hholder h index =>
    have hf : f.isAny ["Identifier"] = false := Node.isAny_eq_false h.isAny_function (by decide)
    have hm : m.isAny ["Identifier"] = false := Node.isAny_eq_false h.isAny_merged (by decide)
    simp only [isReferenced, node_child, hf, hm, Bool.false_and]
  | @param p q n m hp hf hm h hpattern index =>
    -- Neither a function nor a method holds a read among its parameters.
    have hreads : p.readsIn "params" = false := by
      rw [readsIn, Node.reading_of_isAny (r := .only "body") (by decide) hf]
      rfl
    have hreads' : q.readsIn "params" = false := by
      rw [readsIn, Node.reading_of_isAny (r := .member) (by decide) hm]
      rfl
    simp only [isReferenced, hreads, hreads', Bool.and_false]
  | @body p q n m hp hf hm h hblock index =>
    have hn : n.isAny ["Identifier"] = false := Node.isAny_eq_false hblock (by decide)
    simp only [isReferenced, node_child, h.isAny_eq hclosed, hn, Bool.false_and]

/-! ## Wrappers -/

theorem pairWrapper (h : Respells p q) (hpair : p.node.isAny ["SequenceExpression"] = true)
    (hnode : p.node.Respelled q.node) : Alike Eq (pairWrapper p) (pairWrapper q) := by
  unfold LexicalScopes.pairWrapper
  refine hnode.loc.bind_eq fun loc => ?_
  cases h with
  | root h => exact .refl _
  | child hp hparent h key index =>
    dsimp only
    simp only [isChildOf, hparent.isAny_eq (by decide : NodeType.closed NodeType.calls = true)]
    exact .ite (hparent.start.bind_eq fun _ => .refl _) (.refl _)
  | function hp hholder h index => exact (hnode.not_method h.isAny_function h.isAny_merged).elim
  | param hp hf hm h hpattern index =>
    exact absurd hpair (by simpa using Node.isAny_eq_false hpattern (by decide))
  | body hp hf hm h hblock index =>
    exact absurd hpair (by simpa using Node.isAny_eq_false hblock (by decide))

end Path.Respells

namespace Json.Respells

variable {j k : Json}

theorem isBoxingPair (h : Json.Respells none j k) : Alike Eq j.isBoxingPair k.isBoxingPair := by
  have hentries := h.counted
  unfold Json.isBoxingPair
  rcases h.cases with ⟨s, rfl, rfl⟩ | ⟨xs, ys, rfl, rfl, -⟩ | ⟨n, m, rfl, rfl, hn⟩
  · exact .refl _
  · refine hentries.bind fun xs ys hitems => ?_
    match hitems with
    | .nil => exact .refl _
    | .cons _ .nil => exact .refl _
    | .cons hfirst (.cons _ .nil) => exact .of_eq (by simp only [hfirst.isNumericLiteral_eq])
    | .cons _ (.cons _ (.cons _ _)) => exact .refl _
  · refine hentries.bind fun xs ys hitems => ?_
    match hitems with
    | .nil => exact .refl _
    | .cons _ .nil => exact .refl _
    | .cons _ (.cons _ .nil) => exact .error _ _
    | .cons _ (.cons _ (.cons _ _)) => exact .refl _

/-- The name `Object` is not that of another identifier in the other tree. -/
theorem isNamed_eq (h : Json.Respells none j k) (name : Json) :
    (k.isAny ["Identifier"] && k.field? "name" == some name) =
      (j.isAny ["Identifier"] && j.field? "name" == some name) := by
  rw [h.isAny_eq (by decide)]
  cases hid : j.isAny ["Identifier"] with
  | false => rfl
  | true => rw [h.field?_name hid]

theorem isAny_literals (h : j.isStringLiteral = true) : j.isAny NodeType.literals = true := by
  rcases j with s | items | n
  · cases h
  · cases h
  · simp only [isStringLiteral, isAny_object, Bool.or_eq_true, Bool.and_eq_true] at h
    rcases h with h | ⟨h, -⟩
    · exact Node.isAny_mono h (by decide)
    · exact Node.isAny_mono h (by decide)

end Json.Respells

namespace Node.Respelled

theorem accessedProperty? (h : n.Respelled m) (hmember : n.isAny NodeType.members = true) :
    Alike Eq n.accessedProperty? m.accessedProperty? := by
  have hcomputed := (h.get_plain (by decide : "computed" ∉ _)).isPresent_eq
  have hproperty := h.get_plain (by decide : "property" ∉ _)
  unfold Node.accessedProperty?
  dsimp only
  rw [hcomputed, hproperty.isStringLiteral_eq]
  refine .ite ?_ ?_
  · split
    · have hliteral := Json.Respells.isAny_literals ‹_›
      rw [hproperty.field?_of_literal hliteral (by decide)]
      exact .refl _
    · exact .refl _
  · -- The accessed name is a text, so it is the same in both trees.
    have hname : Option.Rel Eq ((n.get "property").field? "name")
        ((m.get "property").field? "name") := by
      rw [h.tag.property hmember]
      cases (n.get "property").field? "name" with
      | none => exact .none
      | some name => exact .some rfl
    exact (Alike.readable hname _ _).bind_eq fun _ => .refl _

theorem argumentCount (h : n.Respelled m) : Alike Eq n.argumentCount m.argumentCount :=
  (h.get_plain (by decide : "arguments" ∉ _)).counted.bind fun _ _ hitems => .ok hitems.length_eq

theorem covering (h : n.Respelled m) (form : WrapperForm) :
    Alike Eq (Wrapper.covering form n) (Wrapper.covering form m) :=
  h.loc.bind_eq fun _ => .refl _

end Node.Respelled

/-- Only sequences, calls and accesses wrap anything. -/
theorem Path.wrappers_eq_nil (h : p.node.isAny types = true)
    (hdisjoint : ∀ t ∈ types, t ∉ "SequenceExpression" :: (NodeType.calls ++ NodeType.members))
    (index : Option Nat) : (child p key index n).wrappers = .ok [] := by
  have hsequence : p.node.isAny ["SequenceExpression"] = false :=
    Node.isAny_eq_false h fun t ht => by
    have := hdisjoint t ht
    simp_all
  have hcalls : p.node.isAny NodeType.calls = false := Node.isAny_eq_false h fun t ht => by
    have := hdisjoint t ht
    simp_all
  have hmembers : p.node.isAny NodeType.members = false := Node.isAny_eq_false h fun t ht => by
    have := hdisjoint t ht
    simp_all
  simp only [wrappers_child, wrapperAt?, hsequence, hcalls, hmembers, Bool.false_and,
    Bool.false_eq_true, if_false]
  rfl

namespace Path.Respells

theorem wrapperAt? (h : Respells p q) (hnode : p.node.Respelled q.node) (key : String)
    (index : Option Nat) : Alike Eq (wrapperAt? p key index) (wrapperAt? q key index) := by
  have hpair := (hnode.get_plain (by decide : "expressions" ∉ _)).isBoxingPair
  have hcallee := (hnode.get_plain (by decide : "callee" ∉ _)).isNamed_eq (.string "Object")
  unfold LexicalScopes.wrapperAt?
  dsimp only
  rw [hnode.isAny_eq (by decide), hnode.isAny_eq (by decide), hnode.isAny_eq (by decide)]
  simp only [Bool.and_assoc, hcallee]
  split
  · exact hpair.bind_eq fun _ => .ite (.ite ((h.pairWrapper ‹_› hnode).bind_eq fun _ => .refl _)
      (.refl _)) (.refl _)
  · refine .ite ?_ ?_
    · refine .ite ?_ (.ite ?_ (.refl _))
      · exact hnode.argumentCount.bind_eq fun _ =>
          .ite ((hnode.covering _).bind_eq fun _ => .refl _) (.refl _)
      · exact hnode.argumentCount.bind_eq fun _ =>
          .ite ((hnode.covering _).bind_eq fun _ => .refl _) (.refl _)
    · split
      · rename_i hmember
        exact hnode.loc.bind_eq fun _ =>
          (hnode.accessedProperty? (Bool.and_eq_true_iff.1 hmember).1).bind_eq fun _ => .refl _
      · exact .refl _

/-- A function with a node of its own around it has no wrappers in either tree. -/
theorem wrappers (h : Respells p q) : Alike Eq p.wrappers q.wrappers := by
  induction h with
  | root h => exact .refl _
  | child hp hparent h key index ih =>
    rw [wrappers_child, wrappers_child]
    refine (hp.wrapperAt? hparent key index).bind_eq fun w => ?_
    cases w with
    | none => exact .refl _
    | some w => exact ih.bind_eq fun _ => .refl _
  | @function p q method f m key hp hholder h index ih =>
    have hholder' := (hholder.isAny_eq (by decide)).trans h.holder.1
    have hmethod :
        (Path.child p key index method).node.isAny ["MethodDefinition", "Property"] = true :=
      h.isAny_method
    rw [wrappers_eq_nil hmethod (by decide), wrappers_eq_nil hholder' (by decide)]
    exact .refl _
  | param hp hf hm h hpattern index ih =>
    rw [wrappers_eq_nil hf (by decide), wrappers_eq_nil hm (by decide)]
    exact .refl _
  | body hp hf hm h hblock index ih =>
    rw [wrappers_eq_nil hf (by decide), wrappers_eq_nil hm (by decide)]
    exact .refl _

theorem occurrence (h : Respells p q) (hnode : p.node.Respelled q.node) :
    Alike Eq p.occurrence q.occurrence :=
  hnode.loc.bind_eq fun _ => h.wrappers.bind_eq fun _ => .refl _

/-! ## Names of functions -/

/-- A function has the same name in both trees if its parent gives it the same one. -/
theorem functionName_child (h : n.Respelled m) (key : String) (index : Option Nat)
    (hname : ∀ field, Alike Eq (nameFromParent (.object n) (.object p.node) field)
      (nameFromParent (.object m) (.object q.node) field)) :
    Alike Eq (Path.child p key index n).functionName (Path.child q key index m).functionName := by
  have hnull : (Json.object q.node).isNull = (Json.object p.node).isNull := rfl
  have hfield : (Path.child q key index m).ownField? = (Path.child p key index n).ownField? := by
    cases index <;> rfl
  unfold Path.functionName
  rw [hfield]
  exact h.functionName hnull (hname _)

theorem functionName (h : Respells p q) : Alike Eq p.functionName q.functionName := by
  -- Neither a function nor a method around it gives a part a name.
  have hparts {p q : Path} (hf : p.node.isAny ["FunctionExpression"] = true)
      (hm : q.node.isAny ["ObjectMethod", "ClassMethod"] = true) (function function' : Json)
      (field : Option String) : Alike Eq (nameFromParent function (.object p.node) field)
        (nameFromParent function' (.object q.node) field) := by
    rw [nameFromParent_of_holder (Node.isAny_mono hf (by decide)),
      nameFromParent_of_holder (Node.isAny_mono hm (by decide))]
    exact .refl _
  cases h with
  | root h => exact h.functionName rfl (.error _ _)
  | @child p q n m hp hparent h key index =>
    have hdeclaration : (Json.object m).isAny ["FunctionDeclaration"] =
        (Json.object n).isAny ["FunctionDeclaration"] := h.isAny_eq (by decide)
    exact functionName_child h key index (hparent.nameFromParent hdeclaration)
  | function hp hholder h index =>
    obtain ⟨_, -, hmerges⟩ := h.exists_merges
    have hholder' := (hholder.isAny_eq (by decide)).trans h.holder.1
    exact .of_eq (hmerges.functionName_eq h.key.keyName_eq hholder' _).symm
  | param hp hf hm h hpattern index => exact functionName_child h _ index (hparts hf hm _ _)
  | body hp hf hm h hblock index => exact functionName_child h _ index (hparts hf hm _ _)

end Path.Respells

end LexicalScopes
