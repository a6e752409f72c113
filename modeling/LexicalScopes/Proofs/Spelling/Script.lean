import LexicalScopes.Proofs.Ranges.Parts
import LexicalScopes.Proofs.Spelling.Actions

/-!
# Scripts of respelled trees

The script of a respelled tree matches the script of the tree action by action. The children of a
node and of its counterpart stand side by side; the node around the function of a method adds
nothing to the script, nor does the key of a method.
-/

namespace LexicalScopes

variable {n m method f : Node} {j k : Json} {p q c d : Path} {key : String}
  {methods : Option (String × String)}

open LexicalScopes.Action (Matches Match)

/-! ## Children side by side -/

theorem Json.Respells.child? (h : Json.Respells methods j k) :
    Option.Rel (fun n m => Json.Respells methods (.object n) (.object m)) j.child? k.child? := by
  cases h with
  | same j =>
    cases j.child? with
    | none => exact .none
    | some n => exact .some (.same _)
  | list => exact .none
  | node h hfields =>
    simp only [Json.child?, Json.node?, h.has_eq]
    split
    · exact .some (.node h hfields)
    · exact .none
  | method h hkey hparams hbody =>
    rw [Path.child?_of_has (Node.has_type_of_isAny h.isAny_method),
      Path.child?_of_has (Node.has_type_of_isAny h.isAny_merged)]
    exact .some (.method h hkey hparams hbody)

/-- Two nodes stand in the same place of field `key`, below `p` and below `q`. -/
inductive Path.Beside (methods : Option (String × String)) (p q : Path) (key : String) :
    Path → Path → Prop where
  | mk (index : Option Nat) {n m : Node} (h : Json.Respells methods (.object n) (.object m)) :
      Beside methods p q key (.child p key index n) (.child q key index m)

theorem Path.forall₂_listed {xs ys : List Json} (h : List.Forall₂ (Json.Respells methods) xs ys)
    (start : Nat) :
    List.Forall₂ (Beside methods p q key) (p.listed key start xs) (q.listed key start ys) := by
  induction h generalizing start with
  | nil => exact .nil
  | @cons x y _ _ hxy _ ih =>
    have hchild := hxy.child?
    unfold listed
    generalize x.child? = o, y.child? = o' at hchild
    cases hchild with
    | none => exact ih (start + 1)
    | some h => exact .cons (.mk _ h) (ih (start + 1))

/-- A field that is no list holds one node at most. -/
theorem Path.inField_of_ne_array (h : ∀ items, p.node.get key ≠ .array items) :
    p.inField key = (p.node.get key).child?.elim [] fun n => [child p key none n] := by
  unfold inField
  generalize p.node.get key = j at h
  cases j with
  | array items => exact absurd rfl (h items)
  | scalar s => rfl
  | object n =>
    dsimp only
    cases (Json.object n).child? with
    | none => rfl
    | some n => rfl

/-- The children in a field of a respelled node stand in the same places. -/
theorem Path.forall₂_inField (h : Json.Respells methods (p.node.get key) (q.node.get key)) :
    List.Forall₂ (Beside methods p q key) (p.inField key) (q.inField key) := by
  have hchild := h.child?
  have hone (hp : ∀ items, p.node.get key ≠ .array items)
      (hq : ∀ items, q.node.get key ≠ .array items) :
      List.Forall₂ (Beside methods p q key) (p.inField key) (q.inField key) := by
    rw [inField_of_ne_array hp, inField_of_ne_array hq]
    generalize (p.node.get key).child? = o, (q.node.get key).child? = o' at hchild
    cases hchild with
    | none => exact .nil
    | some h => exact .cons (.mk _ h) .nil
  generalize hj : p.node.get key = j, hk : q.node.get key = k at h
  cases h with
  | same j =>
    cases j with
    | array xs =>
      rw [inField, inField, hj, hk]
      exact forall₂_listed (List.forall₂_same.2 fun x _ => .same x) 0
    | scalar s => exact hone (by simp [hj]) (by simp [hk])
    | object n => exact hone (by simp [hj]) (by simp [hk])
  | @list _ xs ys hlength hitems =>
    have hforall : List.Forall₂ (Json.Respells methods) xs ys := by
      rw [List.forall₂_iff_get]
      exact ⟨hlength.symm, fun i hx hy => hitems i _ _ (by simp [hx]) (by simp [hy])⟩
    rw [inField, inField, hj, hk]
    exact forall₂_listed hforall 0
  | node h hfields => exact hone (by simp [hj]) (by simp [hk])
  | method h hkey hparams hbody => exact hone (by simp [hj]) (by simp [hk])

/-- A node in a list of methods is respelled or merged with its function. -/
theorem Json.Respells.node_cases (h : Json.Respells methods (.object n) (.object m)) :
    n.Respelled m ∨ ∃ f, n.get "value" = .object f ∧ Node.MergedInto methods n f m := by
  cases h with
  | same => exact .inl (.refl _)
  | node h hfields => exact .inl ⟨h, hfields⟩
  | @method types _ f _ h hkey hparams hbody =>
    exact .inr ⟨f, h.value, ⟨types, rfl, h⟩, hkey, hparams, hbody⟩

/-! ## Methods -/

namespace Node

theorem isAny_of_isPlainKey (h : n.isPlainKey = true) :
    n.isAny ["Identifier", "Literal", "StringLiteral", "NumericLiteral"] = true := by
  rw [isPlainKey, Bool.or_eq_true, Bool.and_eq_true] at h
  rcases h with h | ⟨h, -⟩
  · exact isAny_mono h (by decide)
  · exact isAny_mono h (by decide)

/-- What stands in a field that is one node is that node. -/
theorem isAny_of_mem_parts_of_isAny {types : List String} {part : Node}
    (h : (n.get key).isAny types = true) (hpart : part ∈ n.parts key) :
    part.isAny types = true := by
  unfold parts at hpart
  cases hget : n.get key with
  | object m =>
    rw [hget] at h hpart
    rw [List.mem_singleton.1 hpart]
    exact h
  | scalar s =>
    rw [hget] at h
    cases h
  | array items =>
    rw [hget] at h
    cases h

theorem childFields_of_isPlainKey (h : n.isPlainKey = true) : n.childFields = .ok [] := by
  rw [isPlainKey, Bool.or_eq_true, Bool.and_eq_true] at h
  rcases h with h | ⟨h, -⟩
  · exact childFields_of_isAny (by decide) h
  · exact childFields_of_isAny (by decide) h

end Node

namespace Path

/-- The hooks of a node that does nothing are empty. -/
theorem hooks_eq_nil (hprogram : p.isProgram = false) (hown : p.ownActions = .ok []) :
    p.enterActions = [] ∧ p.exitActions = [] := by
  unfold enterActions exitActions
  rw [hprogram, hown]
  exact ⟨rfl, rfl⟩

/-- The key of a method adds nothing to the script if it is not read. -/
theorem script_eq_nil_of_key
    (hkey : n.isAny ["Identifier", "Literal", "StringLiteral", "NumericLiteral"] = true)
    (hfields : n.childFields = .ok []) (hreads : p.readsIn "key" = false) (index : Option Nat) :
    (child p "key" index n).script = [] := by
  have hprogram : (child p "key" index n).isProgram = false :=
    Node.isAny_eq_false hkey (by decide)
  have hrole : n.role? = none ∨ n.role? = some .identifier := by
    obtain ⟨t, ht, htype⟩ := Node.isAny_iff.1 hkey
    simp only [List.mem_cons, List.not_mem_nil, or_false] at ht
    rcases ht with rfl | rfl | rfl | rfl <;> simp [Node.role?, htype, Role.table, List.lookup_cons]
  have hown : (child p "key" index n).ownActions = .ok [] := by
    have hactions : (child p "key" index n).roleActions = .ok [] := by
      rw [roleActions, node_child]
      rcases hrole with hrole | hrole
      · rw [hrole]
      · rw [hrole]
        dsimp only
        rw [identifierActions, isReferenced, hreads, Bool.and_false]
        rfl
    rw [ownActions, hactions]
    rfl
  obtain ⟨henter, hexit⟩ := hooks_eq_nil hprogram hown
  rw [script_eq, henter, hexit, children, node_child, hfields]
  rfl

/-- Nothing is read in the key of a method without brackets. -/
theorem readsIn_key_eq_false
    (h : p.node.isAny ["MethodDefinition", "Property", "ObjectMethod", "ClassMethod"] = true)
    (hplain : (p.node.get "computed").isPresent = false) : p.readsIn "key" = false := by
  have hreading : p.node.reading = .member ∨ p.node.reading = .property := by
    obtain ⟨t, ht, htype⟩ := Node.isAny_iff.1 h
    simp only [List.mem_cons, List.not_mem_nil, or_false] at ht
    rcases ht with rfl | rfl | rfl | rfl <;>
      simp [Node.reading, htype, Reading.table, List.lookup_cons]
  rw [readsIn, hplain]
  rcases hreading with hreading | hreading <;> rw [hreading] <;> rfl

/-- The children of a node are those in its fields, one field after the other. -/
theorem scripts_children {keys : List String} (h : p.node.childFields = .ok keys) :
    scripts p.children = keys.flatMap fun key => (p.inField key).flatMap script := by
  rw [children, h]
  exact List.flatMap_assoc

theorem inField_of_object (h : p.node.get key = .object n) (htyped : n.has "type" = true) :
    p.inField key = [child p key none n] := by
  rw [inField, h]
  dsimp only
  rw [child?_of_has htyped]

end Path

namespace Node.MergedInto

/-- The node around the function of a method adds nothing to the script. -/
theorem script_method (h : MergedInto (p.node.methodTypes? key) method f m) (index : Option Nat) :
    (Path.child p key index method).script =
      (Path.child (.child p key index method) "value" none f).script := by
  obtain ⟨_, -, hmerges⟩ := h.exists_merges
  obtain ⟨keyNode, hkey, hplain⟩ := hmerges.key
  have hmethod := hmerges.isAny_method
  have hvalue : ∀ key ∈ ["body", "properties"], (key == "value") = false := by decide
  -- It has no role and is not the value of a field.
  have hown : (Path.child p key index method).ownActions = .ok [] := by
    have hrole : method.role? = none := by
      obtain ⟨t, ht, htype⟩ := isAny_iff.1 hmethod
      simp only [List.mem_cons, List.not_mem_nil, or_false] at ht
      rcases ht with rfl | rfl <;> simp [role?, htype, Role.table, List.lookup_cons]
    rw [Path.ownActions, Path.isChildOf, hvalue key h.holder.2, Path.roleActions, Path.node_child,
      hrole]
    rfl
  obtain ⟨henter, hexit⟩ :=
    Path.hooks_eq_nil (p := .child p key index method) (isAny_eq_false hmethod (by decide)) hown
  have hkeyScript := Path.script_eq_nil_of_key (p := .child p key index method)
    (isAny_of_isPlainKey hplain) (childFields_of_isPlainKey hplain)
    (Path.readsIn_key_eq_false (isAny_mono hmethod (by decide)) hmerges.plain) none
  have hfields : (Path.child p key index method).node.childFields = .ok ["key", "value"] :=
    childFields_of_isAny (by decide) hmethod
  have hkeyField := Path.inField_of_object (p := .child p key index method) hkey
    (has_type_of_isAny (isAny_of_isPlainKey hplain))
  have hvalueField := Path.inField_of_object (p := .child p key index method) hmerges.value
    (has_type_of_isAny hmerges.isAny_function)
  rw [Path.script_eq, henter, hexit, Path.scripts_children hfields]
  simp only [List.flatMap_cons, List.flatMap_nil, List.append_nil, List.nil_append, hkeyField,
    hvalueField, hkeyScript]

end Node.MergedInto

/-! ## Whole scripts -/

/-- The scripts of two trees match if they do for the smaller trees in a field. -/
theorem Path.forall₂_scripts (hget : Json.Respells methods (p.node.get key) (q.node.get key))
    (hscripts : ∀ (index : Option Nat) (n m : Node), n ∈ p.node.parts key →
      (Json.object n).size < (Json.object p.node).size →
      Json.Respells methods (.object n) (.object m) →
      List.Forall₂ Matches (child p key index n).script (child q key index m).script) :
    List.Forall₂ Matches ((p.inField key).flatMap script) ((q.inField key).flatMap script) := by
  refine forall₂_flatMap (forall₂_inField hget) fun c hc d hbeside => ?_
  have hpart := mem_parts_of_mem_inField hc
  have hlt := size_lt_of_mem_inField hc
  cases hbeside with
  | mk index h => exact hscripts index _ _ hpart hlt h

namespace Path.Respells

/-- A respelled node is entered and left like the node itself. -/
theorem hooks_of_respelled (h : Respells p q) (hnode : p.node.Respelled q.node) :
    List.Forall₂ Matches p.enterActions q.enterActions ∧
      List.Forall₂ Matches p.exitActions q.exitActions :=
  hooks (hnode.isAny_eq (by decide)) (fun _ => hnode.programActions)
    (h.ownActions (fun _ => hnode.classFieldActions) (h.roleActions hnode))

theorem script_of_respelled (h : Respells p q) (hnode : p.node.Respelled q.node)
    (ih : ∀ c d : Path, (Json.object c.node).size < (Json.object p.node).size → Respells c d →
      List.Forall₂ Matches c.script d.script) :
    List.Forall₂ Matches p.script q.script := by
  obtain ⟨henter, hexit⟩ := h.hooks_of_respelled hnode
  rw [script_eq, script_eq]
  refine List.rel_append (List.rel_append henter ?_) hexit
  cases hfields : p.node.childFields with
  | error fault =>
    have hfields' := hnode.tag.children.trans hfields
    simp only [children, hfields, hfields', error_bind, scripts_error]
    exact .cons (.fail _ _) .nil
  | ok keys =>
    rw [scripts_children hfields, scripts_children (hnode.tag.children.trans hfields)]
    refine forall₂_flatMap (List.forall₂_same.2 fun _ _ => rfl) ?_
    rintro key hkey _ rfl
    have htype : key ≠ "type" := by
      rintro rfl
      cases Node.bookkeeping_of_mem_childFields hfields hkey
    refine forall₂_scripts (hnode.get_methods htype) fun index n m _ hlt hrespells => ?_
    rcases hrespells.node_cases with hn | ⟨f, hvalue, hn⟩
    · exact ih _ _ hlt (.child h hnode hn key index)
    · -- The function of the method takes the place of the method.
      have hf := Node.size_get_lt n "value"
      rw [hvalue] at hf
      rw [hn.script_method index]
      exact ih _ _ (hf.trans hlt) (.function h hnode hn index)

/-- A method is entered and left like its function. -/
theorem hooks_of_merged (h : Respells p q)
    (hplace : p.isChildOf NodeType.classFields "value" = false)
    (hmerged : Node.MergedInto methods method p.node q.node) :
    List.Forall₂ Matches p.enterActions q.enterActions ∧
      List.Forall₂ Matches p.exitActions q.exitActions := by
  obtain ⟨_, -, hmerges⟩ := hmerged.exists_merges
  have hf := hmerges.isAny_function
  have hm := hmerges.isAny_merged
  have hprogram : p.isProgram = false := Node.isAny_eq_false hf (by decide)
  have hprogram' : q.isProgram = false := Node.isAny_eq_false hm (by decide)
  refine hooks (hprogram'.trans hprogram.symm) (fun h => absurd (hprogram.symm.trans h) (by simp))
    (h.ownActions (fun h => absurd (hplace.symm.trans h) (by simp)) ?_)
  -- Neither has a name of its own; ranges and parameters agree.
  have hown : Alike Eq p.node.ownNameActions q.node.ownNameActions := by
    have hid (n : Node) (h : n.get "id" = .null) : n.ownNameActions = .ok [] := by
      rw [Node.ownNameActions, Node.identifier?, h]
      rfl
    rw [hid _ hmerges.unnamed, hid _ hmerges.mergedUnnamed]
    exact .refl _
  have harrow : q.node.isAny ["ArrowFunctionExpression"] =
      p.node.isAny ["ArrowFunctionExpression"] :=
    (Node.isAny_eq_false hm (by decide)).trans (Node.isAny_eq_false hf (by decide)).symm
  have hactions := h.functionActions hown (Node.alike_functionRange hmerges.loc hmerged.params)
    (Node.alike_parameterActions hmerged.params harrow)
  rw [Path.roleActions, Path.roleActions, Node.role?_of_isAny (r := .function) (by decide) hf,
    Node.role?_of_isAny (r := .function) (by decide) hm]
  exact .of_alike hactions

theorem script_of_merged (h : Respells p q)
    (hplace : p.isChildOf NodeType.classFields "value" = false)
    (hmerged : Node.MergedInto methods method p.node q.node)
    (ih : ∀ c d : Path, (Json.object c.node).size < (Json.object p.node).size → Respells c d →
      List.Forall₂ Matches c.script d.script) :
    List.Forall₂ Matches p.script q.script := by
  obtain ⟨henter, hexit⟩ := h.hooks_of_merged hplace hmerged
  obtain ⟨_, -, hmerges⟩ := hmerged.exists_merges
  have hf := hmerges.isAny_function
  have hm := hmerges.isAny_merged
  -- The name of the function is missing, the key of the method is not read.
  have hname : p.inField "id" = [] := by
    rw [inField, hmerges.unnamed]
    rfl
  have hkey : (q.inField "key").flatMap Path.script = [] := by
    obtain ⟨key, hkey, hplain⟩ := hmerges.key
    obtain ⟨key', hkey', hkeys⟩ := (hkey ▸ hmerged.key).exists_object
    have hany := (hkeys.isAny_eq (by decide)).trans (Node.isAny_of_isPlainKey hplain)
    have hreads := readsIn_key_eq_false (Node.isAny_mono hm (by decide)) hmerges.mergedPlain
    have hscript := script_eq_nil_of_key hany
      (hkeys.tag.children.trans (Node.childFields_of_isPlainKey hplain)) hreads none
    rw [inField_of_object hkey' (Node.has_type_of_isAny hany), List.flatMap_singleton, hscript]
  have hparams : List.Forall₂ Matches ((p.inField "params").flatMap Path.script)
      ((q.inField "params").flatMap Path.script) :=
    forall₂_scripts hmerged.params fun index n m hn hlt hrespells =>
      ih _ _ hlt (.param h hf hm (Json.Respells.object_iff.1 hrespells)
        (List.all_eq_true.1 hmerges.params n hn) index)
  have hbody : List.Forall₂ Matches ((p.inField "body").flatMap Path.script)
      ((q.inField "body").flatMap Path.script) :=
    forall₂_scripts hmerged.body fun index n m hn hlt hrespells =>
      ih _ _ hlt (.body h hf hm (Json.Respells.object_iff.1 hrespells)
        (Node.isAny_of_mem_parts_of_isAny hmerges.body hn) index)
  have hfields : p.node.childFields = .ok ["id", "params", "body"] :=
    Node.childFields_of_isAny (by decide) hf
  have hfields' : q.node.childFields = .ok ["key", "params", "body"] :=
    Node.childFields_of_isAny (by decide) hm
  rw [script_eq, script_eq, scripts_children hfields, scripts_children hfields']
  refine List.rel_append (List.rel_append henter ?_) hexit
  simpa [hname, hkey] using List.rel_append hparams hbody

/-- A node is respelled, or it is the function of a method that is merged with it. -/
theorem node_cases (h : Respells p q) :
    p.node.Respelled q.node ∨ (p.isChildOf NodeType.classFields "value" = false ∧
      ∃ methods method, Node.MergedInto methods method p.node q.node) := by
  cases h with
  | root h => exact .inl h
  | child hp hparent h key index => exact .inl h
  | function hp hholder h index =>
    refine .inr ⟨?_, _, _, h⟩
    rw [isChildOf, node_child, Node.isAny_eq_false h.isAny_method (by decide), Bool.and_false]
  | param hp hf hm h hpattern index => exact .inl h
  | body hp hf hm h hblock index => exact .inl h

/-- The script of a respelled tree does the same to the scopes, action by action. -/
theorem script (h : Respells p q) : List.Forall₂ Matches p.script q.script := by
  -- Induction on the size of the tree: where a method is merged the children are one step apart.
  induction hsize : (Json.object p.node).size using Nat.strong_induction_on generalizing p q with
  | _ size ih =>
    have ih (c d : Path) (hlt : (Json.object c.node).size < (Json.object p.node).size)
        (h : Respells c d) : List.Forall₂ Matches c.script d.script := ih _ (hsize ▸ hlt) h rfl
    rcases h.node_cases with hnode | ⟨hplace, _, _, hmerged⟩
    · exact h.script_of_respelled hnode ih
    · exact h.script_of_merged hplace hmerged ih

end Path.Respells

end LexicalScopes
