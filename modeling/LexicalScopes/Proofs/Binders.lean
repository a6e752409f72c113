import LexicalScopes.Proofs.Binders.Nodes
import LexicalScopes.Proofs.Binders.Recorded

/-!
# Declarations and the identifiers that make them

The declarations in the tree of a program are those of the identifiers that its nodes declare, each
with its name and its place. None of these identifiers is taken for a read.
-/

namespace LexicalScopes

namespace Path

variable {p q : Path} {actions : List Action}

/-- The names that a class declares. -/
theorem classNames_eq_nil (h : p.node.isAny NodeType.classes = false) :
    (if p.node.isAny ["ClassDeclaration"] then p.ownName ++ p.ownName
      else if p.node.isAny ["ClassExpression"] then p.ownName else []) = [] := by
  have hsplit : p.node.isAny (["ClassDeclaration"] ++ ["ClassExpression"]) =
      (p.node.isAny ["ClassDeclaration"] || p.node.isAny ["ClassExpression"]) := Node.isAny_append
  have hclasses : NodeType.classes = ["ClassDeclaration"] ++ ["ClassExpression"] := rfl
  rw [hclasses, hsplit, Bool.or_eq_false_iff] at h
  rw [h.1, h.2]
  rfl

/-- The role of a node says which identifiers it declares. -/
theorem binders_eq (halias : p.node.isAny NodeType.aliases = false) :
    p.binders =
      match p.node.role? with
      | some .variables => p.boundIn "declarations" "id"
      | some .function =>
        (if p.node.isAny ["FunctionDeclaration", "FunctionExpression"] then p.ownName else []) ++
          (p.items "params").flatMap bound
      | some .catchClause => (p.single "param").flatMap bound
      | some .imports => p.boundIn "specifiers" "local"
      | some .classScope =>
        if p.node.isAny ["ClassDeclaration"] then p.ownName ++ p.ownName
        else if p.node.isAny ["ClassExpression"] then p.ownName else []
      | _ => [] := by
  have hvariables :
      p.node.isAny ["VariableDeclaration"] = decide (p.node.role? = some .variables) :=
    Node.isAny_eq_decide_role? _ _ halias (by decide) (by decide)
  have hfunction : p.node.isAny NodeType.functions = decide (p.node.role? = some .function) :=
    Node.isAny_eq_decide_role? _ _ halias (by decide) (by decide)
  have hcatch : p.node.isAny ["CatchClause"] = decide (p.node.role? = some .catchClause) :=
    Node.isAny_eq_decide_role? _ _ halias (by decide) (by decide)
  have himports : p.node.isAny ["ImportDeclaration"] = decide (p.node.role? = some .imports) :=
    Node.isAny_eq_decide_role? _ _ halias (by decide) (by decide)
  have hclass : p.node.isAny NodeType.classes = decide (p.node.role? = some .classScope) :=
    Node.isAny_eq_decide_role? _ _ halias (by decide) (by decide)
  rw [binders, hvariables, hfunction, hcatch, himports]
  cases hrole : p.node.role? with
  | none =>
    rw [hrole] at hclass
    exact classNames_eq_nil hclass
  | some r =>
    rw [hrole] at hclass
    cases r with
    | «variables» => rfl
    | function => rfl
    | catchClause => rfl
    | imports => rfl
    | classScope => rfl
    | _ => exact classNames_eq_nil hclass

/-- The roles of nodes that declare names. -/
def declaringRoles : List Role := [.variables, .function, .catchClause, .imports, .classScope]

theorem exists_role_of_target {n : Node} {target : Json} (h : n.Target target) :
    ∃ r ∈ declaringRoles, n.role? = some r := by
  cases h with
  | name hname hid =>
    rcases hname with htype | hrole
    · exact ⟨.function, by decide, Node.role?_of_isAny (by decide) htype⟩
    · exact ⟨_, by decide, hrole⟩
  | parameter hrole hparams hmem => exact ⟨_, by decide, hrole⟩
  | caught hrole => exact ⟨_, by decide, hrole⟩
  | declarator hrole hdeclarators hmem htarget => exact ⟨_, by decide, hrole⟩
  | specifier hrole hspecifiers hmem hname => exact ⟨_, by decide, hrole⟩

/-- A node with another role declares nothing. -/
theorem declaredBy_of_role? {r : Role} (h : p.roleActions = .ok actions)
    (hrole : p.node.role? = some r) (hother : r ∉ declaringRoles) : declaredBy actions = [] := by
  have hquiet : ∀ bound, ¬ p.node.Binds bound := by
    rintro bound ⟨target, htarget, -⟩
    obtain ⟨r', hr', hdeclaring⟩ := exists_role_of_target htarget
    rw [hrole] at hdeclaring
    cases hdeclaring
    exact hother hr'
  have hnone : ∀ a ∈ actions, a.declared? = none := by
    intro a ha
    cases performs_roleActions h a ha with
    | declare hbinds => exact absurd hbinds (hquiet _)
    | hoist hbinds => exact absurd hbinds (hquiet _)
    | declareFunction hbinds => exact absurd hbinds (hquiet _)
    | _ => rfl
  rw [declaredBy, List.filterMap_eq_nil_iff.2 hnone, List.map_nil]

theorem boundNamesAt_roleActions (h : p.roleActions = .ok actions)
    (halias : p.node.isAny NodeType.aliases = false) (hplain : p.BindsPlainly) :
    boundNamesAt p.binders = declaredBy actions := by
  rw [binders_eq halias]
  have hrest := h
  unfold Path.roleActions at h
  cases hrole : p.node.role? with
  | none =>
    simp only [hrole] at h
    cases h
    rfl
  | some r =>
    simp only [hrole] at h
    cases r with
    | «variables» =>
      exact boundNamesAt_variables hplain (Node.isAny_of_role? _ (by decide) hrole) h
    | function => exact boundNamesAt_function hplain (Node.isAny_functions_of_role? halias hrole) h
    | catchClause => exact boundNamesAt_catch hplain (Node.isAny_of_role? _ (by decide) hrole) h
    | imports => exact boundNamesAt_imports hplain (Node.isAny_of_role? _ (by decide) hrole) h
    | classScope =>
      refine boundNamesAt_class ?_ h
      rw [Node.isAny_eq_decide_role? NodeType.classes .classScope halias (by decide) (by decide)]
      exact decide_eq_true hrole
    | _ => exact (declaredBy_of_role? hrest hrole (by decide)).symm

/-- Entering a node declares the names of its binders. -/
theorem boundNamesAt_binders {b b' : Builder} (h : b.replay p.enterActions = .ok b')
    (halias : p.node.isAny NodeType.aliases = false) (hplain : p.BindsPlainly) :
    boundNamesAt p.binders = p.declaredNames.map .ok := by
  have hown : ∀ actions, p.ownActions = .ok actions →
      boundNamesAt p.binders = declaredBy actions := by
    intro actions hactions
    obtain ⟨field, rest, hfield, hrest, rfl⟩ := exists_of_ownActions hactions
    have hquiet : declaredBy field = [] := by
      rcases hfield with ⟨-, rfl⟩ | ⟨-, hfield⟩
      · rfl
      · obtain ⟨loc, -, hfield⟩ := bind_eq_ok.1 hfield
        cases hfield
        rfl
    rw [declaredBy_append, hquiet, List.nil_append, boundNamesAt_roleActions hrest halias hplain]
  cases Builder.enters_of_replay h with
  | program hp hactions hopens henter hexit =>
    have hrole : p.node.role? = none := by
      obtain ⟨t, ht, htype⟩ := Node.isAny_iff.1 hp
      rw [List.mem_singleton.1 ht] at htype
      rw [Node.role?, htype]
      rfl
    obtain ⟨loc, -, hactions⟩ := bind_eq_ok.1 hactions
    cases hactions
    rw [binders_eq halias, hrole, declaredNames, henter]
    rfl
  | through hp hactions hcontributes henter hexit =>
    rw [hown _ hactions, declaredNames, henter]
    rfl
  | inside hp hactions hcontributes henter hexit =>
    rw [hown _ hactions, declaredNames, henter]
    rfl

/-! ## Places of binders -/

section Places

variable {c : Path} {key sub : String} {types allowed : List String}

/-- The node is an identifier below `p`, and it is not taken for a read. -/
structure BoundBelow (p q : Path) : Prop where
  below : q ∈ p.descendants
  identifier : q.node.isAny ["Identifier"] = true
  unread : q.inReadPlace = false

/-- Nodes of these types have children in the field, and no identifier there reads its name. -/
def holdsBinders (types : List String) (key : String) : Bool :=
  types.all fun t => (NodeType.childFields.lookup t).any (·.contains key) &&
    (Reading.table.lookup t).any (·.skips key)

theorem isAny_of_mem_bound (h : q ∈ p.bound) : q.node.isAny ["Identifier"] = true := by
  induction p using induction_on_targets with
  | step p ih =>
    cases hid : p.node.isAny ["Identifier"] with
    | true =>
      rw [bound_of_identifier hid] at h
      rwa [List.mem_singleton.1 h]
    | false =>
      rw [bound_eq_flatMap hid] at h
      obtain ⟨c, hc, h⟩ := List.mem_flatMap.1 h
      exact ih c hc h

theorem mem_kids_of_holdsBinders (htype : p.node.isAny types = true)
    (hholds : holdsBinders types key = true) (hc : c ∈ p.inField key) :
    c ∈ p.kids ∧ c.inReadPlace = false := by
  have hall := fun t ht => Bool.and_eq_true_iff.1 (List.all_eq_true.1 hholds t ht)
  rw [inReadPlace_of_mem_inField hc]
  exact ⟨mem_kids_of_mem_inField htype (fun t ht => (hall t ht).1) hc,
    readsIn_eq_false htype fun t ht => (hall t ht).2⟩

theorem boundBelow_of_mem_bound (hplain : p.BindsPlainly) (htype : p.node.isAny types = true)
    (hholds : holdsBinders types key = true) (hc : c ∈ p.inField key) (hq : q ∈ c.bound) :
    BoundBelow p q := by
  obtain ⟨hkid, hunread⟩ := mem_kids_of_holdsBinders htype hholds hc
  have hbelow := mem_descendants_of_mem_kids hkid
  have hplain' := hplain.of_mem_descendants hbelow
  refine ⟨?_, isAny_of_mem_bound hq, inReadPlace_of_mem_bound hplain' hunread hq⟩
  rcases List.mem_cons.1 (mem_descendants_of_mem_bound hplain' hq) with rfl | hq
  · exact hbelow
  · exact mem_descendants_trans hbelow hq

theorem boundBelow_of_mem_boundIn (hplain : p.BindsPlainly)
    (hbinding : (types, key, allowed) ∈ Node.bindingFields) (htype : p.node.isAny types = true)
    (hfield : ∀ t ∈ types, (NodeType.childFields.lookup t).any (·.contains key) = true)
    (hholds : holdsBinders allowed sub = true) (hq : q ∈ p.boundIn key sub) : BoundBelow p q := by
  obtain ⟨entry, hentry, hq⟩ := List.mem_flatMap.1 hq
  obtain ⟨c, hc, hq⟩ := List.mem_flatMap.1 hq
  have hinField := mem_inField_of_mem_items hentry
  have hbelow := mem_descendants_of_mem_kids (mem_kids_of_mem_inField htype hfield hinField)
  have hallowed := Node.isAny_of_bindsPlainly (hplain p List.mem_cons_self) hbinding htype
    (mem_parts_of_mem_inField hinField)
  have h := boundBelow_of_mem_bound (hplain.of_mem_descendants hbelow) hallowed hholds
    (mem_inField_of_mem_single hc) hq
  exact ⟨mem_descendants_trans hbelow h.below, h.identifier, h.unread⟩

theorem boundBelow_of_mem_ownName (htype : p.node.isAny types = true)
    (hholds : holdsBinders types "id" = true) (hq : q ∈ p.ownName) : BoundBelow p q := by
  obtain ⟨hq, hid⟩ := List.mem_filter.1 hq
  obtain ⟨hkid, hunread⟩ := mem_kids_of_holdsBinders htype hholds (mem_inField_of_mem_single hq)
  exact ⟨mem_descendants_of_mem_kids hkid, hid, hunread⟩

/-- What a node declares are identifiers below it, and none of them is taken for a read. -/
theorem boundBelow_of_mem_binders (hplain : p.BindsPlainly) (hq : q ∈ p.binders) :
    BoundBelow p q := by
  unfold binders at hq
  split at hq
  · rename_i htype
    have hbinding : (["VariableDeclaration"], "declarations", ["VariableDeclarator"]) ∈
        Node.bindingFields := by decide
    exact boundBelow_of_mem_boundIn hplain hbinding htype (by decide) (by decide) hq
  split at hq
  · rename_i htype
    rcases List.mem_append.1 hq with hq | hq
    · split at hq
      · rename_i hnamed
        exact boundBelow_of_mem_ownName hnamed (by decide) hq
      · cases hq
    · obtain ⟨c, hc, hq⟩ := List.mem_flatMap.1 hq
      exact boundBelow_of_mem_bound hplain htype (by decide) (mem_inField_of_mem_items hc) hq
  split at hq
  · rename_i htype
    obtain ⟨c, hc, hq⟩ := List.mem_flatMap.1 hq
    exact boundBelow_of_mem_bound hplain htype (by decide) (mem_inField_of_mem_single hc) hq
  split at hq
  · rename_i htype
    have hbinding : (["ImportDeclaration"], "specifiers",
        ["ImportSpecifier", "ImportDefaultSpecifier", "ImportNamespaceSpecifier"]) ∈
          Node.bindingFields := by decide
    exact boundBelow_of_mem_boundIn hplain hbinding htype (by decide) (by decide) hq
  split at hq
  · rename_i htype
    rcases List.mem_append.1 hq with hq | hq
    · exact boundBelow_of_mem_ownName htype (by decide) hq
    · exact boundBelow_of_mem_ownName htype (by decide) hq
  split at hq
  · rename_i htype
    exact boundBelow_of_mem_ownName htype (by decide) hq
  · cases hq

end Places

end Path

/-! ## Programs -/

/-- The identifiers whose names the nodes of a tree declare, each as often as they do. -/
def Node.binders (root : Node) : List Path :=
  (.root root :: (Path.root root).descendants).flatMap Path.binders

section Programs

variable {root : Node} {final : Builder} {q : Path}

/-- The nodes of a program declare the names of its binders. -/
theorem boundNamesAt_binders_of_collect (hfinal : collect (.object root) = .ok final)
    (halias : root.AliasFree) (hplain : root.BindsPlainly) :
    Path.boundNamesAt root.binders =
      ((.root root :: (Path.root root).descendants).flatMap Path.declaredNames).map .ok := by
  have hroot : (Path.root root).BindsPlainly := hplain
  rw [Path.boundNamesAt, Node.binders, List.map_flatMap, List.map_flatMap]
  refine List.flatMap_congr fun p hp => ?_
  obtain ⟨past, around, hvisit⟩ := Visit.root.exists_of_mem_descendants hp
  obtain ⟨before, after, hpasses⟩ := hvisit.passes (ofTree_of_collect hfinal).2
  refine Path.boundNamesAt_binders hpasses.run_enter (halias p hp) ?_
  rcases List.mem_cons.1 hp with rfl | hp
  · exact hroot
  · exact hroot.of_mem_descendants hp

theorem Node.exists_of_mem_binders (hplain : root.BindsPlainly) (hq : q ∈ root.binders) :
    q ∈ (Path.root root).descendants ∧ q.node.isAny ["Identifier"] = true ∧
      q.isReferenced = false := by
  have hroot : (Path.root root).BindsPlainly := hplain
  obtain ⟨p, hp, hq⟩ := List.mem_flatMap.1 hq
  rw [Path.isReferenced_eq]
  rcases List.mem_cons.1 hp with rfl | hp
  · have h := Path.boundBelow_of_mem_binders hroot hq
    exact ⟨h.below, h.identifier, by rw [h.unread, Bool.and_false]⟩
  · have h := Path.boundBelow_of_mem_binders (hroot.of_mem_descendants hp) hq
    exact ⟨Path.mem_descendants_trans hp h.below, h.identifier, by rw [h.unread, Bool.and_false]⟩

end Programs

/-- The declarations in the tree are those of the binders, each under the name and with the location
of its identifier. All binders are visited identifiers, and none of them is taken for a read. -/
theorem declarations_perm_binders {root : Node} {generated : Bool} {tree : Scope}
    (h : analyze (.object root) generated = .ok tree) (hsole : root.SoleProgram)
    (halias : root.AliasFree) (hplain : root.BindsPlainly) :
    (∃ declared : List (Scalar × Range),
      List.Forall₂ (fun q d => ∃ bound, q.node.boundName = .ok bound ∧ d.1.key = bound.name.key ∧
        Range.ofLoc bound.loc = .ok d.2) root.binders declared ∧
      declared.Perm (tree.recorded Binding.declarations)) ∧
    ∀ q ∈ root.binders, q ∈ (Path.root root).descendants ∧ q.node.isAny ["Identifier"] = true ∧
      q.isReferenced = false := by
  refine ⟨?_, fun q => root.exists_of_mem_binders hplain⟩
  obtain ⟨final, loc, g, hfinal, hloc, hfinished, hg, htree⟩ := exists_of_analyze hsole halias h
  obtain ⟨os, -, hnumbered⟩ := exists_numbered_of_collect hfinal hsole
  obtain ⟨logged, hlogs, hnames⟩ := exists_logs_of_ofTree (ofTree_of_collect hfinal).2
  have hbinders := boundNamesAt_binders_of_collect hfinal halias hplain
  rw [← hnames] at hbinders
  -- No declaration is lost: only bindings of the root are, and nothing is declared there.
  obtain ⟨exported, hexported, hperm⟩ :=
    (hfinished.exported_iff hnumbered hg htree fun _ _ => mapM_declarations).2
      (.inr fun x hx => hfinished.declarations_of_mem_root (Graph.mem_overwritten.1 hx).1)
  have hkeys : List.Forall₂
      (fun (x : Key × Json) (d : Scalar × Range) => d.1.key = x.1 ∧ Range.ofLoc x.2 = .ok d.2)
      ((final.graph.recorded Entry.declarations).map fun x => (x.1.key, x.2)) exported :=
    List.forall₂_map_left_iff.2 (hexported.imp fun x d hxd => ⟨by rw [hxd.1], hxd.2⟩)
  -- What the graph records are the declarations of the run, and these are those of the binders.
  obtain ⟨declared, hdeclared, hsame⟩ := List.perm_comp_forall₂
    (hlogs.perm_recorded hfinished.sound.valid.owns).symm hkeys
  refine ⟨declared, ?_, hsame.trans hperm⟩
  have hbound : List.Forall₂ (fun (x : Except Cause BoundName) (d : Scalar × Range) =>
      ∃ bound, x = .ok bound ∧ d.1.key = bound.name.key ∧ Range.ofLoc bound.loc = .ok d.2)
      ((logged.map (·.2)).map .ok) declared := by
    rw [List.map_map, List.forall₂_map_left_iff]
    exact (List.forall₂_map_left_iff.1 hdeclared).imp fun x d hxd => ⟨x.2, rfl, hxd⟩
  rw [← hbinders] at hbound
  exact List.forall₂_map_left_iff.1 hbound

section Destructured

open Sample

/-- A class and a function with a pattern as parameter: `class A {} function f({ k: [a] }) {}`. -/
def destructuringProgram : Node :=
  program 34 [
    node "ClassDeclaration" 0 10 [("id", .object (identifier "A" 6)), ("superClass", .null),
      ("body", .object (node "ClassBody" 8 10 [("body", list [])]))],
    node "FunctionDeclaration" 11 34 [("id", .object (identifier "f" 20)),
      ("params", list [node "ObjectPattern" 22 30 [("properties", list [
        node "Property" 23 29 [("key", .object (identifier "k" 23)), ("computed", .bool false),
          ("value", .object (node "ArrayPattern" 26 29 [
            ("elements", list [identifier "a" 27])]))]])]]),
      ("body", .object (block 32 34 []))]]

example : (Path.boundNamesAt destructuringProgram.binders).map (·.toOption.map BoundName.name) =
    [some (.string "A"), some (.string "A"), some (.string "f"), some (.string "a")] := by
  decide +kernel

theorem declarations_perm_binders_destructured :
    ∃ tree, analyze (.object destructuringProgram) false = .ok tree ∧
      destructuringProgram.SoleProgram ∧ destructuringProgram.AliasFree ∧
      destructuringProgram.BindsPlainly ∧
      (∃ declared : List (Scalar × Range),
        List.Forall₂ (fun q d => ∃ bound, q.node.boundName = .ok bound ∧
          d.1.key = bound.name.key ∧ Range.ofLoc bound.loc = .ok d.2)
            destructuringProgram.binders declared ∧
        declared.Perm (tree.recorded Binding.declarations)) ∧
      ∀ q ∈ destructuringProgram.binders,
        q ∈ (Path.root destructuringProgram).descendants ∧
          q.node.isAny ["Identifier"] = true ∧ q.isReferenced = false := by
  obtain ⟨tree, htree⟩ :=
    exists_eq_ok (e := analyze (.object destructuringProgram) false) (by decide +kernel)
  have hsole : destructuringProgram.SoleProgram := by decide +kernel
  have halias : destructuringProgram.AliasFree := by decide +kernel
  have hplain : destructuringProgram.BindsPlainly := by decide +kernel
  exact ⟨tree, htree, hsole, halias, hplain, declarations_perm_binders htree hsole halias hplain⟩

end Destructured

end LexicalScopes
