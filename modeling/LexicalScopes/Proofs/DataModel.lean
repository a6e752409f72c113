import LexicalScopes.Proofs.Binders.Recorded
import LexicalScopes.Proofs.DataModel.Accesses
import LexicalScopes.Proofs.Introduced
import LexicalScopes.Proofs.Samples

/-!
# The data model of the tree

The tree of a well-named program has functions, blocks and objects for scopes, and all names in it
are strings. Around each read the members carry the accessed keys as strings. Only an access by a
private name carries null: the name is asked for its own name, which it does not have, and not for
the name of its identifier.
-/

namespace LexicalScopes

/-- The scope has one of the types that are shown, and its own name and the names that it binds are
strings. -/
structure Scope.FitsDataModel (scope : Scope) : Prop where
  type : scope.type ∈ [ScopeType.function, .block, .object]
  name : ∃ text, scope.name = .string text
  bindings : ∀ x ∈ scope.bindings, ∃ text, x.1 = .string text

section Runs

variable {root : Node} {past : List Event} {around : List ScopeId} {p : Path} {final : Builder}
  {s : ScopeId} {n : Scalar} {e : EntryId} {loc : Json}

/-- All nodes on the way to a visited node are well named. -/
theorem Visit.wellNamed (h : Visit root past around p) (hroot : (Json.object root).WellNamed) :
    p.WellNamed := by
  induction h with
  | root => exact List.forall_mem_singleton.2 hroot
  | @child past around p c earlier later h hkids ih =>
    have hc : c ∈ p.kids := by simp [hkids]
    obtain ⟨key, hkey⟩ := Path.exists_inField_of_mem_kids hc
    obtain ⟨index, heq⟩ := Path.exists_eq_child hkey
    have habove : c.above = p :: p.above := by rw [heq, Path.above]
    rw [Path.WellNamed, habove]
    refine List.forall_mem_cons.2 ⟨?_, ih⟩
    exact ih.node.of_inside fun _ => Path.mem_inside_of_mem_inField hkey

theorem Path.Performs.binds {a : Action} {bound : BoundName} (ha : p.Performs a)
    (h : a.declared? = some bound) : p.node.Binds bound := by
  cases ha with
  | declare hbinds kind =>
    cases h
    exact hbinds
  | hoist hbinds =>
    cases h
    exact hbinds
  | declareFunction hbinds =>
    cases h
    exact hbinds
  | _ => cases h

section Names

variable (hfinal : collect (.object root) = .ok final) (halias : root.AliasFree)
  (hroot : (Json.object root).WellNamed) (h : Finished loc final)

include hfinal halias hroot h

/-- Bound names are strings: a node declares them, or they are introduced. -/
theorem exists_text_of_find? (hfind : final.graph.find? s n = some e) :
    ∃ text, n = .string text := by
  have htree := (ofTree_of_collect hfinal).2
  by_cases hnone : (final.graph.entry e).declarations = []
  · have hkind := undeclaredImplicit_of_collect hfinal s n e hfind hnone
    have hnames : ∀ p ∈ .root root :: (Path.root root).descendants,
        p.node.isAny ["program"] = false :=
      List.forall_mem_cons.2
        ⟨Node.isAny_eq_false (ofTree_of_collect hfinal).1 (by decide), halias.isAny_program⟩
    obtain ⟨text, hn, -⟩ := (implicit_iff_introducesIn hfinal hnames hfind).1 hkind
    exact ⟨text, hn⟩
  · obtain ⟨declared, hlogs, hdeclared⟩ := exists_logs_of_ofTree htree
    rw [hlogs.declarations_eq e, declarationsOf, List.map_eq_nil_iff] at hnone
    obtain ⟨d, hd⟩ := List.exists_mem_of_ne_nil _ hnone
    obtain ⟨hd, he⟩ := List.mem_filter.1 hd
    -- The declaration has the name that is bound, and some node on the way makes it.
    obtain ⟨t, ht⟩ := hlogs.exists_find? d hd
    rw [of_decide_eq_true he] at ht
    have hkey := (h.sound.valid.owns.find?_inj _ _ _ _ _ hfind ht).2
    have hmem : d.2 ∈ (.root root :: (Path.root root).descendants).flatMap Path.declaredNames :=
      hdeclared ▸ List.mem_map_of_mem hd
    obtain ⟨p, hp, hname⟩ := List.mem_flatMap.1 hmem
    obtain ⟨a, ha, hbound⟩ := List.mem_filterMap.1 hname
    obtain ⟨past, around, hvisit⟩ := Visit.root.exists_of_mem_descendants hp
    obtain ⟨before, after, hpasses⟩ := hvisit.passes htree
    have hbinds := (performs_enterActions hpasses.run_enter a ha).binds hbound
    obtain ⟨text, htext⟩ := hbinds.exists_text (hvisit.wellNamed hroot).node
    rw [htext] at hkey
    exact ⟨text, Scalar.eq_of_key_eq hkey⟩

/-- The layers have fixed names, and all other scopes have names that nodes contribute. -/
theorem exists_text_of_draft (hsole : root.SoleProgram) (hs : s < final.graph.nextScope) :
    ∃ text, (final.graph.draft s).name = .string text := by
  rcases Nat.lt_or_ge s 3 with hlayer | hinner
  · have hheader : ∃ header text, (Graph.opened loc).headers[s]? = some header ∧
        header.name = .string text := by
      rw [Graph.headers_opened]
      match s, hlayer with
      | 0, _ => exact ⟨_, _, rfl, rfl⟩
      | 1, _ => exact ⟨_, _, rfl, rfl⟩
      | 2, _ => exact ⟨_, _, rfl, rfl⟩
    obtain ⟨header, text, hheader, hname⟩ := hheader
    exact ⟨text, (congrArg Header.name (h.header_eq hheader)).trans hname⟩
  · obtain ⟨past, around, p, headings, hvisit, hcontributed, hmem⟩ :=
      exists_contributed_of_collect hfinal hsole halias hinner hs
    exact (hvisit.wellNamed hroot).exists_text_of_contributed hcontributed _ hmem

end Names

end Runs

section Trees

open LexicalScopes.Graph

theorem Graph.Copied.lt_nextScope {g : Graph} {s : ScopeId} {scope : Scope}
    (h : g.Copied s scope) : s < g.nextScope := by
  by_contra hge
  obtain ⟨fuel, h⟩ := h
  cases fuel with
  | zero => cases h
  | succ fuel =>
    rw [treeFrom, draft_of_le (Nat.not_lt.1 hge)] at h
    obtain ⟨range, hrange, -⟩ := bind_eq_ok.1 h
    cases hrange

/-- Every scope of the tree of a well-named program fits the data model. Every read in it is made by
a node that reads the name, and the members around it carry the accessed keys as strings, but null
where the access is by a private name. -/
theorem tree_fits_data_model {root : Node} {generated : Bool} {tree : Scope}
    (h : analyze (.object root) generated = .ok tree) (hsole : root.SoleProgram)
    (halias : root.AliasFree) (hroot : (Json.object root).WellNamed) :
    ∀ scope ∈ tree.walk, scope.FitsDataModel ∧
      ∀ x ∈ scope.bindings, ∀ r ∈ x.2.refs,
        ∃ p ∈ .root root :: (Path.root root).descendants, ∃ o, p.readName? = some x.1 ∧
          p.occurrence = .ok o ∧ o.toReference = .ok r ∧
          p.CarriesKeys (r.wrappers.map (·.form)) := by
  obtain ⟨final, loc, g, hfinal, -, hfinished, hg, htree⟩ := exists_of_analyze hsole halias h
  intro scope hscope
  have htext {s : ScopeId} {n : Scalar} {e : EntryId} (hfind : final.graph.find? s n = some e) :=
    exists_text_of_find? hfinal halias hroot hfinished hfind
  have hentry := fun x hx =>
    exists_entry_of_mem_walk (x := x) hfinished hg htree hscope hx
  constructor
  · obtain ⟨s, -, hcopied⟩ := exists_of_forall₂_left (forall₂_copied htree).flip hscope
    have hcopied : g.Copied s scope := hcopied
    refine ⟨?_, ?_, fun x hx => ?_⟩
    · rw [hcopied.type_eq]
      cases (g.draft s).type <;> decide
    · have hname : (g.draft s).name = (final.graph.draft s).name :=
        congrArg Heading.name (hfinished.heading_settle hg)
      have hs := hcopied.lt_nextScope
      rw [hfinished.nextScope_settle hg] at hs
      rw [hcopied.name_eq, hname]
      exact exists_text_of_draft hfinal halias hroot hfinished hsole hs
    · obtain ⟨s, e, hfind, -⟩ := hentry x hx
      exact htext hfind
  · intro x hx r hr
    obtain ⟨s, e, hfind, hbinding⟩ := hentry x hx
    obtain ⟨o, ho, hreference⟩ := exists_of_mem_mapM (mapM_refs hbinding) hr
    obtain ⟨⟨past, p⟩, around, before, after, hvisit, -, hreads, -⟩ :=
      exists_visitReads_of_mem_refs hfinal hsole ho
    obtain ⟨name, t, hname, -, -, hread, hoccurrence, -⟩ := hreads
    -- The name that is read and the one that is bound are strings with the same key.
    have hkey := (hfinished.sound.valid.owns.find?_inj _ _ _ _ _ hread hfind).2
    obtain ⟨text, hx⟩ := htext hfind
    rw [hx] at hkey ⊢
    rw [Scalar.eq_of_key_eq hkey] at hname
    exact ⟨p, hvisit.mem_descendants, o, hname, hoccurrence, hreference,
      (hvisit.wellNamed hroot).carriesKeys_toReference hoccurrence hreference⟩

end Trees

section PrivateFields

open Sample

/-- The name of a private field. -/
def privateName (name : String) (column : Nat) : Node :=
  node "PrivateName" column (column + name.length + 1)
    [("id", .object (identifier name (column + 1)))]

/-- A method reads a private field: `class A { #x = 1; read() { return this.#x; } }`. -/
def privateFieldProgram : Node :=
  let field := node "ClassPrivateProperty" 10 17 [("key", .object (privateName "x" 10)),
    ("value", .object (node "NumericLiteral" 15 16 [("value", .int 1)]))]
  let access := node "MemberExpression" 34 41 [("object", .object (node "ThisExpression" 34 38 [])),
    ("property", .object (privateName "x" 39)), ("computed", .bool false)]
  let method := node "ClassMethod" 18 44 [("kind", .string "method"),
    ("key", .object (identifier "read" 18)), ("computed", .bool false), ("id", .null),
    ("params", list []),
    ("body", .object (block 25 44 [node "ReturnStatement" 27 42 [("argument", .object access)]]))]
  program 46 [node "ClassDeclaration" 0 46 [("id", .object (identifier "A" 6)),
    ("superClass", .null),
    ("body", .object (node "ClassBody" 8 46 [("body", list [field, method])]))]]

theorem tree_fits_data_model_privateField :
    ∃ tree, analyze (.object privateFieldProgram) false = .ok tree ∧
      ∀ scope ∈ tree.walk, scope.FitsDataModel ∧
        ∀ x ∈ scope.bindings, ∀ r ∈ x.2.refs,
          ∃ p ∈ .root privateFieldProgram :: (Path.root privateFieldProgram).descendants,
            ∃ o, p.readName? = some x.1 ∧ p.occurrence = .ok o ∧ o.toReference = .ok r ∧
              p.CarriesKeys (r.wrappers.map (·.form)) := by
  obtain ⟨tree, htree⟩ :=
    exists_eq_ok (e := analyze (.object privateFieldProgram) false) (by decide +kernel)
  exact ⟨tree, htree,
    tree_fits_data_model htree (by decide +kernel) (by decide +kernel) (by decide +kernel)⟩

/-- The only read of the program is that of `this` in the method, and its member carries null. -/
theorem private_key_is_null :
    (analyze (.object privateFieldProgram) false).toOption.map (fun tree =>
        tree.children.flatMap fun lexical => lexical.children.flatMap fun body =>
          body.children.flatMap fun function => function.bindings.flatMap fun x =>
            x.2.refs.map fun r => (function.name, x.1, r.wrappers.map (·.form))) =
      some [(.string "read", .string "this", [.member .null])] := by
  decide +kernel

end PrivateFields

end LexicalScopes
