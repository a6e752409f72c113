import LexicalScopes.Proofs.Encapsulation.Runs
import LexicalScopes.Proofs.Samples

/-!
# Encapsulation

What stands in the body of a function shows in the scope of this function alone. With another body
the tree of scopes is the same around this scope, but for the places in the body where bindings of
scopes around the function are read.
-/

namespace LexicalScopes

/-! ## Settled graphs -/

namespace Finished

open LexicalScopes.Graph

variable {loc loc' : Json} {final final' : Builder} {generated generated' : Bool} {g g' : Graph}
  {s : ScopeId} {C : Correspondence}

/-- Graphs that show the same do so once they are settled in the same way. -/
theorem mirrors_settle (h : Finished loc final) (h' : Finished loc' final')
    (hg : final.graph.settle 0 final.isModule generated = .ok g)
    (hg' : final'.graph.settle 0 final'.isModule generated' = .ok g')
    (hkeeps : final'.graph.keepsModule 0 final'.isModule generated' =
      final.graph.keepsModule 0 final.isModule generated)
    (hlayers : ∀ s < 3, s ∈ C.outer) (hmirrors : Mirrors C final.graph final'.graph) :
    Mirrors C g g' := by
  rw [h.settle_eq hg, h'.settle_eq hg', hkeeps]
  split
  · exact hmirrors
  · exact hmirrors.dissolveLayer h.stacked h'.stacked (hlayers 0 (by decide))
      (hlayers 1 (by decide)) (hlayers 2 (by decide))

end Finished

/-! ## Trees -/

namespace Path

/-- The scope is that of the function. -/
def ShowsScope (p : Path) (s : Scope) : Prop :=
  s.type = .function ∧ p.functionName = .ok s.name ∧
    (p.node.functionRange >>= Range.ofLoc) = .ok s.range

/-- In the body of the function stands a node that reads a name there. -/
def ShowsRead (p : Path) (r : Reference) : Prop := ∃ o, p.HoldsBodyRead o ∧ o.toReference = .ok r

theorem showsScope_of_copied {p : Path} {g : Graph} {f : ScopeId} {s : Scope} {name range : Json}
    (hname : p.functionName = .ok name) (hrange : p.node.functionRange = .ok range)
    (hheading : (g.draft f).heading = ⟨.function, name, range⟩) (h : g.Copied f s) :
    p.ShowsScope s := by
  have htype : (g.draft f).type = .function := congrArg Heading.type hheading
  have hname' : (g.draft f).name = name := congrArg Heading.name hheading
  have hloc : (g.draft f).loc = range := congrArg Heading.loc hheading
  refine ⟨by rw [h.type_eq, htype]; rfl, by rw [h.name_eq, hname', hname], ?_⟩
  obtain ⟨fuel, h⟩ := h
  rw [hrange, ok_bind, ← hloc, range_of_treeFrom h]

end Path

/-- The programs differ in the body of the function at the address alone. -/
def Node.DiffersInBody (root root' : Node) (address : List Json.Step) : Prop :=
  ∃ (function : Node) (body : Json), (Json.object root).part? address = some (.object function) ∧
    function.isAny NodeType.functions = true ∧
    (Json.object root).withPart address (.object (function.replace "body" body)) = .object root'

/-- The trees of the programs are the same around the scope of the function at the address, but for
reads in its body. -/
def Node.AgreeAround (root root' : Node) (address : List Json.Step) (tree tree' : Scope) : Prop :=
  ∃ p ∈ .root root :: (Path.root root).descendants,
    ∃ p' ∈ .root root' :: (Path.root root').descendants,
      p.address = address ∧ p'.address = address ∧
        Scope.AgreeAround p.ShowsScope p.ShowsRead p'.ShowsRead tree tree'

/-- If one function of a program gets another body and the module layer is kept or dissolved as
before, the tree is the same around the scope of this function but for reads in the body. Where no
scope is made for the function the tree stays as it is. -/
theorem encapsulation_of_analyze {root root' : Node} {address : List Json.Step}
    {generated generated' : Bool} {final final' : Builder} {tree tree' : Scope}
    (hbody : root.DiffersInBody root' address)
    (hplace : (Json.object root).handsOn false address = false) (hdistinct : root.DistinctFields)
    (hsole : root.SoleProgram) (hsole' : root'.SoleProgram) (halias : root.AliasFree)
    (halias' : root'.AliasFree) (htree : analyze (.object root) generated = .ok tree)
    (htree' : analyze (.object root') generated' = .ok tree')
    (hfinal : collect (.object root) = .ok final) (hfinal' : collect (.object root') = .ok final')
    (hkeeps : final'.graph.keepsModule 0 final'.isModule generated' =
      final.graph.keepsModule 0 final.isModule generated) :
    tree' = tree ∨ root.AgreeAround root' address tree tree' := by
  obtain ⟨function, body, hpart, hfunction, hroot'⟩ := hbody
  obtain ⟨_, loc, g, hcollect, -, hfinished, hg, htree⟩ := exists_of_analyze hsole halias htree
  cases Except.ok.inj (hcollect.symm.trans hfinal)
  obtain ⟨_, loc', g', hcollect', -, hfinished', hg', htree'⟩ :=
    exists_of_analyze hsole' halias' htree'
  cases Except.ok.inj (hcollect'.symm.trans hfinal')
  have hnew : ∀ a, (Json.object (function.replace "body" body)).hollow a =
      (Json.object function).hollow a := fun a => by
    rw [Json.hollow_object, Json.hollow_object, Node.hollow_replace_body hfunction]
  have hhollow : (Path.root root').hollow = (Path.root root).hollow := by
    have hsame := Json.hollow_withPart hdistinct hpart hnew hplace
    rw [hroot', Json.hollow_object, Json.hollow_object] at hsame
    rw [Path.hollow, Path.hollow, Json.object.inj hsame]
  rcases (Path.Parts.of_roots hhollow).descend hroot'.symm hdistinct hpart hnew hplace with
    hsame | ⟨p, p', past, past', rest, rest', hparts, hp, hp', haddress, haddress'⟩
  · -- The function is not walked at all.
    left
    have hrun := Builder.run_events_of_ofTree (ofTree_of_collect hfinal).2
    have hrun' := Builder.run_events_of_ofTree (ofTree_of_collect hfinal').2
    rw [Builder.run, hsame] at hrun'
    cases Except.ok.inj (hrun'.symm.trans hrun)
    rw [hfinished'.settle_eq hg', hkeeps, ← hfinished.settle_eq hg, htree] at htree'
    exact (Except.ok.inj htree').symm
  · right
    obtain ⟨_, hvisit⟩ := hparts.visit
    obtain ⟨_, hvisit'⟩ := hparts.visit'
    have hnode : p'.node = p.node.replace "body" body := by rw [Json.object.inj hp', hp]
    obtain ⟨C, name, range, hname, hrange, hread, hread', hlayers, hheading, hheading', hmirrors⟩ :=
      hparts.exists_mirrors (hp ▸ hfunction) hnode hsole hsole' hfinal hfinal' hfinished.root_eq
        hfinished'.root_eq
    have hsettled := hfinished.mirrors_settle hfinished' hg hg' hkeeps hlayers hmirrors
    have hzero := hlayers 0 (by decide)
    refine ⟨p, hvisit.mem_descendants, p', hvisit'.mem_descendants, haddress, haddress', ?_⟩
    have hcopied' : g'.Copied (C.scopes.move 0) tree' := by
      rw [hsettled.move_of_mem_outer hzero]
      exact ⟨_, htree'⟩
    have hinner : ∀ s, g.Copied C.scopes.first s → p.ShowsScope s := fun s =>
      Path.showsScope_of_copied hname hrange ((hfinished.heading_settle hg).trans hheading)
    have hinner' : ∀ s, g'.Copied (C.scopes.move C.scopes.first) s → p.ShowsScope s := fun s =>
      Path.showsScope_of_copied hname hrange ((hfinished'.heading_settle hg').trans hheading')
    have hagree := hsettled.agreeAround hinner hinner' (.inr hzero) ⟨_, htree⟩ hcopied'
    rw [hread, hread'] at hagree
    exact hagree

section Bodies

open Sample

/-- A function after the declaration of a variable. -/
def functionProgram (body : Node) : Node :=
  program 27 [declaration "var" "x" 0, node "FunctionDeclaration" 7 27
    [("id", .object (identifier "f" 16)), ("params", .array []), ("body", .object body)]]

/-- The program with a body that reads the variable. -/
def readingProgram : Node := functionProgram (block 20 27 [reading "x" 21])

/-- The program with a body that declares another variable. -/
def declaringProgram : Node := functionProgram (block 20 27 [declaration "var" "y" 21])

theorem encapsulation_of_analyze_reading :
    ∃ tree tree', analyze (.object readingProgram) false = .ok tree ∧
      analyze (.object declaringProgram) false = .ok tree' ∧ tree' ≠ tree ∧
      readingProgram.AgreeAround declaringProgram [.field "body", .item 1] tree tree' := by
  obtain ⟨tree, htree⟩ :=
    exists_eq_ok (e := analyze (.object readingProgram) false) (by decide +kernel)
  obtain ⟨tree', htree'⟩ :=
    exists_eq_ok (e := analyze (.object declaringProgram) false) (by decide +kernel)
  obtain ⟨final, hfinal⟩ :=
    exists_eq_ok (e := collect (.object readingProgram)) (by decide +kernel)
  obtain ⟨final', hfinal'⟩ :=
    exists_eq_ok (e := collect (.object declaringProgram)) (by decide +kernel)
  have hkeeps : (collect (.object declaringProgram)).toOption.map
        (fun b => b.graph.keepsModule 0 b.isModule false) =
      (collect (.object readingProgram)).toOption.map
        (fun b => b.graph.keepsModule 0 b.isModule false) := by decide +kernel
  have hbindings : (analyze (.object declaringProgram) false).toOption.map Scope.bindings ≠
      (analyze (.object readingProgram) false).toOption.map Scope.bindings := by decide +kernel
  rw [hfinal, hfinal'] at hkeeps
  rw [htree, htree'] at hbindings
  have hne : tree' ≠ tree := fun heq => hbindings (heq ▸ rfl)
  have hbody : readingProgram.DiffersInBody declaringProgram [.field "body", .item 1] :=
    ⟨_, .object (block 20 27 [declaration "var" "y" 21]), rfl, by decide +kernel, rfl⟩
  have hagree := encapsulation_of_analyze hbody (by decide +kernel) (by decide +kernel)
    (by decide +kernel) (by decide +kernel) (by decide +kernel) (by decide +kernel) htree htree'
    hfinal hfinal' (Option.some.inj hkeeps)
  exact ⟨tree, tree', htree, htree', hne, hagree.resolve_left hne⟩

/-- An arrow function stands where the name of an accessed property is expected. -/
def namedFunction (body : Node) : Node :=
  node "ArrowFunctionExpression" 9 14 [("params", .array []), ("body", .object body)]

/-- A property of a variable is accessed. -/
def accessProgram (body : Node) : Node :=
  program 14 [declaration "var" "x" 0, node "ExpressionStatement" 7 14
    [("expression", .object (node "MemberExpression" 7 14 [("object", .object (identifier "x" 7)),
      ("property", .object (node "Name" 9 14 [("name", .object (namedFunction body))]))]))]]

/-- The way to the function. -/
def namedAddress : List Json.Step :=
  [.field "body", .item 1, .field "expression", .field "property", .field "name"]

/-- The program with an empty body. -/
def emptyProgram : Node := accessProgram (block 13 14 [])

/-- The program with another body that reads nothing either. -/
def idleProgram : Node := accessProgram (node "EmptyStatement" 13 14 [])

/-- The name of the property is shown with the read of the variable, and the body with it. -/
theorem body_in_name_is_shown :
    emptyProgram.DiffersInBody idleProgram namedAddress ∧ emptyProgram.DistinctFields ∧
      emptyProgram.SoleProgram ∧ idleProgram.SoleProgram ∧ emptyProgram.AliasFree ∧
      idleProgram.AliasFree ∧
      ∃ tree tree' final final', analyze (.object emptyProgram) false = .ok tree ∧
        analyze (.object idleProgram) false = .ok tree' ∧
        collect (.object emptyProgram) = .ok final ∧ collect (.object idleProgram) = .ok final' ∧
        final'.graph.keepsModule 0 final'.isModule false =
          final.graph.keepsModule 0 final.isModule false ∧
        ¬ (tree' = tree ∨ emptyProgram.AgreeAround idleProgram namedAddress tree tree') := by
  obtain ⟨tree, htree⟩ :=
    exists_eq_ok (e := analyze (.object emptyProgram) false) (by decide +kernel)
  obtain ⟨tree', htree'⟩ :=
    exists_eq_ok (e := analyze (.object idleProgram) false) (by decide +kernel)
  obtain ⟨final, hfinal⟩ :=
    exists_eq_ok (e := collect (.object emptyProgram)) (by decide +kernel)
  obtain ⟨final', hfinal'⟩ :=
    exists_eq_ok (e := collect (.object idleProgram)) (by decide +kernel)
  have hkeeps : (collect (.object idleProgram)).toOption.map
        (fun b => b.graph.keepsModule 0 b.isModule false) =
      (collect (.object emptyProgram)).toOption.map
        (fun b => b.graph.keepsModule 0 b.isModule false) := by decide +kernel
  have hbindings : (analyze (.object idleProgram) false).toOption.map Scope.bindings ≠
      (analyze (.object emptyProgram) false).toOption.map Scope.bindings := by decide +kernel
  have htype : (analyze (.object emptyProgram) false).toOption.map Scope.type = some .object := by
    decide +kernel
  rw [hfinal, hfinal'] at hkeeps
  rw [htree, htree'] at hbindings
  rw [htree] at htype
  have hbody : emptyProgram.DiffersInBody idleProgram namedAddress :=
    ⟨_, .object (node "EmptyStatement" 13 14 []), rfl, by decide +kernel, rfl⟩
  -- Nothing is read in the bodies, so the bindings of the root should be the same.
  have hreads : ∀ root ∈ [emptyProgram, idleProgram],
      ∀ p ∈ .root root :: (Path.root root).descendants, p.address = namedAddress →
        ∀ c ∈ p.inField "body", ∀ q ∈ c :: c.descendants, q.readName? = none := by
    decide +kernel
  have hnone : ∀ root ∈ [emptyProgram, idleProgram],
      ∀ p ∈ .root root :: (Path.root root).descendants, p.address = namedAddress →
        ∀ r, ¬ p.ShowsRead r := by
    rintro root hroot p hp haddress r ⟨o, ⟨c, hc, q, hq, name, hname, -⟩, -⟩
    rw [hreads root hroot p hp haddress c hc q hq] at hname
    cases hname
  refine ⟨hbody, by decide +kernel, by decide +kernel, by decide +kernel, by decide +kernel,
    by decide +kernel, tree, tree', final, final', htree, htree', hfinal, hfinal',
    Option.some.inj hkeeps, ?_⟩
  rintro (rfl | ⟨p, hp, p', hp', haddress, haddress', hagree⟩)
  · exact hbindings rfl
  · refine hbindings (congrArg some (hagree.bindings_eq ?_ ?_ ?_))
    · rintro ⟨hfunction, -⟩
      rw [Option.some.inj htype] at hfunction
      cases hfunction
    · exact hnone emptyProgram (by simp) p hp haddress
    · exact hnone idleProgram (by simp) p' hp' haddress'

end Bodies

end LexicalScopes
