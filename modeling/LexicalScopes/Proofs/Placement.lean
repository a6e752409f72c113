import LexicalScopes.Proofs.Placement.Hoisting
import LexicalScopes.Proofs.Placement.Layers

/-!
# Where names are bound

The names of a `var` declaration belong to the nearest function or value of a class field around it,
or to the module layer. A layer that is dissolved hands them on to the root, unless the name was
first declared like `let` or `const`. No other scopes have names of kind `var` but catch clauses,
and the two scopes around the layer have only what it hands on and the names of the host.
-/

namespace LexicalScopes

/-- Every name of every `var` declaration is declared in the home of the declaration, and the
location shows among the declarations of the name there. In the place of a dissolved layer it shows
in the root, or in the lexical scope if the binding is `let` or `const`. -/
def Node.HoistsVars (root : Node) (final : Builder) (g : Graph) (tree : Scope) (kept : Bool) :
    Prop :=
  ∀ past around p, Visit root past around p → p.node.isAny ["VariableDeclaration"] = true →
    p.node.declarationKind = .ok .var →
    ∃ home names before after, Housed root NodeType.functions past (some home) p ∧
      p.node.variableNames = .ok names ∧ Passes past p before after final ∧
      ∀ bound ∈ names, Graph.Declares before.graph after.graph final.graph home bound ∧
        ∃ b range, g.Displays tree
            (if home = 2 && !kept then
              if b.kind = .lexical ∨ b.kind = .constant then 1 else 0
            else home) bound.name b ∧
          Range.ofLoc bound.loc = .ok range ∧ range ∈ b.declarations

section Programs

variable {root : Node} {generated : Bool} {tree : Scope} {final : Builder} {g before after : Graph}
  {loc : Json} {home : ScopeId} {bound : BoundName} {os : List Outline}

/-- A declaration of an inner scope shows where the binding of its name shows. -/
theorem Graph.Declares.exists_displays
    (h : Graph.Declares before after final.graph home bound) (hfinished : Finished loc final)
    (hg : final.graph.settle 0 final.isModule generated = .ok g) (htree : g.tree 0 = .ok tree)
    (hnumbered : Numbered final.graph (some 2) 3 os final.graph.nextScope) (hle : 2 ≤ home) :
    ∃ b range, g.Displays tree
        (if home = 2 && !final.graph.keepsModule 0 final.isModule generated then
          if b.kind = .lexical ∨ b.kind = .constant then 1 else 0
        else home) bound.name b ∧
      Range.ofLoc bound.loc = .ok range ∧ range ∈ b.declarations := by
  obtain ⟨e, k, hfind, -, -, hdeclared⟩ := h
  obtain ⟨b, hbinding, hdisplays⟩ :=
    hfinished.exists_displays hg hnumbered htree hle (Graph.lt_of_find? hfind) hfind
  have hkind := Graph.kind_of_toBinding hbinding
  obtain ⟨range, hrange, hread⟩ := Graph.exists_getElem?_of_forall₂
    (mapM_eq_ok.1 (mapM_declarations hbinding)) hdeclared
  refine ⟨b, range, ?_, hread, List.mem_of_getElem? hrange⟩
  -- The kind of the binding says which of the two outer scopes takes it over.
  have hheir : final.graph.heir 0 1 e =
      if b.kind = .lexical ∨ b.kind = .constant then 1 else 0 := by
    simp only [Graph.heir, Graph.isLexical_iff, hkind]
  rw [← hheir]
  exact hdisplays

end Programs

/-- The names of `var` declarations are declared in their homes, the two scopes around the module
layer show only what belongs there, and names of kind `var` show only where `var` belongs. -/
theorem placement_of_analyze {root : Node} {generated : Bool} {tree : Scope}
    (h : analyze (.object root) generated = .ok tree) (hsole : root.SoleProgram)
    (halias : root.AliasFree) :
    ∃ final g kept, collect (.object root) = .ok final ∧
      final.graph.settle 0 final.isModule generated = .ok g ∧ g.tree 0 = .ok tree ∧
      kept = final.graph.keepsModule 0 final.isModule generated ∧
      root.HoistsVars final g tree kept ∧ tree.OuterLayers kept ∧ tree.PlacesVars kept := by
  obtain ⟨final, loc, g, hfinal, hloc, hfinished, hg, htree⟩ := exists_of_analyze hsole halias h
  obtain ⟨os, -, hnumbered⟩ := exists_numbered_of_collect hfinal hsole
  refine ⟨final, g, _, hfinal, hg, htree, rfl, fun past around p hvisit htype hkind => ?_,
    outerLayers_of_settle hfinal hloc hfinished hg htree,
    placesVars_of_settle hfinal hloc hfinished hg htree hsole halias hnumbered⟩
  obtain ⟨before, after, hpasses⟩ := hvisit.passes (ofTree_of_collect hfinal).2
  obtain ⟨home, names, hhoused, hle, hnames, hdeclares⟩ :=
    hvisit.exists_declares_var htype hkind hfinal hsole halias hpasses
  refine ⟨home, names, before, after, hhoused, hnames, hpasses, fun bound hbound => ?_⟩
  have hdeclared := hdeclares bound hbound
  exact ⟨hdeclared, hdeclared.exists_displays hfinished hg htree hnumbered hle⟩

section Redeclared

open Sample

/-- A name is declared with `let` and again with `var`. -/
def redeclaredProgram : Node := program 12 [declaration "let" "x" 0, declaration "var" "x" 7]

/-- The declaration with `var`. -/
def redeclaration : Path :=
  .child (.root redeclaredProgram) "body" (some 1) (declaration "var" "x" 7)

theorem placement_of_analyze_redeclared :
    ∃ tree, analyze (.object redeclaredProgram) false = .ok tree ∧
      redeclaredProgram.SoleProgram ∧ redeclaredProgram.AliasFree ∧
      ∃ final g kept, collect (.object redeclaredProgram) = .ok final ∧
        final.graph.settle 0 final.isModule false = .ok g ∧ g.tree 0 = .ok tree ∧
        kept = final.graph.keepsModule 0 final.isModule false ∧
        redeclaredProgram.HoistsVars final g tree kept ∧ tree.OuterLayers kept ∧
        tree.PlacesVars kept := by
  obtain ⟨tree, htree⟩ :=
    exists_eq_ok (e := analyze (.object redeclaredProgram) false) (by decide +kernel)
  have hsole : redeclaredProgram.SoleProgram := by decide +kernel
  have halias : redeclaredProgram.AliasFree := by decide +kernel
  exact ⟨tree, htree, hsole, halias, placement_of_analyze htree hsole halias⟩

/-- The declaration with `var` stands in no function, its layer is dissolved, and the root does not
bind its name. -/
theorem redeclaration_misses_root :
    redeclaredProgram.SoleProgram ∧ redeclaredProgram.AliasFree ∧
      (∃ past around, Visit redeclaredProgram past around redeclaration ∧
        Housed redeclaredProgram NodeType.functions past (some 2) redeclaration) ∧
      redeclaration.node.declarationKind = .ok .var ∧
      redeclaration.node.variableNames =
        .ok [⟨.string "x", .object [("start", place 11), ("end", place 12)]⟩] ∧
      (collect (.object redeclaredProgram)).toOption.map
        (fun b => b.graph.keepsModule 0 b.isModule false) = some false ∧
      (analyze (.object redeclaredProgram) false).toOption.map
        (fun tree => tree.bindings.map (·.1)) =
          some (["module", "exports", "__dirname", "__filename", "require", "this"].map
            Scalar.string) := by
  have hkids : (Path.root redeclaredProgram).kids =
      [.child (.root redeclaredProgram) "body" (some 0) (declaration "let" "x" 0)] ++
        redeclaration :: [] := rfl
  have hroot : (Path.root redeclaredProgram).home? NodeType.functions [] = some 2 := by
    decide +kernel
  refine ⟨by decide +kernel, by decide +kernel, ⟨_, _, Visit.root.child hkids, ?_⟩,
    by decide +kernel, eq_ok_of_toOption (by decide +kernel), by decide +kernel, by decide +kernel⟩
  have hhoused : Housed redeclaredProgram NodeType.functions [] _ (.root redeclaredProgram) := .root
  rw [hroot] at hhoused
  exact hhoused.child hkids

end Redeclared

end LexicalScopes
