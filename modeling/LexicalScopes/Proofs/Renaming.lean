import LexicalScopes.Proofs.Renaming.Graph
import LexicalScopes.Proofs.Samples

/-!
# Analysis does not depend on names

Changing the names of all identifiers of a tree, so that different names stay different and the
reserved ones stay as they are, changes the bound names of its scope tree in the same way. Nothing
else changes but what is shown of a name as a text.
-/

namespace LexicalScopes

/-! ## Masked scope trees -/

def Wrapping.masked (w : Wrapping) : Wrapping := { w with form := w.form.masked }

def Reference.masked (ref : Reference) : Reference :=
  { ref with wrappers := ref.wrappers.map Wrapping.masked }

def Binding.masked (b : Binding) : Binding := { b with refs := b.refs.map Reference.masked }

mutual

/-- The scope tree with all bound names changed by `r`, without the names of functions and without
the texts of accessed properties. -/
def Scope.masked (r : String → String) : Scope → Scope
  | ⟨type, name, range, bindings, children⟩ =>
    ⟨type, type.maskedName name, range,
      bindings.map fun (name, b) => (name.renamed r, b.masked), Scope.maskedAll r children⟩

def Scope.maskedAll (r : String → String) : List Scope → List Scope
  | [] => []
  | s :: rest => s.masked r :: Scope.maskedAll r rest

end

theorem Scope.maskedAll_eq (r : String → String) (scopes : List Scope) :
    maskedAll r scopes = scopes.map (masked r) := by
  induction scopes with
  | nil => rw [maskedAll, List.map_nil]
  | cons s rest ih => rw [maskedAll, ih, List.map_cons]

/-! ## Copying -/

variable {r : String → String} {g : Graph} {b : Builder}

theorem Wrapper.toWrapping_masked (w : Wrapper) :
    w.masked.toWrapping = Wrapping.masked <$> w.toWrapping := by
  simp [toWrapping, Wrapper.masked, Wrapping.masked]

theorem Wrapper.exportChain_masked (ws : List Wrapper) :
    exportChain (ws.map Wrapper.masked) = List.map Wrapping.masked <$> exportChain ws := by
  induction ws with
  | nil => rfl
  | cons w ws ih =>
    rw [List.map_cons, exportChain_cons, exportChain_cons, ih, Wrapper.toWrapping_masked]
    simp only [bind_map_left, map_bind, map_pure, List.map_cons]

theorem Occurrence.toReference_masked (o : Occurrence) :
    o.masked.toReference = Reference.masked <$> o.toReference := by
  simp only [toReference, masked, Wrapper.exportChain_masked, bind_map_left, map_bind, map_pure]
  rfl

theorem Entry.toBinding_masked (e : Entry) :
    e.masked.toBinding = Binding.masked <$> e.toBinding := by
  simp only [toBinding, masked, map_bind, map_pure, List.mapM_map]
  congr 1
  funext declarations
  have hrefs (o : Occurrence) (_ : o ∈ e.refs) :
      id <$> o.masked.toReference = Reference.masked <$> o.toReference := by
    rw [id_map, Occurrence.toReference_masked]
  refine bind_congr_map (map_mapM_congr e.refs hrefs) fun refs refs' h => ?_
  rw [List.map_id] at h
  rw [h]
  rfl

theorem ScopeType.maskedName_shown (type : ScopeType) (name : Json) :
    type.shown.maskedName name = type.maskedName name := by
  cases type <;> rfl

namespace Graph

theorem treeFrom_masked (fuel : Nat) (s : ScopeId) :
    (g.masked r).treeFrom fuel s = Scope.masked r <$> g.treeFrom fuel s := by
  induction fuel generalizing s with
  | zero => rfl
  | succ fuel ih =>
    simp only [treeFrom, draft_masked, children_masked, entry_masked, map_bind, map_pure]
    simp only [Draft.masked, List.mapM_map]
    congr 1
    funext range
    have hbindings (x : Scalar × EntryId) (_ : x ∈ (g.draft s).bindings) :
        id <$> (do return (x.1.renamed r, ← (g.entry x.2).masked.toBinding) : Except Cause _) =
          (fun y : Scalar × Binding => (y.1.renamed r, y.2.masked)) <$>
            (do return (x.1, ← (g.entry x.2).toBinding) : Except Cause _) := by
      simp [Entry.toBinding_masked]
    refine bind_congr_map (map_mapM_congr _ hbindings) fun bindings bindings' hbound => ?_
    have hchildren (t : ScopeId) (_ : t ∈ g.children s) :
        id <$> (g.masked r).treeFrom fuel t = Scope.masked r <$> g.treeFrom fuel t := by
      rw [id_map, ih]
    refine bind_congr_map (map_mapM_congr _ hchildren) fun children children' hnested => ?_
    rw [List.map_id] at hbound hnested
    rw [Scope.masked, ScopeType.maskedName_shown, Scope.maskedAll_eq, hbound, hnested]

theorem tree_masked (s : ScopeId) : (g.masked r).tree s = Scope.masked r <$> g.tree s := by
  rw [tree, tree, ← treeFrom_masked]
  simp [masked]

end Graph

/-- To finish a graph with renamed names is to rename the names of the finished tree. -/
theorem Builder.finish_masked (hr : Renaming r) (generated : Bool) :
    (b.masked r).finish generated = Scope.masked r <$> b.finish generated := by
  have hroot : (b.masked r).rootScope = b.rootScope := rfl
  unfold finish
  rw [hroot, map_bind]
  congr 1
  funext root
  have hsettle : (b.masked r).graph.settle root (b.masked r).isModule generated =
      Graph.masked r <$> b.graph.settle root b.isModule generated :=
    Graph.settle_masked hr root b.isModule generated
  rw [hsettle, bind_map_left, map_bind]
  simp only [Graph.tree_masked]

/-! ## Analysis -/

theorem collect_renamed (hr : Renaming r) (ast : Json) :
    Builder.masked id <$> collect (ast.renamed r) = Builder.masked r <$> collect ast := by
  unfold collect
  rw [Json.node?_renamed]
  cases ast.node? with
  | none => simp
  | some root =>
    simp only [Option.map_some, Node.isAny_renamed, Cause.malformed_renamed]
    split
    · have hscript : (Path.root (root.renamed r)).script.map (Action.masked id) =
          (Path.root root).script.map (Action.masked r) := Path.script_renamed hr (.root root)
      have hempty (r : String → String) : ({} : Builder).masked r = {} := by
        simp [Builder.masked, Graph.masked]
      rw [Builder.ofTree_eq_replay, Builder.ofTree_eq_replay, ← Builder.replay_masked .refl,
        ← Builder.replay_masked hr, hempty, hempty, hscript]
    · rfl

/-- A consistently renamed tree is analysed like the tree itself: both analyses fail with the same
fault, or the scope trees are the same once the bound names are renamed, but for the names under
which functions are shown and the texts of accessed properties. -/
theorem analyze_renamed (hr : Renaming r) (ast : Json) (generated : Bool) :
    Scope.masked id <$> analyze (ast.renamed r) generated =
      Scope.masked r <$> analyze ast generated := by
  unfold analyze
  rw [map_bind, map_bind]
  refine bind_congr_map (collect_renamed hr ast) fun b b' h => ?_
  rw [← Builder.finish_masked .refl, h, Builder.finish_masked hr]

section Swapped

open Sample

/-- The names `x` and `y` change places. -/
def swapped (name : String) : String :=
  if name = "x" then "y" else if name = "y" then "x" else name

theorem swapped_swapped (name : String) : swapped (swapped name) = name := by
  unfold swapped
  split_ifs <;> simp_all

/-- `x` around a block with a `y` of its own, in which both are read. -/
def swappableProgram : Node :=
  program 20 [declaration "let" "x" 0,
    block 7 20 [declaration "let" "y" 8, reading "x" 15, reading "y" 18]]

theorem analyze_renamed_swapped :
    ∃ tree tree', analyze (.object swappableProgram) false = .ok tree ∧
      analyze ((Json.object swappableProgram).renamed swapped) false = .ok tree' ∧
      tree'.masked id = tree.masked swapped := by
  have hswapped : Renaming swapped :=
    ⟨Function.LeftInverse.injective swapped_swapped, by decide⟩
  have h := analyze_renamed hswapped (.object swappableProgram) false
  obtain ⟨tree, htree⟩ :=
    exists_eq_ok (e := analyze (.object swappableProgram) false) (by decide +kernel)
  obtain ⟨tree', htree'⟩ :=
    exists_eq_ok (e := analyze ((Json.object swappableProgram).renamed swapped) false)
      (by decide +kernel)
  rw [htree, htree'] at h
  exact ⟨tree, tree', htree, htree', Except.ok.inj h⟩

end Swapped

end LexicalScopes
