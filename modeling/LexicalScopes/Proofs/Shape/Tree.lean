import LexicalScopes.Proofs.Run.Program
import LexicalScopes.Proofs.Samples
import LexicalScopes.Proofs.Shape.Export

/-!
# The shape of the tree

Without its names, the scope tree of a program is the outline of its syntax tree.
-/

namespace LexicalScopes

open LexicalScopes.Graph

variable {root : Node} {final : Builder} {loc : Json} {os : List Outline} {g : Graph}

/-- What a program holds is numbered inside its innermost layer. -/
theorem exists_numbered_of_collect (hfinal : collect (.object root) = .ok final)
    (hsole : root.SoleProgram) :
    ∃ os, (root.AliasFree → Path.allOutlines (Path.root root).kids = .ok os) ∧
      Numbered final.graph (some 2) 3 os final.graph.nextScope := by
  obtain ⟨loc, inner, -, hopened, hrun, rfl⟩ := Builder.exists_run_of_collect hfinal
  have hkids : ∀ c ∈ (Path.root root).kids, c.HoldsNoProgram :=
    fun c hc q hq => hsole q (Path.mem_of_mem_kids hc hq)
  obtain ⟨os, hos, hnumbered⟩ := Builder.numbers_allEvents
    (fun c hc => Builder.numbers_events c (hkids c hc)) (fun c hc => (hkids c hc).not_drifts)
    hopened hrun
  have hnext : (Builder.opened (.object loc)).graph.nextScope = 3 := nextScope_opened
  rw [hnext] at hnumbered
  refine ⟨os, fun halias => hos fun c hc q hq => ?_, hnumbered⟩
  exact halias q (List.mem_cons_of_mem _ (Path.mem_of_mem_kids hc hq))

/-- The innermost layer holds all scopes made after it. -/
theorem segment_layer (hg : g.Forest) (hlayered : g.Layered) :
    g.Segment (some 2) 3 g.nextScope ∧ g.children 2 = g.within (some 2) 3 g.nextScope := by
  -- The layer lies in none of the scopes made before it.
  have hbefore : g.within (some 2) 0 3 = [] := by
    apply within_eq_nil
    intro s _ hs hq
    exact absurd (hg.parent_lt s 2 hq) (Nat.not_lt.2 (Nat.le_of_lt_succ hs))
  constructor
  · refine ⟨?_, Nat.le_refl _, ?_⟩
    · intro q hq
      cases hq
      decide
    · intro s q hq _ _
      exact lt_of_parent? hq
  · rw [hg.children_eq_within hlayered.two_lt,
      within_append (Nat.zero_le 3) hlayered.three_le, hbefore, List.nil_append]

/-- The scopes in the innermost layer are those of the outlines. -/
theorem hasAll_children_layer (hg : g.Forest) (hlayered : g.Layered)
    (h : Numbered g (some 2) 3 os g.nextScope) : g.HasAll (g.children 2) os := by
  obtain ⟨hsegment, hchildren⟩ := segment_layer hg hlayered
  rw [hchildren]
  exact h.hasAll hg hsegment

/-- From the innermost layer on inwards, scopes hold only scopes inside the layer. -/
theorem Graph.Forest.inner_of_mem_children (hg : g.Forest) {s c : ScopeId} (hs : 2 ≤ s)
    (hlt : s < g.nextScope) (hc : c ∈ g.children s) : 2 < c ∧ c < g.nextScope := by
  obtain ⟨hsc, hcn⟩ := hg.lt_of_mem_children hlt hc
  exact ⟨Nat.lt_of_le_of_lt hs hsc, hcn⟩

/-- The scopes inside the module layer keep their children when it is dissolved. -/
theorem children_dissolveLayer_of_inner (hlayered : g.Layered) {s : ScopeId} (hs : 2 < s) :
    (g.dissolveLayer 0 1 2).children s = g.children s := by
  rw [children_dissolveLayer hlayered.one_lt, if_neg]
  intro heq
  rw [heq] at hs
  exact absurd hs (by decide)

/-- The layers of a program have the outline of a program that keeps its module layer. -/
theorem has_of_finished (h : Finished loc final)
    (hos : final.graph.HasAll (final.graph.children 2) os) :
    final.graph.Has 0 (.mk ⟨.object, .string "Global", loc⟩
      [.mk ⟨.block, .string "Lexical Global", loc⟩
        [.mk ⟨.moduleLayer, .string "Module", loc⟩ os]]) := by
  have hroot := h.header_eq (s := 0) (by rw [headers_opened]; rfl)
  have hlexical := h.header_eq (s := 1) (by rw [headers_opened]; rfl)
  have hlayer := h.header_eq (s := 2) (by rw [headers_opened]; rfl)
  obtain ⟨hkids, hkids'⟩ := h.layered.children_eq h.sound.valid.forest
  refine ⟨congrArg Header.type hroot, congrArg Header.name hroot, congrArg Header.loc hroot, ?_⟩
  rw [hkids]
  refine ⟨⟨congrArg Header.type hlexical, congrArg Header.name hlexical,
    congrArg Header.loc hlexical, ?_⟩, trivial⟩
  rw [hkids']
  exact ⟨⟨congrArg Header.type hlayer, congrArg Header.name hlayer, congrArg Header.loc hlayer,
    hos⟩, trivial⟩

/-- Dissolving the module layer leaves all scopes but the layer, and the lexical scope around what
the layer held. -/
theorem has_dissolveLayer (h : Finished loc final)
    (hos : final.graph.HasAll (final.graph.children 2) os) :
    (final.graph.dissolveLayer 0 1 2).Has 0 (.mk ⟨.object, .string "Global", loc⟩
      [.mk ⟨.block, .string "Lexical Global", loc⟩ os]) := by
  have hroot := h.header_eq (s := 0) (by rw [headers_opened]; rfl)
  have hlexical := h.header_eq (s := 1) (by rw [headers_opened]; rfl)
  have hlt := h.layered.one_lt
  have hforest := h.sound.valid.forest
  have hdraft : ∀ t, (final.graph.dissolveLayer 0 1 2).draft t = _ :=
    fun t => draft_dissolveLayer hlt
  have hchildren : ∀ t, (final.graph.dissolveLayer 0 1 2).children t = _ :=
    fun t => children_dissolveLayer hlt
  -- Below the layer every scope shows the same of itself as before.
  have hsame : ∀ t, 2 < t ∧ t < final.graph.nextScope →
      final.graph.SameScope (final.graph.dissolveLayer 0 1 2) t := by
    intro t ht
    refine ⟨?_, ?_, ?_, children_dissolveLayer_of_inner h.layered ht.1⟩
    · rw [hdraft]
    · rw [hdraft]
    · rw [hdraft]
  have hbelow := Graph.HasAll.transfer hsame
    (fun t ht c hc => hforest.inner_of_mem_children (Nat.le_of_lt ht.1) ht.2 hc) os
    (fun c hc => hforest.inner_of_mem_children (Nat.le_refl 2) h.layered.two_lt hc) hos
  refine ⟨?_, ?_, ?_, ?_⟩
  · rw [hdraft]
    exact congrArg Header.type hroot
  · rw [hdraft]
    exact congrArg Header.name hroot
  · rw [hdraft]
    exact congrArg Header.loc hroot
  rw [hchildren, if_neg Nat.zero_ne_one, (h.layered.children_eq hforest).1]
  refine ⟨⟨?_, ?_, ?_, ?_⟩, trivial⟩
  · rw [hdraft]
    exact congrArg Header.type hlexical
  · rw [hdraft]
    exact congrArg Header.name hlexical
  · rw [hdraft]
    exact congrArg Header.loc hlexical
  rw [hchildren, if_pos rfl]
  exact hbelow

/-- The scope tree of a program is its outline, with the names that the scopes bind. -/
theorem outline_eq_bare_of_analyze {generated : Bool} {tree : Scope}
    (h : analyze (.object root) generated = .ok tree) (hsole : root.SoleProgram)
    (halias : root.AliasFree) :
    ∃ final r, collect (.object root) = .ok final ∧ final.root = some r ∧
      (root.outline (final.graph.keepsModule r final.isModule generated) >>= Outline.toScope) =
        .ok tree.bare := by
  obtain ⟨final, hfinal, h⟩ := bind_eq_ok.1 h
  obtain ⟨r, hr, h⟩ := bind_eq_ok.1 h
  obtain ⟨g, hg, htree⟩ := bind_eq_ok.1 h
  obtain ⟨loc, hloc, hfinished⟩ := finished_of_collect hfinal
    (root.isInner_of_soleProgram hsole halias.isAny_program)
  have hzero : r = 0 := by
    rw [Builder.rootScope, hfinished.root_eq] at hr
    exact (Except.ok.inj hr).symm
  subst hzero
  refine ⟨final, 0, hfinal, hfinished.root_eq, ?_⟩
  obtain ⟨os, hos, hnumbered⟩ := exists_numbered_of_collect hfinal hsole
  have hforest := hfinished.sound.valid.forest
  have hall := hasAll_children_layer hforest hfinished.layered hnumbered
  rw [Graph.settle] at hg
  -- The layer is shown as a scope of its own, or its place is taken by what it holds.
  cases hkeeps : final.graph.keepsModule 0 final.isModule generated with
  | true =>
    rw [hkeeps, if_pos rfl] at hg
    cases hg
    rw [Node.outline, hloc, ok_bind, hos halias, ok_bind, if_pos rfl]
    exact toScope_of_has htree (has_of_finished hfinished hall)
  | false =>
    rw [hkeeps, if_neg Bool.false_ne_true, Graph.dissolve,
      hfinished.layered.layers_eq hforest] at hg
    cases hg
    rw [Node.outline, hloc, ok_bind, hos halias, ok_bind, if_neg Bool.false_ne_true]
    exact toScope_of_has htree (has_dissolveLayer hfinished hall)

section Nested

open Sample

/-- A block that declares a name for itself. -/
def nestedProgram : Node := program 12 [block 0 12 [declaration "let" "x" 2]]

theorem outline_eq_bare_of_analyze_nested :
    ∃ tree final r, analyze (.object nestedProgram) false = .ok tree ∧
      collect (.object nestedProgram) = .ok final ∧ final.root = some r ∧
      (nestedProgram.outline (final.graph.keepsModule r final.isModule false) >>=
        Outline.toScope) = .ok tree.bare := by
  obtain ⟨tree, htree⟩ :=
    exists_eq_ok (e := analyze (.object nestedProgram) false) (by decide +kernel)
  obtain ⟨final, r, hfinal, hroot, houtline⟩ :=
    outline_eq_bare_of_analyze htree (by decide +kernel) (by decide +kernel)
  exact ⟨tree, final, r, htree, hfinal, hroot, houtline⟩

end Nested

end LexicalScopes
