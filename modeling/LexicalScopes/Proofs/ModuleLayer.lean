import LexicalScopes.Proofs.ModuleLayer.Evidence
import LexicalScopes.Proofs.Samples

/-!
# The module layer in the tree

The scope of global `let` and `const` holds the module layer and nothing else if the layer is kept.
If it is dissolved, it holds what the layer held, and no scope of the source looks like the layer.
So the tree tells whether the source was taken for a module, and it was taken for one exactly if
something in it spoke for that.
-/

namespace LexicalScopes

/-! ## Scopes of the source -/

/-- The scope is made under the heading of the module layer, as the tree shows it. -/
def Heading.LooksLikeModule (heading : Heading) : Prop :=
  heading.type.shown = .block ∧ heading.name = .string "Module"

/-- The outermost scope of an outline. -/
def Outline.heading : Outline → Heading
  | .mk heading _ => heading

section Headings

variable {n : Node} {p : Path} {reason : Bool} {type : ScopeType} {label : String}
  {headings : List Heading} {os below : List Outline}

theorem name_of_coveringIf (h : n.coveringIf reason type label = .ok headings) :
    ∀ heading ∈ headings, heading.name = .string label := by
  cases reason with
  | false =>
    cases h
    simp
  | true =>
    rw [Node.coveringIf, if_pos rfl] at h
    obtain ⟨heading, hheading, h⟩ := bind_eq_ok.1 h
    obtain ⟨loc, -, hheading⟩ := bind_eq_ok.1 hheading
    cases hheading
    cases h
    simp

theorem name_of_loopScopes (h : n.loopScopes = .ok headings) :
    ∀ heading ∈ headings, heading.name = .string "For" := by
  unfold Node.loopScopes at h
  split at h
  · obtain ⟨start, -, h⟩ := bind_eq_ok.1 h
    obtain ⟨loc, -, h⟩ := bind_eq_ok.1 h
    cases h
    simp
  · cases h
    simp

theorem not_looksLikeModule_of_coveringIf (hlabel : label ≠ "Module")
    (h : n.coveringIf reason type label = .ok headings) :
    ∀ heading ∈ headings, ¬ heading.LooksLikeModule := by
  intro heading hmem hlooks
  have hname := (name_of_coveringIf h heading hmem).symm.trans hlooks.2
  cases hname
  exact hlabel rfl

/-- No scope that a node contributes looks like the module layer: the scopes of functions are no
blocks, and all blocks have other names. -/
theorem not_looksLikeModule_of_contributed (h : p.contributed = .ok headings) :
    ∀ heading ∈ headings, ¬ heading.LooksLikeModule := by
  obtain ⟨field, hfield, h⟩ := bind_eq_ok.1 h
  obtain ⟨own, hown, h⟩ := bind_eq_ok.1 h
  cases h
  refine List.forall_mem_append.2
    ⟨not_looksLikeModule_of_coveringIf (by decide) hfield, ?_⟩
  unfold Path.typeScopes at hown
  dsimp only at hown
  split at hown
  · obtain ⟨wrapper, hwrapper, hown⟩ := bind_eq_ok.1 hown
    obtain ⟨name, -, hown⟩ := bind_eq_ok.1 hown
    obtain ⟨range, -, hown⟩ := bind_eq_ok.1 hown
    cases hown
    refine List.forall_mem_append.2
      ⟨not_looksLikeModule_of_coveringIf (by decide) hwrapper, ?_⟩
    simp [Heading.LooksLikeModule, ScopeType.shown]
  · split at hown
    · exact not_looksLikeModule_of_coveringIf (by decide) hown
    · split at hown
      · intro heading hmem hlooks
        exact absurd ((name_of_loopScopes hown heading hmem).symm.trans hlooks.2) (by decide)
      · split at hown
        · exact not_looksLikeModule_of_coveringIf (by decide) hown
        · split at hown
          · exact not_looksLikeModule_of_coveringIf (by decide) hown
          · split at hown
            · exact not_looksLikeModule_of_coveringIf (by decide) hown
            · cases hown
              simp

/-- The outermost scopes are among those of the nodes. -/
theorem Outline.mem_nest {o : Outline} (h : o ∈ Outline.nest headings below) :
    o.heading ∈ headings ∨ o ∈ below := by
  cases headings with
  | nil => exact .inr h
  | cons heading rest =>
    rw [Outline.nest, List.mem_singleton] at h
    subst h
    exact .inl List.mem_cons_self

theorem not_looksLikeModule_of_allOutlines {ps : List Path}
    (hps : ∀ p ∈ ps, ∀ os, p.outlines = .ok os → ∀ o ∈ os, ¬ o.heading.LooksLikeModule)
    (h : Path.allOutlines ps = .ok os) : ∀ o ∈ os, ¬ o.heading.LooksLikeModule := by
  obtain ⟨lists, hlists, h⟩ := bind_eq_ok.1 h
  cases h
  intro o ho
  obtain ⟨list, hlist, ho⟩ := List.mem_flatten.1 ho
  obtain ⟨p, hp, houtlines⟩ := exists_of_mem_mapM hlists hlist
  exact hps p hp list houtlines o ho

theorem not_looksLikeModule_of_outlines (p : Path) :
    ∀ os, p.outlines = .ok os → ∀ o ∈ os, ¬ o.heading.LooksLikeModule := by
  induction p using Path.induction_on_kids with
  | step p ih =>
    intro os h
    rw [Path.outlines_eq] at h
    obtain ⟨own, hown, h⟩ := bind_eq_ok.1 h
    obtain ⟨below, hbelow, h⟩ := bind_eq_ok.1 h
    cases h
    intro o ho
    rcases Outline.mem_nest ho with hheading | hmem
    · exact not_looksLikeModule_of_contributed hown o.heading hheading
    · exact not_looksLikeModule_of_allOutlines ih hbelow o hmem

end Headings

namespace Graph

variable {g : Graph} {s : ScopeId} {scope : Scope}

theorem Has.heading_eq {o : Outline} (h : g.Has s o) : (g.draft s).heading = o.heading := by
  cases o
  obtain ⟨htype, hname, hloc, -⟩ := h
  simp [Draft.heading, Outline.heading, htype, hname, hloc]

theorem HasAll.exists_of_mem {ss : List ScopeId} {os : List Outline} (h : g.HasAll ss os)
    (hs : s ∈ ss) : ∃ o ∈ os, g.Has s o := by
  induction ss generalizing os with
  | nil => cases hs
  | cons t ss ih =>
    cases os with
    | nil => cases h
    | cons o os =>
      rcases List.mem_cons.1 hs with rfl | hs
      · exact ⟨o, List.mem_cons_self, h.1⟩
      · obtain ⟨o', ho', hhas⟩ := ih h.2 hs
        exact ⟨o', List.mem_cons_of_mem _ ho', hhas⟩

end Graph

/-! ## The tree -/

/-- The scope holds the module layer and nothing else. -/
def Scope.HoldsModule (lexical : Scope) : Prop :=
  ∃ layer, lexical.children = [layer] ∧ layer.type = .block ∧ layer.name = .string "Module"

section Settled

open LexicalScopes.Graph

variable {root loc : Node} {final : Builder} {generated : Bool} {g : Graph} {tree : Scope}
  {os : List Outline}

/-- Without the layer, the lexical scope holds the scopes of the source, which do not look like the
layer. -/
theorem not_holdsModule_of_dissolved {lexical : Scope} (h : Finished (.object loc) final)
    (hhas : final.graph.HasAll (final.graph.children 2) os)
    (hos : ∀ o ∈ os, ¬ o.heading.LooksLikeModule)
    (hcopied : (final.graph.dissolveLayer 0 1 2).Copied 1 lexical) : ¬ lexical.HoldsModule := by
  rintro ⟨layer, hlayer, htype, hname⟩
  have hchildren := hcopied.children
  rw [children_dissolveLayer h.layered.one_lt, if_pos rfl, hlayer] at hchildren
  obtain ⟨c, hc, hlayerCopied⟩ := exists_of_forall₂_left hchildren.flip List.mem_cons_self
  obtain ⟨o, ho, hc⟩ := hhas.exists_of_mem hc
  have hlayerCopied : (final.graph.dissolveLayer 0 1 2).Copied c layer := hlayerCopied
  have hheading : ((final.graph.dissolveLayer 0 1 2).draft c).heading = o.heading :=
    (heading_dissolveLayer h.layered.one_lt).trans hc.heading_eq
  refine hos o ho ?_
  rw [← hheading]
  exact ⟨hlayerCopied.type_eq.symm.trans htype, hlayerCopied.name_eq.symm.trans hname⟩

/-- The lexical scope of a tree holds the module layer exactly if the layer is kept. -/
theorem holdsModule_iff (hfinal : collect (.object root) = .ok final) (hsole : root.SoleProgram)
    (halias : root.AliasFree) (hloc : root.loc = .ok loc) (h : Finished (.object loc) final)
    (hg : final.graph.settle 0 final.isModule generated = .ok g) (htree : g.tree 0 = .ok tree) :
    ∃ lexical, tree.children = [lexical] ∧ lexical.type = .block ∧
      lexical.name = .string "Lexical Global" ∧
      (lexical.HoldsModule ↔ final.graph.keepsModule 0 final.isModule generated = true) := by
  obtain ⟨lexical, hchildren, htype, hname, hlayers⟩ :=
    (outerLayers_of_settle hfinal hloc h hg htree).lexical
  refine ⟨lexical, hchildren, htype, hname, ?_⟩
  have hgraph := h.settle_eq hg
  cases hkeeps : final.graph.keepsModule 0 final.isModule generated with
  | true =>
    rw [hkeeps, if_pos rfl] at hlayers
    exact iff_of_true hlayers.2.2 rfl
  | false =>
    rw [hkeeps, if_neg Bool.false_ne_true] at hgraph
    subst hgraph
    obtain ⟨os, houtlines, hnumbered⟩ := exists_numbered_of_collect hfinal hsole
    have hos := not_looksLikeModule_of_allOutlines
      (fun p _ => not_looksLikeModule_of_outlines p) (houtlines halias)
    have hhas := hasAll_children_layer h.sound.valid.forest h.layered hnumbered
    have hcopied : (final.graph.dissolveLayer 0 1 2).Copied 0 tree := ⟨_, htree⟩
    have hkids := hcopied.children
    rw [h.children_settle_root hg, hchildren] at hkids
    have hlexical := (List.forall₂_cons.1 hkids).1
    exact iff_of_false (not_holdsModule_of_dissolved h hhas hos hlexical) Bool.false_ne_true

end Settled

/-- The scope of global `let` and `const` holds the module layer, and nothing else, exactly if the
source has an import or an export, or if it is not generated and an identifier in it reads a name of
the host that, by then, none of the scopes around it but the root binds. -/
theorem module_layer_kept_iff {root : Node} {generated : Bool} {tree : Scope}
    (h : analyze (.object root) generated = .ok tree) (hsole : root.SoleProgram)
    (halias : root.AliasFree) :
    ∃ final r lexical, collect (.object root) = .ok final ∧ final.root = some r ∧
      tree.children = [lexical] ∧ lexical.type = .block ∧
      lexical.name = .string "Lexical Global" ∧
      (lexical.HoldsModule ↔
        (∃ p ∈ .root root :: (Path.root root).descendants,
          p.node.isAny NodeType.moduleStatements = true) ∨
        generated = false ∧ ∃ past around p before after name, Visit root past around p ∧
          Passes past p before after final ∧ p.ReadsHost after r name) := by
  obtain ⟨final, loc, g, hfinal, hloc, hfinished, hg, htree⟩ := exists_of_analyze hsole halias h
  obtain ⟨lexical, hchildren, htype, hname, hholds⟩ :=
    holdsModule_iff hfinal hsole halias hloc hfinished hg htree
  refine ⟨final, 0, lexical, hfinal, hfinished.root_eq, hchildren, htype, hname, ?_⟩
  rw [hholds, Graph.keepsModule, Bool.or_eq_true, Bool.and_eq_true, Bool.not_eq_true',
    isModule_iff hfinal halias, readsHostNames_iff hfinal hsole hfinished.sound.valid.owns]

section CommonJs

open Sample

/-- A name of the host is read, first in a block that declares it and then where nothing does. -/
def commonJsProgram : Node :=
  program 38 [block 0 28 [declaration "let" "require" 2, reading "require" 15],
    reading "exports" 30]

theorem module_layer_kept_iff_commonJs :
    ∃ tree, analyze (.object commonJsProgram) false = .ok tree ∧
      ∃ final r lexical, collect (.object commonJsProgram) = .ok final ∧ final.root = some r ∧
        tree.children = [lexical] ∧ lexical.type = .block ∧
        lexical.name = .string "Lexical Global" ∧
        (lexical.HoldsModule ↔
          (∃ p ∈ .root commonJsProgram :: (Path.root commonJsProgram).descendants,
            p.node.isAny NodeType.moduleStatements = true) ∨
          false = false ∧ ∃ past around p before after name, Visit commonJsProgram past around p ∧
            Passes past p before after final ∧ p.ReadsHost after r name) := by
  obtain ⟨tree, htree⟩ :=
    exists_eq_ok (e := analyze (.object commonJsProgram) false) (by decide +kernel)
  exact ⟨tree, htree, module_layer_kept_iff htree (by decide +kernel) (by decide +kernel)⟩

end CommonJs

end LexicalScopes
