import LexicalScopes.Proofs.Ranges.Covering
import LexicalScopes.Proofs.Settled

/-!
# Containment of ranges

In the scope tree of a well located program every scope encloses its children and the places where
its names are declared and read, also where a scope is narrower than the node that opens it, where
`var` belongs to an outer scope and where a dissolved layer has handed its names on.
-/

namespace LexicalScopes

/-! ## Regular trees -/

/-- A single program in the plain spelling, without aliases and well located. -/
structure Node.Regular (root : Node) : Prop where
  sole : root.SoleProgram
  aliasFree : root.AliasFree
  plain : root.PlainlySpelled
  located : root.WellLocated

instance (root : Node) : Decidable root.Regular :=
  decidable_of_iff
    (root.SoleProgram ∧ root.AliasFree ∧ root.PlainlySpelled ∧ root.WellLocated)
    ⟨fun ⟨hsole, halias, hplain, hlocated⟩ => ⟨hsole, halias, hplain, hlocated⟩,
      fun ⟨hsole, halias, hplain, hlocated⟩ => ⟨hsole, halias, hplain, hlocated⟩⟩

section Visits

variable {root : Node} {past : List Event} {around : List ScopeId} {p : Path}
  {before after final : Builder}

theorem Visit.mem_of_mem {q : Path} (h : Visit root past around p) (hq : q ∈ p :: p.descendants) :
    q ∈ .root root :: (Path.root root).descendants := by
  rcases List.mem_cons.1 hq with rfl | hq
  · exact h.mem_descendants
  · refine List.mem_cons_of_mem _ ?_
    rcases List.mem_cons.1 h.mem_descendants with rfl | hp
    · exact hq
    · exact Path.mem_descendants_trans hp hq

theorem Visit.orderly (h : Visit root past around p) (hregular : root.Regular) : p.Orderly where
  encloses := (hregular.located p h.mem_descendants).1
  parameter := (hregular.located p h.mem_descendants).2.1
  head := (hregular.located p h.mem_descendants).2.2
  plain q hq := hregular.plain q (h.mem_of_mem hq)
  aliasFree := hregular.aliasFree p h.mem_descendants

theorem Visit.isAny_of_isFunctionName (h : Visit root past around p) (hregular : root.Regular)
    (hname : p.isFunctionName = true) : p.node.isAny ["Identifier"] = true := by
  cases h with
  | root => cases hname
  | child h hkids =>
    exact (Path.isAny_of_isFunctionName (h.orderly hregular).isPlain (by simp [hkids]) hname).2.2

/-- The scopes around a node cover what stands at and below the node, unless it is the name of a
function. -/
theorem Visit.covers (h : Visit root past around p) (hregular : root.Regular)
    (hfinal : Builder.ofTree root = .ok final) (hname : p.isFunctionName = false) :
    ∀ s ∈ around, ∀ q ∈ p :: p.descendants, final.graph.Covers s q.node.place := by
  induction h with
  | root => simp
  | @child past around p c earlier later h hkids ih =>
    intro s hs q hq
    have hc : c ∈ p.kids := by simp [hkids]
    rcases List.mem_append.1 hs with hown | hold
    · obtain ⟨before, after, hpasses⟩ := h.passes hfinal
      obtain ⟨a, heading, ha, hheading, hloc⟩ := hpasses.exists_heading hown
      rw [Graph.Covers, hloc]
      exact (h.orderly hregular).surrounds_kid ha hheading hc hname hq
    · have hparent : p.isFunctionName = false := by
        rw [Bool.eq_false_iff]
        intro hfunction
        rw [Path.kids_of_isIdentifier (h.isAny_of_isFunctionName hregular hfunction)] at hc
        cases hc
      exact ih hparent s hold q (List.mem_cons_of_mem _
        (Path.mem_descendants_iff.2 ⟨c, hc, List.mem_cons.1 hq⟩))

/-- A visit keeps what is contained. -/
theorem Visit.contained (h : Visit root past around p) (hregular : root.Regular)
    (hfinal : Builder.ofTree root = .ok final) (hpasses : Passes past p before after final)
    (hcontained : before.graph.Contained) : after.graph.Contained := by
  cases hname : p.isFunctionName with
  | true =>
    have hnothing :=
      Path.enterActions_of_isFunctionName (h.isAny_of_isFunctionName hregular hname) hname
    have hrun := hpasses.run_enter
    rw [hnothing] at hrun
    cases hrun
    exact hcontained
  | false =>
    have horderly := h.orderly hregular
    have hperforms := performs_enterActions hpasses.run_enter
    refine Builder.contained_replay hpasses.run_enter hperforms hpasses.sound_before hcontained ?_
      (horderly.pairwise_enterActions hpasses.run_enter)
    intro s hs a ha l hl
    have hlt := Builder.lt_of_mem_around hpasses.sound_before hs
    have hgrows := (Builder.replay_grows hpasses.run_enter hpasses.sound_before).trans
      hpasses.grows_rest
    rw [h.around_before hregular.sole hpasses] at hs
    rw [← hgrows.covers_iff hlt]
    exact horderly.surrounds_locs (hperforms a ha) (h.covers hregular hfinal hname s hs) l hl

theorem contained_of_collect (hfinal : collect (.object root) = .ok final)
    (hregular : root.Regular) : final.graph.Contained := by
  have htree := (ofTree_of_collect hfinal).2
  refine Builder.run_induction (P := fun _ b => b.graph.Contained) htree .empty ?_ ?_
  · intro past around p before after hvisit hpasses hcontained
    exact hvisit.contained hregular htree hpasses hcontained
  · intro past p b b' hgraph hcontained
    rwa [hgraph]

end Visits

/-! ## Without the layer -/

namespace Graph

variable {g : Graph} {root lexical layer s t c : ScopeId} {fuel : Nat} {tree : Scope}

/-- Where the three layers have one range, what is contained stays so without the module layer. -/
theorem Contained.dissolveLayer (h : g.Contained) (hg : g.Stacked root lexical layer)
    (hroot : (g.draft root).loc = (g.draft layer).loc)
    (hlexical : (g.draft lexical).loc = (g.draft layer).loc) :
    (g.dissolveLayer root lexical layer).Contained := by
  have hloc : ∀ t, ((g.dissolveLayer root lexical layer).draft t).loc = (g.draft t).loc := by
    intro t
    rw [draft_dissolveLayer hg.lexical_lt]
  constructor
  · intro s p hp
    rw [Covers, hloc, hloc]
    rw [hg.parent?_eq] at hp
    split at hp
    · rename_i hchild
      cases hp
      rw [hlexical]
      exact h.scopes s layer ((hg.linked.mem_children_iff layer hg.layer_lt s).1 hchild)
    · exact h.scopes s p hp
  · intro s n e hfind l hl
    rw [Covers, hloc]
    rw [entry_dissolveLayer] at hl
    rw [hg.find?_eq, Option.or_eq_some_iff] at hfind
    rcases hfind with hmoved | ⟨-, hold⟩
    · -- The heir of the binding has the range of the layer.
      obtain ⟨hlayer, hheir⟩ := Option.filter_eq_some_iff.1 hmoved
      have hcovers := h.entries layer n e hlayer l hl
      rw [Covers] at hcovers
      rcases heir_cases (g := g) (e := e) root lexical with heq | heq <;>
        rw [← of_decide_eq_true hheir, heq] <;> simpa only [hroot, hlexical] using hcovers
    · exact h.entries s n e hold l hl

end Graph

/-! ## The exported tree -/

/-- The scope encloses its children and the places of its bindings. -/
structure Scope.Encloses (scope : Scope) : Prop where
  children : ∀ c ∈ scope.children, scope.range.encloses c.range = .ok true
  declarations : ∀ x ∈ scope.bindings, ∀ r ∈ x.2.declarations,
    scope.range.encloses r = .ok true
  refs : ∀ x ∈ scope.bindings, ∀ r ∈ x.2.refs, scope.range.encloses r.range = .ok true

section Export

open LexicalScopes.Graph

variable {g : Graph} {r s : ScopeId} {fuel : Nat} {tree : Scope} {e : Entry} {b : Binding}

theorem range_of_treeFrom (h : g.treeFrom fuel s = .ok tree) :
    Range.ofLoc (g.draft s).loc = .ok tree.range := by
  cases fuel with
  | zero => cases h
  | succ fuel =>
    obtain ⟨range, hrange, h⟩ := bind_eq_ok.1 h
    obtain ⟨bindings, -, h⟩ := bind_eq_ok.1 h
    obtain ⟨children, -, h⟩ := bind_eq_ok.1 h
    cases h
    exact hrange

theorem range_of_toReference {o : Occurrence} {ref : Reference} (h : o.toReference = .ok ref) :
    Range.ofLoc o.loc = .ok ref.range := by
  obtain ⟨range, hrange, h⟩ := bind_eq_ok.1 h
  obtain ⟨wrappers, -, h⟩ := bind_eq_ok.1 h
  cases h
  exact hrange

/-- The copy of a graph in which everything is contained encloses what it should. -/
theorem Graph.Contained.encloses_of_treeFrom (h : g.Contained) (hg : g.Settled r)
    (hs : g.Reaches r s) (htree : g.treeFrom fuel s = .ok tree) :
    ∀ scope ∈ tree.walk, scope.Encloses := by
  induction fuel generalizing s tree with
  | zero => cases htree
  | succ fuel ih =>
    have hrange := range_of_treeFrom htree
    obtain ⟨range, -, htree⟩ := bind_eq_ok.1 htree
    obtain ⟨bindings, hbindings, htree⟩ := bind_eq_ok.1 htree
    obtain ⟨children, hchildren, htree⟩ := bind_eq_ok.1 htree
    cases htree
    -- Every location of a binding becomes a range that the scope encloses.
    have hentry : ∀ x ∈ bindings, ∃ e, (g.entry e).toBinding = .ok x.2 ∧
        ∀ l ∈ (g.entry e).locs, g.Covers s l := by
      intro x hx
      obtain ⟨⟨name, e⟩, hname, hx⟩ := exists_of_mem_mapM hbindings hx
      obtain ⟨binding, hbinding, hx⟩ := bind_eq_ok.1 hx
      cases hx
      exact ⟨e, hbinding, h.entries s name e (hg.find?_of_mem hname)⟩
    intro scope hscope
    rw [Scope.walk_eq] at hscope
    rcases List.mem_cons.1 hscope with rfl | hscope
    · constructor
      · intro c hc
        obtain ⟨t, ht, hcopy⟩ := exists_of_mem_mapM hchildren hc
        have hcovers := h.scopes t s (hg.parent?_of_mem_children hs ht)
        exact Json.encloses_of_surrounds hcovers hrange (range_of_treeFrom hcopy)
      · intro x hx declaration hdeclaration
        obtain ⟨e, hbinding, hcovers⟩ := hentry x hx
        obtain ⟨l, hl, hread⟩ := exists_of_mem_mapM (mapM_declarations hbinding) hdeclaration
        exact Json.encloses_of_surrounds (hcovers l (List.mem_append_left _ hl)) hrange hread
      · intro x hx ref href
        obtain ⟨e, hbinding, hcovers⟩ := hentry x hx
        obtain ⟨o, ho, hread⟩ := exists_of_mem_mapM (mapM_refs hbinding) href
        have hmem : o.loc ∈ (g.entry e).locs :=
          List.mem_append_right _ (List.mem_map_of_mem ho)
        exact Json.encloses_of_surrounds (hcovers o.loc hmem) hrange (range_of_toReference hread)
    · obtain ⟨c, hc, hscope⟩ := List.mem_flatMap.1 hscope
      obtain ⟨t, ht, hcopy⟩ := exists_of_mem_mapM hchildren hc
      exact ih (hs.tail ht) hcopy scope hscope

end Export

/-! ## Programs -/

section Programs

variable {root : Node} {generated : Bool} {tree : Scope} {final : Builder} {loc : Json} {g : Graph}

/-- The layers have the range of the program. -/
theorem Finished.loc_eq (h : Finished loc final) {s : ScopeId} (hs : s < 3) :
    (final.graph.draft s).loc = loc := by
  have hloc : ∀ s < 3, ∃ header, (Graph.opened loc).headers[s]? = some header ∧
      header.loc = loc := by
    rw [Graph.headers_opened]
    intro s hs
    match s with
    | 0 | 1 | 2 => exact ⟨_, rfl, rfl⟩
  obtain ⟨header, hheader, hloc⟩ := hloc s hs
  exact (congrArg Header.loc (h.header_eq hheader)).trans hloc

/-- The tree of a regular program is the copy of the settled graph. -/
theorem Node.Regular.exists_of_analyze (hregular : root.Regular)
    (h : analyze (.object root) generated = .ok tree) :
    ∃ final loc g, collect (.object root) = .ok final ∧ Finished loc final ∧
      final.graph.settle 0 final.isModule generated = .ok g ∧ g.tree 0 = .ok tree := by
  obtain ⟨final, loc, g, hfinal, -, hfinished, hg, htree⟩ :=
    LexicalScopes.exists_of_analyze hregular.sole hregular.aliasFree h
  exact ⟨final, _, g, hfinal, hfinished, hg, htree⟩

/-- In the scope tree of a regular program every scope encloses its children and the places where
its names are declared and read. -/
theorem scopes_enclose_of_analyze (hregular : root.Regular)
    (h : analyze (.object root) generated = .ok tree) : ∀ scope ∈ tree.walk, scope.Encloses := by
  obtain ⟨final, loc, g, hfinal, hfinished, hg, htree⟩ := hregular.exists_of_analyze h
  have hcontained := contained_of_collect hfinal hregular
  have hsettled := hfinished.settled hg
  rcases hfinished.settle_cases hg with rfl | rfl
  · exact hcontained.encloses_of_treeFrom hsettled .refl htree
  · have hlayers : ∀ s < 2, (final.graph.draft s).loc = (final.graph.draft 2).loc := by
      intro s hs
      rw [hfinished.loc_eq (Nat.lt_succ_of_lt hs), hfinished.loc_eq (by decide)]
    have hcontained' := hcontained.dissolveLayer hfinished.stacked (hlayers 0 (by decide))
      (hlayers 1 (by decide))
    exact hcontained'.encloses_of_treeFrom hsettled .refl htree

end Programs

section Narrow

open Sample

/-- A loop that reads a name in its head and declares a `var` in its body. -/
def narrowLoop : Node :=
  node "ForOfStatement" 15 37 [("left", .object (declaration "let" "x" 19)),
    ("right", .object (identifier "a" 28)),
    ("body", .object (block 30 37 [declaration "var" "y" 31]))]

/-- The loop stands in a function expression with a name and a parameter. -/
def narrowFunction : Node :=
  node "FunctionExpression" 1 38 [("id", .object (identifier "f" 10)),
    ("params", list [identifier "a" 12]), ("body", .object (block 14 38 [narrowLoop]))]

def narrowProgram : Node :=
  program 39 [node "ExpressionStatement" 0 39 [("expression", .object narrowFunction)]]

theorem scopes_enclose_of_analyze_narrow :
    ∃ tree, narrowProgram.Regular ∧ analyze (.object narrowProgram) false = .ok tree ∧
      ∀ scope ∈ tree.walk, scope.Encloses := by
  obtain ⟨tree, htree⟩ :=
    exists_eq_ok (e := analyze (.object narrowProgram) false) (by decide +kernel)
  have hregular : narrowProgram.Regular := by decide +kernel
  exact ⟨tree, hregular, htree, scopes_enclose_of_analyze hregular htree⟩

end Narrow

end LexicalScopes
