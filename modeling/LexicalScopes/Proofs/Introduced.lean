import LexicalScopes.Proofs.Introduced.Names
import LexicalScopes.Proofs.Placement.Layers
import LexicalScopes.Proofs.Samples

/-!
# Implicit bindings

A binding is implicit exactly if its name was introduced in its scope, and it has no declarations
exactly if no node declares its name there. What nobody declares was introduced. But a name that is
introduced first and declared afterwards keeps the kind with which it was introduced, so a binding
can be implicit and have declarations all the same.
-/

namespace LexicalScopes

/-- A node of the tree introduces the name in the scope. -/
def Node.IntroducesIn (root : Node) (s : ScopeId) (name : String) : Prop :=
  ∃ past around p, Visit root past around p ∧ p.IntroducesIn past s name

/-- A node of the tree declares the name in the scope. -/
def Node.DeclaresIn (root : Node) (final : Builder) (s : ScopeId) (name : Scalar) : Prop :=
  ∃ past around p before after bound, Visit root past around p ∧
    Passes past p before after final ∧ bound.name.key = name.key ∧
    Graph.Declares before.graph after.graph final.graph s bound

section Graphs

variable {g : Graph} {s t : ScopeId} {name n : Scalar} {kind : BindingKind} {loc : Json}
  {e : EntryId}

/-- A new binding records the place of its declaration. -/
theorem Graph.declarations_ne_nil_of_new (hg : g.OwnsEntries) (hs : s < g.nextScope)
    (hnew : g.find? t n = none) (h : (g.declare s name kind (some loc)).find? t n = some e) :
    ((g.declare s name kind (some loc)).entry e).declarations ≠ [] := by
  rw [find?_declare hs] at h
  split at h
  · cases h
    rw [declarations_declare (hg.lt_of_find? s name), if_pos rfl]
    simp
  · rw [hnew] at h
    cases h

/-- The first place that is recorded at a binding is that of a name which is declared there. -/
theorem Graph.Records.exists_declares {g' final : Graph} {declared : Option BoundName}
    (h : Records g g' declared) (hgrows : Grows g' final) (hnone : (g.entry e).declarations = [])
    (hsome : (g'.entry e).declarations ≠ []) :
    ∃ s bound, final.find? s bound.name = some e ∧ Declares g g' final s bound := by
  cases h with
  | nothing hsame => exact absurd ((hsame e).trans hnone) hsome
  | @one s e' bound hfind hadds =>
    have hplaces := hadds e
    rw [hnone, List.nil_append] at hplaces
    split at hplaces
    · rename_i heq
      subst heq
      have hfinal := hgrows.find? s _ _ hfind
      obtain ⟨more, hmore⟩ := hgrows.declarations e
      rw [hplaces] at hmore
      refine ⟨s, bound, hfinal, e, 0, hfinal, ?_, List.length_pos_of_ne_nil hsome, ?_⟩
      · rw [hnone]
        exact Nat.le_refl 0
      · rw [← hmore]
        rfl
    · exact absurd hplaces hsome

end Graphs

namespace Builder

variable {b b' final : Builder} {a : Action} {actions : List Action} {s : ScopeId} {n : Scalar}
  {e : EntryId}

/-- Bindings without declarations are implicit. -/
def UndeclaredImplicit (b : Builder) : Prop :=
  ∀ s n e, b.graph.find? s n = some e → (b.graph.entry e).declarations = [] →
    (b.graph.entry e).kind = .implicit

theorem Does.undeclaredImplicit (h : Does b a b') (hb : b.Sound)
    (himplicit : b.UndeclaredImplicit) : b'.UndeclaredImplicit := by
  intro s n e hfind hnone
  have hgrows := Graph.Steps.grows (h.sound hb).1 hb.valid
  rcases hold : b.graph.find? s n with _ | e'
  · rcases h.find?_cases hb hfind with hsame | ⟨name, kind, hgives, -, hkind⟩
    · rw [hold] at hsame
      cases hsame
    · cases h with
      | introduce hs names =>
        cases hgives
        exact hkind
      | declare hs bound kind =>
        exact absurd hnone (Graph.declarations_ne_nil_of_new hb.valid.owns (hb.current_lt _ hs)
          hold hfind)
      | hoist hs bound =>
        exact absurd hnone (Graph.declarations_ne_nil_of_new hb.valid.owns
          (Graph.varScope_lt hb.valid.forest (hb.current_lt _ hs)) hold hfind)
      | declareFunction hs bound =>
        exact absurd hnone (Graph.declarations_ne_nil_of_new hb.valid.owns (hb.current_lt _ hs)
          hold hfind)
      | _ => cases hgives
  · cases (hgrows.find? s n e' hold).symm.trans hfind
    rw [hgrows.kind e (hb.valid.owns.lt_of_find? s n e hold)]
    have hprefix := hgrows.declarations e
    rw [hnone, List.prefix_nil] at hprefix
    exact himplicit s n e hold hprefix

theorem undeclaredImplicit_replay (h : b.replay actions = .ok b') (hb : b.Sound)
    (himplicit : b.UndeclaredImplicit) : b'.UndeclaredImplicit := by
  induction actions generalizing b with
  | nil =>
    cases h
    exact himplicit
  | cons a actions ih =>
    obtain ⟨b₁, hdoes, hrest⟩ := replay_cons_cases h
    exact ih hrest (hdoes.sound hb).2 (hdoes.undeclaredImplicit hb himplicit)

/-- The first declaration of a binding declares its name in its scope. -/
theorem exists_declares_of_replay (h : b.replay actions = .ok b') (hb : b.Sound)
    (hgrows : Graph.Grows b'.graph final.graph) (hnone : (b.graph.entry e).declarations = [])
    (hsome : (b'.graph.entry e).declarations ≠ []) :
    ∃ s bound, final.graph.find? s bound.name = some e ∧
      Graph.Declares b.graph b'.graph final.graph s bound := by
  induction actions generalizing b with
  | nil =>
    cases h
    exact absurd hnone hsome
  | cons a actions ih =>
    obtain ⟨b₁, hdoes, hrest⟩ := replay_cons_cases h
    obtain ⟨hsteps, hb₁⟩ := hdoes.sound hb
    have hlater := replay_grows hrest hb₁
    by_cases hfirst : (b₁.graph.entry e).declarations = []
    · obtain ⟨s, bound, hfind, hdeclares⟩ := ih hrest hb₁ hfirst
      exact ⟨s, bound, hfind, hdeclares.mono (Graph.Steps.grows hsteps hb.valid) (.refl _)⟩
    · obtain ⟨s, bound, hfind, hdeclares⟩ :=
        (hdoes.records hb).exists_declares (hlater.trans hgrows) hnone hfirst
      exact ⟨s, bound, hfind, hdeclares.mono (.refl _) hlater⟩

end Builder

/-! ## Runs -/

section Runs

variable {root : Node} {final : Builder} {s : ScopeId} {n : Scalar} {e : EntryId}

theorem undeclaredImplicit_of_collect (hfinal : collect (.object root) = .ok final) :
    final.UndeclaredImplicit := by
  refine Builder.undeclaredImplicit_replay
    (Builder.run_events_of_ofTree (ofTree_of_collect hfinal).2) .empty ?_
  intro s n e hfind
  rw [Graph.find?_of_le (Nat.zero_le s)] at hfind
  cases hfind

/-- A binding is implicit exactly if its name was introduced in its scope. -/
theorem implicit_iff_introducesIn (hfinal : collect (.object root) = .ok final)
    (hname : ∀ p ∈ .root root :: (Path.root root).descendants, p.node.isAny ["program"] = false)
    (hfind : final.graph.find? s n = some e) :
    (final.graph.entry e).kind = .implicit ↔
      ∃ name, n = .string name ∧ root.IntroducesIn s name := by
  have htree := (ofTree_of_collect hfinal).2
  constructor
  · refine Builder.run_induction (P := fun _ b => ∀ s n e, b.graph.find? s n = some e →
      (b.graph.entry e).kind = .implicit → ∃ name, n = .string name ∧ root.IntroducesIn s name)
      htree ?_ ?_ ?_ s n e hfind
    · intro s n e hfind
      rw [Graph.find?_of_le (Nat.zero_le s)] at hfind
      cases hfind
    · intro past around p before after hvisit hpasses hbefore s n e hfind hkind
      have hintroduces := hpasses.introduces (hname p hvisit.mem_descendants)
      have hb := hpasses.sound_before
      rcases hintroduces.cases_of_implicit hfind hkind with hold | ⟨name, hn, hnew⟩
      · have hgrows := Builder.replay_grows hpasses.run_enter hb
        rw [hgrows.kind e (hb.valid.owns.lt_of_find? s n e hold)] at hkind
        exact hbefore s n e hold hkind
      · exact ⟨name, hn, past, around, p, hvisit, hnew⟩
    · intro past p b b' hgraph hb
      rwa [hgraph]
  · rintro ⟨name, rfl, past, around, p, hvisit, hnew⟩
    obtain ⟨before, after, hpasses⟩ := hvisit.passes htree
    obtain ⟨e', he', hkind⟩ :=
      (hpasses.introduces (hname p hvisit.mem_descendants)).exists_implicit hnew
    have hgrows := hpasses.grows_rest
    cases (hgrows.find? s _ e' he').symm.trans hfind
    rw [hgrows.kind e (hpasses.sound_after.valid.owns.lt_of_find? s _ e he'), hkind]

/-- A binding has declarations exactly if a node declares its name in its scope. -/
theorem declarations_ne_nil_iff (hfinal : collect (.object root) = .ok final)
    (hvalid : final.graph.OwnsEntries) (hfind : final.graph.find? s n = some e) :
    (final.graph.entry e).declarations ≠ [] ↔ root.DeclaresIn final s n := by
  constructor
  · intro hsome
    obtain ⟨t, past, around, p, before, after, bound, hvisit, hpasses, hbound, hdeclares⟩ :
        ∃ t past around p before after bound, Visit root past around p ∧
          Passes past p before after final ∧ final.graph.find? t bound.name = some e ∧
          Graph.Declares before.graph after.graph final.graph t bound := by
      refine Builder.run_induction (P := fun _ b => ∀ e, (b.graph.entry e).declarations ≠ [] →
        ∃ t past around p before after bound, Visit root past around p ∧
          Passes past p before after final ∧ final.graph.find? t bound.name = some e ∧
          Graph.Declares before.graph after.graph final.graph t bound)
        (ofTree_of_collect hfinal).2 ?_ ?_ ?_ e hsome
      · intro e hsome
        rw [Graph.entry_of_le (Nat.zero_le e)] at hsome
        exact absurd rfl hsome
      · intro past around p before after hvisit hpasses hbefore e hsome
        by_cases hnone : (before.graph.entry e).declarations = []
        · obtain ⟨t, bound, hbound, hdeclares⟩ := Builder.exists_declares_of_replay
            hpasses.run_enter hpasses.sound_before hpasses.grows_rest hnone hsome
          exact ⟨t, past, around, p, before, after, bound, hvisit, hpasses, hbound, hdeclares⟩
        · exact hbefore e hnone
      · intro past p b b' hgraph hb
        rwa [hgraph]
    obtain ⟨rfl, hkey⟩ := hvalid.find?_inj _ _ _ _ _ hbound hfind
    exact ⟨past, around, p, before, after, bound, hvisit, hpasses, hkey, hdeclares⟩
  · rintro ⟨past, around, p, before, after, bound, -, -, hkey, e', k, he', -, -, hplace⟩ hnone
    rw [Graph.find?_congr hkey, hfind] at he'
    cases he'
    rw [hnone] at hplace
    cases hplace

end Runs

/-! ## The tree -/

section Trees

open LexicalScopes.Graph

variable {root : Node} {final : Builder} {loc : Json} {generated : Bool} {g : Graph} {tree : Scope}
  {os : List Outline}

theorem declarations_eq_nil_iff {entry : Entry} {b : Binding} (h : entry.toBinding = .ok b) :
    b.declarations = [] ↔ entry.declarations = [] := by
  have hlength := (mapM_eq_ok.1 (mapM_declarations h)).length_eq
  rw [← List.length_eq_zero_iff, ← List.length_eq_zero_iff, hlength]

/-- Every binding of the tree is one of the graph. -/
theorem exists_entry_of_mem_walk (h : Finished loc final)
    (hg : final.graph.settle 0 final.isModule generated = .ok g) (htree : g.tree 0 = .ok tree)
    {scope : Scope} {x : Scalar × Binding} (hscope : scope ∈ tree.walk) (hx : x ∈ scope.bindings) :
    ∃ s e, final.graph.find? s x.1 = some e ∧ (final.graph.entry e).toBinding = .ok x.2 := by
  obtain ⟨s, -, hcopied⟩ := exists_of_forall₂_left (forall₂_copied htree).flip hscope
  have hcopied : g.Copied s scope := hcopied
  obtain ⟨y, hy, hname, hbinding⟩ := hcopied.exists_of_mem hx
  obtain ⟨t, hfind⟩ := h.exists_find?_of_settle hg ((h.settled hg).find?_of_mem hy)
  rw [h.entry_settle hg] at hbinding
  exact ⟨t, y.2, hname ▸ hfind, hbinding⟩

/-- Every binding with a declaration is one of the tree. -/
theorem exists_mem_walk_of_entry (h : Finished loc final)
    (hg : final.graph.settle 0 final.isModule generated = .ok g) (htree : g.tree 0 = .ok tree)
    (hnumbered : Numbered final.graph (some 2) 3 os final.graph.nextScope) {s : ScopeId}
    {n : Scalar} {e : EntryId} (hfind : final.graph.find? s n = some e)
    (hsome : (final.graph.entry e).declarations ≠ []) :
    ∃ scope ∈ tree.walk, ∃ x ∈ scope.bindings, (final.graph.entry e).toBinding = .ok x.2 := by
  have hle : 2 ≤ s := by
    by_contra hlt
    have huntouched := h.untouched s (Nat.lt_of_not_le hlt)
    have hopened := hfind
    rw [huntouched.find?_eq] at hopened
    rw [huntouched.declarations_eq n e hopened] at hsome
    exact hsome declarations_opened
  obtain ⟨b, hb, scope, hscope, -, x, hx, -, rfl⟩ :=
    h.exists_displays hg hnumbered htree hle (lt_of_find? hfind) hfind
  exact ⟨scope, hscope, x, hx, hb⟩

end Trees

/-- What has no declarations is implicit. What is implicit has no declarations, everywhere in the
tree, exactly if no node declares a name in a scope in which a node introduces it. -/
theorem implicit_iff_undeclared_iff {root : Node} {generated : Bool} {tree : Scope}
    (h : analyze (.object root) generated = .ok tree) (hsole : root.SoleProgram)
    (hname : ∀ p ∈ (Path.root root).descendants, p.node.isAny ["program"] = false) :
    ∃ final, collect (.object root) = .ok final ∧
      (∀ scope ∈ tree.walk, ∀ x ∈ scope.bindings,
        x.2.declarations = [] → x.2.kind = .implicit) ∧
      ((∀ scope ∈ tree.walk, ∀ x ∈ scope.bindings,
          x.2.kind = .implicit ↔ x.2.declarations = []) ↔
        ∀ s name, root.IntroducesIn s name → ¬ root.DeclaresIn final s (.string name)) := by
  obtain ⟨final, loc, g, hfinal, -, hfinished, hg, htree⟩ :=
    exists_of_analyze_of_inner (root.isInner_of_soleProgram hsole hname) h
  obtain ⟨os, -, hnumbered⟩ := exists_numbered_of_collect hfinal hsole
  have hvalid := hfinished.sound.valid.owns
  have hnames : ∀ p ∈ .root root :: (Path.root root).descendants,
      p.node.isAny ["program"] = false :=
    List.forall_mem_cons.2
      ⟨Node.isAny_eq_false (ofTree_of_collect hfinal).1 (by decide), hname⟩
  have hundeclared : ∀ scope ∈ tree.walk, ∀ x ∈ scope.bindings,
      x.2.declarations = [] → x.2.kind = .implicit := by
    intro scope hscope x hx hnone
    obtain ⟨s, e, hfind, hbinding⟩ := exists_entry_of_mem_walk hfinished hg htree hscope hx
    rw [Graph.kind_of_toBinding hbinding]
    exact undeclaredImplicit_of_collect hfinal s x.1 e hfind
      ((declarations_eq_nil_iff hbinding).1 hnone)
  refine ⟨final, hfinal, hundeclared, ?_⟩
  constructor
  · -- A binding that is introduced and declared shows in the tree.
    intro hall s name hintroduces hdeclares
    have hfound : ∃ e, final.graph.find? s (.string name) = some e := by
      obtain ⟨past, around, p, before, after, bound, -, -, hkey, e, k, hfind, -⟩ := hdeclares
      exact ⟨e, by rwa [← Graph.find?_congr hkey]⟩
    obtain ⟨e, hfind⟩ := hfound
    have hsome := (declarations_ne_nil_iff hfinal hvalid hfind).2 hdeclares
    have hkind := (implicit_iff_introducesIn hfinal hnames hfind).2 ⟨name, rfl, hintroduces⟩
    obtain ⟨scope, hscope, x, hx, hbinding⟩ :=
      exists_mem_walk_of_entry hfinished hg htree hnumbered hfind hsome
    refine hsome ((declarations_eq_nil_iff hbinding).1 ((hall scope hscope x hx).1 ?_))
    rw [Graph.kind_of_toBinding hbinding, hkind]
  · intro hnone scope hscope x hx
    refine ⟨fun hkind => ?_, hundeclared scope hscope x hx⟩
    obtain ⟨s, e, hfind, hbinding⟩ := exists_entry_of_mem_walk hfinished hg htree hscope hx
    rw [Graph.kind_of_toBinding hbinding] at hkind
    obtain ⟨name, hn, hintroduces⟩ := (implicit_iff_introducesIn hfinal hnames hfind).1 hkind
    rw [declarations_eq_nil_iff hbinding]
    by_contra hsome
    have hdeclares := (declarations_ne_nil_iff hfinal hvalid hfind).1 hsome
    rw [hn] at hdeclares
    exact hnone s name hintroduces hdeclares

section Redeclared

open Sample

/-- A function that declares `arguments` for itself: `function f() { let arguments; }`. -/
def argumentsProgram : Node :=
  program 31 [node "FunctionDeclaration" 0 31 [("id", .object (identifier "f" 9)),
    ("params", list []), ("body", .object (block 13 31 [declaration "let" "arguments" 15]))]]

/-- The kinds of the bindings of a scope, with the number of their declarations. -/
def Scope.kinds (scope : Scope) : List (Scalar × BindingKind × Nat) :=
  scope.bindings.map fun x => (x.1, x.2.kind, x.2.declarations.length)

/-- The tree has an implicit binding with a declaration, so some scope has a name both introduced
and declared in it. -/
theorem implicit_iff_undeclared_iff_arguments :
    ∃ tree final, analyze (.object argumentsProgram) false = .ok tree ∧
      collect (.object argumentsProgram) = .ok final ∧
      tree.walk.map Scope.kinds =
        [(["module", "exports", "__dirname", "__filename", "require", "this"].map fun name =>
            (.string name, .implicit, 0)) ++ [(.string "f", .var, 1)], [],
          [(.string "this", .implicit, 0), (.string "arguments", .implicit, 1)]] ∧
      (∀ scope ∈ tree.walk, ∀ x ∈ scope.bindings,
        x.2.declarations = [] → x.2.kind = .implicit) ∧
      ((∀ scope ∈ tree.walk, ∀ x ∈ scope.bindings,
          x.2.kind = .implicit ↔ x.2.declarations = []) ↔
        ∀ s name, argumentsProgram.IntroducesIn s name →
          ¬ argumentsProgram.DeclaresIn final s (.string name)) ∧
      ∃ s name, argumentsProgram.IntroducesIn s name ∧
        argumentsProgram.DeclaresIn final s (.string name) := by
  have hkinds : (analyze (.object argumentsProgram) false).toOption.map
      (fun tree => tree.walk.map Scope.kinds) = some
        [(["module", "exports", "__dirname", "__filename", "require", "this"].map fun name =>
            (.string name, .implicit, 0)) ++ [(.string "f", .var, 1)], [],
          [(.string "this", .implicit, 0), (.string "arguments", .implicit, 1)]] := by
    decide +kernel
  obtain ⟨tree, htree, hkinds⟩ := Option.map_eq_some_iff.1 hkinds
  have htree := eq_ok_of_toOption htree
  obtain ⟨final, hfinal, hundeclared, hiff⟩ :=
    implicit_iff_undeclared_iff htree (by decide +kernel) (by decide +kernel)
  refine ⟨tree, final, htree, hfinal, hkinds, hundeclared, hiff, ?_⟩
  have hshown : (.string "arguments", .implicit, 1) ∈ (tree.walk.map Scope.kinds).flatten := by
    rw [hkinds]
    decide
  obtain ⟨kinds, hmem, hshown⟩ := List.mem_flatten.1 hshown
  obtain ⟨scope, hscope, rfl⟩ := List.mem_map.1 hmem
  obtain ⟨x, hx, heq⟩ := List.mem_map.1 hshown
  have hkind : x.2.kind = .implicit := congrArg (·.2.1) heq
  have hlength : x.2.declarations.length = 1 := congrArg (·.2.2) heq
  by_contra hnone
  push Not at hnone
  rw [(hiff.2 hnone scope hscope x hx).1 hkind] at hlength
  cases hlength

/-- The binding of the function is implicit although it has a declaration. -/
theorem declared_arguments_are_implicit :
    (analyze (.object argumentsProgram) false).toOption.map (fun tree =>
        tree.children.flatMap fun lexical => lexical.children.flatMap fun function =>
          function.bindings.map fun x => (x.1, x.2.kind, x.2.declarations.length)) =
      some [(.string "this", .implicit, 0), (.string "arguments", .implicit, 1)] := by
  decide +kernel

end Redeclared

end LexicalScopes
