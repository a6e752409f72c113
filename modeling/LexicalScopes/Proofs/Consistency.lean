import LexicalScopes.Proofs.Consistency.Faults
import LexicalScopes.Proofs.Run.Program
import LexicalScopes.Proofs.Samples
import LexicalScopes.Proofs.Shape.Numbering

/-!
# The layers are always there

Whatever value is analysed, the root that the walk leaves behind holds the lexical scope first, and
this scope the module layer. It does so even where programs stand inside programs: each of them
makes layers of its own, and later scopes only come behind them. The fault of a missing layer
therefore never arises.
-/

namespace LexicalScopes

/-! ## Graphs -/

namespace Graph

variable {g g' : Graph} {r s : ScopeId}

/-- The first scope in `r` is there, and the first scope in it is a module layer. -/
def HasLayers (g : Graph) (r : ScopeId) : Prop :=
  ∃ lexical layer, (g.children r).head? = some lexical ∧
    (g.children lexical).head? = some layer ∧ (g.draft layer).type = .moduleLayer

/-- New scopes come behind those that a scope has already. -/
theorem Grows.children_prefix (h : Grows g g') (hg : g.Forest) (hg' : g'.Forest)
    (hs : s < g.nextScope) : g.children s <+: g'.children s := by
  have hle := h.nextScope_le
  obtain ⟨n, hn⟩ := Nat.exists_eq_add_of_le hle
  have hold : (List.range g.nextScope).filter (fun t => g'.parent? t = some s) =
      g.children s := by
    rw [hg.children_eq s hs]
    refine List.filter_congr fun t ht => ?_
    rw [h.parent?_eq (List.mem_range.1 ht)]
  rw [hg'.children_eq s (Nat.lt_of_lt_of_le hs hle), hn, List.range_add, List.filter_append, hold]
  exact List.prefix_append _ _

theorem head?_of_prefix {xs ys : List ScopeId} (h : xs <+: ys) (hs : xs.head? = some s) :
    ys.head? = some s := by
  obtain ⟨rest, rfl⟩ := h
  rw [List.head?_append, hs]
  rfl

/-- Growth keeps the layers of a root. -/
theorem HasLayers.of_grows (h : g.HasLayers r) (hgrows : Grows g g') (hg : g.Forest)
    (hg' : g'.Forest) (hr : r < g.nextScope) : g'.HasLayers r := by
  obtain ⟨lexical, layer, hlexical, hlayer, htype⟩ := h
  have hlt := (hg.lt_of_mem_children hr (List.mem_of_head? hlexical)).2
  have hlt' := (hg.lt_of_mem_children hlt (List.mem_of_head? hlayer)).2
  refine ⟨lexical, layer, head?_of_prefix (hgrows.children_prefix hg hg' hr) hlexical,
    head?_of_prefix (hgrows.children_prefix hg hg' hlt) hlayer, ?_⟩
  have hheader := congrArg Header.type (hgrows.header_eq hlt')
  exact hheader.trans htype

/-- Three scopes made in a row, each inside the one before, are the layers of the first. -/
theorem Forest.hasLayers (hg : g.Forest) (hnext : g.nextScope = r + 3)
    (hlexical : g.parent? (r + 1) = some r) (hlayer : g.parent? (r + 2) = some (r + 1))
    (htype : (g.draft (r + 2)).type = .moduleLayer) : g.HasLayers r := by
  -- A scope made before `r` lies in neither of them.
  have hearlier (q : ScopeId) (hq : r ≤ q) :
      (List.range (r + 1)).filter (fun t => g.parent? t = some q) = [] := by
    rw [List.filter_eq_nil_iff]
    intro t ht hparent
    have hlt := hg.parent_lt t q (of_decide_eq_true hparent)
    have hle := Nat.le_of_lt_succ (List.mem_range.1 ht)
    exact absurd hlt (Nat.not_lt.2 (Nat.le_trans hle hq))
  have hchildren (q : ScopeId) (hq : r ≤ q) (hlt : q < r + 3) : g.children q =
      [r + 1, r + 2].filter fun t => g.parent? t = some q := by
    rw [hg.children_eq q (hnext ▸ hlt), hnext, List.range_succ, List.range_succ, List.append_assoc,
      List.filter_append, hearlier q hq]
    rfl
  refine ⟨r + 1, r + 2, ?_, ?_, htype⟩
  · rw [hchildren r (Nat.le_refl r) (Nat.lt_add_of_pos_right (by decide))]
    simp [hlexical]
  · rw [hchildren (r + 1) (Nat.le_add_right r 1) (Nat.add_lt_add_left (by decide) r)]
    simp [hlexical, hlayer]

theorem layers_of_hasLayers (h : g.HasLayers r) : ∃ found, g.layers r = .ok found := by
  obtain ⟨lexical, layer, hlexical, hlayer, htype⟩ := h
  obtain ⟨rest, hrest⟩ := List.head?_eq_some_iff.1 hlexical
  obtain ⟨rest', hrest'⟩ := List.head?_eq_some_iff.1 hlayer
  refine ⟨(lexical, layer), ?_⟩
  simp only [layers, hrest, hrest', htype, if_true]

end Graph

/-! ## Replaying -/

namespace Builder

variable {b b' : Builder} {a : Action} {actions first : List Action} {n : Node} {p : Path}
  {events : List Event}

/-- The root, if there is one, has its layers. -/
def HasLayers (b : Builder) : Prop := ∀ r, b.root = some r → b.graph.HasLayers r

/-- Only opening a root sets the root. -/
theorem Does.root_eq (h : Does b a b') (ha : ∀ loc, a ≠ .openRoot loc) : b'.root = b.root := by
  cases h with
  | openRoot loc => exact absurd rfl (ha loc)
  | _ => rfl

theorem hasLayers_replay_of_root (h : b.replay actions = .ok b') (hb : b.Sound)
    (ha : ∀ a ∈ actions, ∀ loc, a ≠ .openRoot loc) (hlayers : b.HasLayers) :
    b'.HasLayers ∧ b'.root = b.root := by
  have hroot : b'.root = b.root :=
    replay_rel (R := fun b b' => b'.root = b.root) (fun _ => rfl)
      (fun _ _ _ hfirst hlater => hlater.trans hfirst)
      (fun a hmem _ _ hdoes => hdoes.root_eq (ha a hmem)) h
  obtain ⟨hsteps, hb'⟩ := replay_sound h hb
  refine ⟨fun r hr => ?_, hroot⟩
  rw [hroot] at hr
  exact (hlayers r hr).of_grows (Graph.Steps.grows hsteps hb.valid) hb.valid.forest
    hb'.valid.forest (hb.root_lt r hr)

/-- Entering a program makes a root with its layers, wherever the builder stands. -/
theorem hasLayers_replay_program (h : b.replay actions = .ok b') (hb : b.Sound)
    (hactions : n.programActions = .ok actions) :
    b'.root = some b.graph.nextScope ∧ b'.graph.HasLayers b.graph.nextScope := by
  obtain ⟨loc, -, hactions⟩ := bind_eq_ok.1 hactions
  cases hactions
  obtain ⟨b₁, hroot, h⟩ := replay_cons_cases h
  obtain ⟨b₂, hhost, h⟩ := replay_cons_cases h
  obtain ⟨b₃, hlexical, h⟩ := replay_cons_cases h
  obtain ⟨b₄, hlayer, h⟩ := replay_cons_cases h
  obtain ⟨b₅, hthis, hdone⟩ := replay_cons_cases h
  cases hdone
  have hb₁ := (hroot.sound hb).2
  have hb₂ := (hhost.sound hb₁).2
  have hb₃ := (hlexical.sound hb₂).2
  have hb₄ := (hlayer.sound hb₃).2
  obtain ⟨hsteps, hb₅⟩ := hthis.sound hb₄
  have hgrows := Graph.Steps.grows hsteps hb₄.valid
  -- Each of the three scopes is made where the builder stands since the one before.
  have hnext₁ : b₁.graph.nextScope = b.graph.nextScope + 1 := hroot.nextScope
  have hnext₂ : b₂.graph.nextScope = b.graph.nextScope + 1 := hhost.nextScope.trans hnext₁
  have hnext₃ : b₃.graph.nextScope = b.graph.nextScope + 2 :=
    hlexical.nextScope.trans (congrArg (· + 1) hnext₂)
  have hnext₄ : b₄.graph.nextScope = b.graph.nextScope + 3 :=
    hlayer.nextScope.trans (congrArg (· + 1) hnext₃)
  have hcurrent₂ : b₂.current = some b.graph.nextScope :=
    (hhost.current_of_isPlain rfl).trans (hroot.current_of_isPlain rfl)
  have hcurrent₃ : b₃.current = some (b.graph.nextScope + 1) :=
    (hlexical.current_of_isPlain rfl).trans (congrArg some hnext₂)
  have hheader := hlexical.header rfl
  have hheader' := hlayer.header rfl
  rw [hnext₂, hcurrent₂] at hheader
  rw [hnext₃, hcurrent₃] at hheader'
  have hgrows₃ := (Graph.Steps.grows (hlayer.sound hb₃).1 hb₃.valid).trans hgrows
  have hroot₁ : b₁.root = some b.graph.nextScope := by
    cases hroot
    rfl
  have hroot₅ := (hthis.root_eq (by simp)).trans (hlayer.root_eq (by simp))
  rw [hlexical.root_eq (by simp), hhost.root_eq (by simp), hroot₁] at hroot₅
  refine ⟨hroot₅, hb₅.valid.forest.hasLayers (hthis.nextScope.trans hnext₄) ?_ ?_ ?_⟩
  · rw [hgrows₃.parent?_eq (hnext₃ ▸ Nat.lt_succ_self _)]
    exact congrArg Header.parent hheader
  · rw [hgrows.parent?_eq (hnext₄ ▸ Nat.lt_succ_self _)]
    exact congrArg Header.parent hheader'
  · have hsame := hgrows.header_eq (s := b.graph.nextScope + 2) (hnext₄ ▸ Nat.lt_succ_self _)
    exact (congrArg Header.type hsame).trans (congrArg Header.type hheader')

/-! ## Walking -/

/-- A node enters a program at last, or it opens no root. -/
theorem exists_programActions (h : b.replay p.enterActions = .ok b') :
    (∃ first actions, p.node.programActions = .ok actions ∧ p.enterActions = first ++ actions) ∨
      ∀ a ∈ p.enterActions, ∀ loc, a ≠ .openRoot loc := by
  have hown (actions : List Action) (hactions : p.ownActions = .ok actions) :
      (∃ first rest, p.node.programActions = .ok rest ∧ actions = first ++ rest) ∨
        ∀ a ∈ actions, ∀ loc, a ≠ .openRoot loc := by
    cases hprogram : p.node.isAny ["program"] with
    | true =>
      obtain ⟨field, rest, -, hrest, rfl⟩ := exists_of_ownActions hactions
      rw [Path.roleActions, Node.role?_of_isAny (r := .program) (by decide) hprogram] at hrest
      exact .inl ⟨field, rest, hrest, rfl⟩
    | false =>
      have hlocal := Path.isLocal_of_mem_attempt hprogram
      rw [hactions] at hlocal
      refine .inr fun a ha loc heq => ?_
      have ha := hlocal a ha
      rw [heq] at ha
      cases ha
  cases enters_of_replay h with
  | program hp hactions hopens henter hexit => exact .inl ⟨[], _, hactions, henter⟩
  | through hp hactions _ henter hexit =>
    rw [henter]
    exact hown _ hactions
  | inside hp hactions _ henter hexit =>
    rw [henter]
    refine (hown _ hactions).imp ?_ fun hnone => List.forall_mem_cons.2 ⟨by simp, hnone⟩
    rintro ⟨first, rest, hrest, rfl⟩
    exact ⟨.mark :: first, rest, hrest, rfl⟩

theorem hasLayers_enter (h : b.replay p.enterActions = .ok b') (hb : b.Sound)
    (hlayers : b.HasLayers) : b'.HasLayers := by
  rcases exists_programActions h with ⟨first, actions, hactions, henter⟩ | hnone
  · rw [henter, replay_append] at h
    obtain ⟨b₁, hfirst, h⟩ := bind_eq_ok.1 h
    obtain ⟨hroot, hlayers⟩ :=
      hasLayers_replay_program h (replay_sound hfirst hb).2 hactions
    intro r hr
    cases hr.symm.trans hroot
    exact hlayers
  · exact (hasLayers_replay_of_root h hb hnone hlayers).1

theorem ne_openRoot_of_exit : ∀ a ∈ p.exitActions, ∀ loc, a ≠ .openRoot loc := by
  unfold Path.exitActions
  split
  · exact List.forall_mem_singleton.2 nofun
  · split
    · exact List.forall_mem_singleton.2 nofun
    · exact nofun

/-- Every walk keeps the layers. -/
theorem hasLayers_run (h : b.run events = .ok b') (hb : b.Sound) (hlayers : b.HasLayers) :
    b'.HasLayers := by
  induction events generalizing b with
  | nil =>
    cases h
    exact hlayers
  | cons event events ih =>
    obtain ⟨b₁, hevent, hrest⟩ := run_cons_eq_ok.1 h
    refine ih hrest (replay_sound hevent hb).2 ?_
    cases event with
    | enter p => exact hasLayers_enter hevent hb hlayers
    | exit p => exact (hasLayers_replay_of_root hevent hb ne_openRoot_of_exit hlayers).1

/-- What is collected from any value has a root with its layers. -/
theorem hasLayers_of_collect {ast : Json} {final : Builder} (h : collect ast = .ok final) :
    ∃ r, final.root = some r ∧ final.graph.HasLayers r := by
  unfold collect at h
  split at h
  · rename_i root hroot
    split at h
    · have hprogram : (Path.root root).isProgram = true := ‹_›
      have hrun := run_events_of_ofTree h
      have hlayers := hasLayers_run hrun .empty nofun
      -- The root is entered first, and no later step takes the root away.
      rw [Path.events_eq] at hrun
      obtain ⟨b, henter, hrest⟩ := run_cons_eq_ok.1 hrun
      have hsome : ∃ r, b.root = some r := by
        have henter : ({} : Builder).replay (Path.root root).enterActions = .ok b := henter
        rw [Path.enterActions, if_pos hprogram] at henter
        obtain ⟨actions, hactions⟩ := exists_of_replay_attempt henter
        rw [hactions] at henter
        exact ⟨_, (hasLayers_replay_program henter .empty hactions).1⟩
      obtain ⟨r, hr⟩ := hsome
      rcases root_replay hrest with hsame | ⟨r', hr', -⟩
      · exact ⟨r, hsame.trans hr, hlayers r (hsame.trans hr)⟩
      · exact ⟨r', hr', hlayers r' hr'⟩
    · cases h
  · cases h

end Builder

/-! ## Analysing -/

theorem blamesTree_finish {b : Builder} {r : ScopeId} (hr : b.root = some r)
    (hlayers : b.graph.HasLayers r) (generated : Bool) : BlamesTree (b.finish generated) := by
  have hsettle : BlamesTree (b.graph.settle r b.isModule generated) := by
    refine .ite (.ok _) ?_
    obtain ⟨found, hfound⟩ := Graph.layers_of_hasLayers hlayers
    rw [Graph.dissolve, hfound]
    exact .ok _
  rw [Builder.finish, Builder.rootScope, hr, ok_bind]
  exact hsettle.bind fun g => blamesTree_treeFrom g _ r

/-- No value makes the analysis miss a layer: if the walk ends, the root that it has recorded has a
first scope, whose first scope is a module layer. -/
theorem layers_never_missing (ast : Json) :
    (∀ generated breach, analyze ast generated ≠ .error (.inconsistent breach)) ∧
      ∀ final, collect ast = .ok final →
        ∃ r, final.root = some r ∧ final.graph.HasLayers r := by
  refine ⟨fun generated breach => ?_, fun final => Builder.hasLayers_of_collect⟩
  refine BlamesTree.ne_inconsistent ?_ breach
  refine BlamesTree.read (blamesTree_collect ast) fun final hfinal => ?_
  obtain ⟨r, hr, hlayers⟩ := Builder.hasLayers_of_collect hfinal
  exact blamesTree_finish hr hlayers generated

section Nested

open Sample

/-- A program inside a program, followed by a block and by a node that is only named like a program.
-/
def nestedPrograms : Node :=
  program 30 [program 4 [reading "x" 0], block 6 14 [declaration "let" "y" 8],
    node "program" 16 30 [("body", list [declaration "var" "z" 18])]]

theorem layers_never_missing_nested :
    (∀ generated breach,
        analyze (.object nestedPrograms) generated ≠ .error (.inconsistent breach)) ∧
      ∃ final, collect (.object nestedPrograms) = .ok final ∧ final.root = some 7 ∧
        final.graph.HasLayers 7 := by
  obtain ⟨hnever, hlayers⟩ := layers_never_missing (.object nestedPrograms)
  have hroot : (collect (.object nestedPrograms)).toOption.map Builder.root = some (some 7) := by
    decide +kernel
  obtain ⟨final, hfinal, hroot⟩ := Option.map_eq_some_iff.1 hroot
  have hfinal := eq_ok_of_toOption hfinal
  obtain ⟨r, hr, hlayers⟩ := hlayers final hfinal
  cases hroot.symm.trans hr
  exact ⟨hnever, final, hfinal, hroot, hlayers⟩

end Nested

end LexicalScopes
