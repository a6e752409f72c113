import LexicalScopes.Proofs.Cursor
import LexicalScopes.Proofs.Placement.Layers
import LexicalScopes.Proofs.Run.Ordinary

/-!
# What makes a source a module

Two things speak for a module: an import or an export anywhere in the source, and the read of a name
of the host that is not declared around it. The builder notes the first while it walks. The second
is left in the root, as a read of one of the names that the root is opened with.
-/

namespace LexicalScopes

/-! ## Imports and exports -/

/-- Imports and exports. -/
def NodeType.moduleStatements : List String :=
  ["ImportDeclaration", "ExportNamedDeclaration", "ExportDefaultDeclaration",
    "ExportAllDeclaration"]

namespace Builder

variable {b b' : Builder} {a : Action} {actions : List Action}

theorem Does.isModule (h : Does b a b') : b'.isModule = (b.isModule || a.notesModule) := by
  cases h with
  | noteModule => simp [Action.notesModule]
  | _ => exact (Bool.or_false _).symm

theorem isModule_replay (h : b.replay actions = .ok b') :
    b'.isModule = (b.isModule || actions.any Action.notesModule) := by
  induction actions generalizing b with
  | nil =>
    cases h
    simp
  | cons a actions ih =>
    obtain ⟨b₁, hdoes, hrest⟩ := replay_cons_cases h
    rw [ih hrest, hdoes.isModule, List.any_cons, Bool.or_assoc]

end Builder

section Handlers

variable {n : Node} {p : Path} {actions : List Action}

theorem any_notesModule_of_ordinary (h : ∀ a ∈ actions, a.isOrdinary = true) :
    actions.any Action.notesModule = false := by
  rw [List.any_eq_false]
  exact fun a ha => by rw [Action.notesModule_of_isOrdinary (h a ha)]; decide

theorem any_notesModule_functionActions (h : p.functionActions = .ok actions) :
    actions.any Action.notesModule = false := by
  obtain ⟨own, name, range, params, lists, hown, -, hlists, rfl⟩ := exists_of_functionActions h
  rw [List.any_append, List.any_cons, List.any_append,
    any_notesModule_of_ordinary (ordinary_ownNameActions hown),
    any_notesModule_of_ordinary (ordinary_parameters hlists)]
  split <;> rfl

theorem any_notesModule_classFieldActions (h : n.classFieldActions = .ok actions) :
    actions.any Action.notesModule = false := by
  obtain ⟨loc, -, h⟩ := bind_eq_ok.1 h
  cases h
  rfl

theorem any_notesModule_programActions (h : n.programActions = .ok actions) :
    actions.any Action.notesModule = false := by
  obtain ⟨loc, -, h⟩ := bind_eq_ok.1 h
  cases h
  rfl

/-- Imports and exports make a module of their source. -/
def Role.makesModule : Role → Bool
  | .imports => true
  | .exports => true
  | _ => false

/-- By its role a node notes a module if it is an import or an export. -/
theorem any_notesModule_roleActions (h : p.roleActions = .ok actions) :
    actions.any Action.notesModule = p.node.role?.any Role.makesModule := by
  cases hrole : p.node.role? with
  | none => exact any_notesModule_of_ordinary (ordinary_roleActions h (by simp [hrole]))
  | some r =>
    have hactions := h
    rw [Path.roleActions, hrole] at hactions
    cases r with
    | program => exact any_notesModule_programActions hactions
    | function => exact any_notesModule_functionActions hactions
    | classField => exact any_notesModule_classFieldActions hactions
    | imports =>
      obtain ⟨declared, rfl, -⟩ := exists_of_importActions hactions
      rfl
    | exports =>
      cases hactions
      rfl
    | _ => exact any_notesModule_of_ordinary (ordinary_roleActions h (by rw [hrole]; decide))

/-- Where aliases are left out, imports and exports are what the grammar calls so. -/
theorem Node.isAny_moduleStatements (halias : n.isAny NodeType.aliases = false) :
    n.isAny NodeType.moduleStatements = n.role?.any Role.makesModule := by
  have himports := Node.isAny_eq_decide_role? ["ImportDeclaration"] .imports halias (by decide)
    (by decide)
  have hexports := Node.isAny_eq_decide_role?
    ["ExportNamedDeclaration", "ExportDefaultDeclaration", "ExportAllDeclaration"] .exports halias
    (by decide) (by decide)
  have htypes : NodeType.moduleStatements = ["ImportDeclaration"] ++
    ["ExportNamedDeclaration", "ExportDefaultDeclaration", "ExportAllDeclaration"] := rfl
  rw [htypes, Node.isAny_append, himports, hexports]
  cases n.role? with
  | none => rfl
  | some r => cases r <;> rfl

/-- A node notes a module on entering if it is an import or an export. -/
theorem any_notesModule_enterActions {b b' : Builder}
    (halias : p.node.isAny NodeType.aliases = false) (h : b.replay p.enterActions = .ok b') :
    p.enterActions.any Action.notesModule = p.node.isAny NodeType.moduleStatements := by
  have hown : ∀ {actions}, p.ownActions = .ok actions →
      actions.any Action.notesModule = p.node.isAny NodeType.moduleStatements := by
    intro actions hactions
    obtain ⟨field, rest, hfield, hrest, rfl⟩ := exists_of_ownActions hactions
    have hnone : field.any Action.notesModule = false := by
      rcases hfield with ⟨-, rfl⟩ | ⟨-, hfield⟩
      · rfl
      · exact any_notesModule_classFieldActions hfield
    rw [List.any_append, hnone, Bool.false_or, any_notesModule_roleActions hrest,
      Node.isAny_moduleStatements halias]
  cases Builder.enters_of_replay h with
  | program hp hactions hopens henter hexit =>
    have hnone : p.node.isAny NodeType.moduleStatements = false :=
      Node.isAny_eq_false hp (by decide)
    rw [henter, hnone, any_notesModule_programActions hactions]
  | through hp hactions hopens henter hexit => rw [henter, hown hactions]
  | inside hp hactions hopens henter hexit =>
    rw [henter, List.any_cons, hown hactions]
    rfl

theorem any_notesModule_exitActions : p.exitActions.any Action.notesModule = false := by
  unfold Path.exitActions
  split
  · rfl
  · split <;> rfl

end Handlers

section Runs

variable {root : Node} {past : List Event} {around : List ScopeId} {p : Path}
  {before after final : Builder} {loc : Json} {name : String}

/-- The source is a module exactly if there is an import or an export in it. -/
theorem isModule_iff (hfinal : collect (.object root) = .ok final) (halias : root.AliasFree) :
    final.isModule = true ↔ ∃ p ∈ .root root :: (Path.root root).descendants,
      p.node.isAny NodeType.moduleStatements = true := by
  have htree := (ofTree_of_collect hfinal).2
  have hrun := Builder.isModule_replay (Builder.run_events_of_ofTree htree)
  have henters : ∀ q ∈ .root root :: (Path.root root).descendants,
      q.enterActions.any Action.notesModule = q.node.isAny NodeType.moduleStatements := by
    intro q hq
    obtain ⟨past, around, hvisit⟩ := Visit.root.exists_of_mem_descendants hq
    obtain ⟨before, after, hpasses⟩ := hvisit.passes htree
    exact any_notesModule_enterActions (halias q hq) hpasses.run_enter
  rw [hrun, Bool.or_eq_true, or_iff_right Bool.false_ne_true, List.any_flatMap, List.any_eq_true]
  constructor
  · rintro ⟨event, hevent, hnotes⟩
    obtain ⟨q, hq, rfl | rfl⟩ := Path.exists_of_mem_events hevent
    · exact ⟨q, hq, by rw [← henters q hq]; exact hnotes⟩
    · rw [Event.actions, any_notesModule_exitActions] at hnotes
      cases hnotes
  · rintro ⟨q, hq, htype⟩
    obtain ⟨past, around, hvisit⟩ := Visit.root.exists_of_mem_descendants hq
    obtain ⟨rest, hevents⟩ := hvisit.exists_events
    refine ⟨.enter q, ?_, by rw [Event.actions, henters q hq, htype]⟩
    rw [hevents, Path.events_eq]
    simp

/-! ## Names of the host -/

/-- The node is an identifier that reads this name of the host, and of the scopes around it none but
the root binds the name. -/
structure Path.ReadsHost (p : Path) (b : Builder) (root : ScopeId) (name : String) : Prop where
  isReferenced : p.isReferenced = true
  scalarName_eq : p.node.scalarName = .ok (.string name)
  isHost : name ∈ Graph.hostNames
  unbound : ∀ s ∈ b.around, s ≠ root → b.graph.binds s (.string name) = false

/-- The layers of a program are opened before any other node is entered. -/
theorem Visit.grows_opened (h : Visit root past around p)
    (hfinal : collect (.object root) = .ok final) :
    ∃ loc, root.loc = .ok loc ∧ ∀ before after, Passes past p before after final →
      Graph.Grows (.opened (.object loc)) after.graph := by
  induction h with
  | root =>
    obtain ⟨before₀, after₀, hpasses₀⟩ := Visit.root.passes (ofTree_of_collect hfinal).2
    have hprogram : (Path.root root).isProgram = true := (ofTree_of_collect hfinal).1
    have hrun := hpasses₀.run_enter
    cases hpasses₀.run_past
    have henter := hrun
    rw [Path.enterActions, hprogram, if_pos rfl] at henter
    obtain ⟨actions, hactions⟩ := Builder.exists_of_replay_attempt henter
    rw [hactions] at henter
    obtain ⟨loc, hloc, rfl⟩ := Builder.replay_programActions hactions henter
    refine ⟨loc, hloc, fun before after hpasses => ?_⟩
    cases hpasses.run_past
    cases hrun.symm.trans hpasses.run_enter
    exact .refl _
  | @child past around p c earlier later h hkids ih =>
    obtain ⟨loc, hloc, hgrows⟩ := ih
    refine ⟨loc, hloc, fun before after hpasses => ?_⟩
    obtain ⟨before', hpast, hrun⟩ := Builder.run_append_eq_ok.1 hpasses.run_past
    obtain ⟨after', henter, hearlier⟩ := Builder.run_cons_eq_ok.1 hrun
    obtain ⟨rest, hrest⟩ := hpasses.run_rest
    have hpasses' : Passes past p before' after' before :=
      ⟨hpast, henter, Path.allEvents earlier, hearlier⟩
    have hlater : after'.run (Path.allEvents earlier ++ .enter c :: rest) = .ok final :=
      Builder.run_append_eq_ok.2
        ⟨before, hearlier, Builder.run_cons_eq_ok.2 ⟨after, hpasses.run_enter, hrest⟩⟩
    exact ((hgrows before' after' ⟨hpast, henter, _, hlater⟩).trans hpasses'.grows_rest).trans
      (Builder.replay_grows hpasses.run_enter hpasses.sound_before)

/-- The root binds the names of the host as soon as the layers are opened. -/
theorem Graph.binds_host_opened {loc : Json} (hname : name ∈ hostNames) :
    (opened loc).binds 0 (.string name) = true := by
  rw [binds_eq_any, List.any_eq_true]
  have hmem : Scalar.string name ∈ ((opened loc).draft 0).bindings.map (·.1) := by
    rw [names_root_opened]
    exact List.mem_map_of_mem hname
  obtain ⟨x, hx, hxname⟩ := List.mem_map.1 hmem
  exact ⟨x, hx, by simp [hxname]⟩

/-- Only an identifier reads a name other than the receiver's. -/
theorem isReferenced_of_readName? (h : p.readName? = some (.string name)) (hname : name ≠ "this") :
    p.isReferenced = true ∧ p.node.scalarName = .ok (.string name) := by
  unfold Path.readName? at h
  split at h
  · cases h
    exact absurd rfl hname
  · split at h
    · rename_i href
      cases hscalar : p.node.scalarName with
      | ok found =>
        rw [hscalar] at h
        cases h
        exact ⟨href, rfl⟩
      | error fault =>
        rw [hscalar] at h
        cases h
    · cases h

section Visits

variable (h : Visit root past around p) (hfinal : collect (.object root) = .ok final)
  (hsole : root.SoleProgram) (hpasses : Passes past p before after final)

include h hfinal hsole hpasses

/-- An identifier whose name of the host leads to the root is not inside a scope that binds it. -/
theorem Visit.readsHost (hname : name ∈ Graph.hostNames) (hread : p.readName? = some (.string name))
    (hfound : (p.ownScopes past ++ around).find? (after.graph.binds · (.string name)) = some 0) :
    p.ReadsHost after 0 name := by
  have hthis : name ≠ "this" := by
    rintro rfl
    revert hname
    decide
  obtain ⟨href, hscalar⟩ := isReferenced_of_readName? hread hthis
  refine ⟨href, hscalar, hname, ?_⟩
  obtain ⟨c, -, -, hchain, -⟩ := h.exists_chain hfinal hsole hpasses
  have haround : after.around = after.graph.chain c := by
    rw [hpasses.around_after, h.around_before hsole hpasses, hchain]
  have hresolve : after.graph.resolve c (.string name) = some 0 := by
    rw [Graph.resolve, ← hchain, hfound]
  have hinner :=
    ((Graph.resolve_eq_some_iff hpasses.sound_after.valid.forest.ranked).1 hresolve).2.2
  intro s hs hne
  rw [haround] at hs
  exact hinner s hs (Nat.pos_of_ne_zero hne)

/-- A read of a name of the host that only the root binds is recorded there. -/
theorem Path.ReadsHost.exists_ref (hreads : p.ReadsHost after 0 name) :
    ∃ e o, final.graph.find? 0 (.string name) = some e ∧ o ∈ (final.graph.entry e).refs := by
  obtain ⟨loc, -, hopened⟩ := h.grows_opened hfinal
  have hafter := (hopened before after hpasses).binds (Graph.binds_host_opened hreads.isHost)
  have haround := hpasses.around_after
  rw [h.around_before hsole hpasses] at haround
  have hroot : 0 ∈ p.ownScopes past ++ around := by
    refine h.mem_of_root ?_
    rw [Path.mem_ownScopes, scopeCount_of_collect hfinal]
    exact ⟨by decide, by decide⟩
  have hname := readName?_of_isReferenced (isAny_of_isReferenced hreads.isReferenced)
    hreads.isReferenced hreads.scalarName_eq
  obtain ⟨r, hread, hgains⟩ := h.exists_reads hsole hpasses
  cases r with
  | none =>
    rw [hread _ hname 0 hroot] at hafter
    cases hafter
  | some read =>
    obtain ⟨e, o⟩ := read
    obtain ⟨found, t, hfound, hscopes, -, hlast, -⟩ := hread
    rw [hname] at hfound
    cases hfound
    have ht : t = 0 := by
      by_contra hne
      have hbinds := List.find?_some hscopes
      have hmem := List.mem_of_find?_eq_some hscopes
      rw [← haround] at hmem
      rw [hreads.unbound t hmem hne] at hbinds
      cases hbinds
    subst ht
    refine ⟨e, o, hlast, (hpasses.grows_rest.refs e).subset ?_⟩
    rw [hgains e]
    simp [readsOf]

end Visits

/-- A name of the host is read in the root exactly if some identifier reads it where none of the
other scopes binds it. -/
theorem readsHostNames_iff (hfinal : collect (.object root) = .ok final) (hsole : root.SoleProgram)
    (hvalid : final.graph.OwnsEntries) :
    final.graph.readsHostNames 0 = true ↔
      ∃ past around p before after name, Visit root past around p ∧
        Passes past p before after final ∧ p.ReadsHost after 0 name := by
  rw [Graph.readsHostNames, List.any_eq_true]
  constructor
  · rintro ⟨name, hname, hread⟩
    split at hread
    · rename_i e hfind
      obtain ⟨o, ho⟩ := List.exists_mem_of_ne_nil _ (by simpa using hread)
      obtain ⟨⟨past, p⟩, around, before, after, hvisit, hpasses, ⟨found, t, hfound, hscopes, -,
        hlast, -⟩, -⟩ := exists_visitReads_of_mem_refs hfinal hsole ho
      -- A binding has one name in one scope.
      obtain ⟨rfl, hkey⟩ := hvalid.find?_inj _ _ _ _ _ hlast hfind
      obtain rfl := Scalar.eq_of_key_eq hkey
      exact ⟨past, around, p, before, after, name, hvisit, hpasses,
        hvisit.readsHost hfinal hsole hpasses hname hfound hscopes⟩
    · cases hread
  · rintro ⟨past, around, p, before, after, name, hvisit, hpasses, hreads⟩
    refine ⟨name, hreads.isHost, ?_⟩
    obtain ⟨e, o, hfind, ho⟩ := hreads.exists_ref hvisit hfinal hsole hpasses
    rw [hfind]
    simpa using List.ne_nil_of_mem ho

end Runs

end LexicalScopes
