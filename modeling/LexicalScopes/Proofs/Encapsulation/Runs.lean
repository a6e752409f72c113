import LexicalScopes.Proofs.Encapsulation.Mirrors
import LexicalScopes.Proofs.Encapsulation.Walks
import LexicalScopes.Proofs.Cursor

/-!
# Two runs

Two programs with different bodies in one function are run in the same way up to this body. What the
bodies do is confined to the scope of the function, and afterwards both runs go on from where they
stood before the function.
-/

namespace LexicalScopes

variable {root root' : Node} {p p' : Path} {past past' rest rest' : List Event}
  {first first' : List Path} {f : ScopeId} {outer : List ScopeId} {Read Read' : Occurrence → Prop}

/-- In the body of the node another one reads a name with this occurrence. -/
def Path.HoldsBodyRead (p : Path) (o : Occurrence) : Prop := ∃ c ∈ p.inField "body", c.HoldsRead o

/-! ## The scope of a function -/

/-- The last scope that a function opens is its own. -/
theorem Path.exists_of_ownActions_function {actions : List Action}
    (hfunction : p.node.isAny NodeType.functions = true) (h : p.ownActions = .ok actions) :
    ∃ first name range params, actions = first ++ .openScope .function name range :: params ∧
      p.functionName = .ok name ∧ p.node.functionRange = .ok range ∧ Opens params [] := by
  obtain ⟨field, rest, -, hrest, rfl⟩ := exists_of_ownActions h
  rw [Path.roleActions, Node.role?_of_isAny (r := .function) (by decide) hfunction] at hrest
  obtain ⟨own, hown, hrest⟩ := bind_eq_ok.1 hrest
  obtain ⟨name, hname, hrest⟩ := bind_eq_ok.1 hrest
  obtain ⟨range, hrange, hrest⟩ := bind_eq_ok.1 hrest
  obtain ⟨params, hparams, hrest⟩ := bind_eq_ok.1 hrest
  cases hrest
  exact ⟨field ++ own, name, range, params, by rw [List.append_assoc], hname, hrange,
    opens_parameterActions hparams⟩

namespace Builder

variable {b b' before after cut done done' left left' final final' : Builder}

/-- The builder stands in the scope of the function, which is the last one made. -/
structure Opened (p : Path) (f : ScopeId) (b : Builder) : Prop where
  current_eq : b.current = some f
  nextScope_eq : b.graph.nextScope = f + 1
  heading : ∃ name range, p.functionName = .ok name ∧ p.node.functionRange = .ok range ∧
    (b.graph.draft f).heading = ⟨.function, name, range⟩

/-- Entering a function leads into a scope of its own. -/
theorem exists_opened (hfunction : p.node.isAny NodeType.functions = true)
    (h : b.replay p.enterActions = .ok b') (hb : b.Sound) :
    ∃ f, b.graph.nextScope ≤ f ∧ b'.Opened p f := by
  have hown : ∃ first name range params,
      p.enterActions = first ++ .openScope .function name range :: params ∧
        p.functionName = .ok name ∧ p.node.functionRange = .ok range ∧ Opens params [] := by
    cases enters_of_replay h with
    | program hp hactions hopens henter hexit =>
      have hprogram : p.isProgram = false := Node.isAny_eq_false hfunction (by decide)
      rw [hp] at hprogram
      cases hprogram
    | through hp hactions hown henter hexit =>
      rw [henter]
      exact Path.exists_of_ownActions_function hfunction hactions
    | inside hp hactions hown henter hexit =>
      obtain ⟨first, name, range, params, rfl, hrest⟩ :=
        Path.exists_of_ownActions_function hfunction hactions
      exact ⟨.mark :: first, name, range, params, henter, hrest⟩
  obtain ⟨first, name, range, params, henter, hname, hrange, hparams⟩ := hown
  rw [henter, replay_append] at h
  obtain ⟨b₁, hfirst, h⟩ := bind_eq_ok.1 h
  obtain ⟨b₂, hopen, hlast⟩ := replay_cons_cases h
  have hb₁ := (replay_sound hfirst hb).2
  have hb₂ := (hopen.sound hb₁).2
  have hnext : b₂.graph.nextScope = b₁.graph.nextScope + 1 := hopen.nextScope
  have hnone : params.any Action.opens = false := hparams.any_eq
  refine ⟨b₁.graph.nextScope, ?_, ?_, ?_, name, range, hname, hrange, ?_⟩
  · rw [nextScope_replay hfirst]
    exact Nat.le_add_right _ _
  · rw [current_replay hlast hparams.plain hnone]
    cases hopen
    rfl
  · rw [nextScope_replay hlast, hparams.countP_eq, hnext]
    rfl
  · rw [Draft.heading_eq, (replay_grows hlast hb₂).header_eq (hnext ▸ Nat.lt_succ_self _),
      hopen.header rfl]

/-- A function hoists to itself. -/
theorem Opened.exists_within (h : b.Opened p f) (hb : b.Sound) :
    ∃ outer, b.Within f outer ∧ b.around = f :: outer := by
  obtain ⟨name, range, -, -, hheading⟩ := h.heading
  obtain ⟨outer, houter⟩ : ∃ outer, b.graph.chain f = f :: outer := by
    rw [Graph.chain, Graph.chainFrom]
    exact ⟨_, rfl⟩
  have haround : b.around = f :: outer := by
    rw [around, h.current_eq]
    exact houter
  refine ⟨outer, ⟨hb, haround ▸ List.mem_cons_self, ?_, houter⟩, haround⟩
  have htype : (b.graph.draft f).type = .function := congrArg Heading.type hheading
  rw [Graph.isHoistTarget_eq_hoists, htype]
  rfl

/-! ## Up to a body and beyond -/

/-- A run comes to a node, walks its children, of which the last ones are its body, and goes on. -/
structure Crosses (past : List Event) (p : Path) (first : List Path) (rest : List Event)
    (before after cut done left final : Builder) : Prop where
  kids_eq : p.kids = first ++ p.inField "body"
  run_past : ({} : Builder).run past = .ok before
  run_enter : before.replay p.enterActions = .ok after
  run_first : after.run (Path.allEvents first) = .ok cut
  run_body : cut.run (Path.allEvents (p.inField "body")) = .ok done
  run_exit : done.replay p.exitActions = .ok left
  run_rest : left.run rest = .ok final

theorem exists_crosses (hkids : p.kids = first ++ p.inField "body")
    (h : ({} : Builder).run (past ++ (p.events ++ rest)) = .ok final) :
    ∃ before after cut done left, Crosses past p first rest before after cut done left final := by
  rw [Path.events_eq, hkids, Path.allEvents_append] at h
  obtain ⟨before, hpast, h⟩ := run_append_eq_ok.1 h
  obtain ⟨left, hevents, hrest⟩ := run_append_eq_ok.1 h
  obtain ⟨after, henter, hevents⟩ := run_cons_eq_ok.1 hevents
  obtain ⟨done, hchildren, hexit⟩ := run_append_eq_ok.1 hevents
  obtain ⟨cut, hfirst, hbody⟩ := run_append_eq_ok.1 hchildren
  rw [run_singleton] at hexit
  exact ⟨before, after, cut, done, left, hkids, hpast, henter, hfirst, hbody, hexit, hrest⟩

namespace Crosses

variable (h : Crosses past p first rest before after cut done left final)

include h

/-- A run of a tree that only differs in the body comes to the body in the same state. -/
theorem exists_twin (hpast : past'.flatMap Event.actions = past.flatMap Event.actions)
    (hhollow : p'.hollow = p.hollow) (hfirst : Path.Twins first first')
    (hkids' : p'.kids = first' ++ p'.inField "body")
    (hrun : ({} : Builder).run (past' ++ (p'.events ++ rest')) = .ok final') :
    ∃ done' left', Crosses past' p' first' rest' before after cut done' left' final' := by
  obtain ⟨before', after', cut', done', left', h'⟩ := exists_crosses hkids' hrun
  have hbefore := h'.run_past
  rw [run, hpast] at hbefore
  cases Except.ok.inj (hbefore.symm.trans h.run_past)
  have hafter := h'.run_enter
  rw [Path.enterActions_of_hollow hhollow] at hafter
  cases Except.ok.inj (hafter.symm.trans h.run_enter)
  have hcut := h'.run_first
  rw [run, hfirst.actions_eq] at hcut
  cases Except.ok.inj (hcut.symm.trans h.run_first)
  exact ⟨done', left', h'⟩

theorem run_events : before.run p.events = .ok left := by
  rw [Path.events_eq, h.kids_eq, Path.allEvents_append]
  refine run_cons_eq_ok.2 ⟨after, h.run_enter, run_append_eq_ok.2 ⟨done, ?_, ?_⟩⟩
  · exact run_append_eq_ok.2 ⟨cut, h.run_first, h.run_body⟩
  · rw [run_singleton]
    exact h.run_exit

theorem sound_before : before.Sound := (replay_sound h.run_past .empty).2

theorem sound_left : left.Sound := (replay_sound h.run_events h.sound_before).2

theorem graph_left : left.graph = done.graph := graph_of_exit h.run_exit

/-- The walk of the node confines itself to the scope in which it starts. -/
theorem confined (hp : p.HoldsNoProgram) (hwithin : after.Within f outer) :
    cut.Within f outer ∧ done.Within f outer ∧
      Graph.Confined f outer (fun _ => True) after.graph cut.graph ∧
      Graph.Confined f outer p.HoldsBodyRead cut.graph done.graph := by
  have hfirst : ∀ c ∈ first, c ∈ p.kids := fun c hc => h.kids_eq ▸ List.mem_append_left _ hc
  have hbody : ∀ c ∈ p.inField "body", c ∈ p.kids := fun c hc =>
    h.kids_eq ▸ List.mem_append_right _ hc
  have hcut : Graph.Confined f outer (fun _ => True) after.graph cut.graph ∧ cut.Within f outer :=
    confined_allEvents (fun c hc => confined_events c (hp.of_mem_kids (hfirst c hc))
      fun _ _ => trivial) h.run_first hwithin
  have hdone : Graph.Confined f outer p.HoldsBodyRead cut.graph done.graph ∧
      done.Within f outer :=
    confined_allEvents (fun c hc => confined_events c (hp.of_mem_kids (hbody c hc))
      fun o ho => ⟨c, hc, ho⟩) h.run_body hcut.2
  exact ⟨hcut.2, hdone.2, hcut.1, hdone.1⟩

end Crosses

/-- What two runs have been through from one state on leaves their graphs parallel. -/
theorem Crosses.exists_parallel (h : Crosses past p first rest before after cut done left final)
    (h' : Crosses past' p' first' rest' before after cut done' left' final')
    (hp : p.HoldsNoProgram) (hp' : p'.HoldsNoProgram) (hwithin : after.Within f outer)
    (hf : before.graph.nextScope ≤ f) (hroot : left.root = some 0) (hroot' : left'.root = some 0)
    (hpos : 0 < f) :
    ∃ C : Graph.Correspondence, C.scopes.first = f ∧ C.scopes.next = left.graph.nextScope ∧
      C.outer = outer ∧ C.Read = p.HoldsBodyRead ∧ C.Read' = p'.HoldsBodyRead ∧
      Parallel C left left' := by
  obtain ⟨hcut, hdone, -, hconfined⟩ := h.confined hp hwithin
  obtain ⟨-, hdone', -, hconfined'⟩ := h'.confined hp' hwithin
  have hgrows := replay_grows h.run_body hcut.sound
  have hgrows' := replay_grows h'.run_body hcut.sound
  have hparallel := hconfined.parallel hconfined' hcut.sound.valid hdone.sound.valid
    hdone'.sound.valid hgrows hgrows' hcut.lt_nextScope
  have hland := lands_events p before left h.run_events
  have hland' := lands_events p' before left' h'.run_events
  have hcurrent := hland.back hp.not_drifts
  have hcurrent' := hland'.back hp'.not_drifts
  set C := Graph.Correspondence.of cut.graph f outer p.HoldsBodyRead p'.HoldsBodyRead hgrows hgrows'
    hcut.lt_nextScope
  -- Both stand where they stood before the node, outside the gap.
  have hapart : ∀ s < before.graph.nextScope, C.scopes.Apart s := fun s hs =>
    .inl (Nat.lt_of_lt_of_le hs hf)
  have hmove : ∀ s < before.graph.nextScope, C.scopes.move s = s := fun s hs =>
    Gap.move_of_lt_first (Nat.lt_of_lt_of_le hs hf)
  have hbefore := h.sound_before
  refine ⟨C, rfl, congrArg Graph.nextScope h.graph_left.symm, rfl, rfl, rfl, ?_⟩
  constructor
  · rw [h.graph_left, h'.graph_left]
    exact hparallel
  · rw [hcurrent, hcurrent']
    cases hs : before.current with
    | none => rfl
    | some s => rw [Option.map_some, hmove s (hbefore.current_lt s hs)]
  · intro s hs
    exact hapart s (hbefore.current_lt s (hcurrent.symm.trans hs))
  · rw [hland.marks, hland'.marks]
    refine ((List.map_congr_left fun mark hmark => ?_).trans (List.map_id _)).symm
    cases mark with
    | none => rfl
    | some s => exact congrArg some (hmove s (hbefore.marks_lt s hmark))
  · intro s hs
    rw [hland.marks] at hs
    exact hapart s (hbefore.marks_lt s hs)
  · rw [hroot, hroot', Option.map_some, Gap.move_of_lt_first hpos]
  · intro s hs
    cases hroot.symm.trans hs
    exact .inl hpos

namespace Crosses

variable (h : Crosses past p first rest before after cut done left final)

include h

theorem passes : Passes past p before after final :=
  ⟨h.run_past, h.run_enter, Path.allEvents p.kids ++ .exit p :: rest, by
    rw [h.kids_eq, Path.allEvents_append]
    refine run_append_eq_ok.2 ⟨done, run_append_eq_ok.2 ⟨cut, h.run_first, h.run_body⟩, ?_⟩
    exact run_cons_eq_ok.2 ⟨left, h.run_exit, h.run_rest⟩⟩

theorem grows_left : Graph.Grows left.graph final.graph := replay_grows h.run_rest h.sound_left

/-- The scopes of the node keep their headings. -/
theorem heading_final (hf : f < after.graph.nextScope) :
    (final.graph.draft f).heading = (after.graph.draft f).heading := by
  rw [Draft.heading_eq, h.passes.grows_rest.header_eq hf]
  rfl

/-- What the function makes after its own scope lies inside it. -/
theorem exists_parent_final (hp : p.HoldsNoProgram) (hopened : after.Opened p f)
    (hwithin : after.Within f outer) {s : ScopeId} (hs : f < s) (hlt : s < left.graph.nextScope) :
    ∃ q, final.graph.parent? s = some q ∧ f ≤ q := by
  obtain ⟨hcut, -, hconfined, hconfined'⟩ := h.confined hp hwithin
  rw [h.grows_left.parent?_eq hlt, h.graph_left]
  rw [h.graph_left] at hlt
  rcases Nat.lt_or_ge s cut.graph.nextScope with hsc | hsc
  · rw [(replay_grows h.run_body hcut.sound).parent?_eq hsc]
    exact hconfined.parent_ge s (hopened.nextScope_eq ▸ hs) hsc
  · exact hconfined'.parent_ge s hsc hlt

/-- If the root is the first scope in the end, it was so after the function. -/
theorem root_left (hwithin : done.Within f outer) (hroot : final.root = some 0) :
    left.root = some 0 := by
  rcases root_replay h.run_rest with heq | ⟨r, hr, hle⟩
  · rw [← heq, hroot]
  · rw [hroot] at hr
    cases hr
    rw [h.graph_left] at hle
    exact absurd (Nat.lt_of_le_of_lt (Nat.zero_le f) hwithin.lt_nextScope) (Nat.not_lt.2 hle)

end Crosses

end Builder

/-! ## Two programs -/

theorem Visit.holdsNoProgram {around : List ScopeId} (h : Visit root past around p)
    (hsole : root.SoleProgram) (hp : p.isProgram = false) : p.HoldsNoProgram := by
  intro q hq
  rcases List.mem_cons.1 hq with rfl | hq
  · exact hp
  · rcases List.mem_cons.1 h.mem_descendants with rfl | hp
    · exact hsole q hq
    · exact hsole q (Path.mem_descendants_trans hp hq)

namespace Path.Parts

open Builder

variable {final final' : Builder} {body : Json}

/-- Below the root of a program all scopes come after the layers. -/
theorem three_le_scopesMade (h : Parts root root' p p' past past' rest rest')
    (hp : p.isProgram = false) (hfinal : collect (.object root) = .ok final) :
    3 ≤ scopesMade past := by
  obtain ⟨around, hvisit⟩ := h.visit
  cases hvisit with
  | root =>
    have hprogram : (Path.root root).isProgram = true := (ofTree_of_collect hfinal).1
    rw [hp] at hprogram
    cases hprogram
  | child hvisit hkids =>
    exact Nat.le_trans (hvisit.three_le_scopesMade hfinal) scopesMade_child

/-- Two programs that differ in the body of one function leave graphs that show the same outside the
scope of this function. -/
theorem exists_mirrors (h : Parts root root' p p' past past' rest rest')
    (hfunction : p.node.isAny NodeType.functions = true)
    (hnode : p'.node = p.node.replace "body" body) (hsole : root.SoleProgram)
    (hsole' : root'.SoleProgram) (hfinal : collect (.object root) = .ok final)
    (hfinal' : collect (.object root') = .ok final') (hroot : final.root = some 0)
    (hroot' : final'.root = some 0) :
    ∃ (C : Graph.Correspondence) (name range : Json), p.functionName = .ok name ∧
      p.node.functionRange = .ok range ∧ C.Read = p.HoldsBodyRead ∧ C.Read' = p'.HoldsBodyRead ∧
      (∀ s < 3, s ∈ C.outer) ∧
      (final.graph.draft C.scopes.first).heading = ⟨.function, name, range⟩ ∧
      (final'.graph.draft (C.scopes.move C.scopes.first)).heading = ⟨.function, name, range⟩ ∧
      Graph.Mirrors C final.graph final'.graph := by
  have hp : p.isProgram = false := Node.isAny_eq_false hfunction (by decide)
  have hp' : p'.isProgram = false := by
    have htype := congrArg (fun q : Path => q.node.isAny ["Program"]) h.hollow_eq
    simp only [node_hollow, Node.isAny_hollow] at htype
    exact htype.trans hp
  have hthree := h.three_le_scopesMade hp hfinal
  obtain ⟨around, hvisit⟩ := h.visit
  obtain ⟨around', hvisit'⟩ := h.visit'
  have hnone := hvisit.holdsNoProgram hsole hp
  have hnone' := hvisit'.holdsNoProgram hsole' hp'
  -- Both runs come to the body in the same state.
  have hrun := run_events_of_ofTree (ofTree_of_collect hfinal).2
  have hrun' := run_events_of_ofTree (ofTree_of_collect hfinal').2
  rw [h.events_eq] at hrun
  rw [h.events_eq'] at hrun'
  obtain ⟨first, first', hkids, hkids', htwins⟩ :=
    exists_kids_function h.hollow_eq hfunction hnode
  obtain ⟨before, after, cut, done, left, hcrosses⟩ := exists_crosses hkids hrun
  obtain ⟨done', left', hcrosses'⟩ :=
    hcrosses.exists_twin h.past_eq h.hollow_eq htwins hkids' hrun'
  -- They stand in the scope of the function, inside the layers.
  have hpasses := hcrosses.passes
  obtain ⟨f, hf, hopened⟩ := exists_opened hfunction hcrosses.run_enter hpasses.sound_before
  obtain ⟨outer, hwithin, hchain⟩ := hopened.exists_within hpasses.sound_after
  have hle : 3 ≤ f := by
    rw [hpasses.nextScope_before] at hf
    exact Nat.le_trans hthree hf
  have hlayers : ∀ s < 3, s ∈ outer := by
    intro s hs
    have hmem : s ∈ p.ownScopes past ++ around := by
      refine hvisit.mem_of_root ?_
      rw [mem_ownScopes, scopeCount_of_collect hfinal]
      exact ⟨Nat.zero_le s, hs⟩
    rw [← hvisit.around_before hsole hpasses, ← hpasses.around_after, hchain] at hmem
    exact (List.mem_cons.1 hmem).resolve_left (Nat.ne_of_lt (Nat.lt_of_lt_of_le hs hle))
  -- From the end of the function on they are in lockstep.
  have hdone := (hcrosses.confined hnone hwithin).2.1
  have hdone' := (hcrosses'.confined hnone' hwithin).2.1
  obtain ⟨C, rfl, hnext, rfl, hread, hread', hleft⟩ := hcrosses.exists_parallel hcrosses' hnone
    hnone' hwithin hf (hcrosses.root_left hdone hroot) (hcrosses'.root_left hdone' hroot')
    (Nat.lt_of_lt_of_le (Nat.zero_lt_succ 2) hle)
  have hrest' := hcrosses'.run_rest
  rw [run, h.rest_eq] at hrest'
  have hparallel :=
    hleft.replay hcrosses.sound_left hcrosses'.sound_left hcrosses.run_rest hrest'
  have hgrows := hcrosses.grows_left
  have hlt : C.scopes.first < left.graph.nextScope := hcrosses.graph_left ▸ hdone.lt_nextScope
  have hmove : C.scopes.move C.scopes.first = C.scopes.first := Gap.move_of_lt (hnext ▸ hlt)
  obtain ⟨name, range, hname, hrange, hheading⟩ := hopened.heading
  refine ⟨C, name, range, hname, hrange, hread, hread', hlayers,
    (hcrosses.heading_final hwithin.lt_nextScope).trans hheading, ?_, ?_⟩
  · rw [hmove]
    exact (hcrosses'.heading_final hwithin.lt_nextScope).trans hheading
  · refine hparallel.graph.mirrors hpasses.sound_final.valid ?_ fun s hs hsn =>
      hcrosses.exists_parent_final hnone hopened hwithin hs (hnext ▸ hsn)
    rw [hgrows.chain_eq hcrosses.sound_left.valid.forest hpasses.sound_final.valid.forest hlt,
      hcrosses.graph_left, hdone.chain_eq]

end Path.Parts

end LexicalScopes
