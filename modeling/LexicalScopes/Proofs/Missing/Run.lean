import LexicalScopes.Proofs.Missing.Actions
import LexicalScopes.Proofs.Ranges.Contained
import LexicalScopes.Proofs.Settled

/-!
# Runs over intact trees

A builder is ready once it stands in a program. It replays every action of an intact tree or reports
a fault, and the graph that it leaves behind can be copied into a tree.
-/

namespace LexicalScopes

/-! ## Graphs that can be shown -/

/-- The declarations and the reads of a binding have lines and columns. -/
structure Entry.IsExportable (e : Entry) : Prop where
  declarations : ∀ loc ∈ e.declarations, loc.IsSpan
  refs : ∀ o ∈ e.refs, o.IsSpan

namespace Graph

variable {g g' : Graph} {s : ScopeId} {name : Scalar} {e : EntryId}

/-- The scopes and the bindings of the graph have lines and columns. -/
structure IsExportable (g : Graph) : Prop where
  scopes : ∀ s < g.nextScope, (g.draft s).loc.IsSpan
  entries : ∀ e, (g.entry e).IsExportable

theorem IsExportable.empty : IsExportable {} where
  scopes s hs := absurd hs (Nat.not_lt_zero s)
  entries e := by
    rw [entry_of_le (Nat.zero_le e)]
    exact ⟨nofun, nofun⟩

theorem IsExportable.addScope {type : ScopeType} {label loc : Json} {parent : Option ScopeId}
    (h : g.IsExportable) (hloc : loc.IsSpan) :
    (g.addScope type label loc parent).IsExportable where
  scopes s hs := by
    rw [nextScope_addScope] at hs
    rw [draft_addScope]
    split
    · exact hloc
    · exact h.scopes s (Nat.lt_of_le_of_ne (Nat.le_of_lt_succ hs) ‹_›)
  entries e := h.entries e

theorem IsExportable.declare {kind : BindingKind} {loc : Option Json} (h : g.IsExportable)
    (hg : g.Valid) (hs : s < g.nextScope) (hloc : ∀ l ∈ loc, l.IsSpan) :
    (g.declare s name kind loc).IsExportable where
  scopes t ht := by
    rw [nextScope_declare] at ht
    have hstep : Step g (g.declare s name kind loc) := .declare name kind loc hs
    rw [(hstep.grows hg).loc_eq ht]
    exact h.scopes t ht
  entries e := by
    refine ⟨?_, ?_⟩
    · rw [declarations_declare (hg.owns.lt_of_find? s name)]
      refine List.forall_mem_append.2 ⟨(h.entries e).declarations, fun l hl => ?_⟩
      split at hl
      · exact hloc l (Option.mem_toList.1 hl)
      · cases hl
    · rw [refs_declare]
      exact (h.entries e).refs

theorem IsExportable.declareImplicit {names : List String} (h : g.IsExportable) (hg : g.Valid)
    (hs : s < g.nextScope) : (g.declareImplicit s names).IsExportable := by
  induction names generalizing g with
  | nil => exact h
  | cons name names ih =>
    rw [declareImplicit_cons]
    have hstep : Step g (g.declare s (.string name) .implicit none) := .declare _ _ _ hs
    exact ih (h.declare hg hs nofun) (hstep.valid hg) (by rwa [nextScope_declare])

theorem IsExportable.addReference {o : Occurrence} (h : g.IsExportable)
    (he : e < g.entries.size) (ho : o.IsSpan) : (g.addReference e o).IsExportable where
  scopes s hs := h.scopes s hs
  entries e' := by
    rw [entry_addReference he]
    split
    · refine ⟨(h.entries e).declarations, List.forall_mem_append.2 ⟨(h.entries e).refs, ?_⟩⟩
      exact List.forall_mem_singleton.2 ho
    · exact h.entries e'

end Graph

/-! ## Builders that are ready -/

namespace Builder

variable {b b' : Builder} {a : Action} {actions : List Action}

/-- The builder stands in a scope of a graph that can be shown, and so do the places that it goes
back to. -/
structure Ready (b : Builder) : Prop where
  sound : b.Sound
  exportable : b.graph.IsExportable
  current : ∃ s, b.current = some s
  root : ∃ s, b.root = some s
  marks : ∀ saved ∈ b.marks, ∃ s, saved = some s

theorem Does.exportable (h : Does b a b') (hb : b.Sound) (hg : b.graph.IsExportable)
    (ha : a.IsExportable) : b'.graph.IsExportable := by
  have hdeclareIn {s : ScopeId} (hs : s < b.graph.nextScope) (bound : BoundName)
      (kind : BindingKind) (hbound : bound.loc.IsSpan) :
      (b.declareIn s bound kind).graph.IsExportable := by
    rw [graph_declareIn]
    exact hg.declare hb.valid hs fun _ hl => Option.mem_some.1 hl ▸ hbound
  cases h with
  | openRoot loc => exact hg.addScope ha
  | openScope type name loc => exact hg.addScope ha
  | declare hs bound kind => exact hdeclareIn (hb.current_lt _ hs) bound kind ha
  | hoist hs bound =>
    exact hdeclareIn (Graph.varScope_lt hb.valid.forest (hb.current_lt _ hs)) bound .var ha
  | declareFunction hs bound => exact hdeclareIn (hb.current_lt _ hs) bound _ ha
  | introduce hs names => exact hg.declareImplicit hb.valid (hb.current_lt _ hs)
  | refer hs hres he o =>
    cases ha with
    | ok ho => exact hg.addReference (hb.valid.owns.lt_of_find? _ _ _ he) ho
  | _ => exact hg

/-- Only before a program is entered does a builder stand nowhere. -/
theorem Does.ready (h : Does b a b') (hb : b.Ready) (ha : a.IsExportable) : b'.Ready := by
  have hsound := (h.sound hb.sound).2
  have hexportable := h.exportable hb.sound hb.exportable ha
  cases h with
  | openRoot loc => exact ⟨hsound, hexportable, ⟨_, rfl⟩, ⟨_, rfl⟩, hb.marks⟩
  | openScope type name loc => exact ⟨hsound, hexportable, ⟨_, rfl⟩, hb.root, hb.marks⟩
  | mark =>
    exact ⟨hsound, hexportable, hb.current, hb.root, List.forall_mem_cons.2 ⟨hb.current, hb.marks⟩⟩
  | restore hmarks =>
    obtain ⟨hsaved, hrest⟩ := List.forall_mem_cons.1 (hmarks ▸ hb.marks)
    exact ⟨hsound, hexportable, hsaved, hb.root, hrest⟩
  | returnToRoot => exact ⟨hsound, hexportable, hb.root, hb.root, hb.marks⟩
  | _ => exact ⟨hsound, hexportable, hb.current, hb.root, hb.marks⟩

/-- A builder that is ready replays the action, or a fault is reported. -/
theorem answers_apply (hb : b.Ready) (ha : a.IsExportable) : Answers Ready (b.apply a) := by
  obtain ⟨s, hs⟩ := hb.current
  have hhere (method : String) : b.here method = .ok s := here_eq_ok.2 hs
  -- There is a current scope, so only a fault that comes with the action can stop it.
  have hanswers : Answers Answers.Any (b.apply a) := by
    cases a with
    | refer name occurrence =>
      rw [apply, refer, hhere, ok_bind]
      split
      · exact .ok trivial
      · split
        · exact .ok trivial
        · exact Answers.bind ha fun _ _ => .ok trivial
    | fail fault =>
      obtain ⟨e, rfl⟩ := ha
      exact .reported e
    | restore =>
      rw [apply]
      split <;> exact .ok trivial
    | declare | hoist | declareFunction | introduce =>
      rw [apply, hhere]
      exact .ok trivial
    | _ => exact .ok trivial
  exact hanswers.read.mono fun b' h => (does_of_apply h.2).ready hb ha

theorem answers_replay (hb : b.Ready) (h : Action.AllExportable actions) :
    Answers Ready (b.replay actions) := by
  induction actions generalizing b with
  | nil => exact .ok hb
  | cons a actions ih =>
    obtain ⟨ha, hactions⟩ := List.forall_mem_cons.1 h
    rw [replay_cons]
    exact (answers_apply hb ha).bind fun b' hb' => ih hb' hactions

end Builder

/-! ## Walks -/

variable {ast : Node}

/-- A program is entered, or a fault is reported. -/
theorem answers_replay_program {rest : List Action} (h : (Json.object ast).Intact)
    (htype : ast.isAny ["Program"] = true) (hrest : Action.AllExportable rest) :
    Answers Builder.Ready (({} : Builder).replay (Action.attempt ast.programActions ++ rest)) := by
  cases hactions : ast.programActions with
  | error fault =>
    obtain ⟨e, rfl⟩ := (answers_programActions h htype).exists_of_error hactions
    rw [Action.attempt, List.singleton_append, Builder.replay_fail]
    exact .reported e
  | ok actions =>
    have hall := allExportable_attempt (answers_programActions h htype)
    rw [hactions] at hall
    obtain ⟨loc, hloc, hlist⟩ := bind_eq_ok.1 hactions
    cases hlist
    obtain ⟨hroot, hlayers⟩ := List.forall_mem_cons.1 hall
    rw [Action.attempt, List.cons_append, Builder.replay_cons, Builder.apply, ok_bind]
    refine Builder.answers_replay ?_ (List.forall_mem_append.2 ⟨hlayers, hrest⟩)
    have hdoes := Builder.Does.openRoot (b := {}) (.object loc)
    exact ⟨(hdoes.sound .empty).2, hdoes.exportable .empty .empty hroot, ⟨_, rfl⟩, ⟨_, rfl⟩,
      List.forall_mem_nil _⟩

/-- The scopes of an intact tree are collected, or a fault is reported. -/
theorem answers_collect (h : (Json.object ast).Intact) :
    Answers Builder.Ready (collect (.object ast)) := by
  refine .ite (fun htype => ?_) fun _ => h.answers_malformed _
  have hscript := allExportable_script (p := .root ast) h
  have henter : (Path.root ast).enterActions = Action.attempt ast.programActions := if_pos htype
  rw [Builder.ofTree_eq_replay]
  rw [Path.script_eq, List.append_assoc, henter] at hscript ⊢
  exact answers_replay_program h htype (List.forall_mem_append.1 hscript).2

/-! ## Trees -/

theorem Wrapper.IsSpan.answers {w : Wrapper} (h : w.IsSpan) : Answers Answers.Any w.toWrapping := by
  obtain ⟨r, hr⟩ := exists_ofPlaces h.1 h.2
  rw [toWrapping, hr]
  exact .ok trivial

theorem answers_exportChain {ws : List Wrapper} (h : ∀ w ∈ ws, w.IsSpan) :
    Answers Answers.Any (Wrapper.exportChain ws) := by
  induction ws with
  | nil => exact .ok trivial
  | cons w ws ih =>
    obtain ⟨hw, hws⟩ := List.forall_mem_cons.1 h
    rw [Wrapper.exportChain_cons]
    exact (ih hws).bind fun _ _ => hw.answers.bind fun _ _ => .ok trivial

theorem Occurrence.IsSpan.answers {o : Occurrence} (h : o.IsSpan) :
    Answers Answers.Any o.toReference := by
  obtain ⟨r, hr⟩ := exists_ofPlaces h.start h.stop
  rw [toReference, hr, ok_bind]
  exact (answers_exportChain h.wrappers).bind fun _ _ => .ok trivial

theorem Entry.IsExportable.answers {e : Entry} (h : e.IsExportable) :
    Answers Answers.Any e.toBinding := by
  have hdeclarations : Answers (fun rs => ∀ r ∈ rs, Answers.Any r)
      (e.declarations.mapM Range.ofLoc) :=
    Answers.mapM fun loc hloc => (by
      obtain ⟨r, hr⟩ := (h.declarations loc hloc).exists_ofLoc
      rw [hr]
      exact .ok trivial)
  refine hdeclarations.bind fun _ _ => ?_
  exact (Answers.mapM fun o ho => (h.refs o ho).answers).bind fun _ _ => .ok trivial

namespace Graph

variable {g : Graph} {root s : ScopeId}

/-- Below the root of a settled graph that can be shown, every scope is copied. -/
theorem IsExportable.answers_treeFrom {fuel : Nat} (hg : g.IsExportable) (hsettled : g.Settled root)
    (hs : g.Reaches root s) (hlt : s < g.nextScope) (hfuel : g.nextScope ≤ s + fuel) :
    Answers Answers.Any (g.treeFrom fuel s) := by
  induction fuel generalizing s with
  | zero => exact absurd hlt (Nat.not_lt.2 hfuel)
  | succ fuel ih =>
    obtain ⟨r, hr⟩ := (hg.scopes s hlt).exists_ofLoc
    rw [treeFrom]
    dsimp only
    rw [hr, ok_bind]
    refine (Answers.mapM (Q := Answers.Any) fun x _ => ?_).bind fun bindings _ => ?_
    · exact (hg.entries x.2).answers.bind fun _ _ => .ok trivial
    · refine (Answers.mapM (Q := Answers.Any) fun c hc => ?_).bind fun _ _ => .ok trivial
      -- A child is made after its parent.
      have hparent := hsettled.parent?_of_mem_children hs hc
      have hcs := hsettled.ranked c s hparent
      have hclt := lt_of_parent? hparent
      refine ih (hs.tail hc) hclt ?_
      calc g.nextScope ≤ s + (fuel + 1) := hfuel
        _ = s + 1 + fuel := by rw [Nat.add_comm fuel, ← Nat.add_assoc]
        _ ≤ c + fuel := Nat.add_le_add_right hcs fuel

end Graph

namespace Finished

variable {final : Builder} {loc : Json} {g : Graph}

theorem exists_settle (h : Finished loc final) (generated : Bool) :
    ∃ g, final.graph.settle 0 final.isModule generated = .ok g := by
  unfold Graph.settle
  split
  · exact ⟨_, rfl⟩
  · exact ⟨_, h.stacked.dissolve_eq⟩

/-- What is left of the module layer does not matter to what can be shown. -/
theorem isExportable_settle {generated : Bool} (h : Finished loc final)
    (hg : final.graph.settle 0 final.isModule generated = .ok g)
    (hfinal : final.graph.IsExportable) : g.IsExportable where
  scopes s hs := by
    rw [h.loc_settle hg]
    exact hfinal.scopes s (h.nextScope_settle hg ▸ hs)
  entries e := by
    rw [h.entry_settle hg]
    exact hfinal.entries e

theorem answers_finish (h : Finished loc final) (hfinal : final.graph.IsExportable)
    (generated : Bool) : Answers Answers.Any (final.finish generated) := by
  obtain ⟨g, hg⟩ := h.exists_settle generated
  have hlt : 0 < g.nextScope := h.nextScope_settle hg ▸ h.layered.zero_lt
  rw [Builder.finish, Builder.rootScope, h.root_eq, ok_bind, hg, ok_bind]
  refine (h.isExportable_settle hg hfinal).answers_treeFrom (h.settled hg) .refl hlt ?_
  exact Nat.le_of_eq (Nat.zero_add _).symm

end Finished

/-- The scopes of what is left of a program are found if it has no hole, or a fault is reported. -/
theorem answers_analyze {root : Node} (hroot : root.IsProgram)
    (hprunes : Json.Prunes (.object root) (.object ast))
    (hwhole : ∀ hole, (Json.object ast).hasHole hole = false) (generated : Bool) :
    Answers Answers.Any (analyze (.object ast) generated) := by
  refine (answers_collect (hroot.intact hprunes hwhole)).read.bind fun final hfinal => ?_
  obtain ⟨loc, -, hfinished⟩ := finished_of_collect hfinal.2 fun q hq => hroot.isInner hprunes hq
  exact hfinished.answers_finish hfinal.1.exportable generated

end LexicalScopes
