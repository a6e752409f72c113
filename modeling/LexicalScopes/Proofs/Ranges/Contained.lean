import LexicalScopes.Proofs.Ranges.Located
import LexicalScopes.Proofs.Run.Performs

/-!
# Scopes that cover what is in them

In a graph under construction every scope covers the scopes directly in it and the places where its
names are declared and read. An action keeps this if the scopes around the builder cover the places
that come with the action.
-/

namespace LexicalScopes

/-- The location where a read stands. -/
def Occurrence.loc (o : Occurrence) : Json := span o.start o.stop

/-- All locations of a binding. -/
def Entry.locs (e : Entry) : List Json := e.declarations ++ e.refs.map Occurrence.loc

/-- The locations that an action brings into the graph. -/
def Action.locs : Action → List Json
  | .openRoot loc => [loc]
  | .openScope _ _ loc => [loc]
  | .declare bound _ => [bound.loc]
  | .hoist bound => [bound.loc]
  | .declareFunction bound => [bound.loc]
  | .refer _ (.ok o) => [o.loc]
  | _ => []

namespace Graph

variable {g g' : Graph} {s t : ScopeId} {name n : Scalar} {e b : EntryId} {l : Json}

/-- The range of the scope encloses the location. -/
def Covers (g : Graph) (s : ScopeId) (l : Json) : Prop := (g.draft s).loc.surrounds l = true

/-- Scopes cover the scopes directly in them and the locations of their bindings. -/
structure Contained (g : Graph) : Prop where
  scopes : ∀ s p, g.parent? s = some p → g.Covers p (g.draft s).loc
  entries : ∀ s n e, g.find? s n = some e → ∀ l ∈ (g.entry e).locs, g.Covers s l

theorem Contained.empty : Contained {} where
  scopes s p h := by
    rw [parent?_of_le (Nat.zero_le s)] at h
    cases h
  entries s n e h := by
    rw [find?_of_le (Nat.zero_le s)] at h
    cases h

theorem Grows.loc_eq (h : Grows g g') (hs : s < g.nextScope) :
    (g'.draft s).loc = (g.draft s).loc := congrArg Header.loc (h.header_eq hs)

theorem Grows.covers_iff (h : Grows g g') (hs : s < g.nextScope) :
    g'.Covers s l ↔ g.Covers s l := by
  rw [Covers, h.loc_eq hs, Covers]

theorem locs_of_le (h : g.entries.size ≤ e) : (g.entry e).locs = [] := by
  rw [entry_of_le h]
  rfl

/-- Growth keeps what is contained if new scopes and new locations are covered. -/
theorem Contained.of_grows (h : g.Contained) (hgrows : Grows g g') (hg : g.Valid) (hg' : g'.Valid)
    (hscopes : ∀ s p, g.nextScope ≤ s → g'.parent? s = some p → g'.Covers p (g'.draft s).loc)
    (hentries : ∀ s n e, g'.find? s n = some e → ∀ l ∈ (g'.entry e).locs,
      l ∈ (g.entry e).locs ∨ g'.Covers s l) : g'.Contained where
  scopes s p hp := by
    rcases Nat.lt_or_ge s g.nextScope with hs | hs
    · have hold : g.parent? s = some p := (hgrows.parent?_eq hs).symm.trans hp
      have hlt := Nat.lt_trans (hg.forest.parent_lt s p hold) hs
      rw [hgrows.covers_iff hlt, hgrows.loc_eq hs]
      exact h.scopes s p hold
    · exact hscopes s p hs hp
  entries s n e hfind l hl := by
    rcases hentries s n e hfind l hl with hold | hnew
    · -- Only an entry that the graph has already has a location.
      have he : e < g.entries.size := by
        by_contra hge
        rw [locs_of_le (Nat.not_lt.1 hge)] at hold
        cases hold
      have hfind' := hgrows.find?_of_lt hg.owns hg'.owns he hfind
      exact (hgrows.covers_iff (lt_of_find? hfind')).2 (h.entries s n e hfind' l hold)
    · exact hnew

/-! ## Additions -/

theorem mem_locs_declare {kind : BindingKind} {loc : Option Json}
    (hb : ∀ b, g.find? s name = some b → b < g.entries.size)
    (h : l ∈ ((g.declare s name kind loc).entry e).locs) :
    l ∈ (g.entry e).locs ∨ e = g.target s name ∧ loc = some l := by
  rw [Entry.locs, declarations_declare hb, refs_declare, List.append_assoc, List.mem_append,
    List.mem_append] at h
  rcases h with h | h | h
  · exact .inl (List.mem_append_left _ h)
  · split at h
    · exact .inr ⟨‹_›, Option.mem_toList.1 h⟩
    · cases h
  · exact .inl (List.mem_append_right _ h)

theorem mem_locs_addReference {o : Occurrence} (hb : b < g.entries.size)
    (h : l ∈ ((g.addReference b o).entry e).locs) : l ∈ (g.entry e).locs ∨ e = b ∧ l = o.loc := by
  rw [entry_addReference hb] at h
  split at h
  · rename_i he
    subst he
    simp only [Entry.locs, List.map_append, ← List.append_assoc] at h
    rcases List.mem_append.1 h with h | h
    · exact .inl h
    · exact .inr ⟨rfl, List.mem_singleton.1 h⟩
  · exact .inl h

theorem Contained.addScope {type : ScopeType} {label loc : Json} {parent : Option ScopeId}
    (h : g.Contained) (hg : g.Valid) (hparent : ∀ p, parent = some p → p < g.nextScope)
    (hloc : ∀ p, parent = some p → g.Covers p loc) :
    (g.addScope type label loc parent).Contained := by
  have hstep : Step g (g.addScope type label loc parent) := .addScope type label loc hparent
  have hgrows := hstep.grows hg
  refine h.of_grows hgrows hg (hstep.valid hg) ?_ fun _ _ _ _ _ hl => .inl hl
  intro s p hs hp
  have hlt := lt_of_parent? hp
  rw [nextScope_addScope] at hlt
  have hnew : s = g.nextScope := Nat.le_antisymm (Nat.le_of_lt_succ hlt) hs
  rw [parent?_addScope, if_pos hnew] at hp
  rw [hgrows.covers_iff (hparent p hp), draft_addScope, if_pos hnew]
  exact hloc p hp

/-- Without new scopes there are no new parents. -/
theorem Contained.of_entries (h : g.Contained) (hgrows : Grows g g') (hg : g.Valid) (hg' : g'.Valid)
    (hnext : g'.nextScope = g.nextScope)
    (hentries : ∀ s n e, g'.find? s n = some e → ∀ l ∈ (g'.entry e).locs,
      l ∈ (g.entry e).locs ∨ g'.Covers s l) : g'.Contained := by
  refine h.of_grows hgrows hg hg' ?_ hentries
  intro s p hs hp
  have hlt := lt_of_parent? hp
  rw [hnext] at hlt
  exact absurd hlt (Nat.not_lt.2 hs)

theorem Contained.declare {kind : BindingKind} {loc : Option Json} (h : g.Contained)
    (hg : g.Valid) (hs : s < g.nextScope) (hloc : ∀ l, loc = some l → g.Covers s l) :
    (g.declare s name kind loc).Contained := by
  have hstep : Step g (g.declare s name kind loc) := .declare name kind loc hs
  have hgrows := hstep.grows hg
  have hg' := hstep.valid hg
  refine h.of_entries hgrows hg hg' nextScope_declare ?_
  intro t n e hfind l hl
  rcases mem_locs_declare (hg.owns.lt_of_find? s name) hl with hold | ⟨rfl, hnew⟩
  · exact .inl hold
  · -- The entry belongs to the scope in which the name is declared.
    obtain ⟨rfl, -⟩ := hg'.owns.find?_inj t s n name _ hfind (find?_declare_self hs)
    exact .inr ((hgrows.covers_iff hs).2 (hloc l hnew))

theorem Contained.declareImplicit {names : List String} (h : g.Contained) (hg : g.Valid)
    (hs : s < g.nextScope) : (g.declareImplicit s names).Contained := by
  induction names generalizing g with
  | nil => exact h
  | cons name names ih =>
    rw [declareImplicit_cons]
    have hstep : Step g (g.declare s (.string name) .implicit none) := .declare _ _ _ hs
    exact ih (h.declare hg hs (by simp)) (hstep.valid hg) (by rwa [nextScope_declare])

theorem Contained.addReference {o : Occurrence} (h : g.Contained) (hg : g.Valid)
    (he : g.find? s name = some e) (ho : g.Covers s o.loc) : (g.addReference e o).Contained := by
  have hstep : Step g (g.addReference e o) := .addReference o he
  have hg' := hstep.valid hg
  refine h.of_entries (hstep.grows hg) hg hg' rfl ?_
  intro t n e' hfind l hl
  rcases mem_locs_addReference (hg.owns.lt_of_find? s name e he) hl with hold | ⟨rfl, rfl⟩
  · exact .inl hold
  · obtain ⟨rfl, -⟩ := hg'.owns.find?_inj t s n name _ hfind he
    exact .inr ho

end Graph

/-! ## Actions -/

namespace Builder

variable {b b' : Builder} {p : Path} {a : Action} {actions : List Action} {s : ScopeId} {l : Json}

theorem mem_around (h : b.current = some s) : s ∈ b.around := by
  rw [around, h]
  exact List.mem_cons_self

/-- An action keeps what is contained if the scopes around the builder cover its locations. -/
theorem Does.contained (h : Does b a b') (hb : b.Sound) (hcontained : b.graph.Contained)
    (hcovers : ∀ s ∈ b.around, ∀ l ∈ a.locs, b.graph.Covers s l) : b'.graph.Contained := by
  have hat : ∀ {s t}, b.current = some s → t ∈ b.graph.chain s → t ∈ b.around := by
    intro s t hs ht
    rw [around, hs]
    exact ht
  cases h with
  | openRoot loc =>
    refine hcontained.addScope hb.valid hb.current_lt fun s hs => ?_
    exact hcovers s (mem_around hs) loc List.mem_cons_self
  | openScope type name loc =>
    refine hcontained.addScope hb.valid hb.current_lt fun s hs => ?_
    exact hcovers s (mem_around hs) loc List.mem_cons_self
  | declare hs bound kind =>
    rw [graph_declareIn]
    refine hcontained.declare hb.valid (hb.current_lt _ hs) fun l hl => ?_
    cases hl
    exact hcovers _ (mem_around hs) _ List.mem_cons_self
  | hoist hs bound =>
    rw [graph_declareIn]
    refine hcontained.declare hb.valid (Graph.varScope_lt hb.valid.forest (hb.current_lt _ hs))
      fun l hl => ?_
    cases hl
    exact hcovers _ (hat hs (b.graph.varScope_mem_chain _)) _ List.mem_cons_self
  | declareFunction hs bound =>
    rw [graph_declareIn]
    refine hcontained.declare hb.valid (hb.current_lt _ hs) fun l hl => ?_
    cases hl
    exact hcovers _ (mem_around hs) _ List.mem_cons_self
  | introduce hs names => exact hcontained.declareImplicit hb.valid (hb.current_lt _ hs)
  | refer hs hres he o =>
    exact hcontained.addReference hb.valid he
      (hcovers _ (hat hs (Graph.resolve_eq_some hres).1) _ List.mem_cons_self)
  | _ => exact hcontained

/-! ## Actions of a node -/

/-- Entering a node moves the builder inwards at most. -/
theorem Does.around_of_performs (h : Does b a b') (ha : p.Performs a) (hb : b.Sound) :
    b'.around = if a.opens then b.graph.nextScope :: b.around else b.around := by
  cases ha with
  | mark =>
    cases h
    rfl
  | _ => exact h.around_of_isPlain rfl hb

theorem loc_openScope {type : ScopeType} {name loc : Json} :
    ((b.openScope type name loc).graph.draft b.graph.nextScope).loc = loc := by
  rw [openScope, Graph.draft_addScope, if_pos rfl]

/-- A scope around the builder was there before the action, or the action opens it. -/
theorem Does.mem_around (h : Does b a b') (ha : p.Performs a) (hb : b.Sound) (hs : s ∈ b'.around) :
    s ∈ b.around ∨
      ∃ heading, a.heading? = some heading ∧ (b'.graph.draft s).loc = heading.loc := by
  rw [h.around_of_performs ha hb] at hs
  cases h with
  | openRoot loc =>
    rcases List.mem_cons.1 hs with rfl | hs
    · exact .inr ⟨_, rfl, loc_openScope⟩
    · exact .inl hs
  | openScope type name loc =>
    rcases List.mem_cons.1 hs with rfl | hs
    · exact .inr ⟨_, rfl, loc_openScope⟩
    · exact .inl hs
  | _ => exact .inl hs

theorem lt_of_mem_around (hb : b.Sound) (hs : s ∈ b.around) : s < b.graph.nextScope := by
  rw [around] at hs
  split at hs
  · rename_i t ht
    exact Nat.lt_of_le_of_lt (Graph.le_of_mem_chain hb.valid.forest.ranked hs) (hb.current_lt t ht)
  · cases hs

end Builder

/-- What the later action brings stands in the scope that the earlier one opens. -/
def Action.Encloses (a a' : Action) : Prop :=
  ∀ heading, a.heading? = some heading → ∀ l ∈ a'.locs, heading.loc.surrounds l = true

namespace Builder

variable {b b' : Builder} {p : Path} {a : Action} {actions : List Action} {s : ScopeId} {l : Json}

/-- A scope around the builder was there before, or one of the actions has opened it. -/
theorem exists_heading_of_mem_around (h : b.replay actions = .ok b')
    (hperforms : ∀ a ∈ actions, p.Performs a) (hb : b.Sound) (hs : s ∈ b'.around) :
    s ∈ b.around ∨ ∃ a ∈ actions, ∃ heading, a.heading? = some heading ∧
      (b'.graph.draft s).loc = heading.loc := by
  induction actions generalizing b with
  | nil =>
    cases h
    exact .inl hs
  | cons a actions ih =>
    obtain ⟨b₁, hdoes, hrest⟩ := replay_cons_cases h
    have hb₁ := (hdoes.sound hb).2
    rcases ih hrest (fun a' ha' => hperforms a' (List.mem_cons_of_mem _ ha')) hb₁ with
      hs | ⟨a', ha', hheading⟩
    · rcases hdoes.mem_around (hperforms a List.mem_cons_self) hb hs with
        hs | ⟨heading, hheading, hloc⟩
      · exact .inl hs
      · refine .inr ⟨a, List.mem_cons_self, heading, hheading, ?_⟩
        rw [(replay_grows hrest hb₁).loc_eq (lt_of_mem_around hb₁ ‹_›), hloc]
    · exact .inr ⟨a', List.mem_cons_of_mem _ ha', hheading⟩

/-- The actions of a node keep what is contained if the scopes around it cover their locations, and
so do the scopes that the node itself opens. -/
theorem contained_replay (h : b.replay actions = .ok b') (hperforms : ∀ a ∈ actions, p.Performs a)
    (hb : b.Sound) (hcontained : b.graph.Contained)
    (hcovers : ∀ s ∈ b.around, ∀ a ∈ actions, ∀ l ∈ a.locs, b.graph.Covers s l)
    (hown : actions.Pairwise Action.Encloses) : b'.graph.Contained := by
  induction actions generalizing b with
  | nil =>
    cases h
    exact hcontained
  | cons a actions ih =>
    obtain ⟨b₁, hdoes, hrest⟩ := replay_cons_cases h
    obtain ⟨hencloses, hown⟩ := List.pairwise_cons.1 hown
    obtain ⟨hsteps, hb₁⟩ := hdoes.sound hb
    have hcontained₁ := hdoes.contained hb hcontained fun s hs => hcovers s hs a List.mem_cons_self
    refine ih hrest (fun a' ha' => hperforms a' (List.mem_cons_of_mem _ ha')) hb₁ hcontained₁ ?_
      hown
    intro s hs a' ha' l hl
    rcases hdoes.mem_around (hperforms a List.mem_cons_self) hb hs with
      hold | ⟨heading, hheading, hloc⟩
    · rw [(Graph.Steps.grows hsteps hb.valid).covers_iff (lt_of_mem_around hb hold)]
      exact hcovers s hold a' (List.mem_cons_of_mem _ ha') l hl
    · rw [Graph.Covers, hloc]
      exact hencloses a' ha' heading hheading l hl

end Builder

/-- A scope that a node makes has the range that one of the actions of the node gives it. -/
theorem Passes.exists_heading {past : List Event} {p : Path} {before after final : Builder}
    {s : ScopeId} (h : Passes past p before after final) (hs : s ∈ p.ownScopes past) :
    ∃ a heading, p.Performs a ∧ a.heading? = some heading ∧
      (final.graph.draft s).loc = heading.loc := by
  have hafter : s ∈ after.around := by
    rw [h.around_after]
    exact List.mem_append_left _ hs
  have hperforms := performs_enterActions h.run_enter
  rcases Builder.exists_heading_of_mem_around h.run_enter hperforms h.sound_before hafter with
    hold | ⟨a, ha, heading, hheading, hloc⟩
  · have hlt := Builder.lt_of_mem_around h.sound_before hold
    rw [h.nextScope_before] at hlt
    exact absurd hlt (Nat.not_lt.2 (Path.mem_ownScopes.1 hs).1)
  · refine ⟨a, heading, hperforms a ha, hheading, ?_⟩
    rw [h.grows_rest.loc_eq (Builder.lt_of_mem_around h.sound_after hafter), hloc]

end LexicalScopes
