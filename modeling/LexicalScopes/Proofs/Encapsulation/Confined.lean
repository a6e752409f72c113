import LexicalScopes.Proofs.Placement.Hoisting
import LexicalScopes.Proofs.Resolution
import LexicalScopes.Proofs.Shape.Numbering

/-!
# What a function leaves alone

While the builder stands inside a scope that `var` belongs to, nothing is declared in the scopes
made before it, and no new scope lies in one of them. Of their bindings only those are read that
belong to scopes around the one in which the builder stands.
-/

namespace LexicalScopes

variable {g g' g'' : Graph} {f s t : ScopeId} {outer : List ScopeId} {Read : Occurrence → Prop}

/-! ## Confined changes -/

namespace Graph

/-- From `g` to `g'` nothing changes outside the scope `f` but that bindings of outer scopes are
read at some places. -/
structure Confined (f : ScopeId) (outer : List ScopeId) (Read : Occurrence → Prop) (g g' : Graph) :
    Prop where
  untouched : ∀ t < f, Untouched g g' t
  parent_ge : ∀ s, g.nextScope ≤ s → s < g'.nextScope → ∃ p, g'.parent? s = some p ∧ f ≤ p
  refs : ∀ t < f, ∀ n e, g.find? t n = some e → ∃ mid, (g'.entry e).refs = (g.entry e).refs ++ mid ∧
    ∀ o ∈ mid, t ∈ outer ∧ Read o

namespace Confined

theorem of_entries (huntouched : ∀ t < f, Untouched g g' t) (hnext : g'.nextScope = g.nextScope)
    (hrefs : ∀ e, (g'.entry e).refs = (g.entry e).refs) : Confined f outer Read g g' where
  untouched := huntouched
  parent_ge s hle hlt := absurd hle (Nat.not_le.2 (hnext ▸ hlt))
  refs _ _ _ e _ := ⟨[], by rw [hrefs, List.append_nil], nofun⟩

theorem refl (g : Graph) : Confined f outer Read g g :=
  of_entries (fun t _ => .refl g t) rfl fun _ => rfl

theorem trans (h : Confined f outer Read g g') (h' : Confined f outer Read g' g'')
    (hgrows : Grows g' g'') : Confined f outer Read g g'' where
  untouched t ht := (h.untouched t ht).trans (h'.untouched t ht)
  parent_ge s hle hlt := by
    rcases Nat.lt_or_ge s g'.nextScope with hs | hs
    · rw [hgrows.parent?_eq hs]
      exact h.parent_ge s hle hs
    · exact h'.parent_ge s hs hlt
  refs t ht n e he := by
    obtain ⟨first, hfirst, hread⟩ := h.refs t ht n e he
    obtain ⟨last, hlast, hread'⟩ := h'.refs t ht n e (((h.untouched t ht).find?_eq n).trans he)
    refine ⟨first ++ last, by rw [hlast, hfirst, List.append_assoc], fun o ho => ?_⟩
    exact (List.mem_append.1 ho).elim (hread o) (hread' o)

end Confined

/-- Hoisting from inside a scope that `var` belongs to does not lead out of it. -/
theorem le_varScope (hg : g.Ranked) (hmem : f ∈ g.chain s) (htarget : g.isHoistTarget f = true) :
    f ≤ g.varScope s := by
  obtain ⟨inner, hinner, hlater⟩ := exists_chain_append hg hmem
  obtain ⟨outer, houter⟩ : ∃ outer, g.chain f = f :: outer := by
    rw [chain, chainFrom]
    exact ⟨_, rfl⟩
  rw [varScope, hinner, houter, List.find?_append]
  cases hfirst : inner.find? g.isHoistTarget with
  | some t => exact Nat.le_of_lt (hlater t (List.mem_of_find?_eq_some hfirst))
  | none => simp [htarget]

end Graph

/-! ## Actions inside a scope -/

namespace Builder

variable {b b' : Builder} {a : Action} {actions : List Action} {p : Path} {ps : List Path}

/-- The builder stands inside a scope that `var` belongs to, and inside the scopes around it. -/
structure Within (f : ScopeId) (outer : List ScopeId) (b : Builder) : Prop where
  sound : b.Sound
  mem_around : f ∈ b.around
  target : b.graph.isHoistTarget f = true
  chain_eq : b.graph.chain f = f :: outer

namespace Within

theorem lt_nextScope (h : b.Within f outer) : f < b.graph.nextScope :=
  mem_around_lt h.sound h.mem_around

theorem mem_chain (h : b.Within f outer) (hs : b.current = some s) : f ∈ b.graph.chain s := by
  have hmem := h.mem_around
  rwa [around, hs] at hmem

theorem le_current (h : b.Within f outer) (hs : b.current = some s) : f ≤ s :=
  Graph.le_of_mem_chain h.sound.valid.forest.ranked (h.mem_chain hs)

theorem exists_current (h : b.Within f outer) : ∃ s, b.current = some s ∧ f ≤ s := by
  cases hs : b.current with
  | none =>
    have hmem := h.mem_around
    rw [around, hs] at hmem
    cases hmem
  | some s => exact ⟨s, rfl, h.le_current hs⟩

/-- What grows around the same scopes stays inside. -/
theorem of_grows (h : b.Within f outer) (hb' : b'.Sound) (hgrows : Graph.Grows b.graph b'.graph)
    (hmem : f ∈ b'.around) : b'.Within f outer where
  sound := hb'
  mem_around := hmem
  target := (hgrows.isHoistTarget_eq h.lt_nextScope).trans h.target
  chain_eq :=
    (hgrows.chain_eq h.sound.valid.forest hb'.valid.forest h.lt_nextScope).trans h.chain_eq

/-- A name that is read from inside and bound outside is bound in one of the scopes around. -/
theorem confined_refer {name : Scalar} {e : EntryId} {o : Occurrence} (h : b.Within f outer)
    (hs : b.current = some s) (hres : b.graph.resolve s name = some t)
    (he : b.graph.find? t name = some e) (hread : Read o) :
    Graph.Confined f outer Read b.graph (b.graph.addReference e o) where
  untouched _ _ := Graph.untouched_addReference
  parent_ge s hle hlt := absurd hle (Nat.not_le.2 hlt)
  refs u hu n e' he' := by
    have howns := h.sound.valid.owns
    rw [Graph.entry_addReference (howns.lt_of_find? t name e he)]
    split
    · rename_i heq
      subst heq
      obtain rfl : u = t := (howns.find?_inj u t n name e' he' he).1
      refine ⟨[o], rfl, fun o' ho' => ⟨?_, List.mem_singleton.1 ho' ▸ hread⟩⟩
      have hranked := h.sound.valid.forest.ranked
      have hchain := Graph.mem_chain_of_le hranked (h.mem_chain hs)
        (Graph.resolve_eq_some hres).1 (Nat.le_of_lt hu)
      rw [h.chain_eq] at hchain
      exact (List.mem_cons.1 hchain).resolve_left (Nat.ne_of_lt hu)
    · exact ⟨[], (List.append_nil _).symm, nofun⟩

end Within

/-- An action inside the scope leaves everything outside alone. -/
theorem Does.confined (h : Does b a b') (hb : b.Within f outer)
    (hread : ∀ name o, a = .refer name (.ok o) → Read o) :
    Graph.Confined f outer Read b.graph b'.graph := by
  have huntouched : ∀ t < f, Graph.Untouched b.graph b'.graph t := by
    intro t ht
    refine h.untouched hb.sound ?_ ?_
    · intro hs
      exact absurd ht (Nat.not_lt.2 (hb.le_current hs))
    · rintro - s hs rfl
      have hle := Graph.le_varScope hb.sound.valid.forest.ranked (hb.mem_chain hs) hb.target
      exact absurd ht (Nat.not_lt.2 hle)
  have hopen : ∀ type name loc, Graph.Confined f outer Read b.graph
      (b.openScope type name loc).graph := by
    intro type name loc
    refine ⟨fun t _ => Graph.untouched_addScope, ?_, fun t _ n e _ => ⟨[], ?_, nofun⟩⟩
    · intro s hle hlt
      rw [Builder.openScope, Graph.nextScope_addScope] at hlt
      rw [Builder.openScope, Graph.parent?_addScope,
        if_pos (Nat.le_antisymm (Nat.le_of_lt_succ hlt) hle)]
      exact hb.exists_current
    · rw [List.append_nil]
      rfl
  cases h with
  | openRoot loc => exact hopen .object (.string "Global") loc
  | openScope type name loc => exact hopen type name loc
  | declare hs bound kind =>
    exact .of_entries huntouched Graph.nextScope_declare fun _ => Graph.refs_declare
  | hoist hs bound =>
    exact .of_entries huntouched Graph.nextScope_declare fun _ => Graph.refs_declare
  | declareFunction hs bound =>
    exact .of_entries huntouched Graph.nextScope_declare fun _ => Graph.refs_declare
  | introduce hs names =>
    exact .of_entries huntouched Graph.nextScope_declareImplicit fun _ => refs_declareImplicit
  | refer hs hres he o => exact hb.confined_refer hs hres he (hread _ o rfl)
  | _ => exact .refl _

end Builder

/-! ## Nodes inside a scope -/

/-- Entering a node does not lead outwards. -/
theorem Path.Performs.goesInwards {p : Path} {a : Action} (h : p.Performs a) :
    a = .mark ∨ a.isPlain = true := by
  cases h with
  | mark => exact .inl rfl
  | _ => exact .inr rfl

/-- A node reads its own name where it stands. -/
theorem Path.Performs.readName?_eq {p : Path} {name : Scalar} {occurrence : Except Cause Occurrence}
    (h : p.Performs (.refer name occurrence)) :
    p.readName? = some name ∧ p.occurrence = occurrence := by
  cases h with
  | refer hname => exact ⟨hname, rfl⟩

/-- At or below the node another one reads a name with this occurrence. -/
def Path.HoldsRead (p : Path) (o : Occurrence) : Prop :=
  ∃ q ∈ p :: p.descendants, ∃ name, q.readName? = some name ∧ q.occurrence = .ok o

namespace Builder

variable {b b' : Builder} {a : Action} {actions : List Action} {p : Path} {ps : List Path}

theorem Does.within (h : Does b a b') (hb : b.Within f outer)
    (ha : a = .mark ∨ a.isPlain = true) : b'.Within f outer := by
  obtain ⟨hsteps, hb'⟩ := h.sound hb.sound
  refine hb.of_grows hb' (Graph.Steps.grows hsteps hb.sound.valid) ?_
  rcases ha with rfl | ha
  · cases h
    exact hb.mem_around
  · rw [h.around_of_isPlain ha hb.sound]
    split
    · exact List.mem_cons_of_mem _ hb.mem_around
    · exact hb.mem_around

theorem confined_replay (h : b.replay actions = .ok b') (hb : b.Within f outer)
    (hinwards : ∀ a ∈ actions, a = .mark ∨ a.isPlain = true)
    (hread : ∀ name o, .refer name (.ok o) ∈ actions → Read o) :
    Graph.Confined f outer Read b.graph b'.graph ∧ b'.Within f outer := by
  induction actions generalizing b with
  | nil =>
    cases h
    exact ⟨.refl _, hb⟩
  | cons a actions ih =>
    obtain ⟨b₁, hdoes, hrest⟩ := replay_cons_cases h
    have hb₁ := hdoes.within hb (hinwards a List.mem_cons_self)
    have hfirst : Graph.Confined f outer Read b.graph b₁.graph :=
      hdoes.confined hb fun name o ha => hread name o (ha ▸ List.mem_cons_self)
    obtain ⟨hlater, hb'⟩ := ih hrest hb₁ (fun a' ha' => hinwards a' (List.mem_cons_of_mem _ ha'))
      fun name o ha => hread name o (List.mem_cons_of_mem _ ha)
    exact ⟨hfirst.trans hlater (replay_grows hrest hb₁.sound), hb'⟩

theorem confined_enter (h : b.replay p.enterActions = .ok b') (hb : b.Within f outer)
    (hread : ∀ name o, p.readName? = some name → p.occurrence = .ok o → Read o) :
    Graph.Confined f outer Read b.graph b'.graph ∧ b'.Within f outer := by
  have hperforms := performs_enterActions h
  refine confined_replay h hb (fun a ha => (hperforms a ha).goesInwards) fun name o ha => ?_
  obtain ⟨hname, ho⟩ := (hperforms _ ha).readName?_eq
  exact hread name o hname ho

theorem confined_allEvents
    (hone : ∀ p ∈ ps, ∀ b b' : Builder, b.Within f outer → b.run p.events = .ok b' →
      Graph.Confined f outer Read b.graph b'.graph ∧ b'.Within f outer)
    (h : b.run (Path.allEvents ps) = .ok b') (hb : b.Within f outer) :
    Graph.Confined f outer Read b.graph b'.graph ∧ b'.Within f outer := by
  induction ps generalizing b with
  | nil =>
    cases h
    exact ⟨.refl _, hb⟩
  | cons p ps ih =>
    rw [Path.allEvents_cons] at h
    obtain ⟨b₁, hfirst, hrest⟩ := run_append_eq_ok.1 h
    obtain ⟨hconfined, hb₁⟩ := hone p List.mem_cons_self b b₁ hb hfirst
    obtain ⟨hlater, hb'⟩ := ih (fun q hq => hone q (List.mem_cons_of_mem _ hq)) hrest hb₁
    exact ⟨hconfined.trans hlater (replay_grows hrest hb₁.sound), hb'⟩

/-- Walking a node inside the scope leaves everything outside alone but for reads below the node. -/
theorem confined_events (p : Path) (hp : p.HoldsNoProgram) (hread : ∀ o, p.HoldsRead o → Read o) :
    ∀ b b' : Builder, b.Within f outer → b.run p.events = .ok b' →
      Graph.Confined f outer Read b.graph b'.graph ∧ b'.Within f outer := by
  induction p using Path.induction_on_kids with
  | step p ih =>
    intro b b' hb h
    have hland := lands_events p b b' h
    have hsound := replay_sound h hb.sound
    rw [Path.events_eq] at h
    obtain ⟨b₁, henter, h⟩ := run_cons_eq_ok.1 h
    obtain ⟨b₂, hkids, hexit⟩ := run_append_eq_ok.1 h
    rw [run_singleton] at hexit
    obtain ⟨hfirst, hb₁⟩ := confined_enter henter hb fun name o hname ho =>
      hread o ⟨p, List.mem_cons_self, name, hname, ho⟩
    obtain ⟨hlater, hb₂⟩ := confined_allEvents (fun c hc => ih c hc (hp.of_mem_kids hc)
      fun o ⟨q, hq, ho⟩ => hread o ⟨q, List.mem_cons_of_mem _ (Path.mem_of_mem_kids hc hq), ho⟩)
      hkids hb₁
    -- The builder comes back to where it stood.
    have haround := around_eq_of_current hb.sound hsound.2 hsound.1 (hland.back hp.not_drifts)
    have hgrows := Graph.Steps.grows hsound.1 hb.sound.valid
    refine ⟨?_, hb.of_grows hsound.2 hgrows (haround ▸ hb.mem_around)⟩
    rw [graph_of_exit hexit]
    exact hfirst.trans hlater (replay_grows hkids hb₁.sound)

end Builder

end LexicalScopes
