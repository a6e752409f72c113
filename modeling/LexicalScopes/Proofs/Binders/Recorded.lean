import LexicalScopes.Proofs.Recording
import LexicalScopes.Proofs.Run.Bound

/-!
# Recorded declarations

Every declaration of a run is recorded once, at the binding that its name has in some scope, and the
bindings record nothing else. The declarations that a graph records are therefore those of the run,
in another order.
-/

namespace LexicalScopes

/-- A name that is declared at a binding. -/
abbrev Declaration : Type := EntryId × BoundName

/-- The places of the names that are declared at one binding. -/
def declarationsOf (e : EntryId) (declared : List Declaration) : List Json :=
  (declared.filter fun d => d.1 = e).map (·.2.loc)

@[simp] theorem declarationsOf_nil {e : EntryId} : declarationsOf e [] = [] := rfl

@[simp] theorem declarationsOf_append {e : EntryId} {declared more : List Declaration} :
    declarationsOf e (declared ++ more) = declarationsOf e declared ++ declarationsOf e more := by
  simp [declarationsOf]

/-! ## Runs -/

/-- The bindings record these declarations, each under its name. -/
structure Graph.Logs (g : Graph) (declared : List Declaration) : Prop where
  declarations_eq : ∀ e, (g.entry e).declarations = declarationsOf e declared
  exists_find? : ∀ d ∈ declared, ∃ s, g.find? s d.2.name = some d.1

namespace Builder

variable {b b' final : Builder} {a : Action} {actions : List Action} {declared : List Declaration}
  {root : Node}

theorem logs_empty : Graph.Logs {} [] where
  declarations_eq e := congrArg Entry.declarations (Graph.entry_of_le (Nat.zero_le e))
  exists_find? d hd := by cases hd

/-- An action adds the name that it declares to those that are recorded. -/
theorem Does.logs (h : Does b a b') (hb : b.Sound) (hlogs : b.graph.Logs declared) :
    ∃ more : List Declaration, b'.graph.Logs (declared ++ more) ∧
      more.map (·.2) = a.declared?.toList := by
  have hgrows := Graph.Steps.grows (h.sound hb).1 hb.valid
  have hold : ∀ d ∈ declared, ∃ s, b'.graph.find? s d.2.name = some d.1 := by
    intro d hd
    obtain ⟨s, hfind⟩ := hlogs.exists_find? d hd
    exact ⟨s, hgrows.find? s _ _ hfind⟩
  have hrecords := h.records hb
  generalize a.declared? = bound? at hrecords
  cases hrecords with
  | nothing hsame =>
    refine ⟨[], ⟨fun e => ?_, by simpa using hold⟩, rfl⟩
    rw [hsame, hlogs.declarations_eq, List.append_nil]
  | @one s e bound hfind hone =>
    refine ⟨[(e, bound)], ⟨fun e' => ?_, ?_⟩, rfl⟩
    · rw [hone, hlogs.declarations_eq, declarationsOf_append]
      by_cases he : e' = e
      · simp [declarationsOf, he]
      · simp [declarationsOf, he, Ne.symm he]
    · intro d hd
      rcases List.mem_append.1 hd with hd | hd
      · exact hold d hd
      · rw [List.mem_singleton.1 hd]
        exact ⟨s, hfind⟩

theorem logs_replay (h : b.replay actions = .ok b') (hb : b.Sound)
    (hlogs : b.graph.Logs declared) :
    ∃ more : List Declaration, b'.graph.Logs (declared ++ more) ∧
      more.map (·.2) = actions.filterMap Action.declared? := by
  induction actions generalizing b declared with
  | nil =>
    cases h
    exact ⟨[], by simpa using hlogs, rfl⟩
  | cons a actions ih =>
    obtain ⟨b₁, hdoes, hrest⟩ := replay_cons_cases h
    obtain ⟨first, hfirst, hnames⟩ := hdoes.logs hb hlogs
    obtain ⟨later, hlater, hmore⟩ := ih hrest (hdoes.sound hb).2 hfirst
    refine ⟨first ++ later, by rwa [← List.append_assoc], ?_⟩
    rw [List.map_append, hnames, hmore]
    cases ha : a.declared? <;> simp [ha]

end Builder

/-! ## Walks -/

namespace Path

/-- To leave a node declares nothing. -/
theorem filterMap_declared?_exitActions (p : Path) :
    p.exitActions.filterMap Action.declared? = [] := by
  unfold exitActions
  split
  · rfl
  · split <;> rfl

/-- A walk declares the names of the nodes that it enters, one node after the other. -/
theorem filterMap_declared?_events (p : Path) :
    (p.events.flatMap Event.actions).filterMap Action.declared? =
      (p :: p.descendants).flatMap declaredNames := by
  induction p using induction_on_kids with
  | step p ih =>
    have hkids : ∀ ps : List Path, (∀ c ∈ ps, c ∈ p.kids) →
        ((allEvents ps).flatMap Event.actions).filterMap Action.declared? =
          (ps.flatMap fun c => c :: c.descendants).flatMap declaredNames := by
      intro ps hps
      induction ps with
      | nil => rfl
      | cons c ps ihps =>
        rw [allEvents_cons, List.flatMap_append, List.filterMap_append,
          ih c (hps c List.mem_cons_self),
          ihps fun c' hc' => hps c' (List.mem_cons_of_mem _ hc'), ← List.flatMap_append]
        rfl
    have hexit := filterMap_declared?_exitActions p
    have hlast : ([.exit p] : List Event).flatMap Event.actions = p.exitActions :=
      List.flatMap_singleton _ _
    rw [events_eq, List.flatMap_cons, List.flatMap_append, hlast, List.filterMap_append,
      List.filterMap_append, hkids p.kids fun _ h => h, hexit, List.append_nil, ← descendants_eq]
    rfl

end Path

/-- The graph of a tree records the names that its nodes declare. -/
theorem exists_logs_of_ofTree {root : Node} {final : Builder}
    (h : Builder.ofTree root = .ok final) :
    ∃ declared : List Declaration, final.graph.Logs declared ∧
      declared.map (·.2) =
        (.root root :: (Path.root root).descendants).flatMap Path.declaredNames := by
  obtain ⟨declared, hlogs, hnames⟩ :=
    Builder.logs_replay (Builder.run_events_of_ofTree h) .empty Builder.logs_empty
  exact ⟨declared, hlogs, hnames.trans (Path.filterMap_declared?_events _)⟩

/-! ## All bindings -/

theorem perm_flatMap_filter {α β : Type} [DecidableEq β] {f : α → β} {xs : List α} {keys : List β}
    (hkeys : keys.Nodup) (hmem : ∀ x ∈ xs, f x ∈ keys) :
    (keys.flatMap fun key => xs.filter fun x => f x = key).Perm xs := by
  induction keys generalizing xs with
  | nil =>
    rw [List.eq_nil_iff_forall_not_mem.2 fun x hx => List.not_mem_nil (hmem x hx)]
    exact .refl _
  | cons key keys ih =>
    obtain ⟨hkey, hkeys⟩ := List.nodup_cons.1 hkeys
    -- The other keys have the same items among those without the first key.
    have hrest : (keys.flatMap fun other => xs.filter fun x => f x = other) =
        keys.flatMap fun other => (xs.filter fun x => !decide (f x = key)).filter
          fun x => f x = other := by
      refine List.flatMap_congr fun other hother => ?_
      rw [List.filter_filter]
      refine List.filter_congr fun x _ => ?_
      by_cases hx : f x = other
      · have hne : other ≠ key := fun heq => hkey (heq ▸ hother)
        simp [hx, hne]
      · simp [hx]
    rw [List.flatMap_cons, hrest]
    refine (List.Perm.append_left _ (ih hkeys fun x hx => ?_)).trans
      (List.filter_append_perm (fun x => decide (f x = key)) xs)
    obtain ⟨hx, hne⟩ := List.mem_filter.1 hx
    rcases List.mem_cons.1 (hmem x hx) with heq | hin
    · simp [heq] at hne
    · exact hin

namespace Graph

variable {g : Graph} {declared : List Declaration}

theorem OwnsEntries.find?_of_mem (hg : g.OwnsEntries) {s : ScopeId} {x : Scalar × EntryId}
    (hx : x ∈ (g.draft s).bindings) : g.find? s x.1 = some x.2 :=
  hg.find?_eq_some_iff.2 ⟨x, hx, rfl, rfl⟩

/-- No two names are bound to one entry. -/
theorem OwnsEntries.nodup_bindingsOf (hg : g.OwnsEntries) :
    ((g.bindingsOf (List.range g.nextScope)).map (·.2)).Nodup := by
  rw [bindingsOf, List.map_flatMap, List.nodup_flatMap]
  constructor
  · intro s _
    refine List.Nodup.map_on ?_ (hg.distinct s).of_map
    intro x hx y hy hxy
    have hfind := hg.find?_of_mem hy
    rw [← hxy] at hfind
    have hkey := (hg.find?_inj s s x.1 y.1 x.2 (hg.find?_of_mem hx) hfind).2
    exact List.inj_on_of_nodup_map (hg.distinct s) hx hy hkey
  · refine List.nodup_range.imp fun {s t} hne => ?_
    refine List.disjoint_left.2 fun e hs ht => ?_
    obtain ⟨x, hx, rfl⟩ := List.mem_map.1 hs
    obtain ⟨y, hy, hxy⟩ := List.mem_map.1 ht
    have hfind := hg.find?_of_mem hy
    rw [hxy] at hfind
    exact hne (hg.find?_inj s t x.1 y.1 x.2 (hg.find?_of_mem hx) hfind).1

/-- What a graph records are its declarations, in the order of its bindings. -/
theorem Logs.perm_recorded (h : g.Logs declared) (hg : g.OwnsEntries) :
    ((g.recorded Entry.declarations).map fun x => (x.1.key, x.2)).Perm
      (declared.map fun d => (d.2.name.key, d.2.loc)) := by
  have hbound : (g.recorded Entry.declarations).map (fun x => (x.1.key, x.2)) =
      ((g.bindingsOf (List.range g.nextScope)).flatMap fun x =>
        declared.filter fun d => d.1 = x.2).map fun d => (d.2.name.key, d.2.loc) := by
    rw [recorded, recordedBy, List.map_flatMap, List.map_flatMap]
    refine List.flatMap_congr fun x hx => ?_
    obtain ⟨s, -, hx⟩ := List.mem_flatMap.1 hx
    dsimp only
    rw [h.declarations_eq, declarationsOf, List.map_map, List.map_map]
    refine List.map_congr_left fun d hd => ?_
    -- The name under which the entry is bound is the one that was declared.
    obtain ⟨hd, hentry⟩ := List.mem_filter.1 hd
    obtain ⟨t, hfind⟩ := h.exists_find? d hd
    rw [of_decide_eq_true hentry] at hfind
    have hkey := (hg.find?_inj s t _ _ _ (hg.find?_of_mem hx) hfind).2
    exact congrArg (·, d.2.loc) hkey
  rw [hbound]
  refine List.Perm.map _ ?_
  rw [← List.flatMap_map (fun x : Scalar × EntryId => x.2) fun e =>
    declared.filter fun d => d.1 = e]
  refine perm_flatMap_filter hg.nodup_bindingsOf fun d hd => ?_
  obtain ⟨s, hfind⟩ := h.exists_find? d hd
  obtain ⟨x, hx, -, hentry⟩ := hg.find?_eq_some_iff.1 hfind
  refine List.mem_map.2 ⟨x, List.mem_flatMap.2 ⟨s, ?_, hx⟩, hentry⟩
  exact List.mem_range.2 (lt_of_find? hfind)

end Graph

end LexicalScopes
