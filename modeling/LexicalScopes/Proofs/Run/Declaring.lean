import LexicalScopes.Proofs.Run.Visit

/-!
# Scopes that a run declares in

An action declares in one scope: a hoisted name in the scope that `var` belongs to, every other name
in the scope where the builder stands. All other scopes keep their names and the places where these
are declared.
-/

namespace LexicalScopes

namespace Graph

variable {g g' g'' final : Graph} {s t : ScopeId} {name n : Scalar} {kind : BindingKind}
  {loc : Option Json} {bound : BoundName} {e : EntryId}

/-! ## Untouched scopes -/

/-- From `g` to `g'` nothing is declared in the scope. -/
structure Untouched (g g' : Graph) (t : ScopeId) : Prop where
  bindings_eq : (g'.draft t).bindings = (g.draft t).bindings
  declarations_eq : ∀ n e, g.find? t n = some e →
    (g'.entry e).declarations = (g.entry e).declarations

namespace Untouched

theorem refl (g : Graph) (t : ScopeId) : Untouched g g t := ⟨rfl, fun _ _ _ => rfl⟩

theorem find?_eq (h : Untouched g g' t) (n : Scalar) : g'.find? t n = g.find? t n := by
  rw [find?, h.bindings_eq]
  rfl

theorem trans (h : Untouched g g' t) (h' : Untouched g' g'' t) : Untouched g g'' t where
  bindings_eq := h'.bindings_eq.trans h.bindings_eq
  declarations_eq n e he := by
    have he' : g'.find? t n = some e := (h.find?_eq n).trans he
    exact (h'.declarations_eq n e he').trans (h.declarations_eq n e he)

end Untouched

theorem untouched_addScope {type : ScopeType} {label at_ : Json} {parent : Option ScopeId} :
    Untouched g (g.addScope type label at_ parent) t where
  bindings_eq := bindings_addScope
  declarations_eq _ _ _ := rfl

theorem untouched_declare (hg : g.OwnsEntries) (hs : s < g.nextScope) (hne : t ≠ s) :
    Untouched g (g.declare s name kind loc) t where
  bindings_eq := by rw [draft_declare_of_ne hs hne]
  declarations_eq n e he := by rw [entry_declare_of_ne (hg.unshared.ne_target hne he)]

theorem untouched_declareImplicit (hg : g.OwnsEntries) (hs : s < g.nextScope) (hne : t ≠ s)
    (names : List String) : Untouched g (g.declareImplicit s names) t := by
  induction names generalizing g with
  | nil => exact .refl g t
  | cons name names ih =>
    rw [declareImplicit_cons]
    have hfirst : Untouched g (g.declare s (.string name) .implicit none) t :=
      untouched_declare hg hs hne
    exact hfirst.trans (ih (hg.declare hs .implicit none) (by rwa [nextScope_declare]))

theorem untouched_addReference {o : Occurrence} : Untouched g (g.addReference e o) t where
  bindings_eq := rfl
  declarations_eq n e' _ := by
    rw [addReference, entry, getD_modify]
    split <;> rfl

/-! ## New declarations -/

/-- From `g` to `g'` the name is declared in a scope of the final graph, where it stays. -/
def Declares (g g' final : Graph) (t : ScopeId) (bound : BoundName) : Prop :=
  ∃ e k, final.find? t bound.name = some e ∧ (g.entry e).declarations.length ≤ k ∧
    k < (g'.entry e).declarations.length ∧ (final.entry e).declarations[k]? = some bound.loc

/-- A declaration with a location is one that stays. -/
theorem declares_declare (hg : g.Valid) (hs : s < g.nextScope)
    (hgrows : Grows (g.declare s bound.name kind (some bound.loc)) final) :
    Declares g (g.declare s bound.name kind (some bound.loc)) final s bound := by
  have hdeclared : ((g.declare s bound.name kind (some bound.loc)).entry
      (g.target s bound.name)).declarations =
        (g.entry (g.target s bound.name)).declarations ++ [bound.loc] := by
    rw [declarations_declare (hg.owns.lt_of_find? s bound.name), if_pos rfl, Option.toList_some]
  refine ⟨g.target s bound.name, (g.entry (g.target s bound.name)).declarations.length,
    hgrows.find? _ _ _ (find?_declare_self hs), Nat.le_refl _, ?_, ?_⟩
  · rw [hdeclared, List.length_append]
    exact Nat.lt_succ_self _
  · obtain ⟨rest, hrest⟩ := hgrows.declarations (g.target s bound.name)
    rw [← hrest, hdeclared]
    simp

/-- What is declared in a part of a run is declared in the whole of it. -/
theorem Declares.mono {g₀ g₁ : Graph} (h : Declares g g' final t bound) (hfirst : Grows g₀ g)
    (hlast : Grows g' g₁) : Declares g₀ g₁ final t bound := by
  obtain ⟨e, k, he, hle, hlt, hk⟩ := h
  exact ⟨e, k, he, Nat.le_trans (hfirst.declarations e).length_le hle,
    Nat.lt_of_lt_of_le hlt (hlast.declarations e).length_le, hk⟩

/-- Nothing new is declared in a scope that is not touched. -/
theorem Untouched.not_declares (h : Untouched g g' t) (hg' : g'.OwnsEntries)
    (hfinal : final.OwnsEntries) (hgrows : Grows g' final) : ¬ Declares g g' final t bound := by
  rintro ⟨e, k, he, hle, hlt, -⟩
  rcases Nat.lt_or_ge e g'.entries.size with hold | hnew
  · -- The binding exists already, so it belongs to the scope as it was.
    have he' := hgrows.find?_of_lt hg' hfinal hold he
    rw [h.find?_eq] at he'
    rw [h.declarations_eq _ e he'] at hlt
    exact absurd hlt (Nat.not_lt.2 hle)
  · rw [entry_of_le hnew] at hlt
    cases hlt

end Graph

/-! ## Actions -/

namespace Action

/-- The action declares a name where `var` belongs. -/
def hoists : Action → Bool
  | .hoist _ => true
  | _ => false

/-- The builder stands where it stood after the action. -/
def keepsPlace : Action → Bool
  | .openRoot _ => false
  | .openScope _ _ _ => false
  | .restore => false
  | .returnToRoot => false
  | _ => true

/-- The action goes nowhere but inwards, and it declares only where the builder stands. -/
def isInner : Action → Bool
  | .restore => false
  | .returnToRoot => false
  | .hoist _ => false
  | _ => true

/-- The action declares a name in the scope where the builder stands. -/
def declaresHere (a : Action) (bound : BoundName) : Prop :=
  (∃ kind, a = .declare bound kind) ∨ a = .declareFunction bound

end Action

namespace Builder

variable {b b' : Builder} {a : Action} {actions : List Action} {s t : ScopeId} {bound : BoundName}

theorem Does.current_of_keepsPlace (h : Does b a b') (ha : a.keepsPlace = true) :
    b'.current = b.current := by
  cases h with
  | openRoot loc => cases ha
  | openScope type name loc => cases ha
  | restore hmarks => cases ha
  | returnToRoot => cases ha
  | _ => rfl

/-- An action touches no scope but the one where the builder stands and, if it hoists a name, the
one that `var` belongs to. -/
theorem Does.untouched (h : Does b a b') (hb : b.Sound) (ht : b.current ≠ some t)
    (hvar : a.hoists = true → ∀ s, b.current = some s → b.graph.varScope s ≠ t) :
    Graph.Untouched b.graph b'.graph t := by
  have hother : ∀ s, b.current = some s → t ≠ s := by
    intro s hs hts
    exact ht (hts ▸ hs)
  cases h with
  | openRoot loc => exact Graph.untouched_addScope
  | openScope type name loc => exact Graph.untouched_addScope
  | declare hs bound kind =>
    rw [graph_declareIn]
    exact Graph.untouched_declare hb.valid.owns (hb.current_lt _ hs) (hother _ hs)
  | hoist hs bound =>
    have hlt := Graph.varScope_lt hb.valid.forest (hb.current_lt _ hs)
    rw [graph_declareIn]
    exact Graph.untouched_declare hb.valid.owns hlt (hvar rfl _ hs).symm
  | declareFunction hs bound =>
    rw [graph_declareIn]
    exact Graph.untouched_declare hb.valid.owns (hb.current_lt _ hs) (hother _ hs)
  | introduce hs names =>
    exact Graph.untouched_declareImplicit hb.valid.owns (hb.current_lt _ hs) (hother _ hs) names
  | refer hs hres he o => exact Graph.untouched_addReference
  | _ => exact .refl _ t

/-- Going inwards the builder leaves a scope only for scopes made since. -/
theorem Does.current_of_isInner {made : ScopeId} (h : Does b a b') (ha : a.isInner = true)
    (hmade : made ≤ b.graph.nextScope)
    (hcurrent : ∀ u, b.current = some u → u = s ∨ made ≤ u) :
    ∀ u, b'.current = some u → u = s ∨ made ≤ u := by
  intro u hu
  cases h with
  | openRoot loc =>
    cases hu
    exact .inr hmade
  | openScope type name loc =>
    cases hu
    exact .inr hmade
  | restore hmarks => cases ha
  | returnToRoot => cases ha
  | _ => exact hcurrent u hu

/-- Of the scopes made before, inner actions touch only the one where the builder stands. -/
theorem untouched_of_isInner {made : ScopeId} (h : b.replay actions = .ok b') (hb : b.Sound)
    (hinner : ∀ a ∈ actions, a.isInner = true) (hmade : made ≤ b.graph.nextScope)
    (hcurrent : ∀ u, b.current = some u → u = s ∨ made ≤ u) (hts : t ≠ s) (ht : t < made) :
    Graph.Untouched b.graph b'.graph t := by
  induction actions generalizing b with
  | nil =>
    cases h
    exact .refl _ t
  | cons a actions ih =>
    obtain ⟨b₁, hdoes, hrest⟩ := replay_cons_cases h
    have ha := hinner a List.mem_cons_self
    -- The first action neither hoists nor is made where `t` is the current scope.
    have hhoists : a.hoists ≠ true := by
      intro hhoist
      cases a with
      | hoist bound => cases ha
      | _ => cases hhoist
    have hstands : b.current ≠ some t := by
      intro hc
      rcases hcurrent t hc with heq | hle
      · exact hts heq
      · exact absurd ht (Nat.not_lt.2 hle)
    have hfirst := hdoes.untouched hb hstands fun hhoist => absurd hhoist hhoists
    have hmade₁ : made ≤ b₁.graph.nextScope := by
      rw [hdoes.nextScope]
      exact Nat.le_trans hmade (Nat.le_add_right _ _)
    exact hfirst.trans (ih hrest (hdoes.sound hb).2
      (fun a' ha' => hinner a' (List.mem_cons_of_mem _ ha')) hmade₁
      (hdoes.current_of_isInner ha hmade hcurrent))

theorem current_of_keepsPlace (h : b.replay actions = .ok b')
    (hkeeps : ∀ a ∈ actions, a.keepsPlace = true) : b'.current = b.current := by
  refine replay_rel (R := fun b b' => b'.current = b.current) (fun _ => rfl)
    (fun _ _ _ hfirst hlater => hlater.trans hfirst) ?_ h
  intro a ha b b' hdoes
  exact hdoes.current_of_keepsPlace (hkeeps a ha)

/-- A name that is declared where the builder stands is declared by the whole replay. -/
theorem declares_of_replay {before after : Builder} {final : Graph} {first rest : List Action}
    (h : before.replay (first ++ a :: rest) = .ok after) (hb : before.Sound)
    (hkeeps : ∀ a ∈ first, a.keepsPlace = true) (ha : a.declaresHere bound)
    (hgrows : Graph.Grows after.graph final) :
    ∃ s, before.current = some s ∧ Graph.Declares before.graph after.graph final s bound := by
  rw [replay_append] at h
  obtain ⟨b₁, hfirst, h⟩ := bind_eq_ok.1 h
  obtain ⟨b₂, hdoes, hrest⟩ := replay_cons_cases h
  have hb₁ := (replay_sound hfirst hb).2
  have hb₂ := (hdoes.sound hb₁).2
  have hlater := replay_grows hrest hb₂
  have hdeclares : ∃ s, b₁.current = some s ∧
      Graph.Declares b₁.graph b₂.graph final s bound := by
    rcases ha with ⟨kind, rfl⟩ | rfl
    · cases hdoes with
      | @declare s hs bound kind =>
        exact ⟨s, hs, Graph.declares_declare hb₁.valid (hb₁.current_lt s hs) (hlater.trans hgrows)⟩
    · cases hdoes with
      | @declareFunction s hs bound =>
        exact ⟨s, hs, Graph.declares_declare hb₁.valid (hb₁.current_lt s hs) (hlater.trans hgrows)⟩
  obtain ⟨s, hs, hdeclares⟩ := hdeclares
  have hcurrent := current_of_keepsPlace hfirst hkeeps
  exact ⟨s, hcurrent.symm.trans hs, hdeclares.mono (replay_grows hfirst hb) hlater⟩

end Builder

end LexicalScopes
