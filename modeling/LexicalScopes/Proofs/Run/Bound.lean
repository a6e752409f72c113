import LexicalScopes.Proofs.Run.Later

/-!
# What an action binds

An action gives a name in one scope a binding of one kind, unless the scope binds the name already,
and it records at most one place where a name is declared.
-/

namespace LexicalScopes

/-! ## Graphs -/

namespace Graph

variable {g : Graph} {s t : ScopeId} {name n : Scalar} {kind : BindingKind} {loc : Option Json}
  {e : EntryId} {names : List String}

/-- A binding that is found after a declaration was found before, or it is new and of the declared
kind. -/
theorem find?_declare_cases (hs : s < g.nextScope)
    (h : (g.declare s name kind loc).find? t n = some e) :
    g.find? t n = some e ∨ t = s ∧ n.key = name.key ∧ g.find? s name = none ∧
      ((g.declare s name kind loc).entry e).kind = kind := by
  rw [find?_declare hs] at h
  split at h
  · rename_i hname
    obtain ⟨rfl, hkey⟩ := hname
    rw [find?_congr hkey]
    cases hfind : g.find? t name with
    | some e' =>
      rw [target, hfind] at h
      exact .inl h
    | none =>
      rw [target, hfind] at h
      cases h
      refine .inr ⟨rfl, hkey, rfl, ?_⟩
      rw [declare_of_find?_eq_none hfind, entry_bind, Option.getD_none, entry_pushEntry, if_pos rfl]
  · exact .inl h

/-- A binding that is found after names are introduced was found before, or it is new and
implicit. -/
theorem Valid.find?_declareImplicit_cases (hg : g.Valid) (hs : s < g.nextScope)
    (h : (g.declareImplicit s names).find? t n = some e) :
    g.find? t n = some e ∨ t = s ∧ (∃ name ∈ names, n.key = (Scalar.string name).key) ∧
      ((g.declareImplicit s names).entry e).kind = .implicit := by
  induction names generalizing g with
  | nil => exact .inl h
  | cons name names ih =>
    have hstep : Step g (g.declare s (.string name) .implicit none) :=
      .declare (.string name) .implicit none hs
    have hvalid := hstep.valid hg
    have hs' : s < (g.declare s (.string name) .implicit none).nextScope := by
      rwa [nextScope_declare]
    rw [declareImplicit_cons] at h ⊢
    rcases ih hvalid hs' h with hfirst | ⟨hts, ⟨other, hother, hkey⟩, hkind⟩
    · rcases find?_declare_cases hs hfirst with hold | ⟨hts, hkey, -, hkind⟩
      · exact .inl hold
      · -- The binding of the first name keeps its kind while the others are introduced.
        have hlt := hvalid.owns.lt_of_find? t n e hfirst
        have hgrows := Steps.grows (steps_declareImplicit hs' names) hvalid
        exact .inr ⟨hts, ⟨name, List.mem_cons_self, hkey⟩, (hgrows.kind e hlt).trans hkind⟩
    · exact .inr ⟨hts, ⟨other, List.mem_cons_of_mem _ hother, hkey⟩, hkind⟩

theorem binds_declareImplicit_of_mem {name : String} (hg : g.Valid) (hs : s < g.nextScope)
    (hname : name ∈ names) : (g.declareImplicit s names).binds s (.string name) = true := by
  induction names generalizing g with
  | nil => cases hname
  | cons other names ih =>
    have hstep : Step g (g.declare s (.string other) .implicit none) :=
      .declare (.string other) .implicit none hs
    have hs' : s < (g.declare s (.string other) .implicit none).nextScope := by
      rwa [nextScope_declare]
    rw [declareImplicit_cons]
    rcases List.mem_cons.1 hname with rfl | hname
    · have hgrows := Steps.grows (steps_declareImplicit hs' names) (hstep.valid hg)
      exact hgrows.binds (binds_iff.2 ⟨_, find?_declare_self hs⟩)
    · exact ih (hstep.valid hg) hs' hname

/-- From `g` to `g'` no declaration is recorded, or this one at the binding of its name in one
scope. -/
inductive Records (g g' : Graph) : Option BoundName → Prop where
  | nothing (h : ∀ e, (g'.entry e).declarations = (g.entry e).declarations) : Records g g' none
  | one {s : ScopeId} {e : EntryId} {bound : BoundName} (hfind : g'.find? s bound.name = some e)
      (h : ∀ e', (g'.entry e').declarations =
        (g.entry e').declarations ++ if e' = e then [bound.loc] else []) :
      Records g g' (some bound)

theorem records_declare {bound : BoundName} (hg : g.OwnsEntries) (hs : s < g.nextScope) :
    Records g (g.declare s bound.name kind (some bound.loc)) (some bound) := by
  refine .one (find?_declare_self hs) fun e' => ?_
  rw [declarations_declare (hg.lt_of_find? s bound.name), Option.toList_some]

end Graph

/-! ## Actions -/

namespace Builder

variable {b b' : Builder} {a : Action} {s t : ScopeId} {n : Scalar} {kind : BindingKind}
  {e : EntryId}

/-- The action gives the name in this scope a binding of this kind if it has none yet. -/
inductive Gives (b : Builder) : Action → ScopeId → Scalar → BindingKind → Prop where
  | declare {s : ScopeId} (hs : b.current = some s) (bound : BoundName) (kind : BindingKind) :
      Gives b (.declare bound kind) s bound.name kind
  | hoist {s : ScopeId} (hs : b.current = some s) (bound : BoundName) :
      Gives b (.hoist bound) (b.graph.varScope s) bound.name .var
  | declareFunction {s : ScopeId} (hs : b.current = some s) (bound : BoundName) :
      Gives b (.declareFunction bound) s bound.name
        (if b.graph.varScope s = s then .var else .lexical)
  | introduce {s : ScopeId} {name : String} {names : List String} (hs : b.current = some s)
      (hname : name ∈ names) : Gives b (.introduce names) s (.string name) .implicit

/-- A binding that is found after an action was found before, or the action has given it to its
name. -/
theorem Does.find?_cases (h : Does b a b') (hb : b.Sound) (hfind : b'.graph.find? t n = some e) :
    b.graph.find? t n = some e ∨ ∃ name kind, Gives b a t name kind ∧ n.key = name.key ∧
      (b'.graph.entry e).kind = kind := by
  cases h with
  | openRoot loc =>
    rw [Builder.openScope, Graph.find?_addScope] at hfind
    exact .inl hfind
  | openScope type name loc =>
    rw [Builder.openScope, Graph.find?_addScope] at hfind
    exact .inl hfind
  | declare hs bound kind =>
    rcases Graph.find?_declare_cases (hb.current_lt _ hs) hfind with hold | ⟨rfl, hkey, -, hkind⟩
    · exact .inl hold
    · exact .inr ⟨_, _, .declare hs bound kind, hkey, hkind⟩
  | hoist hs bound =>
    have hlt := Graph.varScope_lt hb.valid.forest (hb.current_lt _ hs)
    rcases Graph.find?_declare_cases hlt hfind with hold | ⟨rfl, hkey, -, hkind⟩
    · exact .inl hold
    · exact .inr ⟨_, _, .hoist hs bound, hkey, hkind⟩
  | declareFunction hs bound =>
    rcases Graph.find?_declare_cases (hb.current_lt _ hs) hfind with hold | ⟨rfl, hkey, -, hkind⟩
    · exact .inl hold
    · exact .inr ⟨_, _, .declareFunction hs bound, hkey, hkind⟩
  | introduce hs names =>
    rcases hb.valid.find?_declareImplicit_cases (hb.current_lt _ hs) hfind with
      hold | ⟨rfl, ⟨name, hname, hkey⟩, hkind⟩
    · exact .inl hold
    · exact .inr ⟨_, _, .introduce hs hname, hkey, hkind⟩
  | _ => exact .inl hfind

/-- An action records the name that it declares, and nothing else. -/
theorem Does.records (h : Does b a b') (hb : b.Sound) :
    Graph.Records b.graph b'.graph a.declared? := by
  cases h with
  | declare hs bound kind =>
    exact Graph.records_declare hb.valid.owns (hb.current_lt _ hs)
  | hoist hs bound =>
    exact Graph.records_declare hb.valid.owns
      (Graph.varScope_lt hb.valid.forest (hb.current_lt _ hs))
  | declareFunction hs bound =>
    exact Graph.records_declare hb.valid.owns (hb.current_lt _ hs)
  | introduce hs names => exact .nothing fun e => Graph.declarations_declareImplicit
  | refer hs hres he o =>
    refine .nothing fun e => ?_
    rw [Graph.addReference, Graph.entry, getD_modify]
    split <;> rfl
  | _ => exact .nothing fun e => rfl

end Builder

end LexicalScopes
