import LexicalScopes.Proofs.Binders.Nodes
import LexicalScopes.Proofs.Recording
import LexicalScopes.Proofs.Run.Bound
import LexicalScopes.Proofs.Run.Home
import LexicalScopes.Proofs.Run.Ordinary

/-!
# Names that nodes introduce

A program, a function and the value of a class field open scopes with names that the source does not
declare there. A name that a scope binds already is not introduced again: a parameter comes before
the names that its function introduces. These are the only implicit bindings that a node makes.
-/

namespace LexicalScopes

/-! ## Replays -/

namespace Builder

variable {b b' b₁ b₂ : Builder} {a : Action} {actions : List Action} {s t : ScopeId} {n : Scalar}
  {e : EntryId} {names : List String} {name : String} {new new' : ScopeId → String → Prop}

/-- From `b` to `b'` the implicit bindings that are made are those of the new names. -/
structure Introduces (b b' : Builder) (new : ScopeId → String → Prop) : Prop where
  cases_of_implicit : ∀ {t n e}, b'.graph.find? t n = some e →
    (b'.graph.entry e).kind = .implicit →
      b.graph.find? t n = some e ∨ ∃ name, n = .string name ∧ new t name
  exists_implicit : ∀ {t name}, new t name →
    ∃ e, b'.graph.find? t (.string name) = some e ∧ (b'.graph.entry e).kind = .implicit

theorem Introduces.congr (h : b.Introduces b' new) (hiff : ∀ t name, new t name ↔ new' t name) :
    b.Introduces b' new' where
  cases_of_implicit hfind hkind :=
    (h.cases_of_implicit hfind hkind).imp_right fun ⟨name, hn, hnew⟩ =>
      ⟨name, hn, (hiff _ name).1 hnew⟩
  exists_implicit hnew := h.exists_implicit ((hiff _ _).2 hnew)

theorem Introduces.trans (h : b.Introduces b₁ new) (h' : b₁.Introduces b₂ new') (hb₁ : b₁.Sound)
    (hgrows : Graph.Grows b₁.graph b₂.graph) :
    b.Introduces b₂ fun t name => new t name ∨ new' t name where
  cases_of_implicit := by
    intro t n e hfind hkind
    rcases h'.cases_of_implicit hfind hkind with hfirst | ⟨name, hn, hnew⟩
    · rw [hgrows.kind e (hb₁.valid.owns.lt_of_find? t n e hfirst)] at hkind
      exact (h.cases_of_implicit hfirst hkind).imp_right fun ⟨name, hn, hnew⟩ =>
        ⟨name, hn, .inl hnew⟩
    · exact .inr ⟨name, hn, .inr hnew⟩
  exists_implicit := by
    intro t name hnew
    rcases hnew with hnew | hnew
    · obtain ⟨e, hfind, hkind⟩ := h.exists_implicit hnew
      exact ⟨e, hgrows.find? t _ e hfind,
        (hgrows.kind e (hb₁.valid.owns.lt_of_find? t _ e hfind)).trans hkind⟩
    · exact h'.exists_implicit hnew

theorem Does.introduces_nothing (h : Does b a b') (hb : b.Sound) (ha : a.makesImplicit = false) :
    b.Introduces b' fun _ _ => False where
  cases_of_implicit := by
    intro t n e hfind hkind
    rcases h.find?_cases hb hfind with hold | ⟨name, kind, hgives, -, hnew⟩
    · exact .inl hold
    · rw [hnew] at hkind
      cases hgives with
      | declare hs bound kind => exact absurd hkind (Action.ne_implicit_of_declare ha)
      | hoist hs bound => cases hkind
      | declareFunction hs bound => split at hkind <;> cases hkind
      | introduce hs hname => cases ha
  exists_implicit := False.elim

theorem introduces_nothing (h : b.replay actions = .ok b') (hb : b.Sound)
    (hactions : ∀ a ∈ actions, a.makesImplicit = false) : b.Introduces b' fun _ _ => False := by
  induction actions generalizing b with
  | nil =>
    cases h
    exact ⟨fun hfind _ => .inl hfind, False.elim⟩
  | cons a actions ih =>
    obtain ⟨b₁, hdoes, hrest⟩ := replay_cons_cases h
    have hb₁ := (hdoes.sound hb).2
    have hfirst := hdoes.introduces_nothing hb (hactions a List.mem_cons_self)
    have hlater := ih hrest hb₁ fun a' ha' => hactions a' (List.mem_cons_of_mem _ ha')
    exact (hfirst.trans hlater hb₁ (replay_grows hrest hb₁)).congr fun _ _ => or_self_iff

/-- Names are introduced where the builder stands, unless they are bound there. -/
theorem introduces_names (h : b.replay [.introduce names] = .ok b') (hb : b.Sound)
    (hs : b.current = some s) :
    b.Introduces b' fun t name =>
      t = s ∧ name ∈ names ∧ b.graph.binds s (.string name) = false := by
  rw [replay_introduce hs] at h
  cases h
  have hlt := hb.current_lt s hs
  have hgrows := Graph.Steps.grows (Graph.steps_declareImplicit hlt names) hb.valid
  constructor
  · intro t n e hfind hkind
    rcases hb.valid.find?_declareImplicit_cases hlt hfind with hold | ⟨rfl, ⟨name, hname, hkey⟩, -⟩
    · exact .inl hold
    · obtain rfl := Scalar.eq_of_key_eq hkey
      cases hbinds : b.graph.binds t (.string name) with
      | false => exact .inr ⟨name, rfl, rfl, hname, hbinds⟩
      | true =>
        obtain ⟨e', he'⟩ := Graph.binds_iff.1 hbinds
        have hsame := (hgrows.find? _ _ _ he').symm.trans hfind
        cases hsame
        exact .inl he'
  · rintro t name ⟨rfl, hname, hbinds⟩
    obtain ⟨e, he⟩ := Graph.binds_iff.1 (Graph.binds_declareImplicit_of_mem hb.valid hlt hname)
    rcases hb.valid.find?_declareImplicit_cases hlt he with hold | ⟨-, -, hkind⟩
    · rw [Graph.binds_iff.2 ⟨e, hold⟩] at hbinds
      cases hbinds
    · exact ⟨e, he, hkind⟩

/-- A scope that is opened binds nothing yet. -/
theorem binds_openScope_self {type : ScopeType} {label loc : Json} :
    (b.openScope type label loc).graph.binds b.graph.nextScope n = false := by
  rw [binds_openScope, Graph.binds, Graph.find?_of_le (Nat.le_refl _)]
  rfl

/-- Declarations in place bind their names where the builder stands. -/
theorem binds_of_declares (h : b.replay actions = .ok b') (hb : b.Sound) (hs : b.current = some s)
    (hactions : ∀ a ∈ actions, ∃ bound kind, a = .declare bound kind) :
    b'.graph.binds s n = true ↔
      b.graph.binds s n = true ∨ ∃ bound, .ok bound ∈ Path.declaredBy actions ∧
        n.key = bound.name.key := by
  induction actions generalizing b with
  | nil =>
    cases h
    simp
  | cons a actions ih =>
    obtain ⟨b₁, hdoes, hrest⟩ := replay_cons_cases h
    have hb₁ := (hdoes.sound hb).2
    obtain ⟨bound, kind, rfl⟩ := hactions a List.mem_cons_self
    have hcurrent : b₁.current = some s := (hdoes.current_of_keepsPlace rfl).trans hs
    rw [ih hrest hb₁ hcurrent fun a ha => hactions a (List.mem_cons_of_mem _ ha)]
    have hfirst : b₁.graph.binds s n = true ↔
        b.graph.binds s n = true ∨ n.key = bound.name.key := by
      cases hdoes with
      | declare hs' bound kind =>
        cases hs.symm.trans hs'
        rw [graph_declareIn, Graph.binds, Graph.find?_declare (hb.current_lt s hs), Graph.binds]
        by_cases hkey : n.key = bound.name.key <;> simp [hkey]
    simp [hfirst, Path.declaredBy, Action.declared?, or_assoc]

end Builder

/-! ## Nodes -/

/-- The names that the parameters of a function bind. -/
def Node.parameterNames (n : Node) : List (Except Cause BoundName) :=
  ((n.get "params").entries?.getD []).flatMap boundNames

/-- The names that a function has without declaring them. -/
def functionNames : List String := ["this", "arguments"]

/-- By its role the node introduces the name: it is a function, but no arrow function, and none of
its parameters binds the name. A node that is only named like the role of a class field does so,
too. -/
def Path.IntroducesByRole (p : Path) (name : String) : Prop :=
  name ∈ functionNames ∧ (p.node.role? = some .classField ∨
    p.node.role? = some .function ∧ p.node.isAny ["ArrowFunctionExpression"] = false ∧
      ∀ bound, .ok bound ∈ p.node.parameterNames → bound.name ≠ .string name)

/-- Entering the node gives a scope that it opens a name that the source does not declare. -/
inductive Path.IntroducesIn (p : Path) (past : List Event) : ScopeId → String → Prop where
  /-- The root of a program has the names of the host. -/
  | host {s : ScopeId} {name : String} (hp : p.isProgram = true)
      (hs : (p.ownScopes past).getLast? = some s) (hname : name ∈ Graph.hostNames) :
      IntroducesIn p past s name
  /-- The module layer has a receiver. -/
  | layer {s : ScopeId} (hp : p.isProgram = true) (hs : (p.ownScopes past).head? = some s) :
      IntroducesIn p past s "this"
  /-- The value of a class field has the names of a function, in a scope around its own. -/
  | field {s : ScopeId} {name : String} (hp : p.isProgram = false)
      (hplace : p.isChildOf NodeType.classFields "value" = true)
      (hs : (p.ownScopes past).getLast? = some s) (hname : name ∈ functionNames) :
      IntroducesIn p past s name
  /-- A function has names of its own in its own scope. -/
  | role {s : ScopeId} {name : String} (hrole : p.IntroducesByRole name)
      (hs : (p.ownScopes past).head? = some s) : IntroducesIn p past s name

section Nodes

open Builder

variable {p : Path} {n : Node} {actions : List Action} {b b' : Builder} {s : ScopeId}
  {past : List Event} {before after final : Builder}

theorem parameterNames_eq {params : List Json} {lists : List (List Action)}
    (hparams : (n.get "params").entries = .ok params)
    (hlists : params.mapM (declareTarget · .var) = .ok lists) :
    n.parameterNames = Path.declaredBy lists.flatten := by
  rw [Node.parameterNames, readable_eq_ok.1 hparams, Option.getD_some]
  exact Path.declaredBy_flatten
    ((mapM_eq_ok.1 hlists).imp fun _ _ h => Path.declaredBy_of_declareTarget h)

/-- After its parameters are declared, a function stands in its own scope, which binds them and
nothing else. -/
theorem binds_of_parameters {own : List Action} {name range : Json} {params : List Json}
    {lists : List (List Action)} (hparams : (n.get "params").entries = .ok params)
    (hlists : params.mapM (declareTarget · .var) = .ok lists) (hb : b.Sound)
    (h : b.replay (own ++ .openScope .function name range :: lists.flatten) = .ok b') :
    ∃ s, b'.current = some s ∧ s + 1 = b'.graph.nextScope ∧ ∀ m,
      b'.graph.binds s m = true ↔
        ∃ bound, .ok bound ∈ n.parameterNames ∧ m.key = bound.name.key := by
  rw [replay_append] at h
  obtain ⟨b₁, hown, h⟩ := bind_eq_ok.1 h
  have hb₁ := (replay_sound hown hb).2
  obtain ⟨b₂, hdoes, hdeclares⟩ := replay_cons_cases h
  have hb₂ := (hdoes.sound hb₁).2
  have hplain : ∀ a ∈ lists.flatten, ∃ bound kind, a = .declare bound kind := by
    intro a ha
    obtain ⟨actions, hactions, ha⟩ := List.mem_flatten.1 ha
    obtain ⟨param, -, hparam⟩ := exists_of_mem_mapM hlists hactions
    obtain ⟨bound, rfl, -⟩ := exists_of_declareTarget hparam ha
    exact ⟨bound, .var, rfl⟩
  cases hdoes with
  | openScope type name loc =>
    have hkeeps : ∀ a ∈ lists.flatten, a.keepsPlace = true := by
      intro a ha
      obtain ⟨bound, kind, rfl⟩ := hplain a ha
      rfl
    have hnone : lists.flatten.countP Action.opens = 0 := by
      rw [List.countP_eq_zero]
      intro a ha
      obtain ⟨bound, kind, rfl⟩ := hplain a ha
      simp [Action.opens]
    refine ⟨b₁.graph.nextScope, current_of_keepsPlace hdeclares hkeeps, ?_, fun m => ?_⟩
    · rw [nextScope_replay hdeclares, hnone]
      exact (Graph.nextScope_addScope).symm
    · rw [binds_of_declares hdeclares hb₂ rfl hplain, binds_openScope_self,
        parameterNames_eq hparams hlists]
      simp

/-- A function introduces its names in its own scope, which it opens last. -/
theorem introduces_functionActions (h : p.functionActions = .ok actions)
    (hrun : b.replay actions = .ok b') (hb : b.Sound) :
    b.Introduces b' fun t name => p.node.isAny ["ArrowFunctionExpression"] = false ∧
      t + 1 = b'.graph.nextScope ∧ name ∈ functionNames ∧
      ∀ bound, .ok bound ∈ p.node.parameterNames → bound.name ≠ .string name := by
  obtain ⟨own, name, range, params, lists, hown, hparams, hlists, rfl⟩ :=
    exists_of_functionActions h
  rw [← List.cons_append, ← List.append_assoc, replay_append] at hrun
  obtain ⟨b₁, hfirst, hlast⟩ := bind_eq_ok.1 hrun
  have hb₁ := (replay_sound hfirst hb).2
  have hordinary : ∀ a ∈ own ++ .openScope .function name range :: lists.flatten,
      a.isOrdinary = true :=
    List.forall_mem_append.2 ⟨ordinary_ownNameActions hown,
      List.forall_mem_cons.2 ⟨rfl, ordinary_parameters hlists⟩⟩
  have hnothing := introduces_nothing hfirst hb fun a ha =>
    Action.makesImplicit_of_isOrdinary (hordinary a ha)
  cases harrow : p.node.isAny ["ArrowFunctionExpression"] with
  | true =>
    rw [harrow, if_pos rfl] at hlast
    cases hlast
    exact hnothing.congr fun t name => by simp
  | false =>
    rw [harrow, if_neg Bool.false_ne_true] at hlast
    obtain ⟨s, hs, hnext, hbinds⟩ := binds_of_parameters hparams hlists hb hfirst
    refine (hnothing.trans (introduces_names hlast hb₁ hs) hb₁ (replay_grows hlast hb₁)).congr ?_
    intro t name
    have hsame : b'.graph.nextScope = b₁.graph.nextScope := nextScope_replay hlast
    have hnew : b₁.graph.binds s (.string name) = false ↔
        ∀ bound, .ok bound ∈ p.node.parameterNames → bound.name ≠ .string name := by
      rw [← Bool.not_eq_true, hbinds]
      constructor
      · rintro hnone bound hbound hname
        exact hnone ⟨bound, hbound, by rw [hname]⟩
      · rintro hnone ⟨bound, hbound, hkey⟩
        exact hnone bound hbound (Scalar.eq_of_key_eq hkey.symm)
    rw [hsame, ← hnext, hnew, false_or, Nat.add_right_cancel_iff]
    exact ⟨fun ⟨ht, hname, hparams⟩ => ⟨rfl, ht, hname, hparams⟩,
      fun ⟨_, ht, hname, hparams⟩ => ⟨ht, hname, hparams⟩⟩

/-- A new scope with names that are introduced in it. -/
theorem introduces_opened {a : Action} {names : List String} (ha : a.opens = true)
    (h : b.replay [a, .introduce names] = .ok b') (hb : b.Sound) :
    b.Introduces b' fun t name => t = b.graph.nextScope ∧ name ∈ names := by
  obtain ⟨b₁, hdoes, hlast⟩ := replay_cons_cases h
  have hb₁ := (hdoes.sound hb).2
  have hordinary : a.makesImplicit = false := by
    cases a with
    | introduce names => cases ha
    | declare bound kind => cases ha
    | _ => rfl
  have hopened : b₁.current = some b.graph.nextScope ∧
      ∀ m, b₁.graph.binds b.graph.nextScope m = false := by
    cases hdoes with
    | openRoot loc => exact ⟨rfl, fun m => binds_openScope_self⟩
    | openScope type name loc => exact ⟨rfl, fun m => binds_openScope_self⟩
    | _ => cases ha
  refine ((hdoes.introduces_nothing hb hordinary).trans (introduces_names hlast hb₁ hopened.1) hb₁
    (replay_grows hlast hb₁)).congr fun t name => ?_
  rw [hopened.2]
  simp

theorem introduces_classFieldActions (h : n.classFieldActions = .ok actions)
    (hrun : b.replay actions = .ok b') (hb : b.Sound) :
    b.Introduces b' fun t name => t = b.graph.nextScope ∧ name ∈ functionNames := by
  obtain ⟨loc, -, h⟩ := bind_eq_ok.1 h
  cases h
  exact introduces_opened rfl hrun hb

theorem nextScope_classFieldActions (h : n.classFieldActions = .ok actions)
    (hrun : b.replay actions = .ok b') : b'.graph.nextScope = b.graph.nextScope + 1 := by
  obtain ⟨loc, -, h⟩ := bind_eq_ok.1 h
  cases h
  exact nextScope_replay hrun

/-- A program introduces names in the first and in the last of its layers. -/
theorem introduces_programActions (h : n.programActions = .ok actions)
    (hrun : b.replay actions = .ok b') (hb : b.Sound) :
    b.Introduces b' fun t name => t = b.graph.nextScope ∧ name ∈ Graph.hostNames ∨
      t + 1 = b'.graph.nextScope ∧ name = "this" := by
  obtain ⟨loc, -, h⟩ := bind_eq_ok.1 h
  cases h
  -- The layers are opened one after the other, and the one in the middle introduces nothing.
  have hsplit : b.replay ([.openRoot _, .introduce _] ++ ([.openScope _ _ _] ++
    [.openScope _ _ _, .introduce _])) = .ok b' := hrun
  rw [replay_append] at hsplit
  obtain ⟨b₁, hroot, hsplit⟩ := bind_eq_ok.1 hsplit
  rw [replay_append] at hsplit
  obtain ⟨b₂, hlexical, hlayer⟩ := bind_eq_ok.1 hsplit
  have hb₁ := (replay_sound hroot hb).2
  have hb₂ := (replay_sound hlexical hb₁).2
  have hinner := (introduces_nothing hlexical hb₁ (by simp [Action.makesImplicit])).trans
    (introduces_opened rfl hlayer hb₂) hb₂ (replay_grows hlayer hb₂)
  have hgrows := (replay_grows hlexical hb₁).trans (replay_grows hlayer hb₂)
  refine ((introduces_opened rfl hroot hb).trans hinner hb₁ hgrows).congr fun t name => ?_
  have hnext : b'.graph.nextScope = b₂.graph.nextScope + 1 := nextScope_replay hlayer
  rw [hnext, Nat.add_right_cancel_iff]
  simp

/-- By its role a node other than a program introduces names in the scope that it opens last, if it
is a function or named like the role of a class field. -/
theorem introduces_roleActions (h : p.roleActions = .ok actions)
    (hrun : b.replay actions = .ok b') (hb : b.Sound) (hprogram : p.node.role? ≠ some .program) :
    b.Introduces b' fun t name => t + 1 = b'.graph.nextScope ∧ p.IntroducesByRole name := by
  have hactions := h
  rw [Path.roleActions] at hactions
  by_cases hfunction : p.node.role? = some .function
  · rw [hfunction] at hactions
    refine (introduces_functionActions hactions hrun hb).congr fun t name => ?_
    simp only [Path.IntroducesByRole, hfunction, true_and, Option.some.injEq, reduceCtorEq,
      false_or]
    tauto
  · by_cases hfield : p.node.role? = some .classField
    · rw [hfield] at hactions
      refine (introduces_classFieldActions hactions hrun hb).congr fun t name => ?_
      rw [nextScope_classFieldActions hactions hrun, Nat.add_right_cancel_iff]
      simp [Path.IntroducesByRole, hfield]
    · refine (introduces_nothing hrun hb
        (makesImplicit_roleActions h hprogram hfunction hfield)).congr fun t name => ?_
      simp [Path.IntroducesByRole, hfunction, hfield]

/-- A node that introduces names by its role opens a scope for them. -/
theorem countP_opens_roleActions {name : String} (h : p.roleActions = .ok actions)
    (hrole : p.IntroducesByRole name) : actions.countP Action.opens ≠ 0 := by
  rw [Path.roleActions] at h
  rcases hrole.2 with hrole | ⟨hrole, -⟩
  · rw [hrole] at h
    obtain ⟨loc, -, h⟩ := bind_eq_ok.1 h
    cases h
    exact Nat.one_ne_zero
  · rw [hrole] at h
    obtain ⟨own, name, range, params, lists, -, -, -, rfl⟩ := exists_of_functionActions h
    simp [List.countP_eq_zero, Action.opens]

theorem introduces_ownActions (h : p.ownActions = .ok actions) (hrun : b.replay actions = .ok b')
    (hb : b.Sound) (hprogram : p.node.role? ≠ some .program) :
    b.Introduces b' fun t name =>
      (p.isChildOf NodeType.classFields "value" = true ∧ t = b.graph.nextScope ∧
        name ∈ functionNames) ∨
      t + 1 = b'.graph.nextScope ∧ p.IntroducesByRole name := by
  obtain ⟨field, rest, hfield, hrest, rfl⟩ := exists_of_ownActions h
  rw [replay_append] at hrun
  obtain ⟨b₁, hfirst, hlast⟩ := bind_eq_ok.1 hrun
  have hb₁ := (replay_sound hfirst hb).2
  have hplace : b.Introduces b₁ fun t name =>
      p.isChildOf NodeType.classFields "value" = true ∧ t = b.graph.nextScope ∧
        name ∈ functionNames := by
    rcases hfield with ⟨hplace, rfl⟩ | ⟨hplace, hfield⟩
    · cases hfirst
      exact (introduces_nothing replay_nil hb (by simp)).congr fun t name => by simp [hplace]
    · exact (introduces_classFieldActions hfield hfirst hb).congr fun t name => by simp [hplace]
  exact hplace.trans (introduces_roleActions hrest hlast hb₁ hprogram) hb₁ (replay_grows hlast hb₁)

theorem head?_ownScopes_eq_some_iff :
    (p.ownScopes past).head? = some s ↔
      p.scopeCount ≠ 0 ∧ s + 1 = scopesMade past + p.scopeCount := by
  cases hcount : p.scopeCount with
  | zero => simp [Path.ownScopes, hcount]
  | succ k =>
    rw [Builder.head?_ownScopes hcount, Option.some.injEq, ← Nat.add_assoc,
      Nat.add_right_cancel_iff]
    exact ⟨fun h => ⟨Nat.succ_ne_zero k, h.symm⟩, fun h => h.2.symm⟩

theorem getLast?_ownScopes_eq_some_iff :
    (p.ownScopes past).getLast? = some s ↔ p.scopeCount ≠ 0 ∧ s = scopesMade past := by
  cases hcount : p.scopeCount with
  | zero => simp [Path.ownScopes, hcount]
  | succ k =>
    rw [Builder.getLast?_ownScopes (by rw [hcount]; exact Nat.succ_ne_zero k), Option.some.injEq]
    exact ⟨fun h => ⟨Nat.succ_ne_zero k, h.symm⟩, fun h => h.2.symm⟩

theorem introducesIn_iff_of_isProgram {name : String} (hp : p.isProgram = true)
    (hcount : p.scopeCount ≠ 0) :
    p.IntroducesIn past s name ↔ s = scopesMade past ∧ name ∈ Graph.hostNames ∨
      s + 1 = scopesMade past + p.scopeCount ∧ name = "this" := by
  have hrole : ¬ p.IntroducesByRole name := by
    obtain ⟨t, ht, htype⟩ := Node.isAny_iff.1 hp
    have hnone : p.node.role? = none := by
      rw [Node.role?, htype, List.mem_singleton.1 ht]
      rfl
    simp [Path.IntroducesByRole, hnone]
  constructor
  · intro h
    cases h with
    | host hp hs hname => exact .inl ⟨(getLast?_ownScopes_eq_some_iff.1 hs).2, hname⟩
    | layer hp hs => exact .inr ⟨(head?_ownScopes_eq_some_iff.1 hs).2, rfl⟩
    | field hnot hplace hs hname =>
      rw [hp] at hnot
      cases hnot
    | role hown hs => exact absurd hown hrole
  · rintro (⟨hs, hname⟩ | ⟨hs, rfl⟩)
    · exact .host hp (getLast?_ownScopes_eq_some_iff.2 ⟨hcount, hs⟩) hname
    · exact .layer hp (head?_ownScopes_eq_some_iff.2 ⟨hcount, hs⟩)

theorem introducesIn_iff {name : String} (hp : p.isProgram = false)
    (h : p.ownActions = .ok actions) (hcount : p.scopeCount = actions.countP Action.opens) :
    p.IntroducesIn past s name ↔
      (p.isChildOf NodeType.classFields "value" = true ∧ s = scopesMade past ∧
        name ∈ functionNames) ∨
      s + 1 = scopesMade past + p.scopeCount ∧ p.IntroducesByRole name := by
  obtain ⟨field, rest, hfield, hrest, rfl⟩ := exists_of_ownActions h
  rw [List.countP_append] at hcount
  constructor
  · intro h
    cases h with
    | host hyes hs hname =>
      rw [hp] at hyes
      cases hyes
    | layer hyes hs =>
      rw [hp] at hyes
      cases hyes
    | field hp hplace hs hname =>
      exact .inl ⟨hplace, (getLast?_ownScopes_eq_some_iff.1 hs).2, hname⟩
    | role hrole hs => exact .inr ⟨(head?_ownScopes_eq_some_iff.1 hs).2, hrole⟩
  · rintro (⟨hplace, hs, hname⟩ | ⟨hs, hrole⟩)
    · refine .field hp hplace (getLast?_ownScopes_eq_some_iff.2 ⟨?_, hs⟩) hname
      rcases hfield with ⟨hnot, -⟩ | ⟨-, hfield⟩
      · rw [hplace] at hnot
        cases hnot
      · obtain ⟨loc, -, hfield⟩ := bind_eq_ok.1 hfield
        cases hfield
        rw [hcount]
        exact fun hzero => Nat.one_ne_zero (Nat.eq_zero_of_add_eq_zero_right hzero)
    · refine .role hrole (head?_ownScopes_eq_some_iff.2 ⟨?_, hs⟩)
      rw [hcount]
      exact fun hzero =>
        countP_opens_roleActions hrest hrole (Nat.eq_zero_of_add_eq_zero_left hzero)

/-- A node named like a program apart, the implicit bindings that are made on entering a node are
those of the names that it introduces. -/
theorem Passes.introduces (h : Passes past p before after final)
    (hname : p.node.isAny ["program"] = false) :
    before.Introduces after (p.IntroducesIn past) := by
  have hrole : p.node.role? ≠ some .program := fun hrole => by
    rw [Node.isAny_of_role? ["program"] (by decide) hrole] at hname
    cases hname
  have hrun := h.run_enter
  have hnext := h.nextScope_after
  cases Builder.enters_of_replay h.run_enter with
  | program hp hactions hopens henter hexit =>
    rw [henter] at hrun
    have hcount : p.scopeCount ≠ 0 := by
      rw [Path.scopeCount, henter]
      obtain ⟨loc, -, hactions⟩ := bind_eq_ok.1 hactions
      cases hactions
      simp [Action.opens]
    refine (introduces_programActions hactions hrun h.sound_before).congr fun t name => ?_
    rw [introducesIn_iff_of_isProgram hp hcount, hnext, h.nextScope_before]
  | through hp hactions hcontributes henter hexit =>
    rw [henter] at hrun
    refine (introduces_ownActions hactions hrun h.sound_before hrole).congr fun t name => ?_
    rw [introducesIn_iff hp hactions (by rw [Path.scopeCount, henter]), hnext, h.nextScope_before]
  | inside hp hactions hcontributes henter hexit =>
    rw [henter] at hrun
    obtain ⟨b₁, hmark, hrun⟩ := replay_cons_cases hrun
    have hb₁ := (hmark.sound h.sound_before).2
    cases hmark
    have hintroduces := introduces_ownActions hactions hrun hb₁ hrole
    have hsame : before.Introduces after _ :=
      ⟨hintroduces.cases_of_implicit, hintroduces.exists_implicit⟩
    refine hsame.congr fun t name => ?_
    rw [introducesIn_iff hp hactions (by rw [Path.scopeCount, henter]; simp [Action.opens]), hnext,
      ← h.nextScope_before]

end Nodes

end LexicalScopes
