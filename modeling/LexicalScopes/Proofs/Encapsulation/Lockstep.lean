import LexicalScopes.Proofs.Encapsulation.Parallel
import LexicalScopes.Proofs.Graph.Dissolved
import LexicalScopes.Proofs.Shape.Export

/-!
# Runs in lockstep

Two runs that go on with the same actions from parallel graphs keep their graphs parallel: whatever
one of them opens, declares or reads the other one does in the corresponding scope.
-/

namespace LexicalScopes

namespace Graph

variable {c g g' : Graph} {f t : ScopeId} {outer : List ScopeId} {Read Read' : Occurrence → Prop}

/-! ## The first difference -/

/-- The scopes made before keep their children. -/
theorem Confined.children_eq (h : Confined f outer Read c g) (hc : c.Forest) (hg : g.Forest)
    (hgrows : Grows c g) (ht : t < f) (hlt : t < c.nextScope) : g.children t = c.children t := by
  have hle := hgrows.nextScope_le
  have hnew : g.within (some t) c.nextScope g.nextScope = [] := by
    apply within_eq_nil
    intro s hs hsn heq
    obtain ⟨p, hp, hfp⟩ := h.parent_ge s hs hsn
    rw [heq] at hp
    cases hp
    exact absurd ht (Nat.not_lt.2 hfp)
  rw [hg.children_eq_within (Nat.lt_of_lt_of_le hlt hle), within_append (Nat.zero_le _) hle, hnew,
    List.append_nil, hc.children_eq_within hlt, within, within]
  refine List.filter_congr fun s hs => ?_
  rw [hgrows.parent?_eq (by simpa using (List.mem_range'_1.1 hs).2)]

/-- What has grown from one graph inside the scope `f`, in two ways. -/
def Correspondence.of (c : Graph) (f : ScopeId) (outer : List ScopeId)
    (Read Read' : Occurrence → Prop) (hgrows : Grows c g) (hgrows' : Grows c g')
    (hf : f < c.nextScope) : Correspondence where
  scopes := ⟨f, g.nextScope, g'.nextScope,
    Nat.le_trans (Nat.le_of_lt hf) hgrows.nextScope_le,
    Nat.le_trans (Nat.le_of_lt hf) hgrows'.nextScope_le⟩
  entries := ⟨c.entries.size, g.entries.size, g'.entries.size, hgrows.entries_le,
    hgrows'.entries_le⟩
  outer := outer
  Read := Read
  Read' := Read'

/-- Graphs that have grown inside one scope are parallel. -/
theorem Confined.parallel (h : Confined f outer Read c g) (h' : Confined f outer Read' c g')
    (hc : c.Valid) (hg : g.Valid) (hg' : g'.Valid) (hgrows : Grows c g) (hgrows' : Grows c g')
    (hf : f < c.nextScope) :
    Parallel (.of c f outer Read Read' hgrows hgrows' hf) g g' := by
  set C := Correspondence.of c f outer Read Read' hgrows hgrows' hf
  -- So far the only scopes outside are those made before, which keep their numbers.
  have hlt : ∀ s, C.scopes.Apart s → s < g.nextScope → s < f ∧ s < c.nextScope := by
    rintro s (hs | hs) hsn
    · exact ⟨hs, Nat.lt_trans hs hf⟩
    · exact absurd hsn (Nat.not_lt.2 hs)
  have hmove : ∀ s, s < c.nextScope → C.scopes.move s = s := fun s hs =>
    Gap.move_of_lt (Nat.lt_of_lt_of_le hs hgrows.nextScope_le)
  have hentry : ∀ e, e < c.entries.size → C.entries.move e = e := fun e he =>
    Gap.move_of_lt (Nat.lt_of_lt_of_le he hgrows.entries_le)
  constructor
  · exact Nat.le_refl _
  · exact (Gap.move_next (G := C.scopes)).symm
  · exact Nat.le_refl _
  · exact (Gap.move_next (G := C.entries)).symm
  · intro s hs hsn
    obtain ⟨hsf, hsc⟩ := hlt s hs hsn
    have hparent : (c.parent? s).map C.scopes.move = c.parent? s := by
      cases hp : c.parent? s with
      | none => rfl
      | some p => rw [Option.map_some, hmove p (Nat.lt_trans (hc.forest.parent_lt s p hp) hsc)]
    rw [hmove s hsc, hgrows'.header_eq hsc, hgrows.header_eq hsc, hgrows.parent?_eq hsc, hparent]
    rfl
  · intro s hs p hp
    obtain ⟨hsf, -⟩ := hlt s hs (lt_of_parent? hp)
    exact .inl (Nat.lt_trans (hg.forest.parent_lt s p hp) hsf)
  · intro s hs hsn
    obtain ⟨hsf, hsc⟩ := hlt s hs hsn
    rw [hmove s hsc, h.children_eq hc.forest hg.forest hgrows hsf hsc,
      h'.children_eq hc.forest hg'.forest hgrows' hsf hsc]
    refine ((List.map_congr_left fun t ht => ?_).trans (List.map_id _)).symm
    exact hmove t (hc.forest.lt_of_mem_children hsc ht).2
  · intro s hs hsn
    obtain ⟨hsf, hsc⟩ := hlt s hs hsn
    rw [hmove s hsc, (h.untouched s hsf).bindings_eq, (h'.untouched s hsf).bindings_eq]
    refine ((List.map_congr_left fun x hx => ?_).trans (List.map_id _)).symm
    have hfind : c.find? s x.1 = some x.2 := boundTo_of_mem (hc.owns.distinct s) hx
    rw [hentry x.2 (hc.owns.lt_of_find? s x.1 x.2 hfind)]
    rfl
  · intro s hs n e he
    obtain ⟨hsf, hsc⟩ := hlt s hs (lt_of_find? he)
    rw [(h.untouched s hsf).find?_eq] at he
    have helt := hc.owns.lt_of_find? s n e he
    obtain ⟨mid, hmid, hread⟩ := h.refs s hsf n e he
    obtain ⟨mid', hmid', hread'⟩ := h'.refs s hsf n e he
    have hspliced := Spliced.mk (c.entry e).refs mid mid' [] hread hread'
    rw [List.append_nil, List.append_nil, ← hmid, ← hmid'] at hspliced
    rw [hentry e helt]
    refine ⟨.inl helt, (hgrows'.kind e helt).trans (hgrows.kind e helt).symm, ?_, hspliced⟩
    rw [(h.untouched s hsf).declarations_eq n e he, (h'.untouched s hsf).declarations_eq n e he]

end Graph

/-! ## Builders -/

namespace Builder

variable {C : Graph.Correspondence} {b b' b₁ b₁' : Builder} {a : Action} {actions : List Action}
  {s : ScopeId}

/-- Two builders stand outside the scope in which their graphs differ, in corresponding scopes, and
so they do wherever they go back to. -/
structure Parallel (C : Graph.Correspondence) (b b' : Builder) : Prop where
  graph : Graph.Parallel C b.graph b'.graph
  current_eq : b'.current = b.current.map C.scopes.move
  current_apart : ∀ s, b.current = some s → C.scopes.Apart s
  marks_eq : b'.marks = b.marks.map (Option.map C.scopes.move)
  marks_apart : ∀ s, some s ∈ b.marks → C.scopes.Apart s
  root_eq : b'.root = b.root.map C.scopes.move
  root_apart : ∀ s, b.root = some s → C.scopes.Apart s

namespace Parallel

theorem withGraph (h : Parallel C b b') {g g' : Graph} (hg : Graph.Parallel C g g') :
    Parallel C { b with graph := g } { b' with graph := g' } :=
  ⟨hg, h.current_eq, h.current_apart, h.marks_eq, h.marks_apart, h.root_eq, h.root_apart⟩

theorem current_of_current (h : Parallel C b b') (hs : b.current = some s) {s' : ScopeId}
    (hs' : b'.current = some s') : s' = C.scopes.move s := by
  rw [h.current_eq, hs] at hs'
  exact (Option.some.inj hs').symm

/-- Both builders stand in the scope that they have made. -/
theorem openScope (h : Parallel C b b') (hb : b.Sound) (hb' : b'.Sound) (type : ScopeType)
    (name loc : Json) : Parallel C (b.openScope type name loc) (b'.openScope type name loc) where
  graph := by
    have hparent : ∀ p, b.current = some p → C.scopes.Apart p ∧ p < b.graph.nextScope :=
      fun p hp => ⟨h.current_apart p hp, hb.current_lt p hp⟩
    have hgraph := h.graph.addScope hb.valid.forest hb'.valid.forest hparent type name loc
    rwa [← h.current_eq] at hgraph
  current_eq := congrArg some h.graph.nextScope_eq
  current_apart s hs := by
    cases hs
    exact Gap.apart_of_le h.graph.next_le
  marks_eq := h.marks_eq
  marks_apart := h.marks_apart
  root_eq := h.root_eq
  root_apart := h.root_apart

/-- Both builders declare a name in corresponding scopes. -/
theorem declareIn (h : Parallel C b b') (hb : b.Sound) (hs : C.scopes.Apart s)
    (hlt : s < b.graph.nextScope) (bound : BoundName) (kind : BindingKind) :
    Parallel C (b.declareIn s bound kind) (b'.declareIn (C.scopes.move s) bound kind) :=
  h.withGraph (h.graph.declare hb.valid.owns hs hlt kind (some bound.loc))

/-- The same action leaves parallel builders parallel. -/
theorem step (h : Parallel C b b') (hb : b.Sound) (hb' : b'.Sound) (hdoes : Does b a b₁)
    (hdoes' : Does b' a b₁') : Parallel C b₁ b₁' := by
  have hranked := hb.valid.forest.ranked
  have hranked' := hb'.valid.forest.ranked
  cases hdoes with
  | openRoot loc =>
    cases hdoes'
    have hopened := h.openScope hb hb' .object (.string "Global") loc
    exact ⟨hopened.graph, hopened.current_eq, hopened.current_apart, h.marks_eq, h.marks_apart,
      hopened.current_eq, hopened.current_apart⟩
  | openScope type name loc =>
    cases hdoes'
    exact h.openScope hb hb' type name loc
  | mark =>
    cases hdoes'
    refine ⟨h.graph, h.current_eq, h.current_apart, ?_, ?_, h.root_eq, h.root_apart⟩
    · simp only [List.map_cons, h.marks_eq, h.current_eq]
    · intro s hs
      rcases List.mem_cons.1 hs with hs | hs
      · exact h.current_apart s hs.symm
      · exact h.marks_apart s hs
  | @restore saved rest hmarks =>
    have hmarks' := h.marks_eq
    rw [hmarks, List.map_cons] at hmarks'
    cases hdoes' with
    | restore hsaved =>
      rw [hsaved] at hmarks'
      cases hmarks'
      have hapart := h.marks_apart
      rw [hmarks] at hapart
      exact ⟨h.graph, rfl, fun s hs => hapart s (hs ▸ List.mem_cons_self), rfl,
        fun s hs => hapart s (List.mem_cons_of_mem _ hs), h.root_eq, h.root_apart⟩
    | restoreNothing hnone =>
      rw [hnone] at hmarks'
      cases hmarks'
  | restoreNothing hmarks =>
    have hmarks' := h.marks_eq
    rw [hmarks, List.map_nil] at hmarks'
    cases hdoes' with
    | restore hsaved =>
      rw [hmarks'] at hsaved
      cases hsaved
    | restoreNothing hnone => exact h
  | returnToRoot =>
    cases hdoes'
    exact ⟨h.graph, h.root_eq, h.root_apart, h.marks_eq, h.marks_apart, h.root_eq, h.root_apart⟩
  | @declare s hs bound kind =>
    cases hdoes' with
    | declare hs' =>
      rw [h.current_of_current hs hs']
      exact h.declareIn hb (h.current_apart s hs) (hb.current_lt s hs) bound kind
  | @hoist s hs bound =>
    cases hdoes' with
    | hoist hs' =>
      have hapart := h.current_apart s hs
      have hlt := hb.current_lt s hs
      rw [h.current_of_current hs hs', h.graph.varScope_eq hranked hranked' hapart hlt]
      exact h.declareIn hb
        (h.graph.apart_of_mem_chain hranked hapart (b.graph.varScope_mem_chain s))
        (Graph.varScope_lt hb.valid.forest hlt) bound .var
  | @declareFunction s hs bound =>
    cases hdoes' with
    | declareFunction hs' =>
      have hapart := h.current_apart s hs
      have hlt := hb.current_lt s hs
      have hiff : b'.graph.varScope (C.scopes.move s) = C.scopes.move s ↔
          b.graph.varScope s = s := by
        rw [h.graph.varScope_eq hranked hranked' hapart hlt]
        exact Gap.move_inj
          (h.graph.apart_of_mem_chain hranked hapart (b.graph.varScope_mem_chain s)) hapart
      rw [h.current_of_current hs hs']
      simp only [hiff]
      exact h.declareIn hb hapart hlt bound _
  | @introduce s hs names =>
    cases hdoes' with
    | introduce hs' =>
      rw [h.current_of_current hs hs']
      exact h.withGraph (h.graph.declareImplicit hb.valid.owns (h.current_apart s hs)
        (hb.current_lt s hs) names)
  | @drop s name hs hres occurrence =>
    have hres' := h.graph.resolve_eq (n := name) hranked hranked' (h.current_apart s hs)
      (hb.current_lt s hs)
    rw [hres] at hres'
    cases hdoes' with
    | drop hs' => exact h
    | refer hs' hother =>
      rw [h.current_of_current hs hs', hres'] at hother
      cases hother
  | @refer s t name e hs hres he o =>
    have hapart := h.current_apart s hs
    have hlt := hb.current_lt s hs
    have hres' := h.graph.resolve_eq (n := name) hranked hranked' hapart hlt
    have ht := (Graph.resolve_eq_some hres).1
    have htapart := h.graph.apart_of_mem_chain hranked hapart ht
    have htlt := Nat.lt_of_le_of_lt (Graph.le_of_mem_chain hranked ht) hlt
    rw [hres] at hres'
    cases hdoes' with
    | drop hs' hnone =>
      rw [h.current_of_current hs hs', hres'] at hnone
      cases hnone
    | refer hs' hother he' =>
      rw [h.current_of_current hs hs', hres'] at hother
      cases hother
      rw [h.graph.find?_eq htapart htlt, he] at he'
      cases he'
      exact h.withGraph (h.graph.addReference hb.valid.owns (h.graph.entry t htapart name e he).1 o)
  | noteModule =>
    cases hdoes'
    exact ⟨h.graph, h.current_eq, h.current_apart, h.marks_eq, h.marks_apart, h.root_eq,
      h.root_apart⟩

/-- The same actions leave parallel builders parallel. -/
theorem replay (h : Parallel C b b') (hb : b.Sound) (hb' : b'.Sound)
    (hreplay : b.replay actions = .ok b₁) (hreplay' : b'.replay actions = .ok b₁') :
    Parallel C b₁ b₁' := by
  induction actions generalizing b b' with
  | nil =>
    cases hreplay
    cases hreplay'
    exact h
  | cons a actions ih =>
    obtain ⟨b₂, hdoes, hrest⟩ := replay_cons_cases hreplay
    obtain ⟨b₂', hdoes', hrest'⟩ := replay_cons_cases hreplay'
    exact ih (h.step hb hb' hdoes hdoes') (hdoes.sound hb).2 (hdoes'.sound hb').2 hrest hrest'

end Parallel

end Builder

end LexicalScopes
