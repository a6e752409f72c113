import LexicalScopes.Proofs.Dissolution

/-!
# The settled graph

Once the module layer is kept or dissolved, the graph below the root is one tree with its parents,
whose scopes own their bindings. It has the ranges and the entries of the graph that the run has
built, and every name inside the layer leads to the binding that it led to before.
-/

namespace LexicalScopes

namespace Graph

variable {g : Graph} {root lexical layer s t c : ScopeId} {name n m : Scalar} {e : EntryId}

/-! ## Below the root -/

/-- Below the root every scope lies in the scope that lists it, and every binding has one name in
one scope. -/
structure Settled (g : Graph) (root : ScopeId) : Prop where
  ranked : g.Ranked
  parent_root : g.parent? root = none
  mem_children_iff : ∀ s t, g.Reaches root s → g.Reaches root t →
    (t ∈ g.children s ↔ g.parent? t = some s)
  distinct : ∀ s, ((g.draft s).bindings.map (·.1.key)).Nodup
  find?_inj : ∀ s t n m e, g.Reaches root s → g.Reaches root t → g.find? s n = some e →
    g.find? t m = some e → s = t

namespace Settled

theorem parent?_of_mem_children (h : g.Settled root) (hs : g.Reaches root s)
    (hc : c ∈ g.children s) : g.parent? c = some s :=
  (h.mem_children_iff s c hs (hs.tail hc)).1 hc

theorem find?_of_mem (h : g.Settled root) {x : Scalar × EntryId}
    (hx : x ∈ (g.draft s).bindings) : g.find? s x.1 = some x.2 :=
  boundTo_of_mem (h.distinct s) hx

/-- The root is around every scope below it. -/
theorem root_mem_chain (h : g.Settled root) (hs : g.Reaches root s) : root ∈ g.chain s := by
  induction hs with
  | refl => exact mem_chain_self g root
  | @tail s t hs hchild ih =>
    rw [chain_of_parent?_eq_some h.ranked (h.parent?_of_mem_children hs hchild)]
    exact List.mem_cons_of_mem _ ih

theorem reaches_of_mem_chain (h : g.Settled root) (hs : g.Reaches root s) (ht : t ∈ g.chain s) :
    g.Reaches root t := by
  induction hs with
  | refl =>
    rw [chain_of_parent?_eq_none h.parent_root, List.mem_singleton] at ht
    rw [ht]
    exact .refl
  | @tail s c hs hchild ih =>
    rw [chain_of_parent?_eq_some h.ranked (h.parent?_of_mem_children hs hchild)] at ht
    rcases List.mem_cons.1 ht with rfl | ht
    · exact hs.tail hchild
    · exact ih ht

end Settled

namespace Stacked

theorem settled (h : g.Stacked root lexical layer) (hg : g.OwnsEntries) : g.Settled root where
  ranked := h.linked.ranked
  parent_root := h.parent_root
  mem_children_iff s t hs _ :=
    h.linked.mem_children_iff s (h.linked.le_of_reaches h.root_lt hs).2 t
  distinct := hg.distinct
  find?_inj s t n m e _ _ hs ht := (hg.find?_inj s t n m e hs ht).1

/-- A binding of a scope is its own or comes from the layer. -/
theorem find?_cases (h : g.Stacked root lexical layer)
    (hfind : (g.dissolveLayer root lexical layer).find? s n = some e) :
    g.find? layer n = some e ∧ g.heir root lexical e = s ∨ g.find? s n = some e := by
  rw [h.find?_eq, Option.or_eq_some_iff] at hfind
  refine hfind.imp (fun hmoved => ?_) fun hold => hold.2
  obtain ⟨hlayer, hheir⟩ := Option.filter_eq_some_iff.1 hmoved
  exact ⟨hlayer, of_decide_eq_true hheir⟩

theorem settled_dissolveLayer (h : g.Stacked root lexical layer) (hg : g.OwnsEntries) :
    (g.dissolveLayer root lexical layer).Settled root where
  ranked := h.ranked
  parent_root := h.parent?_root_dissolveLayer
  mem_children_iff s t hs ht := by
    rw [← List.count_pos_iff, h.count_children_dissolveLayer hs ht]
    split <;> simp [*]
  distinct s := nodup_dissolveLayer h.root_lt h.lexical_lt (hg.distinct s)
  find?_inj s t n m e hs ht hsfind htfind := by
    have hsne := (h.reaches_dissolveLayer_iff.1 hs).2
    have htne := (h.reaches_dissolveLayer_iff.1 ht).2
    rcases h.find?_cases hsfind with ⟨hs, hsheir⟩ | hs <;>
      rcases h.find?_cases htfind with ⟨ht, htheir⟩ | ht
    · exact hsheir.symm.trans htheir
    · exact absurd (hg.find?_inj _ _ _ _ _ ht hs).1 htne
    · exact absurd (hg.find?_inj _ _ _ _ _ hs ht).1 hsne
    · exact (hg.find?_inj _ _ _ _ _ hs ht).1

end Stacked

/-! ## Corresponding scopes -/

/-- The scope `c'` of a settled graph stands where `c` stood: around it are the scopes around `c`
that are left, and every name leads to the same binding. -/
structure StandsFor (g' : Graph) (c' : ScopeId) (g : Graph) (c : ScopeId) : Prop where
  reaches : g'.Reaches 0 c'
  mem_chain_iff : ∀ t, g'.Reaches 0 t → (t ∈ g'.chain c' ↔ t ∈ g.chain c)
  bindingOf?_eq : ∀ name, g'.bindingOf? c' name = g.bindingOf? c name

theorem Stacked.exists_standsFor (h : g.Stacked 0 lexical layer) (hc : g.Reaches layer c) :
    ∃ c', (g.dissolveLayer 0 lexical layer).StandsFor c' g c := by
  rcases Decidable.em (c = layer) with rfl | hne
  · -- The lexical scope takes the place of the layer.
    have hlexical : g.Reaches 0 lexical := h.reaches_root_iff.2 (.inr (.inl rfl))
    refine ⟨lexical, h.reaches_dissolveLayer_iff.2 ⟨hlexical, Nat.ne_of_lt h.lexical_lt_layer⟩, ?_,
      fun name => ?_⟩
    · intro t ht
      have hne := (h.reaches_dissolveLayer_iff.1 ht).2
      simp [h.chain_lexical_dissolveLayer, h.chain_layer, hne]
    · rw [bindingOf?_eq_findSome?, bindingOf?_eq_findSome?, h.chain_lexical_dissolveLayer,
        h.chain_layer, h.findSome?_layers]
  · have hroot : g.Reaches 0 c := h.reaches_root_iff.2 (.inr (.inr hc))
    refine ⟨c, h.reaches_dissolveLayer_iff.2 ⟨hroot, hne⟩, ?_, fun name => h.bindingOf?_eq hc hne⟩
    intro t ht
    have htne := (h.reaches_dissolveLayer_iff.1 ht).2
    obtain ⟨inner, hchain, hchain', -⟩ := h.exists_chain hc hne
    simp [hchain, hchain', htne]

end Graph

/-! ## Programs -/

namespace Finished

open LexicalScopes.Graph

variable {loc : Json} {final : Builder} {generated : Bool} {g : Graph} {s t c : ScopeId}
  {name n : Scalar} {e : EntryId}

/-- The module layer is kept or dissolved. -/
theorem settle_cases (h : Finished loc final)
    (hg : final.graph.settle 0 final.isModule generated = .ok g) :
    g = final.graph ∨ g = final.graph.dissolveLayer 0 1 2 := by
  rw [Graph.settle] at hg
  split at hg
  · cases hg
    exact .inl rfl
  · rw [h.stacked.dissolve_eq] at hg
    cases hg
    exact .inr rfl

/-- All scopes but the two outer ones lie in the layer. -/
theorem reaches_layer (h : Finished loc final) (hle : 2 ≤ s) (hlt : s < final.graph.nextScope) :
    final.graph.Reaches 2 s := by
  induction s using Nat.strongRecOn with
  | ind s ih =>
    rcases Nat.eq_or_lt_of_le hle with rfl | hgt
    · exact .refl
    · obtain ⟨p, hp, hple⟩ := h.layered.parent_inner s hgt hlt
      have hps := h.sound.valid.forest.parent_lt s p hp
      have hplt := Nat.lt_trans hps hlt
      refine (ih p hps hple hplt).tail ?_
      exact (h.sound.valid.forest.linked.mem_children_iff p hplt s).2 hp

section Settle

variable (h : Finished loc final) (hg : final.graph.settle 0 final.isModule generated = .ok g)

include h hg

theorem settled : g.Settled 0 := by
  rcases h.settle_cases hg with rfl | rfl
  · exact h.stacked.settled h.sound.valid.owns
  · exact h.stacked.settled_dissolveLayer h.sound.valid.owns

theorem entry_settle : g.entry e = final.graph.entry e := by
  rcases h.settle_cases hg with rfl | rfl
  · rfl
  · exact entry_dissolveLayer

theorem loc_settle : (g.draft s).loc = (final.graph.draft s).loc := by
  rcases h.settle_cases hg with rfl | rfl
  · rfl
  · rw [draft_dissolveLayer h.stacked.lexical_lt]

theorem nextScope_settle : g.nextScope = final.graph.nextScope := by
  rcases h.settle_cases hg with rfl | rfl
  · rfl
  · exact nextScope_dissolveLayer

/-- A binding of a settled graph has had its name before. -/
theorem exists_find?_of_settle (hfind : g.find? s n = some e) :
    ∃ t, final.graph.find? t n = some e := by
  rcases h.settle_cases hg with rfl | rfl
  · exact ⟨s, hfind⟩
  · rcases h.stacked.find?_cases hfind with ⟨hlayer, -⟩ | hold
    · exact ⟨2, hlayer⟩
    · exact ⟨s, hold⟩

theorem exists_standsFor (hle : 2 ≤ c) (hlt : c < final.graph.nextScope) :
    ∃ c', g.StandsFor c' final.graph c := by
  have hreaches := h.reaches_layer hle hlt
  rcases h.settle_cases hg with rfl | rfl
  · exact ⟨c, h.stacked.reaches_root_iff.2 (.inr (.inr hreaches)), fun _ _ => .rfl, fun _ => rfl⟩
  · exact h.stacked.exists_standsFor hreaches

end Settle

end Finished

end LexicalScopes
