import LexicalScopes.Proofs.Graph.Growth
import Mathlib.Data.List.Find

/-!
# Enclosing scopes

The chain of a scope is the scope itself and the chain of its parent. Growth of the graph leaves
the chains of the scopes that exist as they are.
-/

namespace LexicalScopes

namespace Graph

variable {g g' : Graph} {s t u p : ScopeId} {name : Scalar}

/-- Every scope lies in one made before it. -/
def Ranked (g : Graph) : Prop := ∀ s p, g.parent? s = some p → p < s

theorem Forest.ranked (hg : g.Forest) : g.Ranked := hg.parent_lt

/-- Fuel beyond the number of the scope changes nothing. -/
theorem chainFrom_eq_chain (hg : g.Ranked) {fuel : Nat} (h : s < fuel) :
    g.chainFrom fuel s = g.chain s := by
  -- Strong induction on the fuel, since the chain itself is defined with fuel `s + 1`.
  induction fuel using Nat.strongRecOn generalizing s with
  | ind fuel ih =>
    cases fuel with
    | zero => exact absurd h (Nat.not_lt_zero s)
    | succ fuel =>
      rw [chain, chainFrom, chainFrom]
      cases hp : g.parent? s with
      | none => rfl
      | some p =>
        have hps := hg s p hp
        rcases Nat.lt_succ_iff_lt_or_eq.1 h with hs | hs
        · simp only [ih fuel (Nat.lt_succ_self _) (Nat.lt_trans hps hs),
            ih s (Nat.lt_succ_of_lt hs) hps]
        · rw [hs]

theorem chain_of_parent?_eq_none (h : g.parent? s = none) : g.chain s = [s] := by
  rw [chain, chainFrom, h]

theorem chain_of_parent?_eq_some (hg : g.Ranked) (h : g.parent? s = some p) :
    g.chain s = s :: g.chain p := by
  rw [chain, chainFrom, h]
  simp only [chainFrom_eq_chain hg (hg s p h)]

/-- A scope is made after every scope around it. -/
theorem le_of_mem_chain (hg : g.Ranked) (h : t ∈ g.chain s) : t ≤ s := by
  induction s using Nat.strongRecOn with
  | ind s ih =>
    cases hp : g.parent? s with
    | none =>
      rw [chain_of_parent?_eq_none hp, List.mem_singleton] at h
      exact Nat.le_of_eq h
    | some p =>
      rw [chain_of_parent?_eq_some hg hp] at h
      have hps := hg s p hp
      rcases List.mem_cons.1 h with rfl | h
      · exact Nat.le_refl _
      · exact Nat.le_trans (ih p hps h) (Nat.le_of_lt hps)

theorem mem_chain_self (g : Graph) (s : ScopeId) : s ∈ g.chain s := by
  rw [chain, chainFrom]
  exact List.mem_cons_self

/-- The scopes around `t` are the last ones of every chain that `t` is in. -/
theorem exists_chain_append (hg : g.Ranked) (h : t ∈ g.chain s) :
    ∃ inner, g.chain s = inner ++ g.chain t ∧ ∀ u ∈ inner, t < u := by
  induction s using Nat.strongRecOn with
  | ind s ih =>
    rcases Nat.eq_or_lt_of_le (le_of_mem_chain hg h) with rfl | hlt
    · exact ⟨[], rfl, by simp⟩
    · cases hp : g.parent? s with
      | none =>
        rw [chain_of_parent?_eq_none hp, List.mem_singleton] at h
        exact absurd hlt (Nat.not_lt.2 (Nat.le_of_eq h.symm))
      | some p =>
        rw [chain_of_parent?_eq_some hg hp] at h ⊢
        have hmem := (List.mem_cons.1 h).resolve_left (Nat.ne_of_lt hlt)
        obtain ⟨inner, hinner, hlater⟩ := ih p (hg s p hp) hmem
        exact ⟨s :: inner, congrArg (s :: ·) hinner, by simpa using ⟨hlt, hlater⟩⟩

theorem mem_chain_trans (hg : g.Ranked) (ht : t ∈ g.chain s) (hu : u ∈ g.chain t) :
    u ∈ g.chain s := by
  obtain ⟨inner, hinner, -⟩ := exists_chain_append hg ht
  rw [hinner]
  exact List.mem_append_right _ hu

/-- Of two scopes in one chain the one made first is around the other. -/
theorem mem_chain_of_le (hg : g.Ranked) (ht : t ∈ g.chain s) (hu : u ∈ g.chain s) (hle : u ≤ t) :
    u ∈ g.chain t := by
  obtain ⟨inner, hinner, hlater⟩ := exists_chain_append hg ht
  rw [hinner] at hu
  rcases List.mem_append.1 hu with hu | hu
  · exact absurd (hlater u hu) (Nat.not_lt.2 hle)
  · exact hu

/-- Between a scope and one around it lies a scope directly in the outer one. -/
theorem exists_child_of_mem_chain (hg : g.Ranked) (h : t ∈ g.chain s) (hne : t ≠ s) :
    ∃ c ∈ g.chain s, g.parent? c = some t := by
  induction s using Nat.strongRecOn with
  | ind s ih =>
    cases hp : g.parent? s with
    | none =>
      rw [chain_of_parent?_eq_none hp, List.mem_singleton] at h
      exact absurd h hne
    | some p =>
      rw [chain_of_parent?_eq_some hg hp] at h ⊢
      have hmem := (List.mem_cons.1 h).resolve_left hne
      rcases Decidable.em (t = p) with rfl | htp
      · exact ⟨s, List.mem_cons_self, hp⟩
      · obtain ⟨c, hc, hparent⟩ := ih p (hg s p hp) hmem htp
        exact ⟨c, List.mem_cons_of_mem _ hc, hparent⟩

theorem varScope_mem_chain (g : Graph) (s : ScopeId) : g.varScope s ∈ g.chain s := by
  rw [varScope]
  cases h : (g.chain s).find? g.isHoistTarget with
  | some t => exact List.mem_of_find?_eq_some h
  | none =>
    have hne : g.chain s ≠ [] := by simp [chain, chainFrom]
    rw [Option.getD_none, List.getLastD_eq_getLast?, List.getLast?_eq_some_getLast hne]
    exact List.getLast_mem hne

theorem varScope_lt (hg : g.Forest) (hs : s < g.nextScope) : g.varScope s < g.nextScope :=
  Nat.lt_of_le_of_lt (le_of_mem_chain hg.ranked (g.varScope_mem_chain s)) hs

theorem resolve_eq_some (h : g.resolve s name = some t) : t ∈ g.chain s ∧ g.binds t name = true :=
  ⟨List.mem_of_find?_eq_some h, by simpa using List.find?_some h⟩

theorem resolve_congr {n : Scalar} (h : n.key = name.key) : g.resolve s n = g.resolve s name := by
  have hbinds : ∀ t ∈ g.chain s, g.binds t n = g.binds t name := fun t _ => by
    rw [binds, find?_congr h, binds]
  exact List.find?_congr hbinds

/-- A name resolves to the scope of the chain that binds it and was made last. -/
theorem resolve_eq_some_iff (hg : g.Ranked) :
    g.resolve s name = some t ↔ t ∈ g.chain s ∧ g.binds t name = true ∧
      ∀ u ∈ g.chain s, t < u → g.binds u name = false := by
  constructor
  · intro h
    obtain ⟨hmem, hbinds⟩ := resolve_eq_some h
    refine ⟨hmem, hbinds, fun u hu hlt => ?_⟩
    obtain ⟨inner, hinner, hlater⟩ := exists_chain_append hg hu
    rw [Bool.eq_false_iff]
    intro hname
    -- The search stops at `u` or before it, and what comes before was made later.
    rw [resolve, hinner, List.find?_append, chain, chainFrom, List.find?_cons, hname] at h
    cases hfirst : inner.find? fun v => g.binds v name with
    | none =>
      rw [hfirst] at h
      cases h
      exact Nat.lt_irrefl _ hlt
    | some v =>
      rw [hfirst] at h
      cases h
      exact Nat.lt_irrefl _ (Nat.lt_trans hlt (hlater _ (List.mem_of_find?_eq_some hfirst)))
  · rintro ⟨hmem, hbinds, hnone⟩
    obtain ⟨inner, hinner, hlater⟩ := exists_chain_append hg hmem
    have hfirst : inner.find? (fun u => g.binds u name) = none := by
      rw [List.find?_eq_none]
      intro u hu
      rw [hnone u (by rw [hinner]; exact List.mem_append_left _ hu) (hlater u hu)]
      exact Bool.false_ne_true
    rw [resolve, hinner, List.find?_append, hfirst, Option.none_or, chain, chainFrom,
      List.find?_cons, hbinds]

/-- Along another chain a name resolves to the same scope exactly if this scope is in the chain and
none of the scopes that are not in the first chain binds the name. -/
theorem resolve_eq_some_iff_of_resolve (hg : g.Ranked) {c d : ScopeId}
    (h : g.resolve c name = some t) :
    g.resolve d name = some t ↔
      t ∈ g.chain d ∧ ∀ u ∈ g.chain d, u ∉ g.chain c → g.binds u name = false := by
  obtain ⟨hmem, hbinds, hnone⟩ := (resolve_eq_some_iff hg).1 h
  rw [resolve_eq_some_iff hg]
  refine and_congr_right fun ht => ?_
  constructor
  · rintro ⟨-, hlater⟩ u hu hother
    refine hlater u hu (Nat.lt_of_not_le fun hle => hother ?_)
    exact mem_chain_trans hg hmem (mem_chain_of_le hg ht hu hle)
  · intro hothers
    refine ⟨hbinds, fun u hu hlt => ?_⟩
    rcases Decidable.em (u ∈ g.chain c) with hboth | hother
    · exact hnone u hboth hlt
    · exact hothers u hu hother

theorem Grows.chain_eq (h : Grows g g') (hg : g.Forest) (hg' : g'.Forest) (hs : s < g.nextScope) :
    g'.chain s = g.chain s := by
  -- Parents are made before their children, so the chain is followed by strong induction.
  induction s using Nat.strongRecOn with
  | ind s ih =>
    have hparent := h.parent?_eq hs
    cases hp : g.parent? s with
    | none => rw [chain_of_parent?_eq_none hp, chain_of_parent?_eq_none (hparent.trans hp)]
    | some p =>
      have hps := hg.parent_lt s p hp
      rw [chain_of_parent?_eq_some hg.ranked hp,
        chain_of_parent?_eq_some hg'.ranked (hparent.trans hp), ih p hps (Nat.lt_trans hps hs)]

end Graph

end LexicalScopes
