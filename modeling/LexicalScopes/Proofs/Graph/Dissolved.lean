import LexicalScopes.Proofs.Graph.Chain
import LexicalScopes.Proofs.Graph.Overwriting

/-!
# The graph without its layer

Dissolving a layer takes one scope out of every chain that went through it. The two scopes around it
have the bindings of the layer afterwards, so that every name below leads to the binding that it led
to before.
-/

namespace LexicalScopes

namespace Graph

variable {g : Graph} {root lexical layer s t p : ScopeId} {name n : Scalar} {e : EntryId}
  {x : Scalar × EntryId} {old xs : List (Scalar × EntryId)}

/-! ## Looking up a name -/

/-- The binding of a name in a list of bindings. -/
def boundTo (xs : List (Scalar × EntryId)) (n : Scalar) : Option EntryId :=
  (xs.find? fun x => x.1.key == n.key).map (·.2)

theorem find?_eq_boundTo : g.find? s n = boundTo (g.draft s).bindings n := rfl

@[simp] theorem boundTo_nil : boundTo [] n = none := rfl

@[simp] theorem boundTo_cons :
    boundTo (x :: xs) n = if x.1.key = n.key then some x.2 else boundTo xs n := by
  by_cases h : x.1.key = n.key <;> simp [boundTo, h]

theorem boundTo_eq_none (h : ∀ x ∈ xs, x.1.key ≠ n.key) : boundTo xs n = none := by
  simpa [boundTo] using h

/-- Where no name is listed twice every name is bound to what stands beside it. -/
theorem boundTo_of_mem (hxs : (xs.map (·.1.key)).Nodup) (hx : x ∈ xs) :
    boundTo xs x.1 = some x.2 := by
  induction xs with
  | nil => cases hx
  | cons y xs ih =>
    rw [List.map_cons, List.nodup_cons] at hxs
    rcases List.mem_cons.1 hx with rfl | hx
    · simp
    · have hne : y.1.key ≠ x.1.key := fun hkey => hxs.1 (List.mem_map.2 ⟨x, hx, hkey.symm⟩)
      rw [boundTo_cons, if_neg hne, ih hxs.2 hx]

theorem nodup_reboundAll (hold : (old.map (·.1.key)).Nodup) :
    ((reboundAll old xs).map (·.1.key)).Nodup := by
  induction xs generalizing old with
  | nil => exact hold
  | cons x xs ih =>
    have hcons : reboundAll old (x :: xs) = reboundAll (rebound old x.1 x.2) xs := rfl
    rw [hcons]
    exact ih (nodup_rebound hold)

theorem boundTo_rebound :
    boundTo (rebound old name e) n = if n.key = name.key then some e else boundTo old n :=
  find?_rebound old name n e

/-- A name is bound to its new binding, and to its old one if it has no new one. -/
theorem boundTo_reboundAll (hxs : (xs.map (·.1.key)).Nodup) :
    boundTo (reboundAll old xs) n = (boundTo xs n).or (boundTo old n) := by
  induction xs generalizing old with
  | nil => rfl
  | cons x xs ih =>
    rw [List.map_cons, List.nodup_cons] at hxs
    have hcons : reboundAll old (x :: xs) = reboundAll (rebound old x.1 x.2) xs := rfl
    rw [hcons, ih hxs.2, boundTo_rebound, boundTo_cons]
    by_cases hn : x.1.key = n.key
    · -- No later binding has the same name.
      have hnone : boundTo xs n = none := by
        refine boundTo_eq_none fun y hy hkey => hxs.1 (List.mem_map.2 ⟨y, hy, hkey.trans hn.symm⟩)
      simp [hn, hnone]
    · simp [hn, Ne.symm hn]

/-- Among some of the bindings a name has the same binding as among all of them, or none. -/
theorem boundTo_filter (hxs : (xs.map (·.1.key)).Nodup) (q : EntryId → Bool) :
    boundTo (xs.filter fun x => q x.2) n = (boundTo xs n).filter q := by
  induction xs with
  | nil => rfl
  | cons x xs ih =>
    rw [List.map_cons, List.nodup_cons] at hxs
    have hrest := ih hxs.2
    rw [boundTo_cons, List.filter_cons]
    by_cases hn : x.1.key = n.key
    · have hnone : boundTo xs n = none := by
        refine boundTo_eq_none fun y hy hkey => hxs.1 (List.mem_map.2 ⟨y, hy, hkey.trans hn.symm⟩)
      cases hq : q x.2 <;> simp [hn, hq, hrest, hnone, Option.filter]
    · cases q x.2 <;> simp [hn, hrest]

/-- The heir of a binding has it in the place of its own binding of the name. -/
theorem find?_dissolveLayer (hroot : root < g.nextScope) (hlexical : lexical < g.nextScope)
    (hlayer : ((g.draft layer).bindings.map (·.1.key)).Nodup) :
    (g.dissolveLayer root lexical layer).find? t n =
      ((g.find? layer n).filter fun e => g.heir root lexical e = t).or (g.find? t n) := by
  have hpart : (((g.draft layer).bindings.filter fun x => g.heir root lexical x.2 = t).map
      (·.1.key)).Nodup := hlayer.sublist (List.filter_sublist.map _)
  rw [find?_eq_boundTo, bindings_dissolveLayer hroot hlexical, boundTo_reboundAll hpart,
    boundTo_filter hlayer fun e => g.heir root lexical e = t]
  rfl

/-- No scope lists a name twice after its heirs have taken over. -/
theorem nodup_dissolveLayer (hroot : root < g.nextScope) (hlexical : lexical < g.nextScope)
    (hdistinct : ((g.draft t).bindings.map (·.1.key)).Nodup) :
    (((g.dissolveLayer root lexical layer).draft t).bindings.map (·.1.key)).Nodup := by
  rw [bindings_dissolveLayer hroot hlexical]
  exact nodup_reboundAll hdistinct

/-! ## Parents -/

theorem parent?_foldl_setParent {ss : List ScopeId} (hss : ∀ s ∈ ss, s < g.nextScope) :
    (ss.foldl (setParent p) g).parent? t = if t ∈ ss then some p else g.parent? t := by
  induction ss generalizing g with
  | nil => simp
  | cons s ss ih =>
    have hnext : (setParent p g s).nextScope = g.nextScope := by simp [setParent, nextScope]
    have hs : s < g.drafts.size := hss s List.mem_cons_self
    have hone : (setParent p g s).parent? t = if t = s then some p else g.parent? t := by
      rw [parent?, setParent, draft, getD_modify]
      by_cases hts : s = t
      · subst hts
        simp [hs]
      · simp [hts, Ne.symm hts, parent?, draft]
    rw [List.foldl_cons, ih (fun s' hs' => hnext ▸ hss s' (List.mem_cons_of_mem _ hs')), hone]
    by_cases hts : t = s <;> simp [hts]

/-- The scopes that lay in the layer lie in the lexical scope, all others where they lay. -/
theorem parent?_dissolveLayer (hlexical : lexical < g.nextScope)
    (hchildren : ∀ c ∈ g.children layer, c < g.nextScope) :
    (g.dissolveLayer root lexical layer).parent? t =
      if t ∈ g.children layer then some lexical else g.parent? t := by
  have hlt : lexical < (g.handOn root lexical (g.draft layer).bindings).nextScope := by
    rwa [nextScope_handOn]
  have hnext : ((g.handOn root lexical (g.draft layer).bindings).shareChildren lexical
      layer).nextScope = g.nextScope := by
    rw [shareChildren, nextScope, Array.size_modify]
    exact nextScope_handOn
  have hshared : ((g.handOn root lexical (g.draft layer).bindings).shareChildren lexical
      layer).children lexical = g.children layer := by
    rw [children, draft_shareChildren hlt, if_pos rfl, draft_handOn_rest layer, shareChildren,
      childLists_handOn]
    rfl
  have hparent : ((g.handOn root lexical (g.draft layer).bindings).shareChildren lexical
      layer).parent? t = g.parent? t := by
    rw [parent?, draft_shareChildren hlt, draft_handOn_rest t]
    split <;> rfl
  rw [dissolveLayer_eq]
  dsimp only
  rw [hshared, parent?_foldl_setParent (by rwa [hnext]), hparent]

end Graph

end LexicalScopes
