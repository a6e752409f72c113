import LexicalScopes.Proofs.Shape.Tree

/-!
# The order of scopes

Scopes are made in the order in which the tree lists them: each before those inside it, and the
others from left to right.
-/

namespace LexicalScopes

/-! ## Walking a tree -/

namespace Scope

theorem walkFrom_cons (s : Scope) (rest : List Scope) :
    walkFrom (s :: rest) = s :: walkFrom (s.children ++ rest) := by
  rw [walkFrom]

theorem walkFrom_append (ss rest : List Scope) :
    walkFrom (ss ++ rest) = walkFrom ss ++ walkFrom rest := by
  induction ss using walkFrom.induct with
  | case1 =>
    have hnil : walkFrom [] = [] := by rw [walkFrom]
    rw [hnil]
    rfl
  | case2 s ss ih =>
    rw [List.cons_append, walkFrom_cons, walkFrom_cons, ← List.append_assoc, ih, List.cons_append]

theorem walkFrom_eq_flatMap (ss : List Scope) : walkFrom ss = ss.flatMap walk := by
  induction ss with
  | nil => rw [walkFrom, List.flatMap_nil]
  | cons s ss ih => rw [← List.singleton_append, walkFrom_append, ih, List.flatMap_append,
      List.flatMap_singleton, walk]

/-- A scope comes before the trees inside it. -/
theorem walk_eq (s : Scope) : s.walk = s :: s.children.flatMap walk := by
  rw [walk, walkFrom_cons, List.append_nil, walkFrom_eq_flatMap]

/-- What holds of a scope whenever it holds of its children holds of every scope. -/
theorem induction_on_children {motive : Scope → Prop}
    (h : ∀ s, (∀ c ∈ s.children, motive c) → motive s) (s : Scope) : motive s :=
  h s fun c _ => induction_on_children h c
termination_by s.size
decreasing_by exact size_lt_of_mem_children ‹_›

end Scope

/-! ## Walking a graph -/

open LexicalScopes.Graph

variable {g g' : Graph} {parent : Option ScopeId} {n m : Nat} {s : ScopeId} {os : List Outline}
  {fuel : Nat}

/-- A scope and all scopes inside it, each before those inside it and the others from left to
right. -/
def Graph.inside (g : Graph) : Nat → ScopeId → List ScopeId
  | 0, _ => []
  | fuel + 1, s => s :: (g.children s).flatMap (inside g fuel)

/-- Numbered scopes stand in the order of their numbers. -/
theorem Numbered.flatMap_inside (h : Numbered g parent n os m) (hg : g.Forest)
    (hsegment : g.Segment parent n m) (hfuel : m - n ≤ fuel) :
    (g.within parent n m).flatMap (g.inside fuel) = List.range' n (m - n) := by
  induction h generalizing fuel with
  | nil => simp [within]
  | @cons parent n m k heading children rest hn hheader hchildren hrest ih ih' =>
    have hparent : g.parent? n = parent := by rw [parent?_eq_header, hheader]
    have hnm : n + 1 ≤ m := hchildren.le
    have hmk : m ≤ k := hrest.le
    cases fuel with
    | zero => omega
    | succ fuel =>
      have hinner := ih (hsegment.inner hrest) (by omega : m - (n + 1) ≤ fuel)
      have hlater := ih' (hsegment.later hchildren) (by omega : k - m ≤ fuel + 1)
      rw [hsegment.within_eq hparent hchildren hrest, List.flatMap_cons, hlater, inside,
        hsegment.children_eq hg hn hchildren hrest, hinner, ← List.range'_succ,
        show m - (n + 1) + 1 = m - n by omega]
      exact (range'_append (by omega) hmk).symm

/-- Scopes that hold the same scopes, and only such scopes, hold them in the same order. -/
theorem Graph.inside_congr {same : ScopeId → Prop}
    (hsame : ∀ t, same t → g'.children t = g.children t)
    (hchild : ∀ t, same t → ∀ c ∈ g.children t, same c) (hs : same s) :
    g'.inside fuel s = g.inside fuel s := by
  induction fuel generalizing s with
  | zero => rfl
  | succ fuel ih =>
    rw [inside, inside, hsame s hs]
    exact congrArg (s :: ·) (List.flatMap_congr fun c hc => ih (hchild s hs c hc))

section Layers

variable (hg : g.Forest) (hlayered : g.Layered) (h : Numbered g (some 2) 3 os g.nextScope)

include hg hlayered h

/-- What the innermost layer holds comes in the order in which it was made. -/
theorem flatMap_inside_layer (hfuel : g.nextScope - 3 ≤ fuel) :
    (g.children 2).flatMap (g.inside fuel) = List.range' 3 (g.nextScope - 3) := by
  obtain ⟨hsegment, hchildren⟩ := segment_layer hg hlayered
  rw [hchildren]
  exact h.flatMap_inside hg hsegment hfuel

/-- The root comes first and all other scopes after it, in the order in which they were made. -/
theorem inside_root :
    g.inside g.nextScope 0 = 0 :: 1 :: 2 :: List.range' 3 (g.nextScope - 3) := by
  obtain ⟨hroot, hlexical⟩ := hlayered.children_eq hg
  obtain ⟨n, hn⟩ := Nat.exists_eq_add_of_le' hlayered.three_le
  have hlayer := flatMap_inside_layer hg hlayered h (Nat.le_refl _)
  rw [hn, Nat.add_sub_cancel] at hlayer
  rw [hn, Nat.add_sub_cancel, inside, hroot, List.flatMap_singleton, inside, hlexical,
    List.flatMap_singleton, inside, hlayer]

/-- Without the module layer all other scopes come in the same order. -/
theorem inside_dissolveLayer :
    (g.dissolveLayer 0 1 2).inside g.nextScope 0 = 0 :: 1 :: List.range' 3 (g.nextScope - 3) := by
  obtain ⟨hroot, -⟩ := hlayered.children_eq hg
  obtain ⟨n, hn⟩ := Nat.exists_eq_add_of_le' hlayered.three_le
  have hfuel : g.nextScope - 3 ≤ n + 1 := by
    rw [hn, Nat.add_sub_cancel]
    exact Nat.le_succ n
  have hlayer := flatMap_inside_layer hg hlayered h hfuel
  -- The lexical scope has the children of the layer, and below them nothing has changed.
  have hbelow : (g.children 2).flatMap ((g.dissolveLayer 0 1 2).inside (n + 1)) =
      (g.children 2).flatMap (g.inside (n + 1)) := by
    apply List.flatMap_congr
    intro c hc
    refine inside_congr (fun t ht => children_dissolveLayer_of_inner hlayered ht.1)
      (fun t ht c hc => hg.inner_of_mem_children (Nat.le_of_lt ht.1) ht.2 hc) ?_
    exact hg.inner_of_mem_children (Nat.le_refl 2) hlayered.two_lt hc
  rw [hn, Nat.add_sub_cancel] at hlayer
  rw [hn, Nat.add_sub_cancel, inside, children_dissolveLayer hlayered.one_lt,
    if_neg Nat.zero_ne_one, hroot, List.flatMap_singleton, inside,
    children_dissolveLayer hlayered.one_lt, if_pos rfl, hbelow, hlayer]

end Layers

/-! ## Copying -/

/-- The scope of the tree has the names of the draft, in the same order, with the same bindings. -/
def Graph.Shows (g : Graph) (s : ScopeId) (scope : Scope) : Prop :=
  List.Forall₂ (fun x y => x.1 = y.1 ∧ (g.entry x.2).toBinding = .ok y.2) (g.draft s).bindings
    scope.bindings

/-- A copy lists the scopes of the graph. -/
theorem forall₂_shows {tree : Scope} (h : g.treeFrom fuel s = .ok tree) :
    List.Forall₂ g.Shows (g.inside fuel s) tree.walk := by
  induction fuel generalizing s tree with
  | zero => cases h
  | succ fuel ih =>
    obtain ⟨range, -, h⟩ := bind_eq_ok.1 h
    obtain ⟨bindings, hbindings, h⟩ := bind_eq_ok.1 h
    obtain ⟨scopes, hscopes, h⟩ := bind_eq_ok.1 h
    cases h
    rw [inside, Scope.walk_eq]
    refine .cons ?_ (List.rel_flatMap (mapM_eq_ok.1 hscopes) fun _ _ => ih)
    refine (mapM_eq_ok.1 hbindings).imp fun x y hxy => ?_
    obtain ⟨binding, hbinding, hxy⟩ := bind_eq_ok.1 hxy
    cases hxy
    exact ⟨rfl, hbinding⟩

end LexicalScopes
