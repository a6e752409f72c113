import LexicalScopes.Proofs.Cursor.Search

/-!
# What the tree shows

Every scope of a settled graph has a copy in the tree, which binds the names of the scope to copies
of its bindings. The bindings of a dissolved module layer show in the scope that takes them over.
-/

namespace LexicalScopes

/-- The heading under which a scope is made. -/
def Draft.heading (d : Draft) : Heading := ⟨d.type, d.name, d.loc⟩

theorem Draft.heading_eq {d : Draft} : d.heading = ⟨d.header.type, d.header.name, d.header.loc⟩ :=
  rfl

namespace Graph

variable {g : Graph} {tree scope : Scope} {s : ScopeId} {fuel : Nat} {name : Scalar} {e : EntryId}

/-- The tree is made of copies of the scopes inside its root. -/
theorem forall₂_copied (h : g.treeFrom fuel s = .ok tree) :
    List.Forall₂ g.Copied (g.inside fuel s) tree.walk := by
  induction fuel generalizing s tree with
  | zero => cases h
  | succ fuel ih =>
    have hcopied : g.Copied s tree := ⟨fuel + 1, h⟩
    obtain ⟨range, -, h⟩ := bind_eq_ok.1 h
    obtain ⟨bindings, -, h⟩ := bind_eq_ok.1 h
    obtain ⟨scopes, hscopes, h⟩ := bind_eq_ok.1 h
    cases h
    rw [inside, Scope.walk_eq]
    exact .cons hcopied (List.rel_flatMap (mapM_eq_ok.1 hscopes) fun _ _ => ih)

namespace Copied

theorem type_eq (h : g.Copied s scope) : scope.type = (g.draft s).type.shown := by
  obtain ⟨fuel, h⟩ := h
  cases fuel with
  | zero => cases h
  | succ fuel =>
    obtain ⟨range, -, h⟩ := bind_eq_ok.1 h
    obtain ⟨bindings, -, h⟩ := bind_eq_ok.1 h
    obtain ⟨scopes, -, h⟩ := bind_eq_ok.1 h
    cases h
    rfl

theorem name_eq (h : g.Copied s scope) : scope.name = (g.draft s).name := by
  obtain ⟨fuel, h⟩ := h
  cases fuel with
  | zero => cases h
  | succ fuel =>
    obtain ⟨range, -, h⟩ := bind_eq_ok.1 h
    obtain ⟨bindings, -, h⟩ := bind_eq_ok.1 h
    obtain ⟨scopes, -, h⟩ := bind_eq_ok.1 h
    cases h
    rfl

theorem children (h : g.Copied s scope) :
    List.Forall₂ g.Copied (g.children s) scope.children := by
  obtain ⟨fuel, h⟩ := h
  cases fuel with
  | zero => cases h
  | succ fuel =>
    obtain ⟨range, -, h⟩ := bind_eq_ok.1 h
    obtain ⟨bindings, -, h⟩ := bind_eq_ok.1 h
    obtain ⟨scopes, hscopes, h⟩ := bind_eq_ok.1 h
    cases h
    exact (mapM_eq_ok.1 hscopes).imp fun _ _ hcopy => ⟨fuel, hcopy⟩

end Copied

theorem exists_getElem?_of_forall₂ {α β : Type} {R : α → β → Prop} {xs : List α} {ys : List β}
    {x : α} {k : Nat} (h : List.Forall₂ R xs ys) (hx : xs[k]? = some x) :
    ∃ y, ys[k]? = some y ∧ R x y := by
  obtain ⟨hk, rfl⟩ := List.getElem?_eq_some_iff.1 hx
  have hlt : k < ys.length := h.length_eq ▸ hk
  exact ⟨ys[k], List.getElem?_eq_getElem hlt, h.get hk hlt⟩

theorem exists_of_forall₂_left {α β : Type} {R : α → β → Prop} {xs : List α} {ys : List β} {x : α}
    (h : List.Forall₂ R xs ys) (hx : x ∈ xs) : ∃ y ∈ ys, R x y := by
  obtain ⟨k, hk⟩ := List.mem_iff_getElem?.1 hx
  obtain ⟨y, hy, hxy⟩ := exists_getElem?_of_forall₂ h hk
  exact ⟨y, List.mem_iff_getElem?.2 ⟨k, hy⟩, hxy⟩

theorem kind_of_toBinding {entry : Entry} {b : Binding} (h : entry.toBinding = .ok b) :
    b.kind = entry.kind := by
  obtain ⟨declarations, -, h⟩ := bind_eq_ok.1 h
  obtain ⟨refs, -, h⟩ := bind_eq_ok.1 h
  cases h
  rfl

/-- The tree has a copy of the scope that binds the name to this binding. -/
def Displays (g : Graph) (tree : Scope) (s : ScopeId) (name : Scalar) (b : Binding) : Prop :=
  ∃ scope ∈ tree.walk, g.Copied s scope ∧ ∃ x ∈ scope.bindings, x.1.key = name.key ∧ x.2 = b

/-- The scope in which a binding of the scope `s` shows: a layer that is not kept hands its
bindings on to the two scopes around it. -/
def shownIn (g : Graph) (kept : Bool) (s : ScopeId) (e : EntryId) : ScopeId :=
  if s = 2 && !kept then g.heir 0 1 e else s

theorem exists_displays (htree : g.tree 0 = .ok tree) (hs : s ∈ g.inside g.nextScope 0)
    (hfind : g.find? s name = some e) :
    ∃ b, (g.entry e).toBinding = .ok b ∧ g.Displays tree s name b := by
  obtain ⟨scope, hscope, hcopied⟩ := exists_of_forall₂_left (forall₂_copied htree) hs
  have hbound : ((g.draft s).bindings.find? fun x => x.1.key == name.key).map (·.2) = some e :=
    hfind
  obtain ⟨x, hx, rfl⟩ := Option.map_eq_some_iff.1 hbound
  obtain ⟨y, hy, hname, hbinding⟩ :=
    exists_of_forall₂_left hcopied.shows (List.mem_of_find?_eq_some hx)
  have hkey : x.1.key = name.key := by simpa using List.find?_some hx
  exact ⟨y.2, hbinding, scope, hscope, hcopied, y, hy, hname ▸ hkey, rfl⟩

end Graph

/-- Dissolving a layer leaves headings alone. -/
theorem Graph.heading_dissolveLayer {g : Graph} {root lexical layer s : ScopeId}
    (h : lexical < g.nextScope) :
    ((g.dissolveLayer root lexical layer).draft s).heading = (g.draft s).heading := by
  rw [Draft.heading, draft_dissolveLayer h, Draft.heading]

/-! ## Programs -/

namespace Finished

open LexicalScopes.Graph

variable {loc : Json} {final : Builder} {generated : Bool} {g : Graph} {s : ScopeId} {name : Scalar}
  {e : EntryId} {tree : Scope} {os : List Outline}

/-- The module layer is kept as it is, or it is dissolved. -/
theorem settle_eq (h : Finished loc final)
    (hg : final.graph.settle 0 final.isModule generated = .ok g) :
    g = if final.graph.keepsModule 0 final.isModule generated then final.graph
      else final.graph.dissolveLayer 0 1 2 := by
  rw [Graph.settle] at hg
  split at hg
  · cases hg
    rw [if_pos ‹_›]
  · rw [h.stacked.dissolve_eq] at hg
    cases hg
    rw [if_neg ‹_›]

section Settle

variable (h : Finished loc final) (hg : final.graph.settle 0 final.isModule generated = .ok g)

include h hg

/-- Settling a graph leaves headings alone. -/
theorem heading_settle : (g.draft s).heading = (final.graph.draft s).heading := by
  rw [h.settle_eq hg]
  split
  · rfl
  · exact heading_dissolveLayer h.layered.one_lt

/-- The scopes of the settled graph are all scopes but a layer that is not kept. -/
theorem mem_inside_settle (hnumbered : Numbered final.graph (some 2) 3 os final.graph.nextScope) :
    s ∈ g.inside g.nextScope 0 ↔
      s < final.graph.nextScope ∧
        (s = 2 → final.graph.keepsModule 0 final.isModule generated = true) := by
  have hforest := h.sound.valid.forest
  have hthree := h.layered.three_le
  rw [h.nextScope_settle hg, h.settle_eq hg]
  -- The layers come first, and the others have the numbers after them.
  cases hkeeps : final.graph.keepsModule 0 final.isModule generated with
  | true =>
    have hnumbers : ∀ s n : Nat, 3 ≤ n →
        (s = 0 ∨ s = 1 ∨ s = 2 ∨ 3 ≤ s ∧ s < 3 + (n - 3) ↔ s < n) := by omega
    rw [if_pos rfl, inside_root hforest h.layered hnumbered]
    simpa only [List.mem_cons, List.mem_range'_1, implies_true, and_true] using hnumbers _ _ hthree
  | false =>
    have hnumbers : ∀ s n : Nat, 3 ≤ n →
        (s = 0 ∨ s = 1 ∨ 3 ≤ s ∧ s < 3 + (n - 3) ↔ s < n ∧ ¬ s = 2) := by omega
    rw [if_neg Bool.false_ne_true, inside_dissolveLayer hforest h.layered hnumbered]
    simpa only [List.mem_cons, List.mem_range'_1, Bool.false_eq_true, imp_false] using
      hnumbers _ _ hthree

/-- What an inner scope binds, the scope in which it shows binds. -/
theorem find?_shownIn (hle : 2 ≤ s) (hfind : final.graph.find? s name = some e) :
    g.find? (final.graph.shownIn (final.graph.keepsModule 0 final.isModule generated) s e) name =
      some e := by
  rw [h.settle_eq hg, shownIn]
  cases hkeeps : final.graph.keepsModule 0 final.isModule generated with
  | true => simpa using hfind
  | false =>
    rcases Nat.eq_or_lt_of_le hle with rfl | hlt
    · simp [h.stacked.find?_eq, hfind, Option.filter]
    · have hne : s ≠ 2 := Nat.ne_of_gt hlt
      simpa [hne] using (h.stacked.find?_eq_of_lt hlt).trans hfind

theorem shownIn_mem_inside (hnumbered : Numbered final.graph (some 2) 3 os final.graph.nextScope)
    (hlt : s < final.graph.nextScope) :
    final.graph.shownIn (final.graph.keepsModule 0 final.isModule generated) s e ∈
      g.inside g.nextScope 0 := by
  rw [h.mem_inside_settle hg hnumbered, shownIn]
  cases hkeeps : final.graph.keepsModule 0 final.isModule generated with
  | true => simpa using hlt
  | false =>
    rcases Decidable.em (s = 2) with rfl | hs
    · rcases heir_cases (g := final.graph) (e := e) 0 1 with heir | heir
      · simpa [heir] using h.layered.zero_lt
      · simpa [heir] using h.layered.one_lt
    · simpa [hs] using hlt

/-- What an inner scope binds shows in the tree. -/
theorem exists_displays (hnumbered : Numbered final.graph (some 2) 3 os final.graph.nextScope)
    (htree : g.tree 0 = .ok tree) (hle : 2 ≤ s) (hlt : s < final.graph.nextScope)
    (hfind : final.graph.find? s name = some e) :
    ∃ b, (final.graph.entry e).toBinding = .ok b ∧
      g.Displays tree (final.graph.shownIn (final.graph.keepsModule 0 final.isModule generated) s e)
        name b := by
  rw [← h.entry_settle hg]
  exact Graph.exists_displays htree (h.shownIn_mem_inside hg hnumbered hlt)
    (h.find?_shownIn hg hle hfind)

end Settle

end Finished

end LexicalScopes
