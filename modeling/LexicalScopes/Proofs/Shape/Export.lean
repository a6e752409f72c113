import LexicalScopes.Proofs.Graph.Dissolve
import LexicalScopes.Proofs.Shape.Numbering

/-!
# The tree of a numbered outline

A graph whose scopes are numbered like an outline has, at every scope, the part of the outline that
starts there. Copying the graph into a tree then gives back the outline, also after the module layer
is dissolved.
-/

namespace LexicalScopes

namespace Graph

variable {g g' : Graph} {parent : Option ScopeId} {n m k : Nat} {s t : ScopeId}
  {ss : List ScopeId} {os : List Outline} {fuel : Nat}

/-! ## Scopes between two numbers -/

/-- The scopes from `n` on up to `m` that lie directly in `parent`. -/
def within (g : Graph) (parent : Option ScopeId) (n m : Nat) : List ScopeId :=
  (List.range' n (m - n)).filter fun s => g.parent? s = parent

/-- The numbers up to `m` and those from `m` on. -/
theorem range'_append (hnm : n ≤ m) (hmk : m ≤ k) :
    List.range' n (k - n) = List.range' n (m - n) ++ List.range' m (k - m) := by
  have happend := @List.range'_append_1 n (m - n) (k - m)
  rw [Nat.add_sub_cancel' hnm, Nat.add_comm, Nat.sub_add_sub_cancel hmk hnm] at happend
  exact happend.symm

theorem within_append (hnm : n ≤ m) (hmk : m ≤ k) :
    g.within parent n k = g.within parent n m ++ g.within parent m k := by
  rw [within, range'_append hnm hmk, List.filter_append]
  rfl

theorem within_eq_nil (h : ∀ s, n ≤ s → s < m → g.parent? s ≠ parent) :
    g.within parent n m = [] := by
  rw [within, List.filter_eq_nil_iff]
  intro s hs
  obtain ⟨hle, hlt⟩ := List.mem_range'_1.1 hs
  simpa using h s hle (by omega)

theorem within_succ (h : g.parent? n = parent) : g.within parent n (n + 1) = [n] := by
  rw [within, Nat.add_sub_cancel_left, List.range'_one, List.filter_singleton, h]
  simp

theorem Forest.children_eq_within (hg : g.Forest) (hs : s < g.nextScope) :
    g.children s = g.within (some s) 0 g.nextScope := by
  rw [hg.children_eq s hs, within, List.range_eq_range', Nat.sub_zero]

/-- The scopes from `n` on up to `m` lie in a scope made before, or in each other, and hold no scope
made later. -/
structure Segment (g : Graph) (parent : Option ScopeId) (n m : Nat) : Prop where
  parent_lt : ∀ q, parent = some q → q < n
  le_nextScope : m ≤ g.nextScope
  closed : ∀ s q, g.parent? s = some q → n ≤ q → q < m → s < m

/-! ## Outlines in a graph -/

mutual

/-- From `s` on inwards the scopes are those of the outline. -/
def Has (g : Graph) : ScopeId → Outline → Prop
  | s, .mk heading children =>
    (g.draft s).type = heading.type ∧ (g.draft s).name = heading.name ∧
      (g.draft s).loc = heading.loc ∧ HasAll g (g.children s) children

def HasAll (g : Graph) : List ScopeId → List Outline → Prop
  | [], [] => True
  | s :: ss, o :: os => Has g s o ∧ HasAll g ss os
  | _, _ => False

end

end Graph

open LexicalScopes.Graph

variable {g g' : Graph} {parent : Option ScopeId} {n m k : Nat} {s t : ScopeId}
  {ss : List ScopeId} {os : List Outline} {fuel : Nat}

/-- A numbered scope lies in the scope around all of them, or in one of them. -/
theorem Numbered.parent?_eq (h : Numbered g parent n os m) (hle : n ≤ s) (hlt : s < m) :
    g.parent? s = parent ∨ ∃ q, g.parent? s = some q ∧ n ≤ q := by
  induction h with
  | nil => exact absurd hlt (Nat.not_lt.2 hle)
  | @cons parent n m k heading children rest hn hheader hchildren hrest ih ih' =>
    -- The scope is the first one, one inside it, or one beside it.
    rcases Nat.eq_or_lt_of_le hle with heq | hgt
    · left
      rw [← heq, parent?_eq_header, hheader]
    · rcases Nat.lt_or_ge s m with hs | hs
      · right
        rcases ih hgt hs with hparent | ⟨q, hq, hnq⟩
        · exact ⟨n, hparent, Nat.le_refl n⟩
        · exact ⟨q, hq, Nat.le_of_succ_le hnq⟩
      · rcases ih' hs hlt with hparent | ⟨q, hq, hmq⟩
        · exact .inl hparent
        · exact .inr ⟨q, hq, Nat.le_trans (Nat.le_of_succ_le hchildren.le) hmq⟩

namespace Graph.Segment

variable {heading : Heading} {children rest : List Outline}

/-- What is numbered after the first outline lies around it or beside it. -/
theorem parent_ge (h : g.Segment parent n k) (hrest : Numbered g parent m rest k) {q : ScopeId}
    (hs : m ≤ s) (hq : g.parent? s = some q) (hnq : n ≤ q) : m ≤ q := by
  rcases Nat.lt_or_ge q m with hqm | hmq
  · have hsk := h.closed s q hq hnq (Nat.lt_of_lt_of_le hqm hrest.le)
    rcases hrest.parent?_eq hs hsk with heq | ⟨q', hq', hmq'⟩
    · exact absurd (h.parent_lt q (heq.symm.trans hq)) (Nat.not_lt.2 hnq)
    · rw [hq] at hq'
      cases hq'
      exact hmq'
  · exact hmq

theorem inner (h : g.Segment parent n k) (hrest : Numbered g parent m rest k) :
    g.Segment (some n) (n + 1) m where
  parent_lt q hq := by
    cases hq
    exact Nat.lt_succ_self n
  le_nextScope := Nat.le_trans hrest.le h.le_nextScope
  closed s q hq hnq hqm := by
    rcases Nat.lt_or_ge s m with hs | hs
    · exact hs
    · have hmq := h.parent_ge hrest hs hq (Nat.le_of_succ_le hnq)
      exact absurd hqm (Nat.not_lt.2 hmq)

theorem later (h : g.Segment parent n k) (hchildren : Numbered g (some n) (n + 1) children m) :
    g.Segment parent m k where
  parent_lt q hq := Nat.lt_of_lt_of_le (h.parent_lt q hq) (Nat.le_of_succ_le hchildren.le)
  le_nextScope := h.le_nextScope
  closed s q hq hmq hqk := h.closed s q hq (Nat.le_trans (Nat.le_of_succ_le hchildren.le) hmq) hqk

/-- The scope of the first outline comes first. -/
theorem within_eq (h : g.Segment parent n k) (hparent : g.parent? n = parent)
    (hchildren : Numbered g (some n) (n + 1) children m) (hrest : Numbered g parent m rest k) :
    g.within parent n k = n :: g.within parent m k := by
  -- Between the first scope and the next one beside it all scopes lie deeper.
  have hmiddle : g.within parent (n + 1) m = [] := by
    apply within_eq_nil
    intro s hle hlt heq
    rcases hchildren.parent?_eq hle hlt with hs | ⟨q, hs, hnq⟩
    · exact absurd (h.parent_lt n (heq.symm.trans hs)) (Nat.lt_irrefl n)
    · exact absurd (h.parent_lt q (heq.symm.trans hs)) (Nat.not_lt.2 (Nat.le_of_succ_le hnq))
  rw [within_append (Nat.le_succ n) (Nat.le_trans hchildren.le hrest.le), within_succ hparent,
    within_append hchildren.le hrest.le, hmiddle]
  rfl

/-- The children of the first scope are numbered right after it. -/
theorem children_eq (h : g.Segment parent n k) (hg : g.Forest) (hn : n < g.nextScope)
    (hchildren : Numbered g (some n) (n + 1) children m) (hrest : Numbered g parent m rest k) :
    g.children n = g.within (some n) (n + 1) m := by
  -- A child has a number after its parent, and none after the parent's segment.
  have hbefore : g.within (some n) 0 (n + 1) = [] := by
    apply within_eq_nil
    intro s _ hlt heq
    exact absurd (hg.parent_lt s n heq) (Nat.not_lt.2 (Nat.le_of_lt_succ hlt))
  have hafter : g.within (some n) m g.nextScope = [] := by
    apply within_eq_nil
    intro s hle _ heq
    have hmn := h.parent_ge hrest hle heq (Nat.le_refl n)
    exact absurd hmn (Nat.not_le.2 hchildren.le)
  rw [hg.children_eq_within hn, within_append (Nat.zero_le (n + 1)) hn, hbefore,
    within_append hchildren.le (Nat.le_trans hrest.le h.le_nextScope), hafter, List.append_nil,
    List.nil_append]

end Graph.Segment

/-- The graph has the outlines whose scopes it has numbered. -/
theorem Numbered.hasAll (h : Numbered g parent n os m) (hg : g.Forest)
    (hsegment : g.Segment parent n m) : g.HasAll (g.within parent n m) os := by
  induction h with
  | nil =>
    rw [within, Nat.sub_self]
    trivial
  | @cons parent n m k heading children rest hn hheader hchildren hrest ih ih' =>
    have hparent : g.parent? n = parent := by rw [parent?_eq_header, hheader]
    rw [hsegment.within_eq hparent hchildren hrest]
    refine ⟨?_, ih' (hsegment.later hchildren)⟩
    rw [Has, hsegment.children_eq hg hn hchildren hrest]
    exact ⟨congrArg Header.type hheader, congrArg Header.name hheader,
      congrArg Header.loc hheader, ih (hsegment.inner hrest)⟩

/-! ## Copying -/

/-- Copying scopes that have the outlines gives the trees of the outlines, with names. -/
theorem toScopes_of_hasAll {trees : List Scope}
    (hone : ∀ s o tree, g.treeFrom fuel s = .ok tree → g.Has s o → o.toScope = .ok tree.bare)
    (h : ss.mapM (g.treeFrom fuel) = .ok trees) (hhas : g.HasAll ss os) :
    Outline.toScopes os = .ok (Scope.bareAll trees) := by
  induction ss generalizing os trees with
  | nil =>
    cases h
    cases os with
    | nil => rfl
    | cons o os => cases hhas
  | cons s ss ih =>
    cases os with
    | nil => cases hhas
    | cons o os =>
      rw [List.mapM_cons] at h
      obtain ⟨tree, htree, h⟩ := bind_eq_ok.1 h
      obtain ⟨rest, hrest, h⟩ := bind_eq_ok.1 h
      cases h
      rw [Outline.toScopes, hone s o tree htree hhas.1, ok_bind, ih hrest hhas.2]
      rfl

theorem toScope_of_has {o : Outline} {tree : Scope} (h : g.treeFrom fuel s = .ok tree)
    (hhas : g.Has s o) : o.toScope = .ok tree.bare := by
  induction fuel generalizing s o tree with
  | zero => cases h
  | succ fuel ih =>
    obtain ⟨heading, children⟩ := o
    obtain ⟨htype, hname, hloc, hchildren⟩ := hhas
    obtain ⟨range, hrange, h⟩ := bind_eq_ok.1 h
    obtain ⟨bindings, -, h⟩ := bind_eq_ok.1 h
    obtain ⟨scopes, hscopes, h⟩ := bind_eq_ok.1 h
    cases h
    have hbelow := toScopes_of_hasAll (fun s o tree => ih) hscopes hchildren
    rw [Outline.toScope, ← hloc, hrange, ok_bind, hbelow, ok_bind, ← htype, ← hname]
    rfl

/-! ## Changes elsewhere -/

/-- What a scope shows of itself, apart from its names. -/
structure Graph.SameScope (g g' : Graph) (s : ScopeId) : Prop where
  type_eq : (g'.draft s).type = (g.draft s).type
  name_eq : (g'.draft s).name = (g.draft s).name
  loc_eq : (g'.draft s).loc = (g.draft s).loc
  children_eq : g'.children s = g.children s

mutual

/-- Scopes that show the same of themselves, and hold only such scopes, have the same outlines. -/
theorem Graph.Has.transfer {same : ScopeId → Prop} (hsame : ∀ t, same t → g.SameScope g' t)
    (hchild : ∀ t, same t → ∀ c ∈ g.children t, same c) :
    ∀ (o : Outline) {s : ScopeId}, same s → g.Has s o → g'.Has s o
  | .mk heading children, s, hs, hhas => by
    obtain ⟨htype, hname, hloc, hchildren⟩ := hhas
    have hscope := hsame s hs
    refine ⟨hscope.type_eq.trans htype, hscope.name_eq.trans hname, hscope.loc_eq.trans hloc, ?_⟩
    rw [hscope.children_eq]
    exact Graph.HasAll.transfer hsame hchild children (hchild s hs) hchildren

theorem Graph.HasAll.transfer {same : ScopeId → Prop} (hsame : ∀ t, same t → g.SameScope g' t)
    (hchild : ∀ t, same t → ∀ c ∈ g.children t, same c) :
    ∀ (os : List Outline) {ss : List ScopeId}, (∀ s ∈ ss, same s) → g.HasAll ss os →
      g'.HasAll ss os
  | [], [], _, _ => trivial
  | [], _ :: _, _, hhas => hhas.elim
  | _ :: _, [], _, hhas => hhas.elim
  | o :: os, s :: _, hss, hhas =>
    ⟨Graph.Has.transfer hsame hchild o (hss s List.mem_cons_self) hhas.1,
      Graph.HasAll.transfer hsame hchild os (fun t ht => hss t (List.mem_cons_of_mem _ ht)) hhas.2⟩

end

end LexicalScopes
