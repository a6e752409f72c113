import LexicalScopes.Proofs.Containment
import LexicalScopes.Scope.Cursor

/-!
# Searching for a location

At every level the search for a location follows the first child that contains it. In the graph that
a tree is copied from it leads along one chain from the outermost scope inwards. The names that can
be used at the location are the names that this chain binds, each with the binding that it leads to
from the innermost scope of the chain.
-/

namespace LexicalScopes

namespace Graph

variable {g : Graph} {l : Location} {s t c : ScopeId} {path : List ScopeId}

/-! ## The search in the graph -/

/-- The scope contains the location. -/
def holds (g : Graph) (l : Location) (s : ScopeId) : Except Fault Bool := do
  (← Range.ofLoc (g.draft s).loc).contains l

/-- From `s` inwards the search for a location leads along these scopes, the innermost first. -/
inductive Leads (g : Graph) (l : Location) : ScopeId → List ScopeId → Prop where
  | stop {s : ScopeId} (hnone : ∀ c ∈ g.children s, g.holds l c = .ok false) : Leads g l s [s]
  | follow {s c : ScopeId} {before after path : List ScopeId}
      (hchildren : g.children s = before ++ c :: after)
      (hbefore : ∀ t ∈ before, g.holds l t = .ok false) (hc : g.holds l c = .ok true)
      (h : Leads g l c path) : Leads g l s (path ++ [s])

namespace Leads

theorem holds_of_mem (h : g.Leads l s path) (ht : t ∈ path) (hne : t ≠ s) :
    g.holds l t = .ok true := by
  induction h with
  | stop hnone => exact absurd (List.mem_singleton.1 ht) hne
  | @follow s c before after path hchildren hbefore hc h ih =>
    rcases List.mem_append.1 ht with ht | ht
    · rcases Decidable.em (t = c) with rfl | htc
      · exact hc
      · exact ih ht htc
    · exact absurd (List.mem_singleton.1 ht) hne

theorem reaches_of_mem (h : g.Leads l s path) (ht : t ∈ path) : g.Reaches s t := by
  induction h with
  | stop hnone =>
    rw [List.mem_singleton.1 ht]
    exact .refl
  | @follow s c before after path hchildren hbefore hc h ih =>
    rcases List.mem_append.1 ht with ht | ht
    · exact .head (by simp [hchildren]) (ih ht)
    · rw [List.mem_singleton.1 ht]
      exact .refl

/-- The search goes along the chain of the scope where it stops, up to the scope where it starts. -/
theorem exists_chain_append {root : ScopeId} (h : g.Leads l s path) (hg : g.Settled root)
    (hs : g.Reaches root s) :
    ∃ d, g.Reaches root d ∧ g.chain d = path ++ (g.chain s).tail ∧
      ∀ c ∈ g.children d, g.holds l c = .ok false := by
  induction h with
  | @stop s hnone =>
    refine ⟨s, hs, ?_, hnone⟩
    rw [chain, chainFrom]
    rfl
  | @follow s c before after path hchildren hbefore hc h ih =>
    have hchild : c ∈ g.children s := by simp [hchildren]
    obtain ⟨d, hd, hchain, hnone⟩ := ih (hs.tail hchild)
    refine ⟨d, hd, ?_, hnone⟩
    rw [hchain, chain_of_parent?_eq_some hg.ranked (hg.parent?_of_mem_children hs hchild),
      List.tail_cons, List.append_assoc, List.singleton_append, chain, chainFrom, List.tail_cons]

/-- From the outermost scope the search goes along the whole chain of the scope where it stops. -/
theorem exists_chain (h : g.Leads l 0 path) (hg : g.Settled 0) :
    ∃ d, g.Reaches 0 d ∧ g.chain d = path ∧ ∀ c ∈ g.children d, g.holds l c = .ok false := by
  obtain ⟨d, hd, hchain, hnone⟩ := h.exists_chain_append hg .refl
  rw [chain_of_parent?_eq_none hg.parent_root, List.tail_cons, List.append_nil] at hchain
  exact ⟨d, hd, hchain, hnone⟩

end Leads

/-! ## The search in the tree -/

/-- It is decided for every scope whether it contains the location. -/
def Decides (g : Graph) (l : Location) : Prop :=
  ∀ s range, Range.ofLoc (g.draft s).loc = .ok range → ∃ b, range.contains l = .ok b

/-- The scope of a tree is the copy of a scope of the graph. -/
def Copied (g : Graph) (s : ScopeId) (scope : Scope) : Prop := ∃ fuel, g.treeFrom fuel s = .ok scope

/-- The search for a location in the tree meets the copies of these scopes. -/
structure Meets (g : Graph) (tree : Scope) (l : Location) (path : List ScopeId) : Prop where
  leads : g.Leads l 0 path
  enclosing : ∃ found, tree.enclosing l = .ok found ∧ List.Forall₂ g.Copied path found

section Copies

variable {fuel : Nat} {tree : Scope} {scopes : List Scope} {ts : List ScopeId}

theorem reaches_of_mem_inside (h : t ∈ g.inside fuel s) : g.Reaches s t := by
  induction fuel generalizing s with
  | zero => cases h
  | succ fuel ih =>
    rw [inside] at h
    rcases List.mem_cons.1 h with rfl | h
    · exact .refl
    · obtain ⟨c, hc, h⟩ := List.mem_flatMap.1 h
      exact .head hc (ih h)

theorem holds_eq (h : g.treeFrom fuel s = .ok tree) : g.holds l s = tree.range.contains l := by
  rw [holds, range_of_treeFrom h, liftM_ok, ok_bind]

theorem Copied.shows (h : g.Copied s tree) : g.Shows s tree := by
  obtain ⟨fuel, h⟩ := h
  have hall := forall₂_shows h
  cases fuel with
  | zero => cases h
  | succ fuel =>
    rw [inside, Scope.walk_eq] at hall
    exact (List.forall₂_cons.1 hall).1

/-- Among copies the search goes on in the first one that contains the location. -/
theorem exists_first (hdecides : g.Decides l)
    (h : List.Forall₂ (fun t scope => g.treeFrom fuel t = .ok scope) ts scopes) :
    (∀ t ∈ ts, g.holds l t = .ok false) ∧ Scope.enclosingIn l scopes = .ok [] ∨
      ∃ before c after scope, ts = before ++ c :: after ∧
        (∀ t ∈ before, g.holds l t = .ok false) ∧ g.holds l c = .ok true ∧
        g.treeFrom fuel c = .ok scope ∧ Scope.enclosingIn l scopes = scope.enclosing l := by
  induction h with
  | nil => exact .inl ⟨by simp, by rw [Scope.enclosingIn]⟩
  | @cons t scope ts scopes hcopy _ ih =>
    obtain ⟨b, hb⟩ := hdecides t scope.range (range_of_treeFrom hcopy)
    have hholds : g.holds l t = .ok b := (holds_eq hcopy).trans hb
    rw [Scope.enclosingIn, hb, ok_bind]
    cases b with
    | true => exact .inr ⟨[], t, ts, scope, rfl, by simp, hholds, hcopy, rfl⟩
    | false =>
      rcases ih with ⟨hnone, hfound⟩ | ⟨before, c, after, found, rfl, hbefore, hc, hcopy', hfound⟩
      · exact .inl ⟨by simpa [hholds] using hnone, hfound⟩
      · exact .inr ⟨t :: before, c, after, found, rfl, by simpa [hholds] using hbefore, hc, hcopy',
          hfound⟩

/-- The search in the copy of a scope meets the copies of the scopes that the search leads along. -/
theorem exists_leads (hdecides : g.Decides l) (h : g.treeFrom fuel s = .ok tree) :
    ∃ path found, g.Leads l s path ∧ tree.enclosing l = .ok found ∧
      List.Forall₂ g.Copied path found := by
  induction fuel generalizing s tree with
  | zero => cases h
  | succ fuel ih =>
    have hcopied : g.Copied s tree := ⟨_, h⟩
    obtain ⟨range, -, h⟩ := bind_eq_ok.1 h
    obtain ⟨bindings, -, h⟩ := bind_eq_ok.1 h
    obtain ⟨scopes, hscopes, h⟩ := bind_eq_ok.1 h
    cases h
    rw [Scope.enclosing]
    rcases exists_first hdecides (mapM_eq_ok.1 hscopes) with
      ⟨hnone, hfound⟩ | ⟨before, c, after, scope, hchildren, hbefore, hc, hcopy, hfound⟩
    · exact ⟨[s], _, .stop hnone, by rw [hfound]; rfl, .cons hcopied .nil⟩
    · obtain ⟨path, found, hleads, hinner, hcopies⟩ := ih hcopy
      exact ⟨path ++ [s], _, .follow hchildren hbefore hc hleads, by rw [hfound, hinner]; rfl,
        List.rel_append hcopies (.cons hcopied .nil)⟩

end Copies

end Graph

/-! ## Visible names -/

namespace Scope

variable {visible seen vs : List Visible} {v : Visible} {name n : Scalar} {depth : Nat}
  {s : Scope} {scopes : List Scope}

/-- The entry of a name. -/
def lookup (visible : List Visible) (name : Scalar) : Option Visible :=
  visible.find? fun v => v.name.key == name.key

/-- The names that a scope binds, with the depth at which it stands. -/
def listed (depth : Nat) (s : Scope) : List Visible :=
  s.bindings.map fun x => ⟨x.1, depth, x.2⟩

/-- Of several entries of one name the first one counts. -/
theorem lookup_foldl_addVisible :
    lookup (vs.foldl addVisible seen) name = lookup (seen ++ vs) name := by
  induction vs generalizing seen with
  | nil => rw [List.foldl_nil, List.append_nil]
  | cons v vs ih =>
    rw [List.foldl_cons, ih, addVisible]
    split
    · rename_i hseen
      obtain ⟨w, hw, hkey⟩ := List.any_eq_true.1 hseen
      rw [lookup, lookup, List.find?_append, List.find?_append, List.find?_cons]
      split
      · -- The name has an entry already.
        rename_i hv
        have hname : w.name.key = name.key := (beq_iff_eq.1 hkey).trans (beq_iff_eq.1 hv)
        cases hfirst : seen.find? fun v => v.name.key == name.key with
        | none => exact absurd (beq_iff_eq.2 hname) (List.find?_eq_none.1 hfirst w hw)
        | some first => rfl
      · rfl
    · rw [List.append_assoc, List.singleton_append]

theorem lookup_visibleFrom_cons :
    lookup (visibleFrom depth (s :: scopes)) name =
      (lookup (s.listed depth) name).or (lookup (visibleFrom (depth + 1) scopes) name) := by
  rw [visibleFrom, visibleFrom, lookup_foldl_addVisible, lookup_foldl_addVisible, List.nil_append,
    List.nil_append, List.zipIdx_cons, List.flatMap_cons, lookup, List.find?_append]
  rfl

end Scope

/-- The name leads to the scope `s`, among those that the search has met, and to this binding. -/
def Scope.MapsTo (visible : List Scope.Visible) (path : List ScopeId) (name : Scalar) (s : ScopeId)
    (b : Binding) : Prop :=
  ∃ v, lookup visible name = some v ∧ path[v.depth]? = some s ∧ v.binding = b

namespace Graph

open Scope

variable {g : Graph} {s : ScopeId} {scope : Scope} {path : List ScopeId} {found : List Scope}
  {name : Scalar} {b : Binding}

/-- The copy of a scope lists a name if the scope binds it, with the copy of its binding. -/
theorem Shows.lookup_listed (h : g.Shows s scope) (depth : Nat) (name : Scalar) :
    lookup (scope.listed depth) name = none ∧ g.find? s name = none ∨
      ∃ v e, lookup (scope.listed depth) name = some v ∧ v.depth = depth ∧
        g.find? s name = some e ∧ (g.entry e).toBinding = .ok v.binding := by
  rw [Shows] at h
  rw [find?_eq_boundTo, listed]
  generalize (g.draft s).bindings = xs at h ⊢
  generalize scope.bindings = ys at h ⊢
  induction h with
  | nil => exact .inl ⟨rfl, rfl⟩
  | @cons x y xs ys hxy _ ih =>
    obtain ⟨hname, hbinding⟩ := hxy
    rw [boundTo_cons, List.map_cons, lookup, List.find?_cons, ← hname]
    by_cases hkey : x.1.key = name.key
    · rw [if_pos hkey, beq_iff_eq.2 hkey]
      exact .inr ⟨_, x.2, rfl, rfl, rfl, hbinding⟩
    · rw [if_neg hkey, beq_eq_false_iff_ne.2 hkey]
      exact ih

/-- A name has the entry of the first scope that binds it. -/
theorem lookup_visibleFrom (h : List.Forall₂ g.Shows path found) (depth : Nat) (name : Scalar) :
    lookup (visibleFrom depth found) name = none ∧ path.find? (g.binds · name) = none ∨
      ∃ v i s e, lookup (visibleFrom depth found) name = some v ∧ v.depth = depth + i ∧
        path[i]? = some s ∧ path.find? (g.binds · name) = some s ∧ g.find? s name = some e ∧
        (g.entry e).toBinding = .ok v.binding := by
  induction h generalizing depth with
  | nil => exact .inl ⟨rfl, rfl⟩
  | @cons s scope path found hshows _ ih =>
    rw [lookup_visibleFrom_cons, List.find?_cons, binds]
    rcases hshows.lookup_listed depth name with
      ⟨hnone, hfind⟩ | ⟨v, e, hv, hdepth, hfind, hbinding⟩
    · rw [hnone, hfind, Option.none_or, Option.isSome_none]
      rcases ih (depth + 1) with hrest | ⟨v, i, t, e, hv, hdepth, ht, hrest⟩
      · exact .inl hrest
      · refine .inr ⟨v, i + 1, t, e, hv, ?_, ?_, hrest⟩
        · rw [hdepth, Nat.add_assoc, Nat.add_comm 1 i]
        · rwa [List.getElem?_cons_succ]
    · rw [hv, Option.some_or, hfind, Option.isSome_some]
      exact .inr ⟨v, 0, s, e, rfl, hdepth, rfl, rfl, hfind, hbinding⟩

/-- A name leads to the first scope that binds it, and to the copy of the binding there. -/
theorem mapsTo_iff (h : List.Forall₂ g.Shows path found) :
    MapsTo (visibleFrom 0 found) path name s b ↔
      path.find? (g.binds · name) = some s ∧
        ∃ e, g.find? s name = some e ∧ (g.entry e).toBinding = .ok b := by
  rcases lookup_visibleFrom h 0 name with
    ⟨hnone, hfind⟩ | ⟨v, i, t, e, hv, hdepth, ht, hfind, he, hbinding⟩
  · simp [MapsTo, hnone, hfind]
  · rw [Nat.zero_add] at hdepth
    subst hdepth
    constructor
    · rintro ⟨v', hv', hs, rfl⟩
      rw [hv] at hv'
      cases hv'
      rw [ht] at hs
      cases hs
      exact ⟨hfind, e, he, hbinding⟩
    · rintro ⟨hs, e', he', hb⟩
      rw [hfind] at hs
      cases hs
      rw [he] at he'
      cases he'
      exact ⟨v, hv, ht, Except.ok.inj (hbinding.symm.trans hb)⟩

end Graph

end LexicalScopes
