import LexicalScopes.Proofs.Graph.Views
import Mathlib.Logic.Relation
import Mathlib.Data.List.Infix
import Mathlib.Data.List.Nodup

/-!
# Growth of the graph

A graph is built by adding scopes, declaring names and adding references. Along the way its scopes
stay a forest, every entry belongs to one name of one scope, and nothing that was recorded is lost.
-/

namespace LexicalScopes

/-! ## Headers -/

/-- What a scope is, apart from the names it binds. -/
structure Header where
  type : ScopeType
  name : Json
  loc : Json
  parent : Option ScopeId
deriving DecidableEq

def Draft.header (d : Draft) : Header := ⟨d.type, d.name, d.loc, d.parent⟩

namespace Graph

variable {g g' g'' : Graph} {s t : ScopeId} {name n m : Scalar} {e b : EntryId}

/-- The headers of all scopes in the order in which they were made. -/
def headers (g : Graph) : List Header := g.drafts.toList.map Draft.header

@[simp] theorem length_headers : g.headers.length = g.nextScope := by
  simp [headers, nextScope]

theorem headers_getElem? (h : s < g.nextScope) : g.headers[s]? = some (g.draft s).header := by
  simp only [nextScope] at h
  simp [headers, draft, Array.getD_eq_getD_getElem?, h]

/-- Two graphs with as many scopes have the same headers if scope by scope they do. -/
theorem headers_ext (hnext : g'.nextScope = g.nextScope)
    (h : ∀ s < g.nextScope, (g'.draft s).header = (g.draft s).header) : g'.headers = g.headers := by
  apply List.ext_getElem?
  intro s
  rcases Nat.lt_or_ge s g.nextScope with hs | hs
  · rw [headers_getElem? hs, headers_getElem? (hnext ▸ hs), h s hs]
  · rw [List.getElem?_eq_none (by rw [length_headers, hnext]; exact hs),
      List.getElem?_eq_none (by rw [length_headers]; exact hs)]

theorem headers_addScope {type : ScopeType} {label loc : Json} {parent : Option ScopeId} :
    (g.addScope type label loc parent).headers = g.headers ++ [⟨type, label, loc, parent⟩] := by
  cases parent <;> simp [headers, addScope, Draft.header]

theorem headers_declare {kind : BindingKind} {loc : Option Json} :
    (g.declare s name kind loc).headers = g.headers := by
  apply headers_ext nextScope_declare
  intro t _
  rw [draft_declare_rest]
  rfl

/-- The header of a scope decides in which scope it lies. -/
theorem parent?_eq_header : g.parent? s = (g.draft s).header.parent := rfl

/-! ## Forests -/

/-- The scopes are a forest: a scope lies inside one made before it, and the list of its children
holds exactly the scopes that lie directly inside it, in the order in which they were made. -/
structure Forest (g : Graph) : Prop where
  childLists_size : g.childLists.size = g.nextScope
  childList_eq : ∀ s < g.nextScope, (g.draft s).childList = s
  parent_lt : ∀ s p, g.parent? s = some p → p < s
  children_eq : ∀ s < g.nextScope,
    g.children s = (List.range g.nextScope).filter fun t => g.parent? t = some s

theorem Forest.empty : Forest {} where
  childLists_size := rfl
  childList_eq s hs := absurd hs (Nat.not_lt_zero s)
  parent_lt s p h := by
    rw [parent?_of_le (Nat.zero_le s)] at h
    cases h
  children_eq s hs := absurd hs (Nat.not_lt_zero s)

/-- A scope holds only scopes made after it. -/
theorem Forest.lt_of_mem_children (hg : g.Forest) (hs : s < g.nextScope) (h : t ∈ g.children s) :
    s < t ∧ t < g.nextScope := by
  rw [hg.children_eq s hs, List.mem_filter] at h
  obtain ⟨ht, hparent⟩ := h
  exact ⟨hg.parent_lt t s (of_decide_eq_true hparent), List.mem_range.1 ht⟩

/-- A change that keeps the headers and the lists of children keeps a forest. -/
theorem Forest.of_rest (hg : g.Forest) (hnext : g'.nextScope = g.nextScope)
    (hlists : g'.childLists = g.childLists)
    (hrest : ∀ s, g'.draft s = { g.draft s with bindings := (g'.draft s).bindings }) :
    g'.Forest where
  childLists_size := by rw [hlists, hnext, hg.childLists_size]
  childList_eq s hs := by
    rw [hrest]
    exact hg.childList_eq s (hnext ▸ hs)
  parent_lt s p h := by
    rw [parent?, hrest] at h
    exact hg.parent_lt s p h
  children_eq s hs := by
    have hparent : ∀ t, g'.parent? t = g.parent? t := by
      intro t
      rw [parent?, hrest]
      rfl
    have hchildren : g'.children s = g.children s := by
      rw [children, hrest, hlists]
      rfl
    simp only [hchildren, hparent, hnext]
    exact hg.children_eq s (hnext ▸ hs)

theorem childLists_declare {kind : BindingKind} {loc : Option Json} :
    (g.declare s name kind loc).childLists = g.childLists := by
  unfold declare
  cases g.find? s name with
  | none => rfl
  | some b => cases loc <;> rfl

theorem childList_declare {kind : BindingKind} {loc : Option Json} :
    ((g.declare s name kind loc).draft t).childList = (g.draft t).childList := by
  rw [draft_declare_rest]

theorem parent?_declare {kind : BindingKind} {loc : Option Json} :
    (g.declare s name kind loc).parent? t = g.parent? t := by
  rw [parent?, draft_declare_rest]
  rfl

theorem Forest.declare (hg : g.Forest) (kind : BindingKind) (loc : Option Json) :
    (g.declare s name kind loc).Forest :=
  hg.of_rest nextScope_declare childLists_declare fun t => draft_declare_rest g s t name kind loc

theorem Forest.addReference (hg : g.Forest) (o : Occurrence) : (g.addReference b o).Forest :=
  hg.of_rest rfl rfl fun _ => rfl

/-- Every scope has a list of children of its own. -/
structure OwnsLists (g : Graph) : Prop where
  stored : ∀ s < g.nextScope, (g.draft s).childList < g.childLists.size
  inj : ∀ s < g.nextScope, ∀ t < g.nextScope,
    (g.draft s).childList = (g.draft t).childList → s = t

theorem Forest.ownsLists (hg : g.Forest) : g.OwnsLists where
  stored s hs := by
    rw [hg.childList_eq s hs, hg.childLists_size]
    exact hs
  inj s hs t ht h := by rwa [hg.childList_eq s hs, hg.childList_eq t ht] at h

section AddScope

variable {type : ScopeType} {label loc : Json} {parent : Option ScopeId}

theorem parent?_addScope :
    (g.addScope type label loc parent).parent? s =
      if s = g.nextScope then parent else g.parent? s := by
  rw [parent?, draft_addScope]
  split <;> rfl

theorem parent_lt_addScope (hlt : ∀ s p, g.parent? s = some p → p < s)
    (hparent : ∀ p, parent = some p → p < g.nextScope) (s p : ScopeId)
    (h : (g.addScope type label loc parent).parent? s = some p) : p < s := by
  rw [parent?_addScope] at h
  split at h
  · rename_i hs
    exact hs ▸ hparent p h
  · exact hlt s p h

/-- Nothing lies in a new scope, for its number is above all parents. -/
theorem parent?_addScope_ne (hlt : ∀ s p, g.parent? s = some p → p < s)
    (hparent : ∀ p, parent = some p → p < g.nextScope) (s : ScopeId) :
    (g.addScope type label loc parent).parent? s ≠ some g.nextScope := by
  intro h
  have habove := parent_lt_addScope hlt hparent s g.nextScope h
  have hmade := lt_of_parent? h
  rw [nextScope_addScope] at hmade
  exact Nat.not_lt.2 (Nat.le_of_lt_succ hmade) habove

/-- A new scope has no children, and it comes last among those of its parent. -/
theorem OwnsLists.children_addScope (hg : g.OwnsLists)
    (hparent : ∀ p, parent = some p → p < g.nextScope) (hs : s < g.nextScope + 1) :
    (g.addScope type label loc parent).children s =
      if s = g.nextScope then []
      else if parent = some s then g.children s ++ [g.nextScope] else g.children s := by
  rw [children, draft_addScope]
  by_cases hnew : s = g.nextScope
  · rw [if_pos hnew, if_pos hnew]
    cases parent with
    | none => rw [addScope, getD_push, if_pos rfl]
    | some p => rw [addScope, getD_push, Array.size_modify, if_pos rfl]
  · -- An old scope keeps its list, to which the parent has the new scope appended.
    rw [if_neg hnew, if_neg hnew]
    have hlt : s < g.nextScope := Nat.lt_of_le_of_ne (Nat.le_of_lt_succ hs) hnew
    have hstored := hg.stored s hlt
    cases parent with
    | none =>
      rw [addScope, getD_push, if_neg (Nat.ne_of_lt hstored), if_neg (by simp)]
      rfl
    | some p =>
      rw [addScope, getD_push, Array.size_modify, if_neg (Nat.ne_of_lt hstored), getD_modify]
      by_cases hps : p = s
      · rw [hps, if_pos ⟨rfl, hstored⟩, if_pos rfl]
        rfl
      · have hlist : (g.draft p).childList ≠ (g.draft s).childList := by
          intro h
          exact hps (hg.inj p (hparent p rfl) s hlt h)
        rw [if_neg (fun h => hlist h.1), if_neg (by simpa using hps)]
        rfl

theorem Forest.addScope (hg : g.Forest) (hparent : ∀ p, parent = some p → p < g.nextScope) :
    (g.addScope type label loc parent).Forest where
  childLists_size := by rw [childLists_size_addScope, nextScope_addScope, hg.childLists_size]
  childList_eq s hs := by
    rw [nextScope_addScope] at hs
    rw [draft_addScope]
    split
    · rename_i h
      rw [h, hg.childLists_size]
    · rename_i h
      exact hg.childList_eq s (Nat.lt_of_le_of_ne (Nat.le_of_lt_succ hs) h)
  parent_lt := parent_lt_addScope hg.parent_lt hparent
  children_eq s hs := by
    rw [nextScope_addScope] at hs ⊢
    rw [hg.ownsLists.children_addScope hparent hs]
    by_cases hnew : s = g.nextScope
    · rw [if_pos hnew, hnew, eq_comm, List.filter_eq_nil_iff]
      intro t _ h
      exact parent?_addScope_ne hg.parent_lt hparent t (of_decide_eq_true h)
    · -- Among the old scopes the same ones lie in `s` as before.
      have hold : ((List.range g.nextScope).filter fun t =>
          (g.addScope type label loc parent).parent? t = some s) =
            (List.range g.nextScope).filter fun t => g.parent? t = some s := by
        apply List.filter_congr
        intro t ht
        rw [parent?_addScope, if_neg (Nat.ne_of_lt (List.mem_range.1 ht))]
      rw [if_neg hnew, hg.children_eq s (Nat.lt_of_le_of_ne (Nat.le_of_lt_succ hs) hnew),
        List.range_succ, List.filter_append, hold, List.filter_singleton, parent?_addScope,
        if_pos rfl]
      by_cases hp : parent = some s <;> simp [hp]

end AddScope

/-! ## Entries -/

/-- Every entry belongs to exactly one name of one scope, and no scope lists a name twice. -/
structure OwnsEntries (g : Graph) : Prop where
  distinct : ∀ s, ((g.draft s).bindings.map (·.1.key)).Nodup
  lt_of_find? : ∀ s n e, g.find? s n = some e → e < g.entries.size
  exists_find? : ∀ e < g.entries.size, ∃ s n, g.find? s n = some e
  find?_inj : ∀ s t n m e, g.find? s n = some e → g.find? t m = some e → s = t ∧ n.key = m.key

/-- No two names share an entry, and no scope lists a name twice. -/
structure Unshared (g : Graph) : Prop where
  distinct : ∀ s, ((g.draft s).bindings.map (·.1.key)).Nodup
  lt_of_find? : ∀ s n e, g.find? s n = some e → e < g.entries.size
  find?_inj : ∀ s t n m e, g.find? s n = some e → g.find? t m = some e → s = t ∧ n.key = m.key

theorem OwnsEntries.unshared (hg : g.OwnsEntries) : g.Unshared :=
  ⟨hg.distinct, hg.lt_of_find?, hg.find?_inj⟩

theorem OwnsEntries.empty : OwnsEntries {} where
  distinct s := by
    rw [draft_of_le (Nat.zero_le s)]
    exact List.nodup_nil
  lt_of_find? s n e h := by
    rw [find?_of_le (Nat.zero_le s)] at h
    cases h
  exists_find? e he := absurd he (Nat.not_lt_zero e)
  find?_inj s t n m e h := by
    rw [find?_of_le (Nat.zero_le s)] at h
    cases h

/-- A change that keeps what every scope binds shares no entry. -/
theorem Unshared.of_bindings (hg : g.Unshared) (hsize : g'.entries.size = g.entries.size)
    (hbindings : ∀ s, (g'.draft s).bindings = (g.draft s).bindings) : g'.Unshared := by
  have hfind : ∀ s n, g'.find? s n = g.find? s n := by
    intro s n
    rw [find?, hbindings]
    rfl
  constructor
  · intro s
    rw [hbindings]
    exact hg.distinct s
  · intro s n e h
    rw [hsize]
    exact hg.lt_of_find? s n e (hfind s n ▸ h)
  · intro s t n m e h h'
    exact hg.find?_inj s t n m e (hfind s n ▸ h) (hfind t m ▸ h')

/-- A change that keeps what every scope binds keeps the owners of the entries. -/
theorem OwnsEntries.of_bindings (hg : g.OwnsEntries) (hsize : g'.entries.size = g.entries.size)
    (hbindings : ∀ s, (g'.draft s).bindings = (g.draft s).bindings) : g'.OwnsEntries := by
  obtain ⟨hdistinct, hlt, hinj⟩ := hg.unshared.of_bindings hsize hbindings
  refine ⟨hdistinct, hlt, fun e he => ?_, hinj⟩
  obtain ⟨s, n, h⟩ := hg.exists_find? e (hsize ▸ he)
  refine ⟨s, n, ?_⟩
  rw [find?, hbindings]
  exact h

theorem bindings_addScope {type : ScopeType} {label loc : Json} {parent : Option ScopeId} :
    ((g.addScope type label loc parent).draft s).bindings = (g.draft s).bindings := by
  rw [draft_addScope]
  split
  · rename_i h
    rw [draft_of_le (Nat.le_of_eq h.symm)]
    rfl
  · rfl

theorem OwnsEntries.addScope (hg : g.OwnsEntries) (type : ScopeType) (label loc : Json)
    (parent : Option ScopeId) : (g.addScope type label loc parent).OwnsEntries :=
  hg.of_bindings rfl fun _ => bindings_addScope

theorem OwnsEntries.addReference (hg : g.OwnsEntries) (b : EntryId) (o : Occurrence) :
    (g.addReference b o).OwnsEntries :=
  hg.of_bindings (by simp [Graph.addReference]) fun _ => rfl

theorem OwnsEntries.addDeclaration (hg : g.OwnsEntries) (b : EntryId) (loc : Json) :
    (g.addDeclaration b loc).OwnsEntries :=
  hg.of_bindings (by simp [Graph.addDeclaration]) fun _ => rfl

section Declare

variable {kind : BindingKind} {loc : Option Json}

/-- A name that is declared gets an entry that no other name has. -/
theorem Unshared.declare (hg : g.Unshared) (hs : s < g.nextScope) :
    (g.declare s name kind loc).Unshared := by
  cases h : g.find? s name with
  | some b =>
    -- The name keeps its entry.
    refine hg.of_bindings ?_ fun t => by rw [draft_declare_of_find? h]
    rw [entries_size_declare, binds, h]
    rfl
  | none =>
    -- The name gets a new entry, whose number no scope uses yet.
    have hsize : (g.declare s name kind loc).entries.size = g.entries.size + 1 := by
      rw [entries_size_declare, binds, h]
      rfl
    have hnew : g.target s name = g.entries.size := by
      rw [target, h]
      rfl
    constructor
    · intro t
      by_cases hts : t = s
      · subst hts
        rw [bindings_declare_of_find?_eq_none hs h, List.map_append, List.nodup_append']
        refine ⟨hg.distinct t, List.nodup_singleton _, ?_⟩
        intro k hk hk'
        obtain ⟨x, hx, rfl⟩ := List.mem_map.1 hk
        have hkey : x.1.key = name.key := by simpa using hk'
        exact find?_eq_none_iff.1 h x hx hkey
      · rw [draft_declare_of_ne hs hts]
        exact hg.distinct t
    · intro t n e he
      rw [find?_declare hs, hnew] at he
      rw [hsize]
      split at he
      · cases he
        exact Nat.lt_succ_self _
      · exact Nat.lt_succ_of_lt (hg.lt_of_find? t n e he)
    · intro t u n m e ht hu
      rw [find?_declare hs, hnew] at ht hu
      split at ht
      · rename_i htn
        split at hu
        · rename_i hum
          exact ⟨htn.1.trans hum.1.symm, htn.2.trans hum.2.symm⟩
        · cases ht
          exact absurd (hg.lt_of_find? u m _ hu) (Nat.lt_irrefl _)
      · -- An old entry is not the new one, and old entries have one owner each.
        split at hu
        · cases hu
          exact absurd (hg.lt_of_find? t n _ ht) (Nat.lt_irrefl _)
        · exact hg.find?_inj t u n m e ht hu

/-- The entry of a name in one scope is that of no name in another one, before and after. -/
theorem Unshared.ne_target (hg : g.Unshared) (hne : t ≠ s) (he : g.find? t n = some e) :
    e ≠ g.target s name := by
  intro heq
  rw [target] at heq
  cases hfind : g.find? s name with
  | none =>
    rw [hfind, Option.getD_none] at heq
    exact Nat.ne_of_lt (hg.lt_of_find? t n e he) heq
  | some b =>
    rw [hfind, Option.getD_some] at heq
    rw [← heq] at hfind
    exact hne (hg.find?_inj t s n name e he hfind).1

theorem OwnsEntries.declare (hg : g.OwnsEntries) (hs : s < g.nextScope) (kind : BindingKind)
    (loc : Option Json) : (g.declare s name kind loc).OwnsEntries := by
  obtain ⟨hdistinct, hlt, hinj⟩ : (g.declare s name kind loc).Unshared := hg.unshared.declare hs
  refine ⟨hdistinct, hlt, fun e he => ?_, hinj⟩
  rcases Nat.lt_or_ge e g.entries.size with hold | hnew
  · obtain ⟨t, n, hfind⟩ := hg.exists_find? e hold
    refine ⟨t, n, ?_⟩
    rw [find?_declare hs]
    split
    · rename_i htn
      obtain ⟨rfl, hn⟩ := htn
      rw [target, ← find?_congr hn, hfind]
      rfl
    · exact hfind
  · -- The only entry that the graph did not have is the one of the declared name.
    refine ⟨s, name, ?_⟩
    rw [entries_size_declare, binds] at he
    rw [find?_declare_self hs, target]
    cases h : g.find? s name with
    | some b =>
      rw [h] at he
      exact absurd he (Nat.not_lt.2 hnew)
    | none =>
      rw [h] at he
      rw [Nat.le_antisymm (Nat.le_of_lt_succ he) hnew]
      rfl

end Declare

/-! ## Extensions -/

/-- What is in `g` is in `g'` as well, unchanged or extended at the end, and outside of the touched
scopes nothing is declared. -/
structure Extends (touched : ScopeId → Prop) (g g' : Graph) : Prop where
  headers : g.headers <+: g'.headers
  bindings : ∀ s, (g.draft s).bindings <+: (g'.draft s).bindings
  entries_le : g.entries.size ≤ g'.entries.size
  kind : ∀ e < g.entries.size, (g'.entry e).kind = (g.entry e).kind
  declarations : ∀ e, (g.entry e).declarations <+: (g'.entry e).declarations
  refs : ∀ e, (g'.entry e).refs = (g.entry e).refs
  bindings_eq : ∀ s, ¬touched s → (g'.draft s).bindings = (g.draft s).bindings
  entry_eq : ∀ s n e, ¬touched s → g.find? s n = some e → g'.entry e = g.entry e

namespace Extends

variable {touched touched' : ScopeId → Prop}

theorem refl (touched : ScopeId → Prop) (g : Graph) : Extends touched g g where
  headers := List.prefix_refl _
  bindings _ := List.prefix_refl _
  entries_le := Nat.le_refl _
  kind _ _ := rfl
  declarations _ := List.prefix_refl _
  refs _ := rfl
  bindings_eq _ _ := rfl
  entry_eq _ _ _ _ _ := rfl

theorem trans (h : Extends touched g g') (h' : Extends touched g' g'') :
    Extends touched g g'' where
  headers := h.headers.trans h'.headers
  bindings s := (h.bindings s).trans (h'.bindings s)
  entries_le := Nat.le_trans h.entries_le h'.entries_le
  kind e he := (h'.kind e (Nat.lt_of_lt_of_le he h.entries_le)).trans (h.kind e he)
  declarations e := (h.declarations e).trans (h'.declarations e)
  refs e := (h'.refs e).trans (h.refs e)
  bindings_eq s hs := (h'.bindings_eq s hs).trans (h.bindings_eq s hs)
  entry_eq s n e hs he := by
    have he' : g'.find? s n = some e := by rwa [find?, h.bindings_eq s hs]
    exact (h'.entry_eq s n e hs he').trans (h.entry_eq s n e hs he)

theorem mono (h : Extends touched g g') (hsub : ∀ s, touched s → touched' s) :
    Extends touched' g g' where
  headers := h.headers
  bindings := h.bindings
  entries_le := h.entries_le
  kind := h.kind
  declarations := h.declarations
  refs := h.refs
  bindings_eq s hs := h.bindings_eq s fun ht => hs (hsub s ht)
  entry_eq s n e hs he := h.entry_eq s n e (fun ht => hs (hsub s ht)) he

end Extends

theorem extends_addScope {touched : ScopeId → Prop} {type : ScopeType} {label loc : Json}
    {parent : Option ScopeId} : Extends touched g (g.addScope type label loc parent) where
  headers := by
    rw [headers_addScope]
    exact List.prefix_append _ _
  bindings _ := by rw [bindings_addScope]
  entries_le := Nat.le_refl _
  kind _ _ := rfl
  declarations _ := List.prefix_refl _
  refs _ := rfl
  bindings_eq _ _ := bindings_addScope
  entry_eq _ _ _ _ _ := rfl

theorem extends_declare {kind : BindingKind} {loc : Option Json} (hg : g.Unshared)
    (hs : s < g.nextScope) :
    Extends (· = s) g (g.declare s name kind loc) where
  headers := by rw [headers_declare]
  bindings t := by
    cases h : g.find? s name with
    | some b => rw [draft_declare_of_find? h]
    | none =>
      rcases Decidable.em (t = s) with rfl | hts
      · rw [bindings_declare_of_find?_eq_none hs h]
        exact List.prefix_append _ _
      · rw [draft_declare_of_ne hs hts]
  entries_le := by
    rw [entries_size_declare]
    split
    · exact Nat.le_refl _
    · exact Nat.le_succ _
  kind e he := kind_declare (hg.lt_of_find? s name) he
  declarations e := by
    rw [declarations_declare (hg.lt_of_find? s name)]
    exact List.prefix_append _ _
  refs e := refs_declare
  bindings_eq t ht := by rw [draft_declare_of_ne hs ht]
  entry_eq t n e ht he := entry_declare_of_ne (hg.ne_target ht he)

/-! ## Steps -/

/-- One addition to a graph, made in a scope and to an entry that the graph has. -/
inductive Step (g : Graph) : Graph → Prop where
  | addScope {parent : Option ScopeId} (type : ScopeType) (label loc : Json)
      (h : ∀ p, parent = some p → p < g.nextScope) : Step g (g.addScope type label loc parent)
  | declare {s : ScopeId} (name : Scalar) (kind : BindingKind) (loc : Option Json)
      (h : s < g.nextScope) : Step g (g.declare s name kind loc)
  | addReference {s : ScopeId} {name : Scalar} {e : EntryId} (o : Occurrence)
      (h : g.find? s name = some e) : Step g (g.addReference e o)

/-- Any number of additions. -/
abbrev Steps : Graph → Graph → Prop := Relation.ReflTransGen Step

/-- A graph that additions alone have made. -/
structure Valid (g : Graph) : Prop where
  forest : g.Forest
  owns : g.OwnsEntries

theorem Valid.empty : Valid {} := ⟨.empty, .empty⟩

theorem Step.valid (h : Step g g') (hg : g.Valid) : g'.Valid := by
  cases h with
  | addScope type label loc hparent =>
    exact ⟨hg.forest.addScope hparent, hg.owns.addScope type label loc _⟩
  | declare name kind loc hs => exact ⟨hg.forest.declare kind loc, hg.owns.declare hs kind loc⟩
  | addReference o hfind => exact ⟨hg.forest.addReference o, hg.owns.addReference _ o⟩

/-- Everything in `g` is in `g'` as well, unchanged or extended at the end. -/
structure Grows (g g' : Graph) : Prop where
  headers : g.headers <+: g'.headers
  entries_le : g.entries.size ≤ g'.entries.size
  find? : ∀ s n e, g.find? s n = some e → g'.find? s n = some e
  kind : ∀ e < g.entries.size, (g'.entry e).kind = (g.entry e).kind
  declarations : ∀ e, (g.entry e).declarations <+: (g'.entry e).declarations
  refs : ∀ e, (g.entry e).refs <+: (g'.entry e).refs

namespace Grows

theorem refl (g : Graph) : Grows g g where
  headers := List.prefix_refl _
  entries_le := Nat.le_refl _
  find? _ _ _ h := h
  kind _ _ := rfl
  declarations _ := List.prefix_refl _
  refs _ := List.prefix_refl _

theorem trans (h : Grows g g') (h' : Grows g' g'') : Grows g g'' where
  headers := h.headers.trans h'.headers
  entries_le := Nat.le_trans h.entries_le h'.entries_le
  find? s n e he := h'.find? s n e (h.find? s n e he)
  kind e he := (h'.kind e (Nat.lt_of_lt_of_le he h.entries_le)).trans (h.kind e he)
  declarations e := (h.declarations e).trans (h'.declarations e)
  refs e := (h.refs e).trans (h'.refs e)

theorem nextScope_le (h : Grows g g') : g.nextScope ≤ g'.nextScope := by
  simpa using h.headers.length_le

theorem header_eq (h : Grows g g') (hs : s < g.nextScope) :
    (g'.draft s).header = (g.draft s).header := by
  obtain ⟨rest, hrest⟩ := h.headers
  have hold := headers_getElem? hs
  have hnew := headers_getElem? (Nat.lt_of_lt_of_le hs h.nextScope_le)
  rw [← hrest, List.getElem?_append_left (by rw [length_headers]; exact hs), hold] at hnew
  exact (Option.some.inj hnew).symm

theorem parent?_eq (h : Grows g g') (hs : s < g.nextScope) : g'.parent? s = g.parent? s := by
  rw [parent?_eq_header, parent?_eq_header, h.header_eq hs]

theorem binds (h : Grows g g') (hb : g.binds s n = true) : g'.binds s n = true := by
  obtain ⟨e, he⟩ := binds_iff.1 hb
  exact binds_iff.2 ⟨e, h.find? s n e he⟩

/-- An old entry that is found in the larger graph was found before. -/
theorem find?_of_lt (h : Grows g g') (hg : g.OwnsEntries) (hg' : g'.OwnsEntries)
    (he : e < g.entries.size) (hfind : g'.find? s n = some e) : g.find? s n = some e := by
  obtain ⟨t, m, htm⟩ := hg.exists_find? e he
  obtain ⟨rfl, hnm⟩ := hg'.find?_inj s t n m e hfind (h.find? t m e htm)
  rw [find?_congr hnm, htm]

end Grows

/-- Whatever extends a graph lets it grow. -/
theorem Extends.grows {touched : ScopeId → Prop} (h : Extends touched g g') : Grows g g' where
  headers := h.headers
  entries_le := h.entries_le
  find? s n e he := by
    obtain ⟨rest, hrest⟩ := h.bindings s
    obtain ⟨x, hx, rfl⟩ := Option.map_eq_some_iff.1 he
    rw [find?, ← hrest, List.find?_append, hx]
    rfl
  kind := h.kind
  declarations := h.declarations
  refs e := by rw [h.refs e]

theorem Step.grows (h : Step g g') (hg : g.Valid) : Grows g g' := by
  cases h with
  | @addScope parent type label loc hparent =>
    have hextends : Extends (fun _ => False) g (g.addScope type label loc parent) :=
      extends_addScope
    exact hextends.grows
  | declare name kind loc hs => exact (extends_declare hg.owns.unshared hs).grows
  | @addReference s name b o hfind =>
    have hb := hg.owns.lt_of_find? s name b hfind
    exact {
      headers := List.prefix_refl _
      entries_le := Nat.le_of_eq (by simp [Graph.addReference])
      find? := fun _ _ _ he => he
      kind := by
        intro e _
        rw [entry_addReference hb]
        split
        · rename_i heb
          rw [heb]
        · rfl
      declarations := by
        intro e
        rw [entry_addReference hb]
        split
        · rename_i heb
          rw [heb]
        · exact List.prefix_refl _
      refs := by
        intro e
        rw [entry_addReference hb]
        split
        · rename_i heb
          rw [heb]
          exact List.prefix_append _ _
        · exact List.prefix_refl _ }

theorem Steps.valid (h : Steps g g') (hg : g.Valid) : g'.Valid := by
  induction h with
  | refl => exact hg
  | tail _ hstep ih => exact hstep.valid ih

theorem Steps.grows (h : Steps g g') (hg : g.Valid) : Grows g g' := by
  induction h with
  | refl => exact .refl g
  | tail hsteps hstep ih => exact ih.trans (hstep.grows (Steps.valid hsteps hg))

end Graph

end LexicalScopes
