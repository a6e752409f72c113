import LexicalScopes.Proofs.Encapsulation.Confined

/-!
# Parallel graphs

Two graphs are parallel if they differ only inside one scope. The scopes and the entries that were
made there have numbers in a gap, and what was made later has other numbers in the two graphs. All
other scopes bind the same names in the same order; the places where these are declared and read are
the same but for reads from inside the scope.
-/

namespace LexicalScopes

/-! ## Gaps -/

/-- Numbers from `first` on up to `next` in one count and up to `next'` in another. What comes after
them in the one count stands for what comes after them in the other. -/
structure Gap where
  first : Nat
  next : Nat
  next' : Nat
  first_le : first ≤ next
  first_le' : first ≤ next'

namespace Gap

variable {G : Gap} {j k : Nat}

/-- The number lies outside the gap. -/
def Apart (G : Gap) (k : Nat) : Prop := k < G.first ∨ G.next ≤ k

/-- The number in the other count. -/
def move (G : Gap) (k : Nat) : Nat := if k < G.next then k else G.next' + (k - G.next)

theorem apart_of_lt (h : k < G.first) : G.Apart k := .inl h

theorem apart_of_le (h : G.next ≤ k) : G.Apart k := .inr h

theorem move_of_lt (h : k < G.next) : G.move k = k := if_pos h

theorem move_of_lt_first (h : k < G.first) : G.move k = k :=
  move_of_lt (Nat.lt_of_lt_of_le h G.first_le)

theorem move_succ (h : G.next ≤ k) : G.move (k + 1) = G.move k + 1 := by
  rw [move, move, if_neg (Nat.not_lt.2 h), if_neg (Nat.not_lt.2 (Nat.le_succ_of_le h))]
  omega

theorem move_next : G.move G.next = G.next' := by
  rw [move, if_neg (Nat.lt_irrefl _), Nat.sub_self, Nat.add_zero]

/-- Outside the gap different numbers stay different. -/
theorem move_inj (hj : G.Apart j) (hk : G.Apart k) : G.move j = G.move k ↔ j = k := by
  have hle := G.first_le
  have hle' := G.first_le'
  unfold Apart at hj hk
  unfold move
  constructor
  · intro h
    split at h <;> split at h <;> omega
  · rintro rfl
    rfl

theorem move_lt (hle : G.next ≤ k) (h : G.Apart j) (hjk : j < k) : G.move j < G.move k := by
  have hfirst := G.first_le'
  unfold Apart at h
  unfold move
  split <;> split <;> omega

end Gap

/-! ## Spliced lists -/

/-- Two lists differ in one part, in which they hold only such elements. -/
inductive Spliced {α : Type} (P P' : α → Prop) : List α → List α → Prop where
  | mk (before mid mid' after : List α) (h : ∀ x ∈ mid, P x) (h' : ∀ x ∈ mid', P' x) :
      Spliced P P' (before ++ mid ++ after) (before ++ mid' ++ after)

namespace Spliced

variable {α β : Type} {P P' : α → Prop} {xs ys : List α}

theorem append (h : Spliced P P' xs ys) (zs : List α) : Spliced P P' (xs ++ zs) (ys ++ zs) := by
  obtain ⟨before, mid, mid', after, h, h'⟩ := h
  have hspliced := Spliced.mk before mid mid' (after ++ zs) h h'
  rwa [← List.append_assoc, ← List.append_assoc] at hspliced

/-- Lists without elements in which they may differ are the same. -/
theorem eq_of_forall_not (h : Spliced P P' xs ys) (hP : ∀ x, ¬ P x) (hP' : ∀ x, ¬ P' x) :
    xs = ys := by
  obtain ⟨before, mid, mid', after, h, h'⟩ := h
  rw [List.eq_nil_iff_forall_not_mem.2 fun x hx => hP x (h x hx),
    List.eq_nil_iff_forall_not_mem.2 fun x hx => hP' x (h' x hx)]

end Spliced

/-- Two bindings are of one kind and declared in the same places. They are read in the same places
but for some that stand one after the other. -/
structure Entry.Agree (P P' : Occurrence → Prop) (x y : Entry) : Prop where
  kind_eq : y.kind = x.kind
  declarations_eq : y.declarations = x.declarations
  refs : Spliced P P' x.refs y.refs

variable {g g' g₁ g₁' : Graph} {f s t : ScopeId} {e : EntryId} {name n : Scalar}

namespace Graph

/-! ## Parallel graphs -/

/-- Scopes and bindings that stand for each other. -/
structure Correspondence where
  scopes : Gap
  entries : Gap
  /-- The scopes around the one in which the graphs differ. -/
  outer : List ScopeId
  /-- The places inside that scope where the two graphs have reads. -/
  Read : Occurrence → Prop
  Read' : Occurrence → Prop

/-- The reads by which a binding of the scope may differ. -/
def Correspondence.Differs (C : Correspondence) (Read : Occurrence → Prop) (s : ScopeId)
    (o : Occurrence) : Prop := s ∈ C.outer ∧ Read o

/-- Two graphs differ only inside the first scope of a gap. -/
structure Parallel (C : Correspondence) (g g' : Graph) : Prop where
  next_le : C.scopes.next ≤ g.nextScope
  nextScope_eq : g'.nextScope = C.scopes.move g.nextScope
  entries_le : C.entries.next ≤ g.entries.size
  size_eq : g'.entries.size = C.entries.move g.entries.size
  header_eq : ∀ s, C.scopes.Apart s → s < g.nextScope → (g'.draft (C.scopes.move s)).header =
    { (g.draft s).header with parent := (g.parent? s).map C.scopes.move }
  parent_apart : ∀ s, C.scopes.Apart s → ∀ p, g.parent? s = some p → C.scopes.Apart p
  children_eq : ∀ s, C.scopes.Apart s → s < g.nextScope →
    g'.children (C.scopes.move s) = (g.children s).map C.scopes.move
  bindings_eq : ∀ s, C.scopes.Apart s → s < g.nextScope →
    (g'.draft (C.scopes.move s)).bindings =
      (g.draft s).bindings.map fun x => (x.1, C.entries.move x.2)
  entry : ∀ s, C.scopes.Apart s → ∀ n e, g.find? s n = some e → C.entries.Apart e ∧
    (g.entry e).Agree (C.Differs C.Read s) (C.Differs C.Read' s) (g'.entry (C.entries.move e))

namespace Parallel

variable {C : Correspondence}

theorem parent?_eq (h : Parallel C g g') (hs : C.scopes.Apart s) (hlt : s < g.nextScope) :
    g'.parent? (C.scopes.move s) = (g.parent? s).map C.scopes.move := by
  rw [parent?_eq_header, h.header_eq s hs hlt]

theorem find?_eq (h : Parallel C g g') (hs : C.scopes.Apart s) (hlt : s < g.nextScope) :
    g'.find? (C.scopes.move s) n = (g.find? s n).map C.entries.move := by
  rw [find?, h.bindings_eq s hs hlt, List.find?_map, Option.map_map, find?, Option.map_map]
  rfl

theorem binds_eq (h : Parallel C g g') (hs : C.scopes.Apart s) (hlt : s < g.nextScope) :
    g'.binds (C.scopes.move s) n = g.binds s n := by
  rw [binds, h.find?_eq hs hlt, Option.isSome_map, binds]

theorem move_lt (h : Parallel C g g') (hs : C.scopes.Apart s) (hlt : s < g.nextScope) :
    C.scopes.move s < g'.nextScope := by
  rw [h.nextScope_eq]
  exact Gap.move_lt h.next_le hs hlt

/-! ## Enclosing scopes -/

theorem apart_of_mem_chain (h : Parallel C g g') (hg : g.Ranked) (hs : C.scopes.Apart s)
    (ht : t ∈ g.chain s) : C.scopes.Apart t := by
  induction s using Nat.strongRecOn with
  | ind s ih =>
    cases hp : g.parent? s with
    | none =>
      rw [chain_of_parent?_eq_none hp, List.mem_singleton] at ht
      exact ht ▸ hs
    | some p =>
      rw [chain_of_parent?_eq_some hg hp] at ht
      rcases List.mem_cons.1 ht with rfl | ht
      · exact hs
      · exact ih p (hg s p hp) (h.parent_apart s hs p hp) ht

theorem chain_eq (h : Parallel C g g') (hg : g.Ranked) (hg' : g'.Ranked) (hs : C.scopes.Apart s)
    (hlt : s < g.nextScope) : g'.chain (C.scopes.move s) = (g.chain s).map C.scopes.move := by
  induction s using Nat.strongRecOn with
  | ind s ih =>
    have hparent := h.parent?_eq hs hlt
    cases hp : g.parent? s with
    | none =>
      rw [hp] at hparent
      rw [chain_of_parent?_eq_none hp, chain_of_parent?_eq_none hparent, List.map_singleton]
    | some p =>
      rw [hp] at hparent
      have hps := hg s p hp
      rw [chain_of_parent?_eq_some hg hp, chain_of_parent?_eq_some hg' hparent, List.map_cons,
        ih p hps (h.parent_apart s hs p hp) (Nat.lt_trans hps hlt)]

theorem resolve_eq (h : Parallel C g g') (hg : g.Ranked) (hg' : g'.Ranked) (hs : C.scopes.Apart s)
    (hlt : s < g.nextScope) :
    g'.resolve (C.scopes.move s) n = (g.resolve s n).map C.scopes.move := by
  rw [resolve, h.chain_eq hg hg' hs hlt, List.find?_map, resolve]
  refine congrArg (Option.map C.scopes.move) (List.find?_congr fun t ht => ?_)
  exact h.binds_eq (h.apart_of_mem_chain hg hs ht)
    (Nat.lt_of_le_of_lt (le_of_mem_chain hg ht) hlt)

theorem isHoistTarget_eq (h : Parallel C g g') (hs : C.scopes.Apart s) (hlt : s < g.nextScope) :
    g'.isHoistTarget (C.scopes.move s) = g.isHoistTarget s := by
  have htype := congrArg Header.type (h.header_eq s hs hlt)
  simp only [isHoistTarget_eq_hoists]
  exact congrArg ScopeType.hoists htype

theorem varScope_eq (h : Parallel C g g') (hg : g.Ranked) (hg' : g'.Ranked)
    (hs : C.scopes.Apart s) (hlt : s < g.nextScope) :
    g'.varScope (C.scopes.move s) = C.scopes.move (g.varScope s) := by
  have htarget : (g.chain s).find? (g'.isHoistTarget ∘ C.scopes.move) =
      (g.chain s).find? g.isHoistTarget := List.find?_congr fun t ht =>
    h.isHoistTarget_eq (h.apart_of_mem_chain hg hs ht)
      (Nat.lt_of_le_of_lt (le_of_mem_chain hg ht) hlt)
  rw [varScope, varScope, h.chain_eq hg hg' hs hlt, List.find?_map, htarget]
  cases (g.chain s).find? g.isHoistTarget with
  | some t => rfl
  | none => simp [List.getLastD_eq_getLast?, List.getLast?_map, Option.getD_map]

/-! ## New scopes -/

theorem addScope (h : Parallel C g g') (hg : g.Forest) (hg' : g'.Forest) {parent : Option ScopeId}
    (hparent : ∀ p, parent = some p → C.scopes.Apart p ∧ p < g.nextScope) (type : ScopeType)
    (label loc : Json) :
    Parallel C (g.addScope type label loc parent)
      (g'.addScope type label loc (parent.map C.scopes.move)) := by
  have hnew := Gap.apart_of_le h.next_le
  -- An old scope is not the new one, in neither graph.
  have hold : ∀ s, C.scopes.Apart s → s < g.nextScope + 1 → s ≠ g.nextScope →
      s < g.nextScope ∧ C.scopes.move s ≠ g'.nextScope := by
    intro s hs hlt hne
    have hlt := Nat.lt_of_le_of_ne (Nat.le_of_lt_succ hlt) hne
    exact ⟨hlt, Nat.ne_of_lt (h.move_lt hs hlt)⟩
  have hparent' : ∀ p, parent.map C.scopes.move = some p → p < g'.nextScope := by
    intro p hp
    obtain ⟨q, hq, rfl⟩ := Option.map_eq_some_iff.1 hp
    exact h.move_lt (hparent q hq).1 (hparent q hq).2
  constructor
  · rw [nextScope_addScope]
    exact Nat.le_succ_of_le h.next_le
  · rw [nextScope_addScope, nextScope_addScope, h.nextScope_eq, Gap.move_succ h.next_le]
  · exact h.entries_le
  · exact h.size_eq
  · intro s hs hlt
    rw [nextScope_addScope] at hlt
    rw [draft_addScope, draft_addScope, parent?_addScope]
    by_cases hsn : s = g.nextScope
    · rw [if_pos hsn, if_pos (by rw [hsn, h.nextScope_eq]), if_pos hsn]
      rfl
    · obtain ⟨hlt, hne⟩ := hold s hs hlt hsn
      rw [if_neg hsn, if_neg hne, if_neg hsn, h.header_eq s hs hlt]
  · intro s hs p hp
    rw [parent?_addScope] at hp
    split at hp
    · exact (hparent p hp).1
    · exact h.parent_apart s hs p hp
  · intro s hs hlt
    rw [nextScope_addScope] at hlt
    have hlt' : C.scopes.move s < g'.nextScope + 1 := by
      rw [h.nextScope_eq, ← Gap.move_succ h.next_le]
      exact Gap.move_lt (Nat.le_succ_of_le h.next_le) hs hlt
    rw [hg.ownsLists.children_addScope (fun p hp => (hparent p hp).2) hlt,
      hg'.ownsLists.children_addScope hparent' hlt']
    by_cases hsn : s = g.nextScope
    · rw [if_pos hsn, if_pos (by rw [hsn, h.nextScope_eq])]
      rfl
    · obtain ⟨hlt, hne⟩ := hold s hs hlt hsn
      have hiff : parent.map C.scopes.move = some (C.scopes.move s) ↔ parent = some s := by
        cases parent with
        | none => simp
        | some p => simp [Gap.move_inj (hparent p rfl).1 hs]
      rw [if_neg hsn, if_neg hne]
      simp only [hiff]
      split
      · rw [h.children_eq s hs hlt, List.map_append, List.map_singleton, h.nextScope_eq]
      · exact h.children_eq s hs hlt
  · intro s hs hlt
    rw [nextScope_addScope] at hlt
    rw [draft_addScope, draft_addScope]
    by_cases hsn : s = g.nextScope
    · rw [if_pos hsn, if_pos (by rw [hsn, h.nextScope_eq])]
      rfl
    · obtain ⟨hlt, hne⟩ := hold s hs hlt hsn
      rw [if_neg hsn, if_neg hne, h.bindings_eq s hs hlt]
  · intro s hs n e he
    rw [find?_addScope] at he
    exact h.entry s hs n e he

/-! ## Changed entries -/

/-- The same change of two entries that stand for each other. -/
theorem modifyEntry (h : Parallel C g g') (hg : g.OwnsEntries) {change : Entry → Entry}
    (he : C.entries.Apart e)
    (hchange : ∀ P P' x y, Entry.Agree P P' x y → (change x).Agree P P' (change y)) :
    Parallel C { g with entries := g.entries.modify e change }
      { g' with entries := g'.entries.modify (C.entries.move e) change } where
  next_le := h.next_le
  nextScope_eq := h.nextScope_eq
  entries_le := by
    rw [Array.size_modify]
    exact h.entries_le
  size_eq := by
    rw [Array.size_modify, Array.size_modify]
    exact h.size_eq
  header_eq := h.header_eq
  parent_apart := h.parent_apart
  children_eq := h.children_eq
  bindings_eq := h.bindings_eq
  entry s hs n e' he' := by
    obtain ⟨hapart, hagree⟩ := h.entry s hs n e' he'
    have hlt := hg.lt_of_find? s n e' he'
    have hlt' : C.entries.move e' < g'.entries.size := by
      rw [h.size_eq]
      exact Gap.move_lt h.entries_le hapart hlt
    refine ⟨hapart, ?_⟩
    rw [Graph.entry, Graph.entry, getD_modify, getD_modify]
    by_cases heq : e = e'
    · subst heq
      rw [if_pos ⟨rfl, hlt⟩, if_pos ⟨rfl, hlt'⟩]
      exact hchange _ _ _ _ hagree
    · rw [if_neg fun h => heq h.1, if_neg fun h => heq ((Gap.move_inj he hapart).1 h.1)]
      exact hagree

theorem addReference (h : Parallel C g g') (hg : g.OwnsEntries) (he : C.entries.Apart e)
    (o : Occurrence) :
    Parallel C (g.addReference e o) (g'.addReference (C.entries.move e) o) :=
  h.modifyEntry hg he fun _ _ _ _ hagree =>
    ⟨hagree.kind_eq, hagree.declarations_eq, hagree.refs.append [o]⟩

theorem addDeclaration (h : Parallel C g g') (hg : g.OwnsEntries) (he : C.entries.Apart e)
    (loc : Json) :
    Parallel C (g.addDeclaration e loc) (g'.addDeclaration (C.entries.move e) loc) :=
  h.modifyEntry hg he fun _ _ _ _ hagree =>
    ⟨hagree.kind_eq, congrArg (· ++ [loc]) hagree.declarations_eq, hagree.refs⟩

/-! ## Declared names -/

/-- A new name comes last in both graphs. -/
theorem declare_new (h : Parallel C g g') (hg : g.OwnsEntries) (hs : C.scopes.Apart s)
    (hlt : s < g.nextScope) (hnone : g.find? s name = none) (kind : BindingKind)
    (loc : Option Json) :
    Parallel C (g.declare s name kind loc) (g'.declare (C.scopes.move s) name kind loc) := by
  have hlt' := h.move_lt hs hlt
  have hnone' : g'.find? (C.scopes.move s) name = none := by
    rw [h.find?_eq hs hlt, hnone]
    rfl
  have hsize : (g.declare s name kind loc).entries.size = g.entries.size + 1 := by
    rw [entries_size_declare, binds, hnone]
    rfl
  have hsize' : (g'.declare (C.scopes.move s) name kind loc).entries.size =
      g'.entries.size + 1 := by
    rw [entries_size_declare, binds, hnone']
    rfl
  constructor
  · rw [nextScope_declare]
    exact h.next_le
  · rw [nextScope_declare, nextScope_declare]
    exact h.nextScope_eq
  · rw [hsize]
    exact Nat.le_succ_of_le h.entries_le
  · rw [hsize, hsize', h.size_eq, Gap.move_succ h.entries_le]
  · intro t ht htlt
    rw [nextScope_declare] at htlt
    rw [parent?, draft_declare_rest, draft_declare_rest g s t]
    exact h.header_eq t ht htlt
  · intro t ht p hp
    rw [parent?, draft_declare_rest] at hp
    exact h.parent_apart t ht p hp
  · intro t ht htlt
    rw [nextScope_declare] at htlt
    rw [children, children, childLists_declare, childLists_declare, draft_declare_rest,
      draft_declare_rest g s t]
    exact h.children_eq t ht htlt
  · intro t ht htlt
    rw [nextScope_declare] at htlt
    by_cases hts : t = s
    · subst hts
      rw [bindings_declare_of_find?_eq_none hlt hnone,
        bindings_declare_of_find?_eq_none hlt' hnone', h.bindings_eq t ht htlt, List.map_append,
        List.map_singleton, h.size_eq]
    · rw [draft_declare_of_ne hlt hts, draft_declare_of_ne hlt' (mt (Gap.move_inj ht hs).1 hts),
        h.bindings_eq t ht htlt]
  · intro t ht n e he
    rw [find?_declare hlt, target, hnone, Option.getD_none] at he
    rw [declare_of_find?_eq_none hnone, declare_of_find?_eq_none hnone', entry_bind, entry_bind,
      entry_pushEntry, entry_pushEntry]
    split at he
    · -- The new entry is read nowhere yet.
      cases he
      rw [if_pos rfl, if_pos h.size_eq.symm]
      exact ⟨Gap.apart_of_le h.entries_le, rfl, rfl, .mk [] [] [] []
        (List.forall_mem_nil _) (List.forall_mem_nil _)⟩
    · obtain ⟨hapart, hagree⟩ := h.entry t ht n e he
      have helt := hg.lt_of_find? t n e he
      have helt' : C.entries.move e < g'.entries.size := by
        rw [h.size_eq]
        exact Gap.move_lt h.entries_le hapart helt
      rw [if_neg (Nat.ne_of_lt helt), if_neg (Nat.ne_of_lt helt')]
      exact ⟨hapart, hagree⟩

theorem declare (h : Parallel C g g') (hg : g.OwnsEntries) (hs : C.scopes.Apart s)
    (hlt : s < g.nextScope) (kind : BindingKind) (loc : Option Json) :
    Parallel C (g.declare s name kind loc) (g'.declare (C.scopes.move s) name kind loc) := by
  cases hfind : g.find? s name with
  | none => exact h.declare_new hg hs hlt hfind kind loc
  | some e =>
    have hfind' : g'.find? (C.scopes.move s) name = some (C.entries.move e) := by
      rw [h.find?_eq hs hlt, hfind]
      rfl
    cases loc with
    | none => rwa [declare_none_of_find? hfind, declare_none_of_find? hfind']
    | some loc =>
      rw [declare_some_of_find? hfind, declare_some_of_find? hfind']
      exact h.addDeclaration hg (h.entry s hs name e hfind).1 loc

theorem declareImplicit (h : Parallel C g g') (hg : g.OwnsEntries) (hs : C.scopes.Apart s)
    (hlt : s < g.nextScope) (names : List String) :
    Parallel C (g.declareImplicit s names) (g'.declareImplicit (C.scopes.move s) names) := by
  induction names generalizing g g' with
  | nil => exact h
  | cons name names ih =>
    rw [declareImplicit_cons, declareImplicit_cons]
    exact ih (h.declare hg hs hlt .implicit none) (hg.declare hlt .implicit none)
      (by rwa [nextScope_declare])

end Parallel

end Graph

end LexicalScopes
