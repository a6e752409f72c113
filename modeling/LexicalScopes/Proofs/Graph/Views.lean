import LexicalScopes.Scope.Graph

/-!
# Views of a growing graph

How each way to add something to the graph of scopes shows in the scopes, in the bindings of their
names and in the entries.
-/

namespace LexicalScopes

variable {α : Type}

theorem getD_push (xs : Array α) (x : α) (i : Nat) (d : α) :
    (xs.push x).getD i d = if i = xs.size then x else xs.getD i d := by
  rw [Array.getD_eq_getD_getElem?, Array.getD_eq_getD_getElem?, Array.getElem?_push]
  split <;> rfl

theorem getD_modify (xs : Array α) (i j : Nat) (f : α → α) (d : α) :
    (xs.modify i f).getD j d = if i = j ∧ j < xs.size then f (xs.getD j d) else xs.getD j d := by
  rw [Array.getD_eq_getD_getElem?, Array.getD_eq_getD_getElem?, Array.getElem?_modify]
  by_cases hj : j < xs.size
  · by_cases hi : i = j <;> simp [hi, hj]
  · by_cases hi : i = j <;> simp [hi, hj]

theorem getD_of_size_le {xs : Array α} {i : Nat} (h : xs.size ≤ i) (d : α) : xs.getD i d = d := by
  simp [Array.getD_eq_getD_getElem?, h]

namespace Graph

variable {g : Graph} {s t : ScopeId} {name n : Scalar} {e b : EntryId}

/-! ## Scopes and entries that are not made yet -/

theorem draft_of_le (h : g.nextScope ≤ s) : g.draft s = default := getD_of_size_le h _

theorem entry_of_le (h : g.entries.size ≤ e) : g.entry e = default := getD_of_size_le h _

theorem find?_of_le (h : g.nextScope ≤ s) : g.find? s name = none := by
  rw [find?, draft_of_le h]
  rfl

theorem lt_of_find? (h : g.find? s name = some e) : s < g.nextScope := by
  rcases Nat.lt_or_ge s g.nextScope with hs | hs
  · exact hs
  · rw [find?_of_le hs] at h
    cases h

theorem parent?_of_le (h : g.nextScope ≤ s) : g.parent? s = none := by
  rw [parent?, draft_of_le h]
  rfl

theorem lt_of_parent? (h : g.parent? t = some s) : t < g.nextScope := by
  rcases Nat.lt_or_ge t g.nextScope with ht | ht
  · exact ht
  · rw [parent?_of_le ht] at h
    cases h

theorem binds_iff : g.binds s name = true ↔ ∃ e, g.find? s name = some e := Option.isSome_iff_exists

/-! ## Adding a scope -/

section AddScope

variable {type : ScopeType} {label loc : Json} {parent : Option ScopeId}

@[simp] theorem nextScope_addScope :
    (g.addScope type label loc parent).nextScope = g.nextScope + 1 := by
  simp [addScope, nextScope]

@[simp] theorem entries_addScope : (g.addScope type label loc parent).entries = g.entries := rfl

@[simp] theorem entry_addScope : (g.addScope type label loc parent).entry e = g.entry e := rfl

theorem childLists_size_addScope :
    (g.addScope type label loc parent).childLists.size = g.childLists.size + 1 := by
  cases parent <;> simp [addScope]

theorem draft_addScope :
    (g.addScope type label loc parent).draft s =
      if s = g.nextScope then ⟨type, label, loc, parent, [], g.childLists.size⟩ else g.draft s := by
  cases parent with
  | none => exact getD_push _ _ _ _
  | some p =>
    rw [addScope, draft, getD_push, Array.size_modify]
    rfl

@[simp] theorem find?_addScope :
    (g.addScope type label loc parent).find? s name = g.find? s name := by
  rw [find?, find?, draft_addScope]
  split
  · rename_i hs
    subst hs
    rw [draft_of_le (Nat.le_refl _)]
    rfl
  · rfl

end AddScope

/-! ## Binding a name -/

@[simp] theorem nextScope_bind : (g.bind s name b).nextScope = g.nextScope := by
  simp [bind, nextScope]

@[simp] theorem entry_bind : (g.bind s name b).entry e = g.entry e := rfl

/-- The bindings of a scope once a name is bound to `b`. -/
def rebound (bindings : List (Scalar × EntryId)) (name : Scalar) (b : EntryId) :
    List (Scalar × EntryId) :=
  if bindings.any fun (n, _) => n.key == name.key then
    bindings.map fun (n, c) => if n.key == name.key then (n, b) else (n, c)
  else bindings ++ [(name, b)]

theorem binds_eq_any :
    g.binds s name = (g.draft s).bindings.any fun (n, _) => n.key == name.key := by
  rw [binds, find?, Option.isSome_map, Bool.eq_iff_iff, List.find?_isSome, List.any_eq_true]

theorem draft_bind (h : s < g.nextScope) :
    (g.bind s name b).draft t =
      if t = s then { g.draft s with bindings := rebound (g.draft s).bindings name b }
      else g.draft t := by
  rw [bind, draft, getD_modify]
  by_cases hts : t = s
  · subst hts
    rw [if_pos ⟨rfl, h⟩, if_pos rfl, rebound, ← binds_eq_any]
    cases g.binds t name <;> rfl
  · rw [if_neg (fun hst => hts hst.1.symm), if_neg hts]
    rfl

/-- Binding a name changes only what the scope binds. -/
theorem draft_bind_rest (g : Graph) (s t : ScopeId) (name : Scalar) (b : EntryId) :
    (g.bind s name b).draft t =
      { g.draft t with bindings := ((g.bind s name b).draft t).bindings } := by
  by_cases h : s < g.nextScope
  · rw [draft_bind h]
    split
    · rename_i hts
      rw [hts]
    · rfl
  · rw [bind, draft, getD_modify, if_neg]
    · rfl
    · rintro ⟨rfl, hs⟩
      exact h hs

/-- Another entry for a name does not change which of the bindings is found. -/
theorem find?_map_replace (bindings : List (Scalar × EntryId)) (name n : Scalar) (b : EntryId) :
    (bindings.map fun (m, c) => if m.key == name.key then (m, b) else (m, c)).find?
        (fun (m, _) => m.key == n.key) =
      (bindings.find? fun (m, _) => m.key == n.key).map fun (m, c) =>
        if m.key == name.key then (m, b) else (m, c) := by
  rw [List.find?_map]
  congr 2
  funext ⟨m, c⟩
  dsimp only [Function.comp]
  split <;> rfl

theorem find?_rebound (bindings : List (Scalar × EntryId)) (name n : Scalar) (b : EntryId) :
    ((rebound bindings name b).find? fun (m, _) => m.key == n.key).map (·.2) =
      if n.key = name.key then some b
      else (bindings.find? fun (m, _) => m.key == n.key).map (·.2) := by
  unfold rebound
  split
  · -- The name is there: its place keeps the name and gets another entry.
    rename_i hany
    rw [find?_map_replace]
    cases hfound : bindings.find? fun (m, _) => m.key == n.key with
    | none =>
      have hne : n.key ≠ name.key := by
        intro hn
        obtain ⟨x, hx, hkey⟩ := List.any_eq_true.1 hany
        exact List.find?_eq_none.1 hfound x hx (hn ▸ hkey)
      rw [if_neg hne]
      rfl
    | some x =>
      have hx : x.1.key = n.key := by simpa using List.find?_some hfound
      by_cases hn : n.key = name.key <;> simp [hx, hn]
  · -- The name is new and comes last, so it is found only if no other one is.
    rename_i hnone
    rw [List.find?_append]
    cases hfound : bindings.find? fun (m, _) => m.key == n.key with
    | none =>
      by_cases hn : n.key = name.key
      · simp [hn]
      · simp [hn, Ne.symm hn]
    | some x =>
      have hx : x.1.key = n.key := by simpa using List.find?_some hfound
      have hne : n.key ≠ name.key := by
        intro hn
        exact hnone (List.any_eq_true.2
          ⟨x, List.mem_of_find?_eq_some hfound, by simp [hx, hn]⟩)
      simp [hne]

theorem find?_bind (h : s < g.nextScope) :
    (g.bind s name b).find? t n =
      if t = s ∧ n.key = name.key then some b else g.find? t n := by
  rw [find?, draft_bind h]
  by_cases hts : t = s
  · subst hts
    simp only [if_pos, true_and, find?_rebound]
    rfl
  · simp only [hts, false_and, if_false]
    rfl

/-! ## Adding to an entry -/

@[simp] theorem nextScope_addDeclaration {loc : Json} :
    (g.addDeclaration b loc).nextScope = g.nextScope := rfl

@[simp] theorem draft_addDeclaration {loc : Json} :
    (g.addDeclaration b loc).draft s = g.draft s := rfl

@[simp] theorem nextScope_addReference {o : Occurrence} :
    (g.addReference b o).nextScope = g.nextScope := rfl

@[simp] theorem draft_addReference {o : Occurrence} :
    (g.addReference b o).draft s = g.draft s := rfl

theorem entry_addDeclaration {loc : Json} (h : b < g.entries.size) :
    (g.addDeclaration b loc).entry e =
      if e = b then { g.entry b with declarations := (g.entry b).declarations ++ [loc] }
      else g.entry e := by
  rw [addDeclaration, entry, getD_modify]
  by_cases he : e = b
  · subst he
    rw [if_pos ⟨rfl, h⟩, if_pos rfl]
    rfl
  · rw [if_neg (fun hb => he hb.1.symm), if_neg he]
    rfl

theorem entry_addReference {o : Occurrence} (h : b < g.entries.size) :
    (g.addReference b o).entry e =
      if e = b then { g.entry b with refs := (g.entry b).refs ++ [o] } else g.entry e := by
  rw [addReference, entry, getD_modify]
  by_cases he : e = b
  · subst he
    rw [if_pos ⟨rfl, h⟩, if_pos rfl]
    rfl
  · rw [if_neg (fun hb => he hb.1.symm), if_neg he]
    rfl

/-! ## Declaring a name -/

section Declare

variable {kind : BindingKind} {loc : Option Json}

theorem find?_congr (h : n.key = name.key) : g.find? s n = g.find? s name := by
  rw [find?, find?, h]

/-- The graph with one more entry that no name is bound to yet. -/
def pushEntry (g : Graph) (entry : Entry) : Graph := { g with entries := g.entries.push entry }

@[simp] theorem nextScope_pushEntry {entry : Entry} :
    (g.pushEntry entry).nextScope = g.nextScope := rfl

@[simp] theorem draft_pushEntry {entry : Entry} : (g.pushEntry entry).draft s = g.draft s := rfl

@[simp] theorem find?_pushEntry {entry : Entry} : (g.pushEntry entry).find? s n = g.find? s n := rfl

theorem entry_pushEntry {entry : Entry} :
    (g.pushEntry entry).entry e = if e = g.entries.size then entry else g.entry e :=
  getD_push _ _ _ _

theorem declare_of_find?_eq_none (h : g.find? s name = none) :
    g.declare s name kind loc =
      (g.pushEntry ⟨kind, loc.toList, []⟩).bind s name g.entries.size := by
  unfold declare
  rw [h]
  rfl

theorem find?_eq_none_iff :
    g.find? s name = none ↔ ∀ x ∈ (g.draft s).bindings, x.1.key ≠ name.key := by
  rw [find?, Option.map_eq_none_iff, List.find?_eq_none]
  simp

/-- A name that is new comes last. -/
theorem bindings_declare_of_find?_eq_none (hs : s < g.nextScope) (h : g.find? s name = none) :
    ((g.declare s name kind loc).draft s).bindings =
      (g.draft s).bindings ++ [(name, g.entries.size)] := by
  rw [declare_of_find?_eq_none h, draft_bind (g := g.pushEntry _) hs, if_pos rfl, rebound, if_neg]
  · rfl
  · rw [← binds_eq_any, binds, find?_pushEntry, h]
    simp

theorem declare_some_of_find? {at_ : Json} (h : g.find? s name = some b) :
    g.declare s name kind (some at_) = g.addDeclaration b at_ := by
  unfold declare
  rw [h]

theorem declare_none_of_find? (h : g.find? s name = some b) : g.declare s name kind none = g := by
  unfold declare
  rw [h]

/-- A name that is bound already keeps its entry, and no scope changes. -/
theorem draft_declare_of_find? (h : g.find? s name = some b) :
    (g.declare s name kind loc).draft t = g.draft t := by
  cases loc with
  | none => rw [declare_none_of_find? h]
  | some at_ => rw [declare_some_of_find? h, draft_addDeclaration]

@[simp] theorem nextScope_declare : (g.declare s name kind loc).nextScope = g.nextScope := by
  cases h : g.find? s name with
  | none => rw [declare_of_find?_eq_none h, nextScope_bind, nextScope_pushEntry]
  | some b =>
    cases loc with
    | none => rw [declare_none_of_find? h]
    | some at_ => rw [declare_some_of_find? h, nextScope_addDeclaration]

/-- Declaring a name changes only what scopes bind. -/
theorem draft_declare_rest (g : Graph) (s t : ScopeId) (name : Scalar) (kind : BindingKind)
    (loc : Option Json) :
    (g.declare s name kind loc).draft t =
      { g.draft t with bindings := ((g.declare s name kind loc).draft t).bindings } := by
  cases h : g.find? s name with
  | none => rw [declare_of_find?_eq_none h, draft_bind_rest, draft_pushEntry]
  | some b => rw [draft_declare_of_find? h]

theorem draft_declare_of_ne (hs : s < g.nextScope) (ht : t ≠ s) :
    (g.declare s name kind loc).draft t = g.draft t := by
  cases h : g.find? s name with
  | none =>
    rw [declare_of_find?_eq_none h, draft_bind (g := g.pushEntry _) hs, if_neg ht,
      draft_pushEntry]
  | some b => rw [draft_declare_of_find? h]

/-- Declaring a name binds no other name and no name elsewhere. -/
theorem mem_bindings_declare {x : Scalar × EntryId} (hs : s < g.nextScope)
    (hx : x ∈ ((g.declare s name kind loc).draft t).bindings) :
    x ∈ (g.draft t).bindings ∨ t = s ∧ x.1 = name := by
  cases h : g.find? s name with
  | some b =>
    rw [draft_declare_of_find? h] at hx
    exact .inl hx
  | none =>
    rcases Decidable.em (t = s) with heq | hts
    · subst heq
      rw [bindings_declare_of_find?_eq_none hs h] at hx
      rcases List.mem_append.1 hx with hx | hx
      · exact .inl hx
      · rw [List.mem_singleton.1 hx]
        exact .inr ⟨rfl, rfl⟩
    · rw [draft_declare_of_ne hs hts] at hx
      exact .inl hx

/-- The entry of a declared name: its old one, or the one that is made next. -/
def target (g : Graph) (s : ScopeId) (name : Scalar) : EntryId :=
  (g.find? s name).getD g.entries.size

theorem find?_declare (hs : s < g.nextScope) :
    (g.declare s name kind loc).find? t n =
      if t = s ∧ n.key = name.key then some (g.target s name) else g.find? t n := by
  cases h : g.find? s name with
  | none =>
    rw [declare_of_find?_eq_none h, find?_bind (g := g.pushEntry _) hs, find?_pushEntry, target, h]
    rfl
  | some b =>
    rw [find?, draft_declare_of_find? h, target, h]
    split
    · rename_i htn
      obtain ⟨rfl, hn⟩ := htn
      exact (find?_congr hn).trans h
    · rfl

theorem find?_declare_self (hs : s < g.nextScope) :
    (g.declare s name kind loc).find? s name = some (g.target s name) := by
  rw [find?_declare hs, if_pos ⟨rfl, rfl⟩]

theorem entries_size_declare :
    (g.declare s name kind loc).entries.size =
      if g.binds s name then g.entries.size else g.entries.size + 1 := by
  cases h : g.find? s name with
  | none =>
    rw [declare_of_find?_eq_none h, binds, h]
    simp [bind, pushEntry]
  | some b =>
    rw [binds, h]
    cases loc with
    | none =>
      rw [declare_none_of_find? h]
      rfl
    | some at_ =>
      rw [declare_some_of_find? h]
      simp [addDeclaration]

theorem kind_declare (hb : ∀ b, g.find? s name = some b → b < g.entries.size)
    (he : e < g.entries.size) :
    ((g.declare s name kind loc).entry e).kind = (g.entry e).kind := by
  cases h : g.find? s name with
  | none =>
    rw [declare_of_find?_eq_none h, entry_bind, entry_pushEntry, if_neg (Nat.ne_of_lt he)]
  | some b =>
    cases loc with
    | none => rw [declare_none_of_find? h]
    | some at_ =>
      rw [declare_some_of_find? h, entry_addDeclaration (hb b h)]
      split
      · rename_i heb
        rw [heb]
      · rfl

@[simp] theorem refs_declare : ((g.declare s name kind loc).entry e).refs = (g.entry e).refs := by
  cases h : g.find? s name with
  | none =>
    rw [declare_of_find?_eq_none h, entry_bind, entry_pushEntry]
    split
    · rename_i he
      rw [entry_of_le (Nat.le_of_eq he.symm)]
      rfl
    · rfl
  | some b =>
    cases loc with
    | none => rw [declare_none_of_find? h]
    | some at_ =>
      rw [declare_some_of_find? h, addDeclaration, entry, getD_modify]
      split <;> rfl

/-- Declaring a name changes no entry but that of the name. -/
theorem entry_declare_of_ne (he : e ≠ g.target s name) :
    (g.declare s name kind loc).entry e = g.entry e := by
  cases h : g.find? s name with
  | none =>
    rw [target, h, Option.getD_none] at he
    rw [declare_of_find?_eq_none h, entry_bind, entry_pushEntry, if_neg he]
  | some b =>
    rw [target, h, Option.getD_some] at he
    cases loc with
    | none => rw [declare_none_of_find? h]
    | some at_ =>
      rw [declare_some_of_find? h, addDeclaration, entry, getD_modify,
        if_neg fun hb => he hb.1.symm]
      rfl

/-- Introducing a name records no declaration. -/
@[simp] theorem declarations_declare_none :
    ((g.declare s name kind none).entry e).declarations = (g.entry e).declarations := by
  cases h : g.find? s name with
  | none =>
    rw [declare_of_find?_eq_none h, entry_bind, entry_pushEntry]
    split
    · rename_i he
      rw [entry_of_le (Nat.le_of_eq he.symm)]
      rfl
    · rfl
  | some b => rw [declare_none_of_find? h]

theorem declarations_declare (hb : ∀ b, g.find? s name = some b → b < g.entries.size) :
    ((g.declare s name kind loc).entry e).declarations =
      (g.entry e).declarations ++ if e = g.target s name then loc.toList else [] := by
  cases h : g.find? s name with
  | none =>
    rw [declare_of_find?_eq_none h, entry_bind, entry_pushEntry, target, h, Option.getD_none]
    split
    · rename_i he
      rw [entry_of_le (Nat.le_of_eq he.symm)]
      rfl
    · rw [List.append_nil]
  | some b =>
    rw [target, h, Option.getD_some]
    cases loc with
    | none => rw [declare_none_of_find? h, Option.toList_none, ite_self, List.append_nil]
    | some at_ =>
      rw [declare_some_of_find? h, entry_addDeclaration (hb b h)]
      split
      · rename_i heb
        rw [heb, Option.toList_some]
      · rw [List.append_nil]

end Declare

end Graph

end LexicalScopes
