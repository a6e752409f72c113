import LexicalScopes.Proofs.Cursor.Search
import LexicalScopes.Proofs.Order
import LexicalScopes.Proofs.Samples
import Mathlib.Data.List.Chain
import Mathlib.Data.List.Nodup

/-!
# Scopes around a location

The search for a location follows one child at every level. In a tree whose scopes lie inside one
another, and in which no two siblings contain the location, it still meets every scope that contains
it: a scope that is passed by contains the location as little as the scopes inside it, and behind
the child that is followed no sibling does. The names that can be used at the location are those of
the scopes met, each with the binding of the innermost one.
-/

namespace LexicalScopes

namespace Scope

variable {root s t c : Scope} {scopes found : List Scope} {l : Location}

/-! ## Trees -/

theorem mem_walk_iff : t ∈ s.walk ↔ t = s ∨ ∃ c ∈ s.children, t ∈ c.walk := by
  rw [walk_eq, List.mem_cons, List.mem_flatMap]

theorem mem_walk_self (s : Scope) : s ∈ s.walk :=
  mem_walk_iff.2 (.inl rfl)

theorem mem_walk_of_mem_children (hc : c ∈ s.children) (ht : t ∈ c.walk) : t ∈ s.walk :=
  mem_walk_iff.2 (.inr ⟨c, hc, ht⟩)

/-! ## The search -/

/-- The search in a scope is the search among its children. -/
theorem enclosing_eq (s : Scope) (l : Location) :
    s.enclosing l = do return (← enclosingIn l s.children) ++ [s] := by
  cases s
  rw [enclosing]

/-- Among some scopes the search goes on in the first one that contains the location. -/
theorem enclosingIn_cases (h : ∀ s ∈ scopes, ∃ b, s.range.contains l = .ok b) :
    (∀ s ∈ scopes, s.range.contains l = .ok false) ∧ enclosingIn l scopes = .ok [] ∨
      ∃ before c after, scopes = before ++ c :: after ∧
        (∀ s ∈ before, s.range.contains l = .ok false) ∧ c.range.contains l = .ok true ∧
        enclosingIn l scopes = c.enclosing l := by
  induction scopes with
  | nil => exact .inl ⟨by simp, by rw [enclosingIn]⟩
  | cons s scopes ih =>
    obtain ⟨⟨b, hb⟩, hrest⟩ := List.forall_mem_cons.1 h
    rw [enclosingIn, hb, ok_bind]
    cases b with
    | true => exact .inr ⟨[], s, scopes, rfl, by simp, hb, rfl⟩
    | false =>
      rcases ih hrest with ⟨hnone, hfound⟩ | ⟨before, c, after, rfl, hbefore, hc, hfound⟩
      · exact .inl ⟨by simpa [hb] using hnone, hfound⟩
      · exact .inr ⟨s :: before, c, after, rfl, by simpa [hb] using hbefore, hc, hfound⟩

/-- Each scope that is met lies directly in the next one. -/
def Climbs (found : List Scope) : Prop := found.IsChain fun inner outer => inner ∈ outer.children

theorem Climbs.nodup (h : Climbs found) : found.Nodup := by
  have hsizes : (found.map size).IsChain (· < ·) :=
    (List.isChain_map size).2 (h.imp fun _ _ => size_lt_of_mem_children)
  exact List.Nodup.of_map size (hsizes.pairwise.imp Nat.ne_of_lt)

/-- The search climbs up to the scope where it starts. -/
theorem climbs_of_enclosing (hdecided : ∀ t ∈ s.walk, ∃ b, t.range.contains l = .ok b)
    (h : s.enclosing l = .ok found) : Climbs found ∧ s ∈ found.getLast? := by
  induction s using induction_on_children generalizing found with
  | h s ih =>
    have hchildren : ∀ c ∈ s.children, ∃ b, c.range.contains l = .ok b := fun c hc =>
      hdecided c (mem_walk_of_mem_children hc (mem_walk_self c))
    rw [enclosing_eq] at h
    obtain ⟨inner, hinner, h⟩ := bind_eq_ok.1 h
    cases h
    refine ⟨?_, by simp⟩
    rcases enclosingIn_cases hchildren with ⟨-, hnone⟩ | ⟨before, c, after, hmem, -, -, hfound⟩
    · rw [hnone] at hinner
      cases hinner
      exact .singleton s
    · rw [hfound] at hinner
      have hc : c ∈ s.children := by simp [hmem]
      obtain ⟨hclimbs, hlast⟩ :=
        ih c hc (fun t ht => hdecided t (mem_walk_of_mem_children hc ht)) hinner
      apply List.isChain_append.2
      refine ⟨hclimbs, .singleton s, ?_⟩
      intro t ht u hu
      cases hu
      rw [Option.mem_unique ht hlast]
      exact hc

/-! ## Scopes inside one another -/

/-- Every scope of a tree encloses its children. -/
def EnclosesAll (s : Scope) : Prop :=
  ∀ t ∈ s.walk, ∀ c ∈ t.children, t.range.encloses c.range = .ok true

/-- The ranges of a tree are given in numbers, and every scope but the root encloses its
children. -/
structure Nested (root : Scope) : Prop where
  numeric : ∀ s ∈ root.walk, s.range.IsNumeric
  encloses : ∀ c ∈ root.children, c.EnclosesAll

/-- No two siblings of a tree contain the location. -/
def Apart (root : Scope) (l : Location) : Prop :=
  ∀ s ∈ root.walk, s.children.Pairwise fun t u =>
    ¬(t.range.contains l = .ok true ∧ u.range.contains l = .ok true)

/-- The scopes that contain the location. -/
def containing (l : Location) (scopes : List Scope) : List Scope :=
  scopes.filter fun s => s.range.contains l = .ok true

theorem containing_append (scopes more : List Scope) :
    containing l (scopes ++ more) = containing l scopes ++ containing l more :=
  List.filter_append scopes more

theorem containing_cons (h : s.range.contains l = .ok true) :
    containing l (s :: scopes) = s :: containing l scopes :=
  List.filter_cons_of_pos (by simp [h])

theorem EnclosesAll.of_mem_children (h : s.EnclosesAll) (hc : c ∈ s.children) : c.EnclosesAll :=
  fun _ ht => h _ (mem_walk_of_mem_children hc ht)

theorem Nested.of_mem_children (h : root.Nested) (hc : c ∈ root.children) : c.Nested where
  numeric _ ht := h.numeric _ (mem_walk_of_mem_children hc ht)
  encloses _ ht := (h.encloses c hc).of_mem_children ht

theorem Apart.of_mem_children (h : root.Apart l) (hc : c ∈ root.children) : c.Apart l :=
  fun _ ht => h _ (mem_walk_of_mem_children hc ht)

section Search

variable (hl : l.numbers?.isSome = true)

include hl

/-- If a scope does not contain a location, no scope inside it does. -/
theorem Nested.containing_walk_eq_nil (h : s.Nested) (hencloses : s.EnclosesAll)
    (hs : s.range.contains l = .ok false) : containing l s.walk = [] := by
  induction s using induction_on_children with
  | h s ih =>
    have hrest : ∀ c ∈ s.children, containing l c.walk = [] := by
      intro c hc
      have hchild := h.of_mem_children hc
      have hnumeric := hchild.numeric c (mem_walk_self c)
      obtain ⟨b, hb⟩ := Range.exists_contains hnumeric hl
      cases b with
      | false => exact ih c hc hchild (hencloses.of_mem_children hc) hb
      | true =>
        -- What contains the location is not enclosed by what does not.
        have hcontains := Range.contains_of_encloses (h.numeric s (mem_walk_self s)) hnumeric hl
          (hencloses s (mem_walk_self s) c hc) hb
        rw [hs] at hcontains
        cases hcontains
    rw [containing, walk_eq, List.filter_cons_of_neg (by simp [hs]), List.filter_flatMap]
    exact List.flatMap_eq_nil_iff.2 hrest

/-- Among siblings no scope contains the location except inside those that contain it. -/
theorem Nested.containing_flatMap_eq_nil (h : root.Nested)
    (hnone : ∀ s ∈ scopes, s ∈ root.children ∧ s.range.contains l = .ok false) :
    containing l (scopes.flatMap walk) = [] := by
  rw [containing, List.filter_flatMap]
  apply List.flatMap_eq_nil_iff.2
  intro s hs
  obtain ⟨hmem, hcontains⟩ := hnone s hs
  exact (h.of_mem_children hmem).containing_walk_eq_nil hl (h.encloses s hmem) hcontains

/-- The search meets the scopes below the root that contain the location, from the inside
outwards, and then the root. -/
theorem Nested.enclosing_eq (h : root.Nested) (hapart : root.Apart l) :
    root.enclosing l = .ok ((containing l root.walk.tail).reverse ++ [root]) := by
  induction root using induction_on_children with
  | h s ih =>
    have hdecided : ∀ c ∈ s.children, ∃ b, c.range.contains l = .ok b := by
      intro c hc
      exact Range.exists_contains (h.numeric c (mem_walk_of_mem_children hc (mem_walk_self c))) hl
    have hfound : enclosingIn l s.children = .ok (containing l s.walk.tail).reverse := by
      rw [walk_eq, List.tail_cons]
      rcases enclosingIn_cases hdecided with
        ⟨hnone, hfound⟩ | ⟨before, c, after, hchildren, hbefore, hc, hfound⟩
      · rw [hfound, h.containing_flatMap_eq_nil hl fun c hc => ⟨hc, hnone c hc⟩]
        rfl
      · have hmem : c ∈ s.children := by simp [hchildren]
        have hrest : ∀ t ∈ after, t.range.contains l = .ok false := by
          intro t ht
          obtain ⟨b, hb⟩ := hdecided t (by simp [hchildren, ht])
          cases b with
          | false => exact hb
          | true =>
            -- A sibling of the scope that is followed does not contain the location.
            have hpairs := hapart s (mem_walk_self s)
            rw [hchildren, List.pairwise_append, List.pairwise_cons] at hpairs
            exact absurd ⟨hc, hb⟩ (hpairs.2.1.1 t ht)
        have hnone : containing l (before.flatMap walk) = [] := h.containing_flatMap_eq_nil hl
          fun t ht => ⟨by simp [hchildren, ht], hbefore t ht⟩
        have hnone' : containing l (after.flatMap walk) = [] := h.containing_flatMap_eq_nil hl
          fun t ht => ⟨by simp [hchildren, ht], hrest t ht⟩
        rw [hfound, ih c hmem (h.of_mem_children hmem) (hapart.of_mem_children hmem), hchildren,
          List.flatMap_append, List.flatMap_cons, containing_append, containing_append, hnone,
          hnone',
          List.nil_append, List.append_nil, walk_eq c, List.tail_cons, containing_cons hc,
          List.reverse_cons]
    rw [Scope.enclosing_eq, hfound]
    rfl

end Search

/-! ## Visible names -/

/-- The binding of a name in a scope, with the name as it is spelled there. -/
def entry? (s : Scope) (name : Scalar) : Option (Scalar × Binding) :=
  s.bindings.find? fun x => x.1.key == name.key

theorem lookup_listed (s : Scope) (depth : Nat) (name : Scalar) :
    lookup (s.listed depth) name = (s.entry? name).map fun x => ⟨x.1, depth, x.2⟩ := by
  rw [lookup, listed, List.find?_map]
  rfl

/-- The entry of a name is that of the first scope that binds it. -/
theorem lookup_visibleFrom_eq_some {depth : Nat} {name : Scalar} {v : Visible} :
    lookup (visibleFrom depth scopes) name = some v ↔
      ∃ i s, v.depth = depth + i ∧ scopes[i]? = some s ∧
        s.entry? name = some (v.name, v.binding) ∧
        ∀ t ∈ scopes.take i, t.entry? name = none := by
  induction scopes generalizing depth with
  | nil => simp [visibleFrom, lookup]
  | cons s scopes ih =>
    rw [lookup_visibleFrom_cons, lookup_listed]
    cases hentry : s.entry? name with
    | some x =>
      -- The innermost scope decides.
      rw [Option.map_some, Option.some_or]
      constructor
      · rintro h
        cases h
        exact ⟨0, s, rfl, rfl, hentry, by simp⟩
      · rintro ⟨i, t, hdepth, ht, hv, hnone⟩
        cases i with
        | zero =>
          cases ht
          rw [hentry] at hv
          cases hv
          rw [← hdepth.trans (Nat.add_zero depth)]
        | succ i =>
          rw [hnone s (by simp)] at hentry
          cases hentry
    | none =>
      rw [Option.map_none, Option.none_or, ih]
      constructor
      · rintro ⟨i, t, hdepth, ht, hv, hnone⟩
        refine ⟨i + 1, t, by omega, ht, hv, ?_⟩
        simpa [hentry] using hnone
      · rintro ⟨i, t, hdepth, ht, hv, hnone⟩
        cases i with
        | zero =>
          cases ht
          rw [hentry] at hv
          cases hv
        | succ i => exact ⟨i, t, by omega, ht, hv, fun u hu => hnone u (by simp [hu])⟩

theorem nodup_addVisible {seen : List Visible} (h : (seen.map (·.name.key)).Nodup) (v : Visible) :
    ((addVisible seen v).map (·.name.key)).Nodup := by
  rw [addVisible]
  split
  · exact h
  · rename_i hnew
    rw [List.map_append, List.nodup_append']
    refine ⟨h, List.nodup_singleton _, ?_⟩
    intro key hkey hv
    obtain ⟨w, hw, rfl⟩ := List.mem_map.1 hkey
    apply hnew
    apply List.any_eq_true.2
    exact ⟨w, hw, beq_iff_eq.2 (List.mem_singleton.1 hv)⟩

/-- No name is listed twice. -/
theorem nodup_visibleFrom (depth : Nat) (scopes : List Scope) :
    ((visibleFrom depth scopes).map (·.name.key)).Nodup := by
  rw [visibleFrom]
  generalize (scopes.zipIdx depth).flatMap _ = vs
  have hall : ∀ seen : List Visible, (seen.map (·.name.key)).Nodup →
      ((vs.foldl addVisible seen).map (·.name.key)).Nodup := by
    induction vs with
    | nil => exact fun seen h => h
    | cons v vs ih => exact fun seen h => ih _ (nodup_addVisible h v)
  exact hall [] List.nodup_nil

/-! ## All scopes around a location -/

/-- In a tree whose scopes below the root lie inside one another, and in which no two siblings
contain the location, the search answers. It lists the root last and, before it, exactly the scopes
below the root that contain the location, each once and each directly before its parent. The names
that can be used at the location are listed once each: the ones bound in these scopes, with the
binding of the first scope that binds them. -/
theorem enclosing_visible_of_nested (h : root.Nested) (hapart : root.Apart l)
    (hl : l.numbers?.isSome = true) :
    ∃ found visible, root.enclosing l = .ok found ∧ root.visible l = .ok visible ∧
      found = (root.walk.tail.filter fun s => s.range.contains l = .ok true).reverse ++ [root] ∧
      found.Nodup ∧ (found.IsChain fun inner outer => inner ∈ outer.children) ∧
      (visible.map (·.name.key)).Nodup ∧
      ∀ name v, lookup visible name = some v ↔
        ∃ s, found[v.depth]? = some s ∧ s.entry? name = some (v.name, v.binding) ∧
          ∀ t ∈ found.take v.depth, t.entry? name = none := by
  have hfound := h.enclosing_eq hl hapart
  generalize hall : (containing l root.walk.tail).reverse ++ [root] = found at hfound
  obtain ⟨hclimbs, -⟩ := climbs_of_enclosing
    (fun t ht => Range.exists_contains (h.numeric t ht) hl) hfound
  have hvisible : root.visible l = .ok (visibleFrom 0 found) := by
    rw [Scope.visible, hfound]
    rfl
  refine ⟨found, _, hfound, hvisible, hall.symm, hclimbs.nodup, hclimbs, nodup_visibleFrom 0 found,
    ?_⟩
  intro name v
  rw [lookup_visibleFrom_eq_some]
  constructor
  · rintro ⟨i, s, hdepth, hs, hv, hnone⟩
    rw [Nat.zero_add] at hdepth
    exact ⟨s, hdepth ▸ hs, hv, hdepth ▸ hnone⟩
  · rintro ⟨s, hs, hv, hnone⟩
    exact ⟨v.depth, s, (Nat.zero_add _).symm, hs, hv, hnone⟩

end Scope

section Closures

open Sample Scope

/-- A scope in one line that binds some names. -/
def Sample.scope (name : String) (start stop : Nat) (names : List String)
    (children : List Scope) : Scope :=
  ⟨.block, .string name, ⟨⟨.int 1, .int start⟩, ⟨.int 1, .int stop⟩⟩,
    names.map fun n => (.string n, ⟨.var, [], []⟩), children⟩

/-- Two functions, one of which holds another one, in a layer that is wider than the root. -/
def closures : Scope :=
  scope "Global" 2 20 ["a", "b"] [scope "Lexical Global" 0 30 [] [
    scope "outer" 4 14 ["a"] [scope "inner" 6 10 ["c"] []], scope "other" 16 18 ["a"] []]]

example : (closures.enclosing ⟨.int 1, .int 8⟩).map (·.map (·.name)) =
    .ok [.string "inner", .string "outer", .string "Lexical Global", .string "Global"] := by
  decide +kernel

theorem enclosing_visible_of_nested_closures :
    closures.Nested ∧ closures.Apart ⟨.int 1, .int 8⟩ ∧
      (⟨.int 1, .int 8⟩ : Location).numbers?.isSome = true ∧
      ∃ found visible, closures.enclosing ⟨.int 1, .int 8⟩ = .ok found ∧
        closures.visible ⟨.int 1, .int 8⟩ = .ok visible ∧
        found = (closures.walk.tail.filter fun s =>
          s.range.contains ⟨.int 1, .int 8⟩ = .ok true).reverse ++ [closures] ∧
        found.Nodup ∧ (found.IsChain fun inner outer => inner ∈ outer.children) ∧
        (visible.map (·.name.key)).Nodup ∧
        ∀ name v, lookup visible name = some v ↔
          ∃ s, found[v.depth]? = some s ∧ s.entry? name = some (v.name, v.binding) ∧
            ∀ t ∈ found.take v.depth, t.entry? name = none := by
  have hnumeric : ∀ s ∈ closures.walk, s.range.IsNumeric := by decide +kernel
  have hencloses : ∀ c ∈ closures.children, ∀ t ∈ c.walk, ∀ u ∈ t.children,
      t.range.encloses u.range = .ok true := by decide +kernel
  have hapart : ∀ s ∈ closures.walk, s.children.Pairwise fun t u =>
      ¬(t.range.contains ⟨.int 1, .int 8⟩ = .ok true ∧
        u.range.contains ⟨.int 1, .int 8⟩ = .ok true) := by decide +kernel
  have hnested : closures.Nested := ⟨hnumeric, hencloses⟩
  exact ⟨hnested, hapart, rfl, enclosing_visible_of_nested hnested hapart rfl⟩

end Closures

end LexicalScopes
