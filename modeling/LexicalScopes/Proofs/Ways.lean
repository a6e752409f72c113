import Mathlib.Data.List.Lex

/-!
# Ways through a tree

A way leads from a node of a tree to a node below it: on each level it says which child to take.
Ways are compared number by number, so a node comes before all nodes below it, and what is reached
through one child before what is reached through a later one. That is the order of a walk from left
to right.
-/

namespace LexicalScopes

/-- The children to take, from the outside inwards. -/
abbrev Way : Type := List Nat

namespace Way

variable {α : Type} {way : Way} {a : α} {found : List (List (Way × α))}

/-- What stands at the ends of ways is listed in the order of the ways, at most one thing for each
way. -/
def InOrder (listed : List (Way × α)) : Prop := listed.Pairwise (·.1 < ·.1)

/-- What was found below each of the children, on the ways from the node that holds them. -/
def fromAbove (found : List (List (Way × α))) : List (Way × α) :=
  found.zipIdx.flatMap fun (inner, i) => inner.map fun (way, a) => (i :: way, a)

theorem mem_fromAbove : (way, a) ∈ fromAbove found ↔
    ∃ i inner rest, found[i]? = some inner ∧ way = i :: rest ∧ (rest, a) ∈ inner := by
  simp only [fromAbove, List.mem_flatMap, List.mem_map, Prod.exists,
    List.mk_mem_zipIdx_iff_getElem?, Prod.mk.injEq]
  constructor
  · rintro ⟨inner, i, hinner, rest, b, hrest, rfl, rfl⟩
    exact ⟨i, inner, rest, hinner, rfl, hrest⟩
  · rintro ⟨i, inner, rest, hinner, rfl, hrest⟩
    exact ⟨inner, i, hinner, rest, a, hrest, rfl, rfl⟩

theorem map_snd_fromAbove : (fromAbove found).map (·.2) = found.flatMap (·.map (·.2)) := by
  have hchild (x : List (Way × α) × Nat) :
      (x.1.map fun (y : Way × α) => (x.2 :: y.1, y.2)).map (·.2) = x.1.map (·.2) := by
    rw [List.map_map]
    rfl
  calc (fromAbove found).map (·.2)
      = found.zipIdx.flatMap fun x => x.1.map (·.2) := by
        rw [fromAbove, List.map_flatMap]
        exact List.flatMap_congr fun x _ => hchild x
    _ = (found.zipIdx.map (·.1)).flatMap (·.map (·.2)) := (List.flatMap_map ..).symm
    _ = found.flatMap (·.map (·.2)) := by rw [List.zipIdx_map_fst]

/-- Below each child in order, and the children in order. -/
theorem inOrder_fromAbove (h : ∀ inner ∈ found, InOrder inner) : InOrder (fromAbove found) := by
  rw [InOrder, fromAbove, List.pairwise_flatMap]
  constructor
  · rintro ⟨inner, i⟩ hinner
    rw [List.pairwise_map]
    refine (h inner (List.fst_mem_of_mem_zipIdx hinner)).imp fun hlt => ?_
    exact List.cons_lt_cons_iff.2 (.inr ⟨rfl, hlt⟩)
  · have hnumbers : (found.zipIdx.map (·.2)).Pairwise (· < ·) := by
      rw [List.zipIdx_map_snd]
      exact List.pairwise_lt_range'
    refine (List.pairwise_map.1 hnumbers).imp fun hlt x hx y hy => ?_
    obtain ⟨x, -, rfl⟩ := List.mem_map.1 hx
    obtain ⟨y, -, rfl⟩ := List.mem_map.1 hy
    exact List.cons_lt_cons_iff.2 (.inl hlt)

/-- The node itself comes first. -/
theorem InOrder.cons_fromAbove (h : InOrder (fromAbove found)) :
    InOrder (([], a) :: fromAbove found) := by
  refine List.pairwise_cons.2 ⟨fun x hx => ?_, h⟩
  obtain ⟨i, inner, rest, -, hway, -⟩ := mem_fromAbove.1 hx
  rw [hway]
  exact List.nil_lt_cons i rest

/-- Before an entry stand exactly the ways that are less than its own. -/
theorem InOrder.filter_lt {before after : List (Way × α)}
    (h : InOrder (before ++ (way, a) :: after)) :
    (before ++ (way, a) :: after).filter (·.1 < way) = before := by
  obtain ⟨-, hrest, hbefore⟩ := List.pairwise_append.1 h
  have hafter := (List.pairwise_cons.1 hrest).1
  rw [List.filter_append, List.filter_eq_self.2, List.filter_eq_nil_iff.2, List.append_nil]
  · intro x hx
    rcases List.mem_cons.1 hx with rfl | hx
    · simp
    · simpa using (hafter x hx).le
  · intro x hx
    exact decide_eq_true (hbefore x hx _ List.mem_cons_self)

end Way

end LexicalScopes
