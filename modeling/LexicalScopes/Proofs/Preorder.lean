import LexicalScopes.Proofs.Shape.Walk
import LexicalScopes.Proofs.Ways

/-!
# The walk through a scope tree

The walk keeps a list of the trees that are still to come and puts the children of a scope in front
of it. What it lists is the recursive pre-order. Each scope occurs in a tree at the end of a way,
and two scopes that are alike stand at the ends of different ways; the walk meets the ends of all
ways, each once and in the order of the ways.
-/

namespace LexicalScopes.Scope

variable {s t : Scope} {way : Way}

/-! ## Pre-order -/

mutual

/-- The scope, then the pre-orders of its children from left to right. -/
def preorder : Scope → List Scope
  | ⟨type, name, range, bindings, children⟩ =>
    ⟨type, name, range, bindings, children⟩ :: preorderAll children

def preorderAll : List Scope → List Scope
  | [] => []
  | s :: rest => s.preorder ++ preorderAll rest

end

theorem preorderAll_eq_flatMap (scopes : List Scope) :
    preorderAll scopes = scopes.flatMap preorder := by
  induction scopes with
  | nil => rw [preorderAll, List.flatMap_nil]
  | cons s rest ih => rw [preorderAll, ih, List.flatMap_cons]

theorem preorder_eq (s : Scope) : s.preorder = s :: s.children.flatMap preorder := by
  cases s
  rw [preorder, preorderAll_eq_flatMap]

theorem walk_eq_preorder (s : Scope) : s.walk = s.preorder := by
  induction s using induction_on_children with
  | h s ih => rw [walk_eq, preorder_eq, List.flatMap_congr ih]

/-! ## Occurrences -/

/-- The scope to which a way leads. -/
def descend? : Scope → Way → Option Scope
  | s, [] => some s
  | s, i :: way => s.children[i]?.bind fun c => c.descend? way

/-- All scopes of a tree with the ways that lead to them. -/
def placed (s : Scope) : List (Way × Scope) :=
  ([], s) :: Way.fromAbove (s.children.attach.map fun ⟨c, _⟩ => c.placed)
termination_by s.size
decreasing_by exact size_lt_of_mem_children ‹_›

theorem placed_eq (s : Scope) :
    s.placed = ([], s) :: Way.fromAbove (s.children.map placed) := by
  rw [placed, List.map_subtype (g := placed) (fun _ _ => rfl), List.unattach_attach]

theorem map_snd_placed (s : Scope) : s.placed.map (·.2) = s.walk := by
  induction s using induction_on_children with
  | h s ih =>
    rw [placed_eq, List.map_cons, Way.map_snd_fromAbove, List.flatMap_map, walk_eq,
      List.flatMap_congr ih]

theorem inOrder_placed (s : Scope) : Way.InOrder s.placed := by
  induction s using induction_on_children with
  | h s ih =>
    rw [placed_eq]
    refine (Way.inOrder_fromAbove fun inner hinner => ?_).cons_fromAbove
    obtain ⟨c, hc, rfl⟩ := List.mem_map.1 hinner
    exact ih c hc

theorem mem_placed_iff : (way, t) ∈ s.placed ↔ s.descend? way = some t := by
  induction s using induction_on_children generalizing way with
  | h s ih =>
    rw [placed_eq, List.mem_cons, Way.mem_fromAbove]
    cases way with
    | nil => simp [descend?, eq_comm]
    | cons i way =>
      simp only [descend?, Option.bind_eq_some_iff, List.getElem?_map, Option.map_eq_some_iff]
      constructor
      · rintro (h | ⟨_, _, _, ⟨c, hc, rfl⟩, ⟨⟩, ht⟩)
        · cases h
        · exact ⟨c, hc, (ih c (List.mem_of_getElem? hc)).1 ht⟩
      · rintro ⟨c, hc, ht⟩
        exact .inr ⟨i, _, way, ⟨c, hc, rfl⟩, rfl, (ih c (List.mem_of_getElem? hc)).2 ht⟩

/-- The walk is the recursive pre-order. It lists the scopes to which the ways of the tree lead: the
ways in their order, so each of them once, and a way before those that lead on from its end. -/
theorem walk_in_order (s : Scope) :
    s.walk = s.preorder ∧
      ∃ ways : List Way, s.walk.map some = ways.map s.descend? ∧
        (∀ way, way ∈ ways ↔ (s.descend? way).isSome = true) ∧ ways.Pairwise (· < ·) ∧
        ways.Nodup ∧ ways.Pairwise fun earlier later => ¬later <+: earlier := by
  have hsorted : (s.placed.map (·.1)).Pairwise (· < ·) := List.pairwise_map.2 s.inOrder_placed
  refine ⟨s.walk_eq_preorder, s.placed.map (·.1), ?_, fun way => ?_, hsorted,
    hsorted.nodup, hsorted.imp fun hlt hprefix => ?_⟩
  · rw [← map_snd_placed, List.map_map, List.map_map]
    exact List.map_congr_left fun x hx => (mem_placed_iff.1 hx).symm
  · rw [Option.isSome_iff_exists, List.mem_map]
    constructor
    · rintro ⟨⟨_, t⟩, ht, rfl⟩
      exact ⟨t, mem_placed_iff.1 ht⟩
    · rintro ⟨t, ht⟩
      exact ⟨(way, t), mem_placed_iff.2 ht, rfl⟩
  · -- A way that leads on is greater, and the later way is no less than the earlier one.
    exact List.IsPrefix.le hprefix hlt

end LexicalScopes.Scope
