import LexicalScopes.Proofs.Graph.Growth
import LexicalScopes.Proofs.Samples
import Mathlib.Data.List.Count

/-!
# Additions

Adding to a graph of scopes only ever extends it, whatever is added and in whatever order: a scope
keeps its names in their order and new ones come last, a binding keeps its kind and its reads and
gets its further declarations last. A malformed pattern is no exception, for what it declares before
the fault is found is declared like any other name.
-/

namespace LexicalScopes

namespace Graph

variable {g g' : Graph} {s : ScopeId} {name : Scalar} {kind : BindingKind} {loc : Option Json}
  {type : ScopeType} {label place : Json} {parent : Option ScopeId}

/-! ## Well-formed graphs -/

/-- Scopes share neither bindings nor lists of children, no scope lists a name twice, and a scope
lies in another one, made before it, exactly if it occurs, once, among the children of that. -/
structure WellFormed (g : Graph) : Prop where
  unshared : g.Unshared
  ownsLists : g.OwnsLists
  parent_lt : ∀ s p, g.parent? s = some p → p < s
  count_children : ∀ p < g.nextScope, ∀ s,
    (g.children p).count s = if g.parent? s = some p then 1 else 0

/-- Every graph that additions alone have made is well-formed. -/
theorem Valid.wellFormed (hg : g.Valid) : g.WellFormed where
  unshared := hg.owns.unshared
  ownsLists := hg.forest.ownsLists
  parent_lt := hg.forest.parent_lt
  count_children p hp s := by
    have hnodup := (List.nodup_range (n := g.nextScope)).filter fun t => g.parent? t = some p
    rw [hg.forest.children_eq p hp, hnodup.count]
    simp only [List.mem_filter, List.mem_range, decide_eq_true_eq]
    by_cases hparent : g.parent? s = some p
    · rw [if_pos ⟨lt_of_parent? hparent, hparent⟩, if_pos hparent]
    · rw [if_neg fun h => hparent h.2, if_neg hparent]

theorem Unshared.addScope (hg : g.Unshared) : (g.addScope type label place parent).Unshared :=
  hg.of_bindings rfl fun _ => bindings_addScope

theorem OwnsLists.addScope (hg : g.OwnsLists) :
    (g.addScope type label place parent).OwnsLists where
  stored s hs := by
    rw [nextScope_addScope] at hs
    rw [childLists_size_addScope, draft_addScope]
    split
    · exact Nat.lt_succ_self _
    · rename_i hold
      exact Nat.lt_succ_of_lt (hg.stored s (Nat.lt_of_le_of_ne (Nat.le_of_lt_succ hs) hold))
  inj s hs t ht h := by
    rw [nextScope_addScope] at hs ht
    rw [draft_addScope, draft_addScope] at h
    by_cases hnew : s = g.nextScope <;> by_cases hnew' : t = g.nextScope
    · rw [hnew, hnew']
    · have hlt := hg.stored t (Nat.lt_of_le_of_ne (Nat.le_of_lt_succ ht) hnew')
      rw [if_pos hnew, if_neg hnew'] at h
      exact absurd h (Nat.ne_of_gt hlt)
    · have hlt := hg.stored s (Nat.lt_of_le_of_ne (Nat.le_of_lt_succ hs) hnew)
      rw [if_neg hnew, if_pos hnew'] at h
      exact absurd h (Nat.ne_of_lt hlt)
    · rw [if_neg hnew, if_neg hnew'] at h
      exact hg.inj s (Nat.lt_of_le_of_ne (Nat.le_of_lt_succ hs) hnew) t
        (Nat.lt_of_le_of_ne (Nat.le_of_lt_succ ht) hnew') h

/-- The new scope is a child of its parent, once, and of nothing else. -/
theorem WellFormed.addScope (hg : g.WellFormed)
    (hparent : ∀ p, parent = some p → p < g.nextScope) :
    (g.addScope type label place parent).WellFormed where
  unshared := hg.unshared.addScope
  ownsLists := hg.ownsLists.addScope
  parent_lt := parent_lt_addScope hg.parent_lt hparent
  count_children p hp s := by
    rw [nextScope_addScope] at hp
    rw [hg.ownsLists.children_addScope hparent hp]
    by_cases hnew : p = g.nextScope
    · rw [if_pos hnew, List.count_nil, hnew, if_neg]
      exact parent?_addScope_ne hg.parent_lt hparent s
    · have hold := hg.count_children p (Nat.lt_of_le_of_ne (Nat.le_of_lt_succ hp) hnew) s
      rw [if_neg hnew, parent?_addScope]
      by_cases hs : s = g.nextScope
      · -- The new scope was in none of the lists before.
        rw [hs, parent?_of_le (Nat.le_refl _), if_neg (Option.some_ne_none p).symm] at hold
        rw [hs, if_pos rfl]
        split
        · rw [List.count_append, hold, List.count_singleton_self]
        · exact hold
      · rw [if_neg hs, ← hold]
        split
        · rw [List.count_append, List.count_singleton, if_neg (by simpa using Ne.symm hs),
            Nat.add_zero]
        · rfl

theorem OwnsLists.declare (hg : g.OwnsLists) : (g.declare s name kind loc).OwnsLists where
  stored t ht := by
    rw [childList_declare, childLists_declare]
    exact hg.stored t (nextScope_declare ▸ ht)
  inj t ht u hu h := by
    rw [childList_declare, childList_declare] at h
    exact hg.inj t (nextScope_declare ▸ ht) u (nextScope_declare ▸ hu) h

theorem WellFormed.declare (hg : g.WellFormed) (hs : s < g.nextScope) :
    (g.declare s name kind loc).WellFormed where
  unshared := hg.unshared.declare hs
  ownsLists := hg.ownsLists.declare
  parent_lt t p h := hg.parent_lt t p (parent?_declare ▸ h)
  count_children p hp t := by
    rw [parent?_declare, children, childList_declare, childLists_declare]
    exact hg.count_children p (nextScope_declare ▸ hp) t

/-! ## Declarations in one scope -/

/-- Any number of declarations in the scope lead from one graph to the other. -/
abbrev DeclaresIn (s : ScopeId) : Graph → Graph → Prop :=
  Relation.ReflTransGen fun g g' => ∃ name kind loc, g' = g.declare s name kind loc

theorem DeclaresIn.keeps (h : DeclaresIn s g g') (hg : g.WellFormed) (hs : s < g.nextScope) :
    g'.WellFormed ∧ g'.nextScope = g.nextScope ∧ Extends (· = s) g g' := by
  induction h with
  | refl => exact ⟨hg, rfl, .refl _ g⟩
  | tail _ hstep ih =>
    obtain ⟨name, kind, loc, rfl⟩ := hstep
    obtain ⟨hwell, hnext, hextends⟩ := ih
    rw [← hnext] at hs
    refine ⟨hwell.declare hs, ?_, hextends.trans (extends_declare hwell.unshared hs)⟩
    rw [nextScope_declare, hnext]

theorem declaresIn_declare : DeclaresIn s g (g.declare s name kind loc) :=
  .single ⟨name, kind, loc, rfl⟩

theorem declaresIn_declareImplicit (names : List String) :
    DeclaresIn s g (g.declareImplicit s names) := by
  induction names generalizing g with
  | nil => exact .refl
  | cons name names ih =>
    rw [declareImplicit, List.foldl_cons]
    exact declaresIn_declare.trans ih

/-- The graph that a step leaves behind, whether it fails or not. -/
def ofResult {α : Type} : EStateM.Result Cause Graph α → Graph
  | .ok _ g => g
  | .error _ g => g

theorem declaresIn_declareAll (bounds : List (Except Cause BoundName)) :
    DeclaresIn s g (ofResult (declareAll s kind bounds g)) := by
  induction bounds generalizing g with
  | nil => exact .refl
  | cons bound bounds ih =>
    cases bound with
    | ok bound => exact declaresIn_declare.trans ih
    | error fault => exact .refl

/-! ## Additions -/

/-- Something that is added to a graph: a scope, a declaration, names that the source does not
declare, or the names that a pattern binds. -/
inductive Addition where
  | scope (type : ScopeType) (label loc : Json) (parent : Option ScopeId)
  | declaration (s : ScopeId) (name : Scalar) (kind : BindingKind) (loc : Option Json)
  | implicit (s : ScopeId) (names : List String)
  | pattern (s : ScopeId) (target : Json) (kind : BindingKind)

namespace Addition

/-- The graph afterwards. A pattern that turns out to be malformed leaves the names before the
fault behind. -/
def apply (g : Graph) : Addition → Graph
  | .scope type label loc parent => g.addScope type label loc parent
  | .declaration s name kind loc => g.declare s name kind loc
  | .implicit s names => g.declareImplicit s names
  | .pattern s target kind => ofResult (declarePattern s target kind g)

/-- The scope in which names are declared. -/
def target? : Addition → Option ScopeId
  | .scope _ _ _ _ => none
  | .declaration s _ _ _ => some s
  | .implicit s _ => some s
  | .pattern s _ _ => some s

/-- The scope that has to be there. -/
def place? : Addition → Option ScopeId
  | .scope _ _ _ parent => parent
  | .declaration s _ _ _ => some s
  | .implicit s _ => some s
  | .pattern s _ _ => some s

/-- How many scopes are made. -/
def makes : Addition → Nat
  | .scope _ _ _ _ => 1
  | _ => 0

/-- One after the other finds the scope that has to be there, if `made` scopes are there at
first. -/
def fit (made : Nat) : List Addition → Bool
  | [] => true
  | a :: rest => a.place?.all (· < made) && fit (made + a.makes) rest

/-- A declaration in a scope is one of the additions. -/
def Touches (additions : List Addition) (s : ScopeId) : Prop := ∃ a ∈ additions, a.target? = some s

/-- The addition extends the graph, in no scope but its own. -/
structure Keeps (g : Graph) (a : Addition) : Prop where
  wellFormed : (a.apply g).WellFormed
  nextScope_eq : (a.apply g).nextScope = g.nextScope + a.makes
  extension : Extends (a.target? = some ·) g (a.apply g)

theorem keeps_of_declaresIn {a : Addition} (h : DeclaresIn s g (a.apply g)) (hg : g.WellFormed)
    (hs : s < g.nextScope) (htarget : a.target? = some s) (hmakes : a.makes = 0) : Keeps g a := by
  obtain ⟨hwell, hnext, hextends⟩ := h.keeps hg hs
  refine ⟨hwell, ?_, hextends.mono fun t ht => ?_⟩
  · rw [hnext, hmakes, Nat.add_zero]
  · rw [htarget, ht]

theorem keeps (a : Addition) (hg : g.WellFormed) (hplace : a.place?.all (· < g.nextScope) = true) :
    Keeps g a := by
  cases a with
  | scope type label loc parent =>
    have hparent : ∀ p, parent = some p → p < g.nextScope := by
      rintro p rfl
      exact of_decide_eq_true hplace
    exact ⟨hg.addScope hparent, nextScope_addScope, extends_addScope⟩
  | declaration s name kind loc =>
    exact keeps_of_declaresIn declaresIn_declare hg (of_decide_eq_true hplace) rfl rfl
  | implicit s names =>
    exact keeps_of_declaresIn (declaresIn_declareImplicit names) hg (of_decide_eq_true hplace) rfl
      rfl
  | pattern s target kind =>
    exact keeps_of_declaresIn (declaresIn_declareAll _) hg (of_decide_eq_true hplace) rfl rfl

end Addition

/-- The graph after some additions. -/
def extend (g : Graph) (additions : List Addition) : Graph := additions.foldl Addition.apply g

/-- Whatever is added to a well-formed graph, it stays well-formed and is only extended, and the
scopes in which nothing is declared bind what they bound. -/
theorem additions_extend {additions : List Addition} (hg : g.WellFormed)
    (hfit : Addition.fit g.nextScope additions = true) :
    (g.extend additions).WellFormed ∧
      Extends (Addition.Touches additions) g (g.extend additions) := by
  induction additions generalizing g with
  | nil => exact ⟨hg, .refl _ g⟩
  | cons a rest ih =>
    obtain ⟨hplace, hrest⟩ := Bool.and_eq_true_iff.1 hfit
    obtain ⟨hwell, hnext, hfirst⟩ := a.keeps hg hplace
    rw [← hnext] at hrest
    obtain ⟨hwell', hlater⟩ := ih hwell hrest
    refine ⟨hwell', .trans (hfirst.mono fun s hs => ?_) (hlater.mono fun s hs => ?_)⟩
    · exact ⟨a, List.mem_cons_self, hs⟩
    · obtain ⟨b, hb, htarget⟩ := hs
      exact ⟨b, List.mem_cons_of_mem a hb, htarget⟩

end Graph

namespace Sample

/-- A module with a function in it. -/
def nestedGraph : Graph :=
  (({} : Graph).addScope .moduleLayer (.string "Module") (place 0) none).addScope
    .function (.string "f") (place 1) (some 0)

/-- The function binds `x`. -/
def declaredGraph : Graph := nestedGraph.declare 1 (.string "x") .lexical (some (place 2))

/-- And `x` is read once. -/
def readGraph : Graph := declaredGraph.addReference 0 ⟨place 3, place 4, []⟩

theorem wellFormed_readGraph : readGraph.WellFormed := by
  have hmodule : (({} : Graph).addScope .moduleLayer (.string "Module") (place 0) none).Valid :=
    (Graph.Step.addScope _ _ _ (by nofun)).valid .empty
  have hnested : nestedGraph.Valid := (Graph.Step.addScope _ _ _ (by decide)).valid hmodule
  have hdeclared : declaredGraph.Valid := (Graph.Step.declare _ _ _ (by decide)).valid hnested
  have hfind : declaredGraph.find? 1 (.string "x") = some 0 := by decide
  exact ((Graph.Step.addReference _ hfind).valid hdeclared).wellFormed

/-- `{x, }` with nothing in the place of the second property. -/
def emptySlot : Json :=
  .object (node "ObjectPattern" 5 9 [("properties", .array [
    .object (node "Property" 6 7 [("key", .object (identifier "x" 6)),
      ("value", .object (identifier "x" 6)), ("computed", .bool false)]), .null])])

/-- `x` is introduced and declared once more where it is bound, in the second case by a pattern that
is malformed, and then declared in a new scope. -/
def redeclarations : List Graph.Addition :=
  [.implicit 1 ["x", "this"], .pattern 1 emptySlot .var,
    .scope .block (.string "Block") (place 10) (some 1),
    .declaration 2 (.string "x") .constant (some (place 12))]

end Sample

open Sample

theorem Graph.additions_extend_redeclarations :
    readGraph.WellFormed ∧ Graph.Addition.fit readGraph.nextScope redeclarations = true ∧
      (readGraph.extend redeclarations).WellFormed ∧
      Graph.Extends (Graph.Addition.Touches redeclarations) readGraph
        (readGraph.extend redeclarations) :=
  have hfit : Graph.Addition.fit readGraph.nextScope redeclarations = true := by decide
  ⟨wellFormed_readGraph, hfit, Graph.additions_extend wellFormed_readGraph hfit⟩

end LexicalScopes
