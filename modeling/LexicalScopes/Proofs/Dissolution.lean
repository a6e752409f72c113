import LexicalScopes.Proofs.Graph.Dissolved
import LexicalScopes.Proofs.Recording
import Mathlib.Data.List.Count

/-!
# Names below a dissolved layer

A module layer stands inside the lexical scope and the root. Once it is dissolved, all other scopes
are still there, every name below the layer leads to the binding that it led to before, and `var`
declarations that belonged to the layer belong to the root.
-/

namespace LexicalScopes

namespace Graph

variable {g : Graph} {root lexical layer s t p : ScopeId} {name : Scalar} {e : EntryId}

/-! ## Resolved bindings -/

/-- The binding that a name resolves to from a scope outwards. -/
def bindingOf? (g : Graph) (s : ScopeId) (name : Scalar) : Option EntryId :=
  (g.resolve s name).bind fun t => g.find? t name

theorem find?_bind_eq_findSome? {α β : Type} (f : α → Option β) (xs : List α) :
    (xs.find? fun x => (f x).isSome).bind f = xs.findSome? f := by
  induction xs with
  | nil => rfl
  | cons x xs ih => cases hx : f x <;> simp [hx, ih]

theorem findSome?_congr {α β : Type} {f f' : α → Option β} {xs : List α}
    (h : ∀ x ∈ xs, f x = f' x) : xs.findSome? f = xs.findSome? f' := by
  induction xs with
  | nil => rfl
  | cons x xs ih =>
    rw [List.findSome?_cons, List.findSome?_cons, h x List.mem_cons_self,
      ih fun y hy => h y (List.mem_cons_of_mem _ hy)]

theorem bindingOf?_eq_findSome? :
    g.bindingOf? s name = (g.chain s).findSome? fun t => g.find? t name :=
  find?_bind_eq_findSome? (fun t => g.find? t name) (g.chain s)

/-! ## Stacked layers -/

/-- Every scope lies inside one made before it, which lists it once, and no other scope lists it. -/
structure Linked (g : Graph) : Prop where
  ranked : g.Ranked
  nodup_children : ∀ s < g.nextScope, (g.children s).Nodup
  mem_children_iff : ∀ s < g.nextScope, ∀ t, t ∈ g.children s ↔ g.parent? t = some s

/-- The scopes that can be reached from a scope by way of lists of children. -/
def Reaches (g : Graph) : ScopeId → ScopeId → Prop :=
  Relation.ReflTransGen fun s t => t ∈ g.children s

/-- A root holds nothing but the lexical scope, which binds nothing and holds nothing but the module
layer. What the root and the layer bind, and what lies in the layer, is left open. -/
structure Stacked (g : Graph) (root lexical layer : ScopeId) : Prop where
  linked : g.Linked
  root_lt : root < g.nextScope
  parent_root : g.parent? root = none
  children_root : g.children root = [lexical]
  children_lexical : g.children lexical = [layer]
  type_lexical : (g.draft lexical).type = .block
  type_layer : (g.draft layer).type = .moduleLayer
  bindings_lexical : (g.draft lexical).bindings = []
  distinct_layer : ((g.draft layer).bindings.map (·.1.key)).Nodup

namespace Linked

theorem lt_of_mem_children (hg : g.Linked) (hs : s < g.nextScope) (h : t ∈ g.children s) :
    s < t ∧ t < g.nextScope := by
  have hparent := (hg.mem_children_iff s hs t).1 h
  exact ⟨hg.ranked t s hparent, lt_of_parent? hparent⟩

theorem le_of_reaches (hg : g.Linked) (hs : s < g.nextScope) (h : g.Reaches s t) :
    s ≤ t ∧ t < g.nextScope := by
  induction h with
  | refl => exact ⟨Nat.le_refl s, hs⟩
  | tail _ hchild ih =>
    obtain ⟨hlt, hnext⟩ := hg.lt_of_mem_children ih.2 hchild
    exact ⟨Nat.le_trans ih.1 (Nat.le_of_lt hlt), hnext⟩

end Linked

theorem Forest.linked (hg : g.Forest) : g.Linked where
  ranked := hg.ranked
  nodup_children s hs := by
    rw [hg.children_eq s hs]
    exact List.nodup_range.filter _
  mem_children_iff s hs t := by
    rw [hg.children_eq s hs, List.mem_filter, List.mem_range, decide_eq_true_iff]
    exact ⟨fun h => h.2, fun h => ⟨lt_of_parent? h, h⟩⟩

namespace Stacked

variable (h : g.Stacked root lexical layer)

include h

theorem parent_lexical : g.parent? lexical = some root :=
  (h.linked.mem_children_iff root h.root_lt lexical).1 (by simp [h.children_root])

theorem lexical_lt : lexical < g.nextScope := lt_of_parent? h.parent_lexical

theorem parent_layer : g.parent? layer = some lexical :=
  (h.linked.mem_children_iff lexical h.lexical_lt layer).1 (by simp [h.children_lexical])

theorem layer_lt : layer < g.nextScope := lt_of_parent? h.parent_layer

theorem root_lt_lexical : root < lexical := h.linked.ranked _ _ h.parent_lexical

theorem lexical_lt_layer : lexical < layer := h.linked.ranked _ _ h.parent_layer

theorem root_lt_layer : root < layer := Nat.lt_trans h.root_lt_lexical h.lexical_lt_layer

theorem dissolve_eq : g.dissolve root = .ok (g.dissolveLayer root lexical layer) := by
  rw [dissolve, layers, h.children_root]
  simp only [h.children_lexical, h.type_layer, if_true]
  rfl

/-! ## Parents and children -/

theorem parent?_eq (t : ScopeId) :
    (g.dissolveLayer root lexical layer).parent? t =
      if t ∈ g.children layer then some lexical else g.parent? t :=
  parent?_dissolveLayer h.lexical_lt fun _ hc => (h.linked.lt_of_mem_children h.layer_lt hc).2

theorem children_eq (t : ScopeId) :
    (g.dissolveLayer root lexical layer).children t =
      if t = lexical then g.children layer else g.children t :=
  children_dissolveLayer h.lexical_lt

/-- Only scopes made after the layer have another parent. -/
theorem parent?_eq_of_le (ht : t ≤ layer) :
    (g.dissolveLayer root lexical layer).parent? t = g.parent? t := by
  rw [h.parent?_eq, if_neg]
  intro hchild
  exact absurd (h.linked.lt_of_mem_children h.layer_lt hchild).1 (Nat.not_lt.2 ht)

theorem ranked : (g.dissolveLayer root lexical layer).Ranked := by
  intro s p hp
  rw [h.parent?_eq] at hp
  split at hp
  · rename_i hchild
    cases hp
    exact Nat.lt_trans h.lexical_lt_layer (h.linked.lt_of_mem_children h.layer_lt hchild).1
  · exact h.linked.ranked s p hp

/-- The scopes below the root are the lexical scope, the layer and those below the layer. -/
theorem reaches_root_iff :
    g.Reaches root s ↔ s = root ∨ s = lexical ∨ g.Reaches layer s := by
  constructor
  · intro hs
    induction hs with
    | refl => exact .inl rfl
    | @tail s t _ hchild ih =>
      rcases ih with rfl | rfl | hs
      · rw [h.children_root] at hchild
        exact .inr (.inl (List.mem_singleton.1 hchild))
      · rw [h.children_lexical] at hchild
        rw [List.mem_singleton.1 hchild]
        exact .inr (.inr .refl)
      · exact .inr (.inr (hs.tail hchild))
  · have hlexical : g.Reaches root lexical := .single (by simp [h.children_root])
    rintro (rfl | rfl | hs)
    · exact .refl
    · exact hlexical
    · exact (hlexical.tail (by simp [h.children_lexical])).trans hs

/-- A scope in the layer is still reached by way of the lexical scope. -/
theorem reaches_of_reaches_layer
    (hlexical : (g.dissolveLayer root lexical layer).Reaches root lexical)
    (hs : g.Reaches layer s) (hne : s ≠ layer) :
    (g.dissolveLayer root lexical layer).Reaches root s := by
  induction hs with
  | refl => exact absurd rfl hne
  | @tail s t hs hchild ih =>
    rcases Decidable.em (s = layer) with rfl | hsne
    · -- What the layer held is held by the lexical scope.
      refine hlexical.tail ?_
      rw [h.children_eq, if_pos rfl]
      exact hchild
    · refine (ih hsne).tail ?_
      have hle := (h.linked.le_of_reaches h.layer_lt hs).1
      rw [h.children_eq, if_neg (Nat.ne_of_gt (Nat.lt_of_lt_of_le h.lexical_lt_layer hle))]
      exact hchild

/-- Without the layer the scopes below the root are all others. -/
theorem reaches_dissolveLayer_iff :
    (g.dissolveLayer root lexical layer).Reaches root s ↔ g.Reaches root s ∧ s ≠ layer := by
  constructor
  · intro hs
    induction hs with
    | refl => exact ⟨.refl, Nat.ne_of_lt h.root_lt_layer⟩
    | @tail s t _ hchild ih =>
      obtain ⟨hs, hne⟩ := ih
      rw [h.children_eq] at hchild
      split at hchild
      · -- What the lexical scope holds now lay in the layer.
        have hlayer : g.Reaches root layer := h.reaches_root_iff.2 (.inr (.inr .refl))
        exact ⟨hlayer.tail hchild,
          Nat.ne_of_gt (h.linked.lt_of_mem_children h.layer_lt hchild).1⟩
      · rename_i hlexical
        refine ⟨hs.tail hchild, ?_⟩
        rintro rfl
        have hslt := (h.linked.le_of_reaches h.root_lt hs).2
        have hparent := (h.linked.mem_children_iff s hslt _).1 hchild
        rw [h.parent_layer] at hparent
        cases hparent
        exact hlexical rfl
  · rintro ⟨hs, hne⟩
    have hlexical : (g.dissolveLayer root lexical layer).Reaches root lexical := by
      refine .single ?_
      rw [h.children_eq, if_neg (Nat.ne_of_lt h.root_lt_lexical), h.children_root]
      exact List.mem_singleton_self _
    rcases h.reaches_root_iff.1 hs with rfl | rfl | hs
    · exact .refl
    · exact hlexical
    · exact h.reaches_of_reaches_layer hlexical hs hne

/-- Every scope that is left is listed once by the scope around it, and by no other. -/
theorem count_children_dissolveLayer (hs : (g.dissolveLayer root lexical layer).Reaches root s)
    (ht : (g.dissolveLayer root lexical layer).Reaches root t) :
    ((g.dissolveLayer root lexical layer).children s).count t =
      if (g.dissolveLayer root lexical layer).parent? t = some s then 1 else 0 := by
  obtain ⟨hs, hsne⟩ := h.reaches_dissolveLayer_iff.1 hs
  obtain ⟨-, htne⟩ := h.reaches_dissolveLayer_iff.1 ht
  have hslt := (h.linked.le_of_reaches h.root_lt hs).2
  have hlayer := h.linked.mem_children_iff layer h.layer_lt t
  rw [h.children_eq, h.parent?_eq]
  split
  · -- The lexical scope lists what the layer listed, and the layer itself is not left.
    rename_i heq
    have hlexical : g.parent? t ≠ some lexical := by
      rw [← heq] at h ⊢
      intro hparent
      have hmem := (h.linked.mem_children_iff s hslt t).2 hparent
      rw [h.children_lexical] at hmem
      exact htne (List.mem_singleton.1 hmem)
    rw [(h.linked.nodup_children layer h.layer_lt).count, heq]
    by_cases hmem : t ∈ g.children layer <;> simp [hmem, hlexical]
  · rename_i hne
    rw [(h.linked.nodup_children s hslt).count]
    by_cases hmem : t ∈ g.children layer
    · have hparent := hlayer.1 hmem
      simp [hmem, h.linked.mem_children_iff s hslt t, hparent, Ne.symm hne, Ne.symm hsne]
    · simp [hmem, h.linked.mem_children_iff s hslt t]

/-! ## Chains -/

theorem chain_lexical : g.chain lexical = [lexical, root] := by
  rw [chain_of_parent?_eq_some h.linked.ranked h.parent_lexical,
    chain_of_parent?_eq_none h.parent_root]

theorem chain_layer : g.chain layer = [layer, lexical, root] := by
  rw [chain_of_parent?_eq_some h.linked.ranked h.parent_layer, h.chain_lexical]

theorem parent?_root_dissolveLayer :
    (g.dissolveLayer root lexical layer).parent? root = none := by
  rw [h.parent?_eq_of_le (Nat.le_of_lt h.root_lt_layer), h.parent_root]

theorem chain_lexical_dissolveLayer :
    (g.dissolveLayer root lexical layer).chain lexical = [lexical, root] := by
  have hparent := h.parent?_eq_of_le (Nat.le_of_lt h.lexical_lt_layer)
  rw [chain_of_parent?_eq_some h.ranked (hparent.trans h.parent_lexical),
    chain_of_parent?_eq_none h.parent?_root_dissolveLayer]

/-- The chain of a scope in the layer goes through the layer, and without the layer it leaves out
the layer alone. -/
theorem exists_chain (hs : g.Reaches layer s) (hne : s ≠ layer) :
    ∃ inner, g.chain s = inner ++ [layer, lexical, root] ∧
      (g.dissolveLayer root lexical layer).chain s = inner ++ [lexical, root] ∧
      ∀ t ∈ inner, layer < t := by
  induction hs with
  | refl => exact absurd rfl hne
  | @tail s t hs hchild ih =>
    obtain ⟨hle, hlt⟩ := h.linked.le_of_reaches h.layer_lt hs
    have hst := (h.linked.lt_of_mem_children hlt hchild).1
    have hparent := (h.linked.mem_children_iff s hlt t).1 hchild
    have hchain := chain_of_parent?_eq_some h.linked.ranked hparent
    rcases Decidable.em (s = layer) with rfl | hsne
    · have hparent' := h.parent?_eq t
      rw [if_pos hchild] at hparent'
      refine ⟨[t], ?_, ?_, by simpa using hst⟩
      · rw [hchain, h.chain_layer]
        rfl
      · rw [chain_of_parent?_eq_some h.ranked hparent', h.chain_lexical_dissolveLayer]
        rfl
    · obtain ⟨inner, hinner, hinner', hlayer⟩ := ih hsne
      have hparent' := h.parent?_eq t
      rw [if_neg, hparent] at hparent'
      · refine ⟨t :: inner, ?_, ?_, ?_⟩
        · rw [hchain, hinner, List.cons_append]
        · rw [chain_of_parent?_eq_some h.ranked hparent', hinner', List.cons_append]
        · intro u hu
          rcases List.mem_cons.1 hu with rfl | hu
          · exact Nat.lt_of_le_of_lt hle hst
          · exact hlayer u hu
      · -- The scope lies in `s`, so it does not lie in the layer.
        intro hmem
        rw [(h.linked.mem_children_iff layer h.layer_lt t).1 hmem] at hparent
        cases hparent
        exact hsne rfl

/-! ## Names and `var` -/

theorem find?_eq (t : ScopeId) :
    (g.dissolveLayer root lexical layer).find? t name =
      ((g.find? layer name).filter fun e => g.heir root lexical e = t).or (g.find? t name) :=
  find?_dissolveLayer h.root_lt h.lexical_lt h.distinct_layer

/-- The scopes in the layer bind what they bound. -/
theorem find?_eq_of_lt (ht : layer < t) :
    (g.dissolveLayer root lexical layer).find? t name = g.find? t name := by
  have hnot : ((g.find? layer name).filter fun e => g.heir root lexical e = t) = none := by
    rw [Option.filter_eq_none_iff]
    intro e _ hheir
    have heir : g.heir root lexical e = t := by simpa using hheir
    rcases heir_cases (g := g) (e := e) root lexical with heq | heq
    · exact Nat.lt_irrefl _ (Nat.lt_trans (heir.symm.trans heq ▸ ht) h.root_lt_layer)
    · exact Nat.lt_irrefl _ (Nat.lt_trans (heir.symm.trans heq ▸ ht) h.lexical_lt_layer)
  rw [h.find?_eq, hnot, Option.none_or]

/-- The lexical scope and the root bind what they and the layer bound together. -/
theorem findSome?_layers :
    [lexical, root].findSome? (fun t => (g.dissolveLayer root lexical layer).find? t name) =
      [layer, lexical, root].findSome? fun t => g.find? t name := by
  have hlexical : g.find? lexical name = none := by
    rw [find?_eq_boundTo, h.bindings_lexical, boundTo_nil]
  have hne : root ≠ lexical := Nat.ne_of_lt h.root_lt_lexical
  simp only [List.findSome?_cons, h.find?_eq, hlexical]
  cases g.find? layer name with
  | none => simp
  | some e =>
    -- The one of the two that takes the binding over is the first to bind the name.
    rcases heir_cases (g := g) (e := e) root lexical with heq | heq <;>
      simp [heq, hne, Option.filter]

theorem bindingOf?_eq (hs : g.Reaches layer s) (hne : s ≠ layer) :
    (g.dissolveLayer root lexical layer).bindingOf? s name = g.bindingOf? s name := by
  obtain ⟨inner, hchain, hchain', hinner⟩ := h.exists_chain hs hne
  have hsame : inner.findSome? (fun t => (g.dissolveLayer root lexical layer).find? t name) =
      inner.findSome? fun t => g.find? t name :=
    findSome?_congr fun t ht => h.find?_eq_of_lt (hinner t ht)
  rw [bindingOf?_eq_findSome?, bindingOf?_eq_findSome?, hchain, hchain', List.findSome?_append,
    List.findSome?_append, hsame, h.findSome?_layers]

omit h in
/-- A scope without a target before the outermost scope hoists to the outermost scope. -/
theorem varScope_of_chain {rest : List ScopeId} (hchain : g.chain s = rest ++ [root])
    (hrest : ∀ t ∈ rest, g.isHoistTarget t = false) : g.varScope s = root := by
  have hnone : rest.find? g.isHoistTarget = none := by simpa using hrest
  rw [varScope, hchain, List.find?_append, hnone, Option.none_or, List.find?_singleton]
  split <;> simp

theorem isHoistTarget_eq (t : ScopeId) :
    (g.dissolveLayer root lexical layer).isHoistTarget t = g.isHoistTarget t := by
  rw [isHoistTarget, draft_dissolveLayer h.lexical_lt]
  rfl

theorem isHoistTarget_lexical : g.isHoistTarget lexical = false := by
  rw [isHoistTarget, h.type_lexical]

theorem isHoistTarget_layer : g.isHoistTarget layer = true := by
  rw [isHoistTarget, h.type_layer]

/-- What hoisted to the layer hoists to the root. -/
theorem varScope_eq (hs : (g.dissolveLayer root lexical layer).Reaches root s) :
    (g.dissolveLayer root lexical layer).varScope s =
      if g.varScope s = layer then root else g.varScope s := by
  have hrootne : root ≠ layer := Nat.ne_of_lt h.root_lt_layer
  have htarget : (g.dissolveLayer root lexical layer).isHoistTarget = g.isHoistTarget :=
    funext h.isHoistTarget_eq
  obtain ⟨hs, hne⟩ := h.reaches_dissolveLayer_iff.1 hs
  rcases h.reaches_root_iff.1 hs with rfl | rfl | hs
  · -- The root and the lexical scope hoist to the root before and after.
    have hchain : g.chain s = [] ++ [s] := chain_of_parent?_eq_none h.parent_root
    have hchain' : (g.dissolveLayer s lexical layer).chain s = [] ++ [s] :=
      chain_of_parent?_eq_none h.parent?_root_dissolveLayer
    rw [varScope_of_chain hchain (by simp), varScope_of_chain hchain' (by simp), if_neg hrootne]
  · have hchain : g.chain s = [s] ++ [root] := h.chain_lexical
    have hchain' : (g.dissolveLayer root s layer).chain s = [s] ++ [root] :=
      h.chain_lexical_dissolveLayer
    have hnone : ∀ t ∈ [s], g.isHoistTarget t = false := by simp [h.isHoistTarget_lexical]
    rw [varScope_of_chain hchain hnone, varScope_of_chain hchain' (by rwa [htarget]),
      if_neg hrootne]
  · obtain ⟨inner, hchain, hchain', hinner⟩ := h.exists_chain hs hne
    cases hfound : inner.find? g.isHoistTarget with
    | some t =>
      have ht := Nat.ne_of_gt (hinner t (List.mem_of_find?_eq_some hfound))
      simp [varScope, htarget, hchain, hchain', hfound, ht]
    | none =>
      -- No scope before the layer is a target, and without it none before the root.
      have hnone : ∀ t ∈ inner ++ [lexical], g.isHoistTarget t = false := by
        simpa [or_imp, forall_and, h.isHoistTarget_lexical] using hfound
      have hlast : (g.dissolveLayer root lexical layer).chain s =
          (inner ++ [lexical]) ++ [root] := by
        simpa using hchain'
      rw [varScope_of_chain hlast (by rwa [htarget])]
      simp [varScope, hchain, hfound, h.isHoistTarget_layer]

end Stacked

/-! ## Resolution without the layer -/

/-- Dissolving the module layer takes the layer out of the scopes below the root and leaves the
others linked. Every name below the layer leads to the same binding as before, and what hoisted to
the layer hoists to the root. -/
theorem dissolve_preserves_resolution (h : g.Stacked root lexical layer) :
    ∃ g', g.dissolve root = .ok g' ∧
      (∀ s, g'.Reaches root s ↔ g.Reaches root s ∧ s ≠ layer) ∧
      (∀ s t, g'.Reaches root s → g'.Reaches root t →
        (g'.children s).count t = if g'.parent? t = some s then 1 else 0) ∧
      (∀ s, g.Reaches layer s → s ≠ layer → ∀ name, g'.bindingOf? s name = g.bindingOf? s name) ∧
      (∀ e, g'.entry e = g.entry e) ∧
      ∀ s, g'.Reaches root s →
        g'.varScope s = if g.varScope s = layer then root else g.varScope s :=
  ⟨_, h.dissolve_eq, fun _ => h.reaches_dissolveLayer_iff,
    fun _ _ => h.count_children_dissolveLayer, fun _ hs hne _ => h.bindingOf?_eq hs hne,
    fun _ => entry_dissolveLayer,
    fun _ => h.varScope_eq⟩

end Graph

/-- A program leaves its layers stacked. -/
theorem Finished.stacked {loc : Json} {final : Builder} (h : Finished loc final) :
    final.graph.Stacked 0 1 2 where
  linked := h.sound.valid.forest.linked
  root_lt := h.layered.zero_lt
  parent_root := h.layered.parent_root
  children_root := (h.layered.children_eq h.sound.valid.forest).1
  children_lexical := (h.layered.children_eq h.sound.valid.forest).2
  type_lexical := by
    have hlexical := h.header_eq (s := 1) (by rw [Graph.headers_opened]; rfl)
    exact congrArg Header.type hlexical
  type_layer := h.layered.type_layer
  bindings_lexical := h.bindings_lexical
  distinct_layer := h.sound.valid.owns.distinct 2

section Shadowing

open Sample

/-- A name of the host is declared in the layer, and another name in a block inside it. -/
def shadowingProgram : Node :=
  program 34 [declaration "let" "module" 0, block 12 34 [declaration "let" "x" 14,
    reading "module" 21, reading "x" 29]]

theorem dissolve_preserves_resolution_shadowing :
    ∃ final, collect (.object shadowingProgram) = .ok final ∧ final.graph.Stacked 0 1 2 ∧
      ∃ g', final.graph.dissolve 0 = .ok g' ∧
        (∀ s, g'.Reaches 0 s ↔ final.graph.Reaches 0 s ∧ s ≠ 2) ∧
        (∀ s t, g'.Reaches 0 s → g'.Reaches 0 t →
          (g'.children s).count t = if g'.parent? t = some s then 1 else 0) ∧
        (∀ s, final.graph.Reaches 2 s → s ≠ 2 →
          ∀ name, g'.bindingOf? s name = final.graph.bindingOf? s name) ∧
        (∀ e, g'.entry e = final.graph.entry e) ∧
        ∀ s, g'.Reaches 0 s →
          g'.varScope s = if final.graph.varScope s = 2 then 0 else final.graph.varScope s := by
  obtain ⟨final, hfinal⟩ :=
    exists_eq_ok (e := collect (.object shadowingProgram)) (by decide +kernel)
  have hsole : shadowingProgram.SoleProgram := by decide +kernel
  have halias : shadowingProgram.AliasFree := by decide +kernel
  obtain ⟨loc, -, hfinished⟩ := finished_of_collect hfinal
    (shadowingProgram.isInner_of_soleProgram hsole halias.isAny_program)
  exact ⟨final, hfinal, hfinished.stacked, Graph.dissolve_preserves_resolution hfinished.stacked⟩

end Shadowing

end LexicalScopes
