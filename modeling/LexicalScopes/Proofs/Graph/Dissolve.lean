import LexicalScopes.Proofs.Graph.Growth

/-!
# Dissolving a layer

A dissolved layer hands its bindings on to the lexical scope or to the root, and the lexical scope
takes over its list of children. Nothing else changes but the parents of these children.
-/

namespace LexicalScopes

namespace Graph

variable {g : Graph} {root lexical layer s t : ScopeId} {e : EntryId}
  {xs : List (Scalar × EntryId)} {x : Scalar × EntryId} {ss : List ScopeId}

/-! ## Handing bindings on -/

/-- A binding of the layer is `let` or `const`. -/
def isLexical (g : Graph) (e : EntryId) : Bool :=
  match (g.entry e).kind with
  | .lexical => true
  | .constant => true
  | _ => false

/-- The scope that takes over a binding of the layer. -/
def heir (g : Graph) (root lexical : ScopeId) (e : EntryId) : ScopeId :=
  if g.isLexical e then lexical else root

theorem moveBinding_eq :
    moveBinding root lexical g x = g.bind (g.heir root lexical x.2) x.1 x.2 := by
  obtain ⟨name, b⟩ := x
  unfold moveBinding heir isLexical
  dsimp only
  cases (g.entry b).kind <;> rfl

/-- The graph in which bindings of the layer are handed on. -/
def handOn (g : Graph) (root lexical : ScopeId) (xs : List (Scalar × EntryId)) : Graph :=
  xs.foldl (moveBinding root lexical) g

theorem handOn_cons :
    g.handOn root lexical (x :: xs) =
      (g.bind (g.heir root lexical x.2) x.1 x.2).handOn root lexical xs := by
  rw [handOn, List.foldl_cons, moveBinding_eq]
  rfl

theorem entries_handOn : (g.handOn root lexical xs).entries = g.entries := by
  induction xs generalizing g with
  | nil => rfl
  | cons x xs ih =>
    rw [handOn_cons, ih]
    rfl

theorem childLists_handOn : (g.handOn root lexical xs).childLists = g.childLists := by
  induction xs generalizing g with
  | nil => rfl
  | cons x xs ih =>
    rw [handOn_cons, ih]
    rfl

theorem nextScope_handOn : (g.handOn root lexical xs).nextScope = g.nextScope := by
  induction xs generalizing g with
  | nil => rfl
  | cons x xs ih => rw [handOn_cons, ih, nextScope_bind]

theorem draft_handOn_rest (t : ScopeId) :
    (g.handOn root lexical xs).draft t =
      { g.draft t with bindings := ((g.handOn root lexical xs).draft t).bindings } := by
  induction xs generalizing g with
  | nil => rfl
  | cons x xs ih =>
    rw [handOn_cons, ih, draft_bind_rest]

/-- The bindings of a scope once further names are bound, one after the other. -/
def reboundAll (bindings : List (Scalar × EntryId)) (xs : List (Scalar × EntryId)) :
    List (Scalar × EntryId) :=
  xs.foldl (fun bindings x => rebound bindings x.1 x.2) bindings

theorem heir_lt (hroot : root < g.nextScope) (hlexical : lexical < g.nextScope) :
    g.heir root lexical e < g.nextScope := by
  rw [heir]
  split
  · exact hlexical
  · exact hroot

/-- Every scope takes over the bindings of which it is the heir. -/
theorem bindings_handOn (hroot : root < g.nextScope) (hlexical : lexical < g.nextScope) :
    ((g.handOn root lexical xs).draft t).bindings =
      reboundAll (g.draft t).bindings (xs.filter fun x => g.heir root lexical x.2 = t) := by
  induction xs generalizing g with
  | nil => rfl
  | cons x xs ih =>
    have hlt := heir_lt (e := x.2) hroot hlexical
    rw [handOn_cons, ih (by rwa [nextScope_bind]) (by rwa [nextScope_bind]), draft_bind hlt,
      List.filter_cons]
    -- Who takes a binding over depends on the entries alone, which binding names leaves alone.
    have hheir : ∀ y : Scalar × EntryId,
        (g.bind (g.heir root lexical x.2) x.1 x.2).heir root lexical y.2 =
          g.heir root lexical y.2 := fun _ => rfl
    simp only [hheir]
    by_cases ht : t = g.heir root lexical x.2
    · subst ht
      simp only [if_pos, decide_true]
      rfl
    · rw [if_neg ht, if_neg]
      simpa using Ne.symm ht

/-! ## New parents -/

theorem draft_setParent :
    (setParent root g s).draft t =
      { g.draft t with parent := ((setParent root g s).draft t).parent } := by
  rw [setParent, draft, getD_modify]
  split <;> rfl

theorem draft_foldl_setParent :
    (ss.foldl (setParent root) g).draft t =
      { g.draft t with parent := ((ss.foldl (setParent root) g).draft t).parent } := by
  induction ss generalizing g with
  | nil => rfl
  | cons s ss ih => rw [List.foldl_cons, ih, draft_setParent]

theorem childLists_foldl_setParent :
    (ss.foldl (setParent root) g).childLists = g.childLists := by
  induction ss generalizing g with
  | nil => rfl
  | cons s ss ih =>
    rw [List.foldl_cons, ih]
    rfl

theorem entries_foldl_setParent : (ss.foldl (setParent root) g).entries = g.entries := by
  induction ss generalizing g with
  | nil => rfl
  | cons s ss ih =>
    rw [List.foldl_cons, ih]
    rfl

theorem nextScope_foldl_setParent : (ss.foldl (setParent root) g).nextScope = g.nextScope := by
  induction ss generalizing g with
  | nil => rfl
  | cons s ss ih =>
    rw [List.foldl_cons, ih]
    simp [setParent, nextScope]

/-! ## The graph without the layer -/

/-- The graph in which the lexical scope shares the list of children of the layer. -/
def shareChildren (g : Graph) (lexical layer : ScopeId) : Graph :=
  { g with
    drafts := g.drafts.modify lexical fun d => { d with childList := (g.draft layer).childList } }

theorem draft_shareChildren (h : lexical < g.nextScope) :
    (g.shareChildren lexical layer).draft t =
      if t = lexical then { g.draft t with childList := (g.draft layer).childList }
      else g.draft t := by
  rw [shareChildren, draft, getD_modify]
  by_cases ht : lexical = t
  · subst ht
    rw [if_pos ⟨rfl, h⟩, if_pos rfl]
    rfl
  · rw [if_neg (fun hlt => ht hlt.1), if_neg (Ne.symm ht)]
    rfl

theorem dissolveLayer_eq :
    g.dissolveLayer root lexical layer =
      let shared := (g.handOn root lexical (g.draft layer).bindings).shareChildren lexical layer
      (shared.children lexical).foldl (setParent lexical) shared := rfl

theorem entry_dissolveLayer : (g.dissolveLayer root lexical layer).entry e = g.entry e := by
  rw [dissolveLayer_eq]
  dsimp only
  rw [entry, entries_foldl_setParent, shareChildren, entries_handOn]
  rfl

theorem nextScope_dissolveLayer :
    (g.dissolveLayer root lexical layer).nextScope = g.nextScope := by
  rw [dissolveLayer_eq]
  dsimp only
  rw [nextScope_foldl_setParent, shareChildren, nextScope, Array.size_modify]
  exact nextScope_handOn

/-- Apart from names, parents and children, scopes stay as they are. -/
theorem draft_dissolveLayer (h : lexical < g.nextScope) :
    (g.dissolveLayer root lexical layer).draft t =
      { g.draft t with
        parent := ((g.dissolveLayer root lexical layer).draft t).parent
        bindings := ((g.handOn root lexical (g.draft layer).bindings).draft t).bindings
        childList :=
          if t = lexical then (g.draft layer).childList else (g.draft t).childList } := by
  have hlt : lexical < (g.handOn root lexical (g.draft layer).bindings).nextScope := by
    rwa [nextScope_handOn]
  rw [dissolveLayer_eq]
  dsimp only
  rw [draft_foldl_setParent, draft_shareChildren hlt]
  by_cases ht : t = lexical
  · rw [if_pos ht, if_pos ht, draft_handOn_rest, draft_handOn_rest layer]
  · rw [if_neg ht, if_neg ht, draft_handOn_rest]

/-- The lexical scope has the children of the layer, and all others keep theirs. -/
theorem children_dissolveLayer (h : lexical < g.nextScope) :
    (g.dissolveLayer root lexical layer).children t =
      if t = lexical then g.children layer else g.children t := by
  have hlists : (g.dissolveLayer root lexical layer).childLists = g.childLists := by
    rw [dissolveLayer_eq]
    dsimp only
    rw [childLists_foldl_setParent, shareChildren]
    exact childLists_handOn
  rw [children, draft_dissolveLayer h, hlists]
  by_cases ht : t = lexical
  · rw [if_pos ht]
    simp only [if_pos ht]
    rfl
  · rw [if_neg ht]
    simp only [if_neg ht]
    rfl

end Graph

end LexicalScopes
