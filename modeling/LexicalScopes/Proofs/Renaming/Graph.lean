import LexicalScopes.Analysis
import LexicalScopes.Proofs.Graph.Dissolve
import LexicalScopes.Proofs.Renaming.Actions

/-!
# Graphs with renamed names

Names are only ever compared by their keys, and a renaming keeps different keys apart. So every step
of building a graph, and dissolving its module layer, commutes with changing its names and masking
its texts.
-/

namespace LexicalScopes

/-! ## Masked graphs -/

/-- The draft with the names it binds changed by `r` and its own name masked. -/
def Draft.masked (r : String → String) (d : Draft) : Draft :=
  { d with
    name := d.type.maskedName d.name
    bindings := d.bindings.map fun (name, b) => (name.renamed r, b) }

def Entry.masked (e : Entry) : Entry := { e with refs := e.refs.map Occurrence.masked }

/-- The graph with all bound names changed by `r` and all texts masked. -/
def Graph.masked (r : String → String) (g : Graph) : Graph :=
  { g with drafts := g.drafts.map (Draft.masked r), entries := g.entries.map Entry.masked }

def Builder.masked (r : String → String) (b : Builder) : Builder :=
  { b with graph := b.graph.masked r }

theorem getD_map {α β : Type} (f : α → β) (xs : Array α) (i : Nat) (d : α) :
    (xs.map f).getD i (f d) = f (xs.getD i d) := by
  simp only [Array.getD_eq_getD_getElem?, Array.getElem?_map]
  cases xs[i]? <;> rfl

theorem map_modify {α β : Type} {f : α → β} {change : α → α} {change' : β → β}
    (h : ∀ x, f (change x) = change' (f x)) (xs : Array α) (i : Nat) :
    (xs.modify i change).map f = (xs.map f).modify i change' := by
  apply Array.ext
  · simp
  · intro j hj _
    simp only [Array.getElem_map, Array.getElem_modify]
    split
    · exact h _
    · rfl

variable {r : String → String} {g : Graph} {s : ScopeId} {name : Scalar} {b : Builder}

theorem Renaming.beq_key (hr : Renaming r) (a b : Scalar) :
    ((a.renamed r).key == (b.renamed r).key) = (a.key == b.key) := by
  rw [Bool.eq_iff_iff, beq_iff_eq, beq_iff_eq, hr.key_eq_iff]

namespace Graph

/-! ## Views -/

@[simp] theorem draft_masked : (g.masked r).draft s = (g.draft s).masked r :=
  getD_map (Draft.masked r) g.drafts s default

@[simp] theorem entry_masked {e : EntryId} : (g.masked r).entry e = (g.entry e).masked :=
  getD_map Entry.masked g.entries e default

@[simp] theorem children_masked : (g.masked r).children s = g.children s := by
  rw [children, draft_masked, children]
  rfl

@[simp] theorem parent?_masked : (g.masked r).parent? s = g.parent? s := by
  rw [parent?, draft_masked, parent?]
  rfl

@[simp] theorem nextScope_masked : (g.masked r).nextScope = g.nextScope := Array.size_map

theorem find?_masked (hr : Renaming r) :
    (g.masked r).find? s (name.renamed r) = g.find? s name := by
  unfold find?
  rw [draft_masked]
  simp only [Draft.masked, List.find?_map, Option.map_map, Function.comp_def, hr.beq_key]

@[simp] theorem chain_masked : (g.masked r).chain s = g.chain s := by
  have h (fuel : Nat) : ∀ s, (g.masked r).chainFrom fuel s = g.chainFrom fuel s := by
    induction fuel with
    | zero => exact fun _ => rfl
    | succ fuel ih =>
      intro s
      simp only [chainFrom, parent?_masked, ih]
  exact h _ _

theorem binds_masked (hr : Renaming r) :
    (g.masked r).binds s (name.renamed r) = g.binds s name := by
  rw [binds, find?_masked hr, binds]

theorem resolve_masked (hr : Renaming r) :
    (g.masked r).resolve s (name.renamed r) = g.resolve s name := by
  simp only [resolve, chain_masked, binds_masked hr]

@[simp] theorem varScope_masked : (g.masked r).varScope s = g.varScope s := by
  have h : (g.masked r).isHoistTarget = g.isHoistTarget := by
    funext t
    rw [isHoistTarget, draft_masked]
    rfl
  rw [varScope, chain_masked, h, varScope]

/-! ## Growing -/

theorem addScope_masked (type : ScopeType) (name loc : Json) (parent : Option ScopeId) :
    (g.addScope type name loc parent).masked r =
      (g.masked r).addScope type (type.maskedName name) loc parent := by
  unfold addScope
  cases parent with
  | none => simp [masked, Draft.masked]
  | some p =>
    simp only [draft_masked, nextScope_masked]
    simp [masked, Draft.masked]

theorem bind_masked (hr : Renaming r) (e : EntryId) :
    (g.bind s name e).masked r = (g.masked r).bind s (name.renamed r) e := by
  unfold bind
  rw [binds_masked hr]
  simp only [masked, Graph.mk.injEq, and_true]
  apply map_modify
  intro d
  cases g.binds s name with
  | false => simp [Draft.masked]
  | true =>
    -- The renamed name has the key of the same bindings.
    simp only [Draft.masked, if_true, List.map_map, Draft.mk.injEq, true_and, and_true]
    apply List.map_congr_left
    intro binding _
    simp only [Function.comp_apply, hr.beq_key]
    split <;> rfl

theorem addDeclaration_masked (e : EntryId) (loc : Json) :
    (g.addDeclaration e loc).masked r = (g.masked r).addDeclaration e loc := by
  simp only [addDeclaration, masked, Graph.mk.injEq, true_and, and_true]
  apply map_modify
  exact fun _ => rfl

theorem addReference_masked (e : EntryId) (o : Occurrence) :
    (g.addReference e o).masked r = (g.masked r).addReference e o.masked := by
  simp only [addReference, masked, Graph.mk.injEq, true_and, and_true]
  apply map_modify
  intro entry
  simp [Entry.masked]

theorem pushEntry_masked (e : Entry) :
    masked r { g with entries := g.entries.push e } =
      { g.masked r with entries := (g.masked r).entries.push e.masked } := by
  simp [masked]

theorem declare_masked (hr : Renaming r) (kind : BindingKind) (loc : Option Json) :
    (g.declare s name kind loc).masked r = (g.masked r).declare s (name.renamed r) kind loc := by
  unfold declare
  rw [find?_masked hr]
  cases g.find? s name with
  | some e =>
    cases loc with
    | some loc => exact addDeclaration_masked e loc
    | none => rfl
  | none =>
    rw [bind_masked hr, pushEntry_masked]
    simp [masked, Entry.masked]

theorem declareImplicit_masked (hr : Renaming r) (names : List String) :
    (g.declareImplicit s names).masked r = (g.masked r).declareImplicit s (names.map r) := by
  induction names generalizing g with
  | nil => rfl
  | cons name names ih =>
    rw [declareImplicit_cons, ih, declare_masked hr]
    rfl

/-! ## Dissolving -/

theorem moveBinding_masked (hr : Renaming r) (root lexical : ScopeId) (e : EntryId) :
    (moveBinding root lexical g (name, e)).masked r =
      moveBinding root lexical (g.masked r) (name.renamed r, e) := by
  have hkind : ((g.masked r).entry e).kind = (g.entry e).kind := by
    rw [entry_masked]
    rfl
  unfold moveBinding
  dsimp only
  rw [hkind]
  cases (g.entry e).kind <;> exact bind_masked hr e

theorem handOn_masked (hr : Renaming r) (root lexical : ScopeId)
    (bindings : List (Scalar × EntryId)) :
    (g.handOn root lexical bindings).masked r =
      (g.masked r).handOn root lexical (bindings.map fun (name, e) => (name.renamed r, e)) := by
  unfold handOn
  induction bindings generalizing g with
  | nil => rfl
  | cons binding bindings ih =>
    rw [List.foldl_cons, ih, moveBinding_masked hr]
    rfl

theorem shareChildren_masked (lexical layer : ScopeId) :
    (g.shareChildren lexical layer).masked r = (g.masked r).shareChildren lexical layer := by
  unfold shareChildren
  rw [draft_masked]
  simp only [masked, Graph.mk.injEq, and_true]
  apply map_modify
  exact fun _ => rfl

theorem setParent_masked (parent : ScopeId) :
    (setParent parent g s).masked r = setParent parent (g.masked r) s := by
  simp only [setParent, masked, Graph.mk.injEq, and_true]
  apply map_modify
  exact fun _ => rfl

theorem foldl_setParent_masked (parent : ScopeId) (children : List ScopeId) :
    (children.foldl (setParent parent) g).masked r =
      children.foldl (setParent parent) (g.masked r) := by
  induction children generalizing g with
  | nil => rfl
  | cons child children ih => rw [List.foldl_cons, ih, setParent_masked, List.foldl_cons]

theorem dissolveLayer_masked (hr : Renaming r) (root lexical layer : ScopeId) :
    (g.dissolveLayer root lexical layer).masked r =
      (g.masked r).dissolveLayer root lexical layer := by
  rw [dissolveLayer_eq, dissolveLayer_eq]
  dsimp only
  rw [foldl_setParent_masked, ← children_masked (r := r), shareChildren_masked, handOn_masked hr,
    draft_masked]
  rfl

theorem layers_masked (root : ScopeId) : (g.masked r).layers root = g.layers root := by
  have htype (s : ScopeId) : ((g.masked r).draft s).type = (g.draft s).type := by
    rw [draft_masked]
    rfl
  simp only [layers, children_masked, htype]

theorem readsHostNames_masked (hr : Renaming r) (root : ScopeId) :
    (g.masked r).readsHostNames root = g.readsHostNames root := by
  have hhost : hostNames ⊆ reservedNames := by decide
  unfold readsHostNames
  rw [Bool.eq_iff_iff, List.any_eq_true, List.any_eq_true]
  refine exists_congr fun name => and_congr_right fun hname => ?_
  have hfind : (g.masked r).find? root ((Scalar.string name).renamed r) =
      g.find? root (.string name) := find?_masked hr
  rw [Scalar.renamed, hr.fixes name (hhost hname)] at hfind
  rw [hfind]
  cases g.find? root (.string name) with
  | none => rfl
  | some e => simp [Entry.masked]

theorem settle_masked (hr : Renaming r) (root : ScopeId) (isModule generated : Bool) :
    (g.masked r).settle root isModule generated =
      masked r <$> g.settle root isModule generated := by
  unfold settle keepsModule
  rw [readsHostNames_masked hr]
  split
  · rfl
  · unfold dissolve
    rw [layers_masked, map_bind]
    congr 1
    funext (lexical, layer)
    exact congrArg Except.ok (dissolveLayer_masked hr root lexical layer).symm

end Graph

/-! ## Replaying -/

namespace Builder

@[simp] theorem here_masked : (b.masked r).here = b.here := rfl

theorem declareIn_masked (hr : Renaming r) (bound : BoundName) (kind : BindingKind) :
    (b.declareIn s bound kind).masked r = (b.masked r).declareIn s (bound.renamed r) kind := by
  simp [declareIn, masked, Graph.declare_masked hr, BoundName.renamed]

@[simp] theorem varScope_masked : (b.masked r).graph.varScope s = b.graph.varScope s :=
  Graph.varScope_masked

theorem openScope_masked (type : ScopeType) (name loc : Json) :
    (b.openScope type name loc).masked r =
      (b.masked r).openScope type (type.maskedName name) loc := by
  simp [openScope, masked, Graph.addScope_masked]

theorem refer_masked (hr : Renaming r) (occurrence : Except Cause Occurrence) :
    (b.masked r).refer (name.renamed r) (Occurrence.masked <$> occurrence) =
      masked r <$> b.refer name occurrence := by
  unfold refer
  rw [here_masked, map_bind]
  congr 1
  funext s
  have hresolve : (b.masked r).graph.resolve s (name.renamed r) = b.graph.resolve s name :=
    Graph.resolve_masked hr
  rw [hresolve]
  cases b.graph.resolve s name with
  | none => rfl
  | some t =>
    have hfind : (b.masked r).graph.find? t (name.renamed r) = b.graph.find? t name :=
      Graph.find?_masked hr
    simp only [hfind]
    cases b.graph.find? t name with
    | none => rfl
    | some e =>
      simp only [bind_map_left, map_bind, map_pure]
      simp only [masked, Graph.addReference_masked]

theorem apply_masked (hr : Renaming r) (a : Action) :
    (b.masked r).apply (a.masked r) = masked r <$> b.apply a := by
  cases a with
  | openRoot loc =>
    have h := openScope_masked (r := r) (b := b) .object (.string "Global") loc
    simp only [Action.masked, apply, ScopeType.maskedName] at h ⊢
    rw [← h]
    simp [masked]
  | openScope type name loc => exact congrArg Except.ok (openScope_masked type name loc).symm
  | mark => rfl
  | restore =>
    unfold apply
    cases hmarks : b.marks with
    | nil => simp [Action.masked, masked, hmarks]
    | cons mark rest => simp [Action.masked, masked, hmarks]
  | returnToRoot => rfl
  | declare bound kind =>
    simp only [Action.masked, apply, here_masked, map_bind, map_pure, declareIn_masked hr]
  | hoist bound =>
    simp only [Action.masked, apply, here_masked, map_bind, map_pure, declareIn_masked hr,
      varScope_masked]
  | declareFunction bound =>
    simp only [Action.masked, apply, here_masked, map_bind, map_pure, declareIn_masked hr,
      varScope_masked]
  | introduce names =>
    simp only [Action.masked, apply, here_masked, map_bind, map_pure]
    simp only [masked, Graph.declareImplicit_masked hr]
  | refer name occurrence => exact refer_masked hr occurrence
  | noteModule => rfl
  | fail fault => rfl

theorem replay_masked (hr : Renaming r) (actions : List Action) :
    (b.masked r).replay (actions.map (Action.masked r)) = masked r <$> b.replay actions := by
  induction actions generalizing b with
  | nil => rfl
  | cons a actions ih =>
    rw [List.map_cons, replay_cons, replay_cons, apply_masked hr, bind_map_left, map_bind]
    simp only [ih]

end Builder

end LexicalScopes
