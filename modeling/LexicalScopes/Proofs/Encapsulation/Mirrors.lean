import LexicalScopes.Proofs.Encapsulation.Lockstep
import LexicalScopes.Proofs.Shape.Shown
import LexicalScopes.Proofs.Dissolution

/-!
# Trees that agree outside one scope

Parallel graphs show the same outside the scope in which they differ, also once the module layer is
dissolved in both. Their trees therefore agree outside the copies of that scope.
-/

namespace LexicalScopes

/-! ## Agreement -/

/-- Two shown bindings are of one kind and declared in the same places. They are read in the same
places but for some that stand one after the other. -/
structure Binding.Agree (P P' : Reference → Prop) (x y : Binding) : Prop where
  kind_eq : y.kind = x.kind
  declarations_eq : y.declarations = x.declarations
  refs : Spliced P P' x.refs y.refs

/-- Two trees are the same but for one scope inside them, and for reads that the bindings around it
have from there. -/
inductive Scope.AgreeAround (Inner : Scope → Prop) (P P' : Reference → Prop) :
    Scope → Scope → Prop where
  | inner {s s' : Scope} (h : Inner s) (h' : Inner s') : AgreeAround Inner P P' s s'
  | outer {type : ScopeType} {name : Json} {range : Range}
      {bindings bindings' : List (Scalar × Binding)} {earlier later : List Scope}
      {inner inner' : Scope}
      (hbindings : List.Forall₂ (fun x y => y.1 = x.1 ∧ x.2.Agree P P' y.2) bindings bindings')
      (h : AgreeAround Inner P P' inner inner') :
      AgreeAround Inner P P' ⟨type, name, range, bindings, earlier ++ inner :: later⟩
        ⟨type, name, range, bindings', earlier ++ inner' :: later⟩

/-- Where no reads can differ, the outermost scope binds the same. -/
theorem Scope.AgreeAround.bindings_eq {Inner : Scope → Prop} {P P' : Reference → Prop}
    {s s' : Scope} (h : Scope.AgreeAround Inner P P' s s') (hs : ¬ Inner s) (hP : ∀ r, ¬ P r)
    (hP' : ∀ r, ¬ P' r) : s'.bindings = s.bindings := by
  cases h with
  | inner h h' => exact absurd h hs
  | outer hbindings h =>
    have hsame : ∀ x y : Scalar × Binding, y.1 = x.1 ∧ x.2.Agree P P' y.2 → y = x := by
      rintro ⟨n, k, ds, rs⟩ ⟨n', k', ds', rs'⟩ ⟨hname, hkind, hdeclarations, hrefs⟩
      cases hname
      cases hkind
      cases hdeclarations
      cases hrefs.eq_of_forall_not hP hP'
      rfl
    have heq := hbindings.imp fun x y hxy => (hsame x y hxy).symm
    rw [List.forall₂_eq_eq_eq] at heq
    exact heq.symm

section Readings

variable {α β : Type} {f : α → Except Cause β} {P P' : α → Prop} {xs ys : List α} {us vs : List β}

theorem mapM_append_eq_ok {zs : List β} :
    (xs ++ ys).mapM f = .ok zs ↔ ∃ us vs, xs.mapM f = .ok us ∧ ys.mapM f = .ok vs ∧
      zs = us ++ vs := by
  rw [List.mapM_append, bind_eq_ok]
  refine exists_congr fun us => ?_
  rw [bind_eq_ok]
  constructor
  · rintro ⟨hus, vs, hvs, hzs⟩
    cases hzs
    exact ⟨vs, hus, hvs, rfl⟩
  · rintro ⟨vs, hus, hvs, rfl⟩
    exact ⟨hus, vs, hvs, rfl⟩

/-- Readings of lists that differ in one part differ in one part. -/
theorem Spliced.mapM (h : Spliced P P' xs ys) (hus : xs.mapM f = .ok us)
    (hvs : ys.mapM f = .ok vs) :
    Spliced (fun u => ∃ x, P x ∧ f x = .ok u) (fun u => ∃ x, P' x ∧ f x = .ok u) us vs := by
  obtain ⟨before, mid, mid', after, h, h'⟩ := h
  have hread {P : α → Prop} {xs : List α} {us : List β} (h : ∀ x ∈ xs, P x)
      (hus : xs.mapM f = .ok us) : ∀ u ∈ us, ∃ x, P x ∧ f x = .ok u := by
    intro u hu
    obtain ⟨x, hx, hxu⟩ := exists_of_mem_mapM hus hu
    exact ⟨x, h x hx, hxu⟩
  obtain ⟨_, after₁, hfirst, hafter, rfl⟩ := mapM_append_eq_ok.1 hus
  obtain ⟨before₁, mid₁, hbefore, hmid, rfl⟩ := mapM_append_eq_ok.1 hfirst
  obtain ⟨_, after₂, hfirst', hafter', rfl⟩ := mapM_append_eq_ok.1 hvs
  obtain ⟨before₂, mid₂, hbefore', hmid', rfl⟩ := mapM_append_eq_ok.1 hfirst'
  cases Except.ok.inj (hbefore.symm.trans hbefore')
  cases Except.ok.inj (hafter.symm.trans hafter')
  exact .mk before₁ mid₁ mid₂ after₁ (hread h hmid) (hread h' hmid')

theorem Spliced.mono {Q Q' : α → Prop} (h : Spliced P P' xs ys) (hQ : ∀ x, P x → Q x)
    (hQ' : ∀ x, P' x → Q' x) : Spliced Q Q' xs ys := by
  obtain ⟨before, mid, mid', after, h, h'⟩ := h
  exact .mk before mid mid' after (fun x hx => hQ x (h x hx)) fun x hx => hQ' x (h' x hx)

/-- Of lists that are related one by one, the elements that these stand for are related. -/
theorem forall₂_square {γ δ : Type} {R : α → γ → Prop} {S : α → β → Prop} {S' : γ → δ → Prop}
    {T : β → δ → Prop} {zs : List γ} {ws : List δ} (h : List.Forall₂ R xs zs)
    (hus : List.Forall₂ S xs us) (hws : List.Forall₂ S' zs ws)
    (hT : ∀ x ∈ xs, ∀ u ∈ us, ∀ z w, R x z → S x u → S' z w → T u w) :
    List.Forall₂ T us ws := by
  induction h generalizing us ws with
  | nil =>
    cases hus
    cases hws
    exact .nil
  | cons hxz _ ih =>
    cases hus with
    | cons hxu hus =>
      cases hws with
      | cons hzw hws =>
        refine .cons (hT _ List.mem_cons_self _ List.mem_cons_self _ _ hxz hxu hzw) ?_
        exact ih hus hws fun x hx u hu =>
          hT x (List.mem_cons_of_mem _ hx) u (List.mem_cons_of_mem _ hu)

/-- Where one element of a list stands, the related list has a related one. -/
theorem exists_split_of_forall₂ {R : α → β → Prop} {x : α} {zs : List β}
    (h : List.Forall₂ R (xs ++ x :: ys) zs) :
    ∃ us u vs, zs = us ++ u :: vs ∧ List.Forall₂ R xs us ∧ R x u ∧ List.Forall₂ R ys vs := by
  induction xs generalizing zs with
  | nil =>
    cases h with
    | cons hxu hys => exact ⟨[], _, _, rfl, .nil, hxu, hys⟩
  | cons y xs ih =>
    cases h with
    | @cons _ v _ _ hyv hrest =>
      obtain ⟨us, u, vs, rfl, hxs, hxu, hys⟩ := ih hrest
      exact ⟨v :: us, u, vs, rfl, .cons hyv hxs, hxu, hys⟩

end Readings

namespace Entry.Agree

variable {P P' : Occurrence → Prop} {x y : Entry}

theorem mono {Q Q' : Occurrence → Prop} (h : x.Agree P P' y) (hQ : ∀ o, P o → Q o)
    (hQ' : ∀ o, P' o → Q' o) : x.Agree Q Q' y :=
  ⟨h.kind_eq, h.declarations_eq, h.refs.mono hQ hQ'⟩

/-- Where no reads can differ, nothing does. -/
theorem eq (h : x.Agree P P' y) (hP : ∀ o, ¬ P o) (hP' : ∀ o, ¬ P' o) : y = x := by
  obtain ⟨kind, declarations, refs⟩ := x
  obtain ⟨kind', declarations', refs'⟩ := y
  cases h.kind_eq
  cases h.declarations_eq
  cases h.refs.eq_of_forall_not hP hP'
  rfl

theorem toBinding {b b' : Binding} (h : x.Agree P P' y) (hx : x.toBinding = .ok b)
    (hy : y.toBinding = .ok b') :
    b.Agree (fun r => ∃ o, P o ∧ o.toReference = .ok r) (fun r => ∃ o, P' o ∧ o.toReference = .ok r)
      b' := by
  obtain ⟨declarations, hdeclarations, hx⟩ := bind_eq_ok.1 hx
  obtain ⟨refs, hrefs, hx⟩ := bind_eq_ok.1 hx
  obtain ⟨declarations', hdeclarations', hy⟩ := bind_eq_ok.1 hy
  obtain ⟨refs', hrefs', hy⟩ := bind_eq_ok.1 hy
  cases hx
  cases hy
  refine ⟨h.kind_eq, ?_, h.refs.mapM hrefs hrefs'⟩
  rw [h.declarations_eq, hdeclarations] at hdeclarations'
  exact (Except.ok.inj hdeclarations').symm

end Entry.Agree

namespace Graph

variable {C : Correspondence} {g g' : Graph} {f s t u : ScopeId} {outer : List ScopeId}
  {tree tree' : Scope}

/-! ## What is shown -/

/-- The scope shows in both graphs and is not one of those around the difference. -/
def Correspondence.Aside (C : Correspondence) (g : Graph) (s : ScopeId) : Prop :=
  C.scopes.Apart s ∧ s < g.nextScope ∧ s ∉ C.outer

/-- The entries of two bindings of one name agree. -/
def Correspondence.Same (C : Correspondence) (g g' : Graph) (s : ScopeId)
    (x y : Scalar × EntryId) : Prop :=
  y.1 = x.1 ∧
    (g.entry x.2).Agree (C.Differs C.Read s) (C.Differs C.Read' s) (g'.entry y.2)

/-- Outside one scope the two graphs show the same. -/
structure Mirrors (C : Correspondence) (g g' : Graph) : Prop where
  heading_eq : ∀ s, C.scopes.Apart s → s < g.nextScope →
    (g'.draft (C.scopes.move s)).heading = (g.draft s).heading
  children_eq : ∀ s, C.scopes.Apart s → s < g.nextScope →
    g'.children (C.scopes.move s) = (g.children s).map C.scopes.move
  bindings : ∀ s, C.scopes.Apart s → s < g.nextScope →
    List.Forall₂ (C.Same g g' s) (g.draft s).bindings (g'.draft (C.scopes.move s)).bindings
  outer_lt : ∀ s ∈ C.outer, s < C.scopes.first
  next_le : C.scopes.next ≤ g.nextScope
  aside : ∀ s, C.Aside g s → ∀ c ∈ g.children s, C.Aside g c
  around : ∀ s ∈ C.outer, ∃ earlier c later, g.children s = earlier ++ c :: later ∧
    (c = C.scopes.first ∨ c ∈ C.outer) ∧ ∀ t ∈ earlier ++ later, C.Aside g t

namespace Mirrors

theorem lt_nextScope_of_mem_outer (h : Mirrors C g g') (hs : s ∈ C.outer) : s < g.nextScope :=
  Nat.lt_of_lt_of_le (h.outer_lt s hs) (Nat.le_trans C.scopes.first_le h.next_le)

/-- Corresponding scopes are shown under the same type and name with the same range. -/
theorem heading_copied (h : Mirrors C g g') (hs : C.scopes.Apart s) (hlt : s < g.nextScope)
    (hcopied : g.Copied s tree) (hcopied' : g'.Copied (C.scopes.move s) tree') :
    tree'.type = tree.type ∧ tree'.name = tree.name ∧ tree'.range = tree.range := by
  have hheading := h.heading_eq s hs hlt
  have htype : (g'.draft (C.scopes.move s)).type = (g.draft s).type :=
    congrArg Heading.type hheading
  have hname : (g'.draft (C.scopes.move s)).name = (g.draft s).name :=
    congrArg Heading.name hheading
  have hloc : (g'.draft (C.scopes.move s)).loc = (g.draft s).loc := congrArg Heading.loc hheading
  refine ⟨by rw [hcopied'.type_eq, htype, hcopied.type_eq],
    by rw [hcopied'.name_eq, hname, hcopied.name_eq], ?_⟩
  obtain ⟨fuel, hcopied⟩ := hcopied
  obtain ⟨fuel', hcopied'⟩ := hcopied'
  have hrange := range_of_treeFrom hcopied'
  rw [hloc, range_of_treeFrom hcopied] at hrange
  exact (Except.ok.inj hrange).symm

/-- If corresponding scopes are shown in the same way, so are lists of them. -/
theorem forall₂_copied_eq {ss : List ScopeId} {trees trees' : List Scope}
    (hcopied : List.Forall₂ g.Copied ss trees)
    (hcopied' : List.Forall₂ g'.Copied (ss.map C.scopes.move) trees')
    (heq : ∀ s ∈ ss, ∀ t ∈ trees, ∀ t', g.Copied s t → g'.Copied (C.scopes.move s) t' → t' = t) :
    trees' = trees := by
  rw [List.forall₂_map_left_iff] at hcopied'
  have hsame : List.Forall₂ Eq trees' trees := by
    refine (forall₂_square (R := Eq) (List.forall₂_refl _) hcopied hcopied' ?_).flip
    rintro s hs t ht _ t' rfl hst hst'
    exact heq s hs t ht t' hst hst'
  rwa [List.forall₂_eq_eq_eq] at hsame

/-- Scopes aside that stand for each other are shown in the same way. -/
theorem copied_eq (h : Mirrors C g g') (hs : C.Aside g s) (hcopied : g.Copied s tree)
    (hcopied' : g'.Copied (C.scopes.move s) tree') : tree' = tree := by
  -- Induction on the size of the tree, since every copy comes with a fuel of its own.
  induction hsize : tree.size using Nat.strongRecOn generalizing s tree tree' with
  | ind k ih =>
    obtain ⟨hapart, hlt, hother⟩ := hs
    obtain ⟨htype, hname, hrange⟩ := h.heading_copied hapart hlt hcopied hcopied'
    have hbindings : List.Forall₂ Eq tree.bindings tree'.bindings := by
      refine forall₂_square (h.bindings s hapart hlt) hcopied.shows hcopied'.shows ?_
      rintro x - u - y v ⟨hxy, hagree⟩ ⟨hu, hxu⟩ ⟨hv, hyv⟩
      rw [hagree.eq (fun o ho => hother ho.1) fun o ho => hother ho.1, hxu] at hyv
      exact Prod.ext (hu.symm.trans (hxy.symm.trans hv)) (Except.ok.inj hyv)
    have hchildren : tree'.children = tree.children := by
      have hmoved := hcopied'.children
      rw [h.children_eq s hapart hlt] at hmoved
      exact forall₂_copied_eq hcopied.children hmoved fun c hc t ht t' hct hct' =>
        ih t.size (hsize ▸ Scope.size_lt_of_mem_children ht)
          (h.aside s ⟨hapart, hlt, hother⟩ c hc) hct hct' rfl
    rw [List.forall₂_eq_eq_eq] at hbindings
    cases tree
    cases tree'
    cases htype
    cases hname
    cases hrange
    cases hbindings
    cases hchildren
    rfl

/-- The copies of a scope around the one in which the graphs differ agree around it. -/
theorem agreeAround {Inner : Scope → Prop} (h : Mirrors C g g')
    (hinner : ∀ s, g.Copied C.scopes.first s → Inner s)
    (hinner' : ∀ s, g'.Copied (C.scopes.move C.scopes.first) s → Inner s)
    (hs : s = C.scopes.first ∨ s ∈ C.outer) (hcopied : g.Copied s tree)
    (hcopied' : g'.Copied (C.scopes.move s) tree') :
    Scope.AgreeAround Inner (fun r => ∃ o, C.Read o ∧ o.toReference = .ok r)
      (fun r => ∃ o, C.Read' o ∧ o.toReference = .ok r) tree tree' := by
  induction hsize : tree.size using Nat.strongRecOn generalizing s tree tree' with
  | ind k ih =>
    rcases hs with rfl | hs
    · exact .inner (hinner tree hcopied) (hinner' tree' hcopied')
    have hapart := Gap.apart_of_lt (h.outer_lt s hs)
    have hlt := h.lt_nextScope_of_mem_outer hs
    obtain ⟨htype, hname, hrange⟩ := h.heading_copied hapart hlt hcopied hcopied'
    have hbindings := forall₂_square (h.bindings s hapart hlt) hcopied.shows hcopied'.shows
      (T := fun u v => v.1 = u.1 ∧ u.2.Agree (fun r => ∃ o, C.Read o ∧ o.toReference = .ok r)
        (fun r => ∃ o, C.Read' o ∧ o.toReference = .ok r) v.2) (by
        rintro x - u - y v ⟨hxy, hagree⟩ ⟨hu, hxu⟩ ⟨hv, hyv⟩
        refine ⟨hv.symm.trans (hxy.trans hu), ?_⟩
        exact (hagree.mono (fun _ ho => ho.2) fun _ ho => ho.2).toBinding hxu hyv)
    -- All children but one are aside.
    obtain ⟨earlier, c, later, hchildren, hc, haside⟩ := h.around s hs
    have hcopies := hcopied.children
    have hcopies' := hcopied'.children
    rw [h.children_eq s hapart hlt] at hcopies'
    rw [hchildren] at hcopies
    rw [hchildren, List.map_append, List.map_cons] at hcopies'
    obtain ⟨before, inner, after, htree, hbefore, hin, hafter⟩ := exists_split_of_forall₂ hcopies
    obtain ⟨before', inner', after', htree', hbefore', hin', hafter'⟩ :=
      exists_split_of_forall₂ hcopies'
    have hearlier : before' = before := forall₂_copied_eq hbefore hbefore'
      fun t ht _ _ _ => h.copied_eq (haside t (List.mem_append_left _ ht))
    have hlater : after' = after := forall₂_copied_eq hafter hafter'
      fun t ht _ _ _ => h.copied_eq (haside t (List.mem_append_right _ ht))
    have hmem : inner ∈ tree.children := htree ▸ List.mem_append_right _ List.mem_cons_self
    have hrec := ih inner.size (hsize ▸ Scope.size_lt_of_mem_children hmem) hc hin hin' rfl
    obtain ⟨type, name, range, bindings, children⟩ := tree
    obtain ⟨type', name', range', bindings', children'⟩ := tree'
    cases htype
    cases hname
    cases hrange
    cases htree
    cases htree'
    cases hearlier
    cases hlater
    exact .outer hbindings hrec

end Mirrors

/-! ## Parallel graphs -/

section Chain

variable (hg : g.Ranked) (hchain : g.chain f = f :: outer)

include hg hchain

theorem lt_of_mem_outer (hs : s ∈ outer) : s < f := by
  cases hp : g.parent? f with
  | none =>
    rw [chain_of_parent?_eq_none hp] at hchain
    cases hchain
    cases hs
  | some p =>
    rw [chain_of_parent?_eq_some hg hp] at hchain
    cases hchain
    exact Nat.lt_of_le_of_lt (le_of_mem_chain hg hs) (hg f p hp)

/-- What lies directly around a scope of a chain belongs to the chain. -/
theorem mem_outer_of_parent? (ht : t ∈ g.chain f) (hparent : g.parent? t = some s) : s ∈ outer := by
  have hst : s ∈ g.chain t := by
    rw [chain_of_parent?_eq_some hg hparent]
    exact List.mem_cons_of_mem _ (mem_chain_self g s)
  have hs := mem_chain_trans hg ht hst
  rw [hchain] at hs
  exact (List.mem_cons.1 hs).resolve_left
    (Nat.ne_of_lt (Nat.lt_of_lt_of_le (hg t s hparent) (le_of_mem_chain hg ht)))

end Chain

/-- A chain goes through one scope only of those directly inside another. -/
theorem eq_of_mem_chain_of_parent? (hg : g.Ranked) (ht : t ∈ g.chain f) (hu : u ∈ g.chain f)
    (hparent : g.parent? t = some s) (hparent' : g.parent? u = some s) : t = u := by
  have hnot : ∀ {t u : ScopeId}, t ∈ g.chain f → u ∈ g.chain f → g.parent? t = some s →
      g.parent? u = some s → ¬ t < u := by
    intro t u ht hu hparent hparent' hlt
    have hmem := mem_chain_of_le hg hu ht (Nat.le_of_lt hlt)
    rw [chain_of_parent?_eq_some hg hparent'] at hmem
    have hts := (List.mem_cons.1 hmem).resolve_left (Nat.ne_of_lt hlt)
    exact absurd (hg t s hparent) (Nat.not_lt.2 (le_of_mem_chain hg hts))
  exact Nat.le_antisymm (Nat.not_lt.1 (hnot hu ht hparent' hparent))
    (Nat.not_lt.1 (hnot ht hu hparent hparent'))

/-- Parallel graphs show the same if the gap begins with a scope in which all the others of the gap
lie. -/
theorem Parallel.mirrors (h : Parallel C g g') (hg : g.Valid)
    (hchain : g.chain C.scopes.first = C.scopes.first :: C.outer)
    (hgap : ∀ s, C.scopes.first < s → s < C.scopes.next →
      ∃ p, g.parent? s = some p ∧ C.scopes.first ≤ p) : Mirrors C g g' := by
  have hranked := hg.forest.ranked
  have hlinked := hg.forest.linked
  have houter : ∀ s ∈ C.outer, s < C.scopes.first := fun s => lt_of_mem_outer hranked hchain
  have hlt : ∀ s ∈ C.outer, s < g.nextScope := fun s hs =>
    Nat.lt_of_lt_of_le (houter s hs) (Nat.le_trans C.scopes.first_le h.next_le)
  -- A scope that does not lie around the gap is aside as soon as its parent is apart.
  have haside : ∀ s, C.scopes.Apart s → ∀ t, g.parent? t = some s →
      t ∉ g.chain C.scopes.first → C.Aside g t := by
    intro s hs t hparent ht
    have hst := hranked t s hparent
    refine ⟨?_, lt_of_parent? hparent, fun hmem => ht (hchain ▸ List.mem_cons_of_mem _ hmem)⟩
    rcases Nat.lt_or_ge t C.scopes.first with hfirst | hfirst
    · exact .inl hfirst
    rcases Nat.lt_or_ge t C.scopes.next with hnext | hnext
    · have hne : C.scopes.first ≠ t := fun heq => ht (heq ▸ mem_chain_self g _)
      obtain ⟨p, hp, hle⟩ := hgap t (Nat.lt_of_le_of_ne hfirst hne) hnext
      cases hp.symm.trans hparent
      rcases hs with hs | hs
      · exact absurd hs (Nat.not_lt.2 hle)
      · exact absurd (Nat.lt_trans hst hnext) (Nat.not_lt.2 hs)
    · exact .inr hnext
  constructor
  · intro s hs hslt
    rw [Draft.heading_eq, h.header_eq s hs hslt]
    rfl
  · exact h.children_eq
  · intro s hs hslt
    rw [h.bindings_eq s hs hslt, List.forall₂_map_right_iff, List.forall₂_same]
    intro x hx
    exact ⟨rfl, (h.entry s hs x.1 x.2 (boundTo_of_mem (hg.owns.distinct s) hx)).2⟩
  · exact houter
  · exact h.next_le
  · rintro s ⟨hs, hslt, hother⟩ c hc
    have hparent := (hlinked.mem_children_iff s hslt c).1 hc
    exact haside s hs c hparent fun hmem =>
      hother (mem_outer_of_parent? hranked hchain hmem hparent)
  · intro s hs
    have hslt := hlt s hs
    obtain ⟨c, hc, hparent⟩ := exists_child_of_mem_chain hranked
      (hchain ▸ List.mem_cons_of_mem _ hs) (Nat.ne_of_lt (houter s hs))
    obtain ⟨earlier, later, hsplit⟩ :=
      List.append_of_mem ((hlinked.mem_children_iff s hslt c).2 hparent)
    refine ⟨earlier, c, later, hsplit, ?_, fun t ht => ?_⟩
    · rw [hchain] at hc
      exact List.mem_cons.1 hc
    · -- Another child of the same scope is not on the chain.
      have hperm : (g.children s).Perm (c :: (earlier ++ later)) := hsplit ▸ List.perm_middle
      have htparent : g.parent? t = some s := (hlinked.mem_children_iff s hslt t).1
        (hperm.mem_iff.2 (List.mem_cons_of_mem _ ht))
      have hnodup := hperm.nodup_iff.1 (hlinked.nodup_children s hslt)
      refine haside s (.inl (houter s hs)) t htparent fun hmem => ?_
      have heq := eq_of_mem_chain_of_parent? hranked hmem hc htparent hparent
      exact (List.nodup_cons.1 hnodup).1 (heq ▸ ht)

/-! ## Without the layer -/

section Rebound

variable {R : EntryId → EntryId → Prop} {old old' xs xs' : List (Scalar × EntryId)} {name : Scalar}
  {e e' : EntryId}

/-- The names of two lists are bound to related entries. -/
theorem rel_rebound (h : List.Forall₂ (fun x y => y.1 = x.1 ∧ R x.2 y.2) old old') (he : R e e') :
    List.Forall₂ (fun x y => y.1 = x.1 ∧ R x.2 y.2) (rebound old name e)
      (rebound old' name e') := by
  have hany : old'.any (fun y => y.1.key == name.key) = old.any fun y => y.1.key == name.key := by
    induction h with
    | nil => rfl
    | cons hxy _ ih => rw [List.any_cons, List.any_cons, hxy.1, ih]
  rw [rebound_eq, rebound_eq, hany]
  split
  · refine List.rel_map (fun x y hxy => ?_) h
    rw [hxy.1]
    split
    · exact ⟨rfl, he⟩
    · exact hxy
  · exact List.rel_append h (.cons ⟨rfl, he⟩ .nil)

theorem rel_reboundAll (h : List.Forall₂ (fun x y => y.1 = x.1 ∧ R x.2 y.2) old old')
    (hxs : List.Forall₂ (fun x y => y.1 = x.1 ∧ R x.2 y.2) xs xs') :
    List.Forall₂ (fun x y => y.1 = x.1 ∧ R x.2 y.2) (reboundAll old xs) (reboundAll old' xs') := by
  induction hxs generalizing old old' with
  | nil => exact h
  | @cons x y _ _ hxy _ ih =>
    rw [reboundAll, reboundAll, List.foldl_cons, List.foldl_cons]
    refine ih ?_
    rw [hxy.1]
    exact rel_rebound h hxy.2

end Rebound

theorem heir_congr {root lexical : ScopeId} {e e' : EntryId}
    (h : (g'.entry e').kind = (g.entry e).kind) :
    g'.heir root lexical e' = g.heir root lexical e := by
  rw [heir, heir, isLexical, isLexical, h]

namespace Mirrors

variable {root lexical layer : ScopeId}

theorem move_of_mem_outer (h : Mirrors C g g') (hs : s ∈ C.outer) : C.scopes.move s = s :=
  Gap.move_of_lt_first (h.outer_lt s hs)

/-- Between scopes around the difference bindings can be handed on. -/
theorem same_congr (ht : t ∈ C.outer) {x y : Scalar × EntryId}
    (h : C.Same g g' s x y) : C.Same g g' t x y :=
  ⟨h.1, h.2.mono (fun _ ho => ⟨ht, ho.2⟩) fun _ ho => ⟨ht, ho.2⟩⟩

/-- What the layer hands on to corresponding scopes agrees. -/
theorem heirs (h : Mirrors C g g') (hroot : root ∈ C.outer) (hlexical : lexical ∈ C.outer)
    (hlayer : layer ∈ C.outer) (s : ScopeId) (hs : C.scopes.Apart s) :
    List.Forall₂ (C.Same g g' s)
      ((g.draft layer).bindings.filter fun x => g.heir root lexical x.2 = s)
      ((g'.draft layer).bindings.filter fun x => g'.heir root lexical x.2 = C.scopes.move s) := by
  have hmem : ∀ e, g.heir root lexical e ∈ C.outer := fun e =>
    (heir_cases root lexical).elim (fun heq => heq.symm ▸ hroot) fun heq => heq.symm ▸ hlexical
  have hlayers := h.bindings layer (.inl (h.outer_lt layer hlayer))
    (h.lt_nextScope_of_mem_outer hlayer)
  rw [h.move_of_mem_outer hlayer] at hlayers
  have hfiltered := List.rel_filter (p := fun x => g.heir root lexical x.2 = s)
    (q := fun x => g'.heir root lexical x.2 = C.scopes.move s) (fun x y hxy => by
      have hheir := hmem x.2
      dsimp only
      rw [decide_eq_true_iff, decide_eq_true_iff, heir_congr hxy.2.kind_eq,
        ← Gap.move_inj (.inl (h.outer_lt _ hheir)) hs, h.move_of_mem_outer hheir]) hlayers
  by_cases hs : s ∈ C.outer
  · exact hfiltered.imp fun _ _ => same_congr hs
  · have hnil : (g.draft layer).bindings.filter (fun x => g.heir root lexical x.2 = s) = [] := by
      refine List.filter_eq_nil_iff.2 fun x _ => ?_
      rw [decide_eq_true_iff]
      exact fun heq => hs (heq ▸ hmem x.2)
    rw [hnil, List.forall₂_nil_left_iff] at hfiltered
    rw [hnil, hfiltered]
    exact .nil

/-- Graphs that show the same do so also when a layer around the difference is dissolved. -/
theorem dissolveLayer (h : Mirrors C g g') (hg : g.Stacked root lexical layer)
    (hg' : g'.Stacked root lexical layer) (hroot : root ∈ C.outer) (hlexical : lexical ∈ C.outer)
    (hlayer : layer ∈ C.outer) :
    Mirrors C (g.dissolveLayer root lexical layer) (g'.dissolveLayer root lexical layer) := by
  have hlt := hg.lexical_lt
  have hlt' := hg'.lexical_lt
  have hmove : ∀ s, C.scopes.Apart s → (C.scopes.move s = lexical ↔ s = lexical) := by
    intro s hs
    rw [← Gap.move_inj hs (.inl (h.outer_lt lexical hlexical)), h.move_of_mem_outer hlexical]
  constructor
  · intro s hs hslt
    rw [nextScope_dissolveLayer] at hslt
    rw [heading_dissolveLayer hlt, heading_dissolveLayer hlt']
    exact h.heading_eq s hs hslt
  · intro s hs hslt
    rw [nextScope_dissolveLayer] at hslt
    rw [children_dissolveLayer hlt, children_dissolveLayer hlt']
    simp only [hmove s hs]
    split
    · have hchildren := h.children_eq layer (.inl (h.outer_lt layer hlayer))
        (h.lt_nextScope_of_mem_outer hlayer)
      rwa [h.move_of_mem_outer hlayer] at hchildren
    · exact h.children_eq s hs hslt
  · intro s hs hslt
    rw [nextScope_dissolveLayer] at hslt
    rw [bindings_dissolveLayer hg.root_lt hlt, bindings_dissolveLayer hg'.root_lt hlt']
    unfold Correspondence.Same
    simp only [entry_dissolveLayer]
    exact rel_reboundAll (R := fun e e' =>
        (g.entry e).Agree (C.Differs C.Read s) (C.Differs C.Read' s) (g'.entry e'))
      (h.bindings s hs hslt) (h.heirs hroot hlexical hlayer s hs)
  · exact h.outer_lt
  · rw [nextScope_dissolveLayer]
    exact h.next_le
  · rintro s ⟨hs, hslt, hother⟩ c hc
    have hne : s ≠ lexical := fun heq => hother (heq ▸ hlexical)
    rw [children_dissolveLayer hlt, if_neg hne] at hc
    rw [nextScope_dissolveLayer] at hslt
    rw [Correspondence.Aside, nextScope_dissolveLayer]
    exact h.aside s ⟨hs, hslt, hother⟩ c hc
  · intro s hs
    rw [children_dissolveLayer hlt]
    simp only [Correspondence.Aside, nextScope_dissolveLayer]
    split
    · exact h.around layer hlayer
    · exact h.around s hs

end Mirrors

end Graph

end LexicalScopes
