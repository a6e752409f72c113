import LexicalScopes.Proofs.Graph.Dissolve
import Mathlib.Data.List.Perm.Basic

/-!
# Overwritten bindings

A name that is bound once more keeps its place and loses its old entry. All other bindings, old and
new, are there afterwards.
-/

namespace LexicalScopes

namespace Graph

variable {g : Graph} {s : ScopeId} {name n : Scalar} {b c e : EntryId} {x y : Scalar × EntryId}
  {old xs : List (Scalar × EntryId)}

/-- The old bindings that lose their entry once further names are bound. -/
def overwritten (old xs : List (Scalar × EntryId)) : List (Scalar × EntryId) :=
  old.filter fun x => xs.any fun y => y.1.key == x.1.key

theorem mem_overwritten : x ∈ overwritten old xs ↔ x ∈ old ∧ ∃ y ∈ xs, y.1.key = x.1.key := by
  rw [overwritten, List.mem_filter, List.any_eq_true]
  simp only [beq_iff_eq]

/-! ## One more name -/

theorem rebound_eq :
    rebound old name b =
      if old.any fun y => y.1.key == name.key then
        old.map fun y => if y.1.key == name.key then (y.1, b) else y
      else old ++ [(name, b)] := rfl

theorem rebound_cons_of_eq (hn : n.key = name.key) (hold : ∀ y ∈ old, y.1.key ≠ name.key) :
    rebound ((n, c) :: old) name b = (n, b) :: old := by
  have hrest : old.map (fun y => if y.1.key == name.key then (y.1, b) else y) = old := by
    have hsame : ∀ y ∈ old, (if y.1.key == name.key then (y.1, b) else y) = id y := by
      intro y hy
      exact if_neg (by simpa using hold y hy)
    rw [List.map_congr_left hsame, List.map_id]
  rw [rebound_eq, if_pos (by simp [hn]), List.map_cons, hrest]
  simp [hn]

theorem rebound_cons_of_ne (hn : n.key ≠ name.key) :
    rebound ((n, c) :: old) name b = (n, c) :: rebound old name b := by
  have hany : ((n, c) :: old).any (fun y => y.1.key == name.key) =
      old.any fun y => y.1.key == name.key := by
    simp [hn]
  rw [rebound_eq, rebound_eq, hany]
  split
  · simp [hn]
  · rfl

/-- Binding a name leads to no other keys. -/
theorem mem_rebound (h : x ∈ rebound old name b) : x.1 = name ∨ ∃ y ∈ old, y.1 = x.1 := by
  rw [rebound_eq] at h
  split at h
  · obtain ⟨y, hy, rfl⟩ := List.mem_map.1 h
    refine .inr ⟨y, hy, ?_⟩
    split <;> rfl
  · rcases List.mem_append.1 h with h | h
    · exact .inr ⟨x, h, rfl⟩
    · rw [List.mem_singleton.1 h]
      exact .inl rfl

/-- No name is listed twice once one more is bound. -/
theorem nodup_rebound (hold : (old.map (·.1.key)).Nodup) :
    ((rebound old name b).map (·.1.key)).Nodup := by
  induction old with
  | nil => exact List.nodup_singleton _
  | cons x old ih =>
    obtain ⟨n, c⟩ := x
    rw [List.map_cons, List.nodup_cons] at hold
    by_cases hn : n.key = name.key
    · rw [rebound_cons_of_eq hn, List.map_cons, List.nodup_cons]
      · exact hold
      · intro y hy heq
        exact hold.1 (List.mem_map.2 ⟨y, hy, heq.trans hn.symm⟩)
    · rw [rebound_cons_of_ne hn, List.map_cons, List.nodup_cons]
      refine ⟨?_, ih hold.2⟩
      intro hmem
      obtain ⟨y, hy, heq⟩ := List.mem_map.1 hmem
      rcases mem_rebound hy with hname | ⟨z, hz, hzy⟩
      · exact hn (heq.symm.trans (congrArg Scalar.key hname))
      · exact hold.1 (List.mem_map.2 ⟨z, hz, (congrArg Scalar.key hzy).trans heq⟩)

theorem overwritten_singleton_of_ne (hold : ∀ y ∈ old, y.1.key ≠ name.key) :
    overwritten old [(name, b)] = [] := by
  rw [overwritten, List.filter_eq_nil_iff]
  intro y hy hany
  have hkey : name.key = y.1.key := by simpa using hany
  exact hold y hy hkey.symm

/-- Besides the entry that is lost, the bindings are the old ones and the new one. -/
theorem perm_rebound (hold : (old.map (·.1.key)).Nodup)
    (hname : ∀ y ∈ old, y.1.key = name.key → y.1 = name) :
    ((name, b) :: old).Perm (overwritten old [(name, b)] ++ rebound old name b) := by
  induction old with
  | nil => exact .refl _
  | cons x old ih =>
    obtain ⟨n, c⟩ := x
    rw [List.map_cons, List.nodup_cons] at hold
    by_cases hn : n.key = name.key
    · -- The first name is the one that is bound again, and no later one is.
      have hfresh : ∀ y ∈ old, y.1.key ≠ name.key := by
        intro y hy heq
        exact hold.1 (List.mem_map.2 ⟨y, hy, heq.trans hn.symm⟩)
      have heq : n = name := hname (n, c) List.mem_cons_self hn
      subst heq
      have hlost : overwritten ((n, c) :: old) [(n, b)] = [(n, c)] := by
        rw [overwritten, List.filter_cons_of_pos (by simp)]
        exact congrArg ((n, c) :: ·) (overwritten_singleton_of_ne (b := b) hfresh)
      rw [rebound_cons_of_eq rfl hfresh, hlost]
      exact .swap _ _ _
    · -- The first name stays as it is, in front of what the others become.
      have hkept : overwritten ((n, c) :: old) [(name, b)] = overwritten old [(name, b)] := by
        rw [overwritten, List.filter_cons_of_neg (by simpa using Ne.symm hn)]
        rfl
      have hrest := ih hold.2 fun y hy => hname y (List.mem_cons_of_mem _ hy)
      rw [rebound_cons_of_ne hn, hkept]
      calc (name, b) :: (n, c) :: old
        _ |>.Perm ((n, c) :: (name, b) :: old) := .swap _ _ _
        _ |>.Perm ((n, c) :: (overwritten old [(name, b)] ++ rebound old name b)) := hrest.cons _
        _ |>.Perm (overwritten old [(name, b)] ++ (n, c) :: rebound old name b) :=
            List.perm_middle.symm

/-! ## Several names -/

/-- Binding a name does not decide which of the other names are overwritten. -/
theorem overwritten_rebound (hold : (old.map (·.1.key)).Nodup)
    (hxs : ∀ y ∈ xs, y.1.key ≠ name.key) :
    overwritten (rebound old name b) xs = overwritten old xs := by
  -- Wherever the name stands, none of the other names overwrites it.
  have hskip : ∀ {m : Scalar} {d : EntryId} {rest : List (Scalar × EntryId)},
      m.key = name.key → overwritten ((m, d) :: rest) xs = overwritten rest xs := by
    intro m d rest hm
    rw [overwritten, List.filter_cons_of_neg]
    · rfl
    · intro hany
      obtain ⟨y, hy, heq⟩ := List.any_eq_true.1 hany
      exact hxs y hy ((beq_iff_eq.1 heq).trans hm)
  induction old with
  | nil => exact hskip rfl
  | cons x old ih =>
    obtain ⟨n, c⟩ := x
    rw [List.map_cons, List.nodup_cons] at hold
    by_cases hn : n.key = name.key
    · rw [rebound_cons_of_eq hn, hskip hn, hskip hn]
      intro y hy heq
      exact hold.1 (List.mem_map.2 ⟨y, hy, heq.trans hn.symm⟩)
    · have hrest := ih hold.2
      simp only [overwritten] at hrest ⊢
      rw [rebound_cons_of_ne hn, List.filter_cons, List.filter_cons, hrest]

/-- What is overwritten by several names is overwritten by the first or by the others. -/
theorem perm_overwritten_cons (hxs : ∀ y ∈ xs, y.1.key ≠ x.1.key) :
    (overwritten old (x :: xs)).Perm (overwritten old [x] ++ overwritten old xs) := by
  have hfirst : (overwritten old (x :: xs)).filter (fun y => x.1.key == y.1.key) =
      overwritten old [x] := by
    rw [overwritten, List.filter_filter, overwritten]
    apply List.filter_congr
    intro y _
    cases hy : x.1.key == y.1.key <;> simp [hy]
  have hothers : (overwritten old (x :: xs)).filter (fun y => !(x.1.key == y.1.key)) =
      overwritten old xs := by
    rw [overwritten, List.filter_filter, overwritten]
    apply List.filter_congr
    intro y _
    cases hy : x.1.key == y.1.key with
    | false => simp [hy]
    | true =>
      -- The other names have other keys.
      have hnone : xs.any (fun z => z.1.key == y.1.key) = false := by
        rw [List.any_eq_false]
        intro z hz heq
        exact hxs z hz ((beq_iff_eq.1 heq).trans (beq_iff_eq.1 hy).symm)
      simp [hnone]
  have hsplit := List.filter_append_perm (fun y => x.1.key == y.1.key) (overwritten old (x :: xs))
  rw [hfirst, hothers] at hsplit
  exact hsplit.symm

/-- Besides the entries that are lost, the bindings are the old ones and the new ones. -/
theorem perm_reboundAll (hold : (old.map (·.1.key)).Nodup) (hxs : (xs.map (·.1.key)).Nodup)
    (hname : ∀ x ∈ xs, ∀ y ∈ old, y.1.key = x.1.key → y.1 = x.1) :
    (xs ++ old).Perm (overwritten old xs ++ reboundAll old xs) := by
  induction xs generalizing old with
  | nil =>
    have hnone : overwritten old [] = [] := List.filter_eq_nil_iff.2 fun _ _ => by simp
    rw [hnone]
    exact .refl _
  | cons x xs ih =>
    rw [List.map_cons, List.nodup_cons] at hxs
    have hfresh : ∀ y ∈ xs, y.1.key ≠ x.1.key := by
      intro y hy heq
      exact hxs.1 (List.mem_map.2 ⟨y, hy, heq⟩)
    -- The first name is bound, and then the others in what it leaves.
    have hone := perm_rebound (b := x.2) hold (hname x List.mem_cons_self)
    have hnames : ∀ z ∈ xs, ∀ y ∈ rebound old x.1 x.2, y.1.key = z.1.key → y.1 = z.1 := by
      intro z hz y hy heq
      rcases mem_rebound hy with hyx | ⟨y', hy', hyy'⟩
      · exact absurd (heq.symm.trans (congrArg Scalar.key hyx)) (hfresh z hz)
      · rw [← hyy']
        exact hname z (List.mem_cons_of_mem _ hz) y' hy' ((congrArg Scalar.key hyy').trans heq)
    have hothers := ih (nodup_rebound hold) hxs.2 hnames
    rw [overwritten_rebound hold hfresh] at hothers
    have hlost : (overwritten old (x :: xs)).Perm (overwritten old [x] ++ overwritten old xs) :=
      perm_overwritten_cons hfresh
    calc x :: xs ++ old
      _ |>.Perm (xs ++ x :: old) := List.perm_middle.symm
      _ |>.Perm (xs ++ (overwritten old [x] ++ rebound old x.1 x.2)) := hone.append_left xs
      _ |>.Perm (overwritten old [x] ++ (xs ++ rebound old x.1 x.2)) :=
          List.perm_append_comm_assoc _ _ _
      _ |>.Perm (overwritten old [x] ++ (overwritten old xs ++ reboundAll old (x :: xs))) :=
          hothers.append_left _
      _ |>.Perm (overwritten old [x] ++ overwritten old xs ++ reboundAll old (x :: xs)) := by
          rw [List.append_assoc]
      _ |>.Perm (overwritten old (x :: xs) ++ reboundAll old (x :: xs)) :=
          hlost.symm.append_right _

/-- Where nothing was bound nothing is lost. -/
theorem perm_reboundAll_nil (hxs : (xs.map (·.1.key)).Nodup) : xs.Perm (reboundAll [] xs) := by
  have hold : (([] : List (Scalar × EntryId)).map (·.1.key)).Nodup := List.nodup_nil
  have hperm := perm_reboundAll hold hxs fun _ _ y hy => by cases hy
  rwa [List.append_nil, overwritten, List.filter_nil, List.nil_append] at hperm

/-! ## Without the layer -/

/-- What some scopes bind, scope by scope. -/
def bindingsOf (g : Graph) (ss : List ScopeId) : List (Scalar × EntryId) :=
  ss.flatMap fun s => (g.draft s).bindings

theorem bindingsOf_cons {ss : List ScopeId} :
    g.bindingsOf (s :: ss) = (g.draft s).bindings ++ g.bindingsOf ss := List.flatMap_cons

/-- The bindings of a root that lose their entry when a layer is dissolved. -/
def lost (g : Graph) (root layer : ScopeId) : List (Scalar × EntryId) :=
  overwritten (g.draft root).bindings ((g.draft layer).bindings.filter fun x => !g.isLexical x.2)

section Dissolve

variable {root lexical layer t : ScopeId} {rest : List ScopeId}

theorem bindings_dissolveLayer (hroot : root < g.nextScope) (hlexical : lexical < g.nextScope) :
    ((g.dissolveLayer root lexical layer).draft t).bindings =
      reboundAll (g.draft t).bindings
        ((g.draft layer).bindings.filter fun x => g.heir root lexical x.2 = t) := by
  rw [draft_dissolveLayer hlexical, ← bindings_handOn hroot hlexical]

theorem heir_cases (root lexical : ScopeId) :
    g.heir root lexical e = root ∨ g.heir root lexical e = lexical := by
  rw [heir]
  split
  · exact .inr rfl
  · exact .inl rfl

/-- A layer shares its bindings out among the root and the lexical scope. -/
theorem perm_heirs (hne : root ≠ lexical) :
    (g.draft layer).bindings.Perm
      ((g.draft layer).bindings.filter (fun x => g.heir root lexical x.2 = root) ++
        (g.draft layer).bindings.filter (fun x => g.heir root lexical x.2 = lexical)) := by
  have hlexical : (g.draft layer).bindings.filter (fun x => g.heir root lexical x.2 = lexical) =
      (g.draft layer).bindings.filter fun x => !decide (g.heir root lexical x.2 = root) := by
    apply List.filter_congr
    intro x _
    rw [heir]
    cases g.isLexical x.2 <;> simp [hne, hne.symm]
  rw [hlexical]
  exact (List.filter_append_perm _ _).symm

/-- One part of the shared bindings is taken over at the price of the lost ones, the other part as
it is. -/
theorem perm_shared {old layer first second lost new new' rest : List (Scalar × EntryId)}
    (hshares : layer.Perm (first ++ second)) (hfirst : (first ++ old).Perm (lost ++ new))
    (hsecond : second.Perm new') :
    (old ++ (layer ++ rest)).Perm (lost ++ (new ++ (new' ++ rest))) :=
  calc old ++ (layer ++ rest)
    _ |>.Perm (old ++ (first ++ second ++ rest)) := (hshares.append_right rest).append_left old
    _ |>.Perm (old ++ (first ++ (second ++ rest))) := by rw [List.append_assoc first]
    _ |>.Perm (first ++ (old ++ (second ++ rest))) := List.perm_append_comm_assoc _ _ _
    _ |>.Perm (first ++ old ++ (second ++ rest)) := by rw [List.append_assoc]
    _ |>.Perm (lost ++ new ++ (new' ++ rest)) := hfirst.append (hsecond.append_right rest)
    _ |>.Perm (lost ++ (new ++ (new' ++ rest))) := by rw [List.append_assoc]

/-- Dissolving a layer keeps all bindings, except for those of the root that lose their entry. -/
theorem perm_bindingsOf_dissolveLayer (hg : g.OwnsEntries) (hroot : root < g.nextScope)
    (hlexical : lexical < g.nextScope) (hne : root ≠ lexical)
    (hempty : (g.draft lexical).bindings = [])
    (hname : ∀ x ∈ (g.draft layer).bindings, ∀ y ∈ (g.draft root).bindings, y.1.key = x.1.key →
      y.1 = x.1)
    (hrest : ∀ t ∈ rest, t ≠ root ∧ t ≠ lexical) :
    (g.bindingsOf (root :: lexical :: layer :: rest)).Perm
      (g.lost root layer ++
        (g.dissolveLayer root lexical layer).bindingsOf (root :: lexical :: rest)) := by
  have hnodup : ∀ p : Scalar × EntryId → Bool,
      (((g.draft layer).bindings.filter p).map (·.1.key)).Nodup := fun p =>
    (hg.distinct layer).sublist (List.filter_sublist.map _)
  -- Only the root and the lexical scope take bindings over.
  have hunchanged : (g.dissolveLayer root lexical layer).bindingsOf rest = g.bindingsOf rest := by
    apply List.flatMap_congr
    intro t ht
    obtain ⟨hnroot, hnlexical⟩ := hrest t ht
    rw [bindings_dissolveLayer hroot hlexical, List.filter_eq_nil_iff.2]
    · rfl
    · intro x _ hheir
      rcases heir_cases (g := g) (e := x.2) root lexical with h | h
      · exact hnroot ((of_decide_eq_true hheir).symm.trans h)
      · exact hnlexical ((of_decide_eq_true hheir).symm.trans h)
  have htaken : (g.draft layer).bindings.filter (fun x => g.heir root lexical x.2 = root) =
      (g.draft layer).bindings.filter fun x => !g.isLexical x.2 := by
    apply List.filter_congr
    intro x _
    rw [heir]
    cases g.isLexical x.2 <;> simp [hne.symm]
  have hrootPerm := perm_reboundAll (hg.distinct root)
    (hnodup fun x => g.heir root lexical x.2 = root)
    fun x hx => hname x (List.mem_filter.1 hx).1
  have hlexicalPerm := perm_reboundAll_nil (hnodup fun x => g.heir root lexical x.2 = lexical)
  rw [bindingsOf_cons, bindingsOf_cons, bindingsOf_cons, bindingsOf_cons, bindingsOf_cons,
    hunchanged, bindings_dissolveLayer hroot hlexical, bindings_dissolveLayer hroot hlexical,
    hempty, List.nil_append, lost, ← htaken]
  exact perm_shared (perm_heirs hne) hrootPerm hlexicalPerm

end Dissolve

end Graph

end LexicalScopes
