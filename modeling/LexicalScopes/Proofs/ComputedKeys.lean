import LexicalScopes.Proofs.Ranges.Contained
import LexicalScopes.Proofs.Ranges.Parts
import LexicalScopes.Proofs.Reads

/-!
# Computed keys

The key of a member of an object or a class stands outside the function that the member holds. Where
the function is a node of its own, it is entered after the key. Where the member is the function
itself, its scope is open while the key is walked: a read in the key goes past that scope only if
the scope does not bind the name, or a scope inside the key does.
-/

namespace LexicalScopes

variable {root : Node} {past past' : List Event} {around inner : List ScopeId}
  {holder p q c : Path} {final : Builder} {g : Graph} {r : Option Read} {s t : ScopeId}

/-! ## Nodes in a key -/

/-- The node is in the key of `holder`, which is entered after `past`. The node is entered after
`past'`, and the scopes `inner` are those of the nodes around it that are in the key, too. -/
inductive InKey (holder : Path) (past : List Event) : List Event → List ScopeId → Path → Prop where
  | key {c : Path} {earlier later : List Path} (hkids : holder.kids = earlier ++ c :: later)
      (hkey : c.key? = some "key") :
      InKey holder past (past ++ .enter holder :: Path.allEvents earlier) [] c
  | child {past' : List Event} {inner : List ScopeId} {p c : Path} {earlier later : List Path}
      (h : InKey holder past past' inner p) (hkids : p.kids = earlier ++ c :: later) :
      InKey holder past (past' ++ .enter p :: Path.allEvents earlier) (p.ownScopes past' ++ inner) c

theorem InKey.visit (h : InKey holder past past' inner q)
    (hholder : Visit root past around holder) :
    Visit root past' (inner ++ (holder.ownScopes past ++ around)) q := by
  induction h with
  | key hkids hkey => exact hholder.child hkids
  | child h hkids ih =>
    rw [List.append_assoc]
    exact ih.child hkids

/-- The events up to the end of the key go through the node. -/
theorem InKey.exists_events (h : InKey holder past past' inner q) :
    ∃ earlier c later rest, holder.kids = earlier ++ c :: later ∧ c.key? = some "key" ∧
      past ++ .enter holder :: Path.allEvents (earlier ++ [c]) = past' ++ (q.events ++ rest) := by
  induction h with
  | @key c earlier later hkids hkey =>
    exact ⟨earlier, c, later, [], hkids, hkey, by simp [Path.allEvents]⟩
  | @child past' inner p c earlier later h hkids ih =>
    obtain ⟨first, k, last, rest, hholder, hkey, hevents⟩ := ih
    refine ⟨first, k, last, Path.allEvents later ++ (.exit p :: rest), hholder, hkey, ?_⟩
    rw [hevents, Path.events_eq p, hkids]
    simp

theorem InKey.exists_of_descendant (h : InKey holder past past' inner p) (hq : q ∈ p.descendants) :
    ∃ past' inner, InKey holder past past' inner q := by
  induction p using Path.induction_on_kids generalizing past' inner with
  | step p ih =>
    obtain ⟨c, hc, hq⟩ := Path.mem_descendants_iff.1 hq
    obtain ⟨earlier, later, hkids⟩ := List.append_of_mem hc
    rcases hq with rfl | hq
    · exact ⟨_, _, h.child hkids⟩
    · exact ih c hc (h.child hkids) hq

/-- Every node at or below the key of a member is in the key. -/
theorem exists_inKey (hc : c ∈ holder.kids) (hkey : c.key? = some "key")
    (hq : q ∈ c :: c.descendants) (past : List Event) :
    ∃ past' inner, InKey holder past past' inner q := by
  obtain ⟨earlier, later, hkids⟩ := List.append_of_mem hc
  have hin : InKey holder past _ [] c := .key hkids hkey
  rcases List.mem_cons.1 hq with rfl | hq
  · exact ⟨_, _, hin⟩
  · exact hin.exists_of_descendant hq

/-! ## Members -/

/-- Members of objects and classes. The last two are functions themselves. -/
def NodeType.membered : List String :=
  ["Property", "ObjectProperty", "MethodDefinition", "PropertyDefinition", "ClassProperty",
    "ObjectMethod", "ClassMethod"]

namespace Path

/-- The children in the key of a member come first. -/
theorem kids_pairwise (h : p.node.isAny NodeType.membered = true) :
    p.kids.Pairwise fun c d => d.key? = some "key" → c.key? = some "key" := by
  have htable : ∀ t ∈ NodeType.membered, (NodeType.childFields.lookup t).any (fun keys =>
      keys.head? == some "key" && !keys.tail.contains "key") = true := by decide
  obtain ⟨keys, hkeys, hgood⟩ := exists_childFields h htable
  simp only [Bool.and_eq_true, beq_iff_eq, Bool.not_eq_true', List.contains_eq_mem,
    decide_eq_false_iff_not] at hgood
  obtain ⟨others, rfl⟩ := List.head?_eq_some_iff.1 hgood.1
  rw [kids_eq hkeys, List.flatMap_cons, List.pairwise_append]
  -- Behind the key no child stands in the field `key`.
  have hothers : ∀ d ∈ others.flatMap p.inField, d.key? ≠ some "key" := by
    intro d hd hkey
    obtain ⟨field, hfield, hd⟩ := List.mem_flatMap.1 hd
    cases hkey.symm.trans (key?_of_mem_inField hd)
    exact hgood.2 hfield
  refine ⟨?_, ?_, fun c _ d hd hkey => absurd hkey (hothers d hd)⟩
  · exact List.Pairwise.imp_of_mem (fun hc _ _ _ => key?_of_mem_inField hc)
      (List.pairwise_of_forall fun _ _ => trivial)
  · exact List.Pairwise.imp_of_mem (fun _ hd _ hkey => absurd hkey (hothers _ hd))
      (List.pairwise_of_forall fun _ _ => trivial)

/-- A child in the value of a member comes after one in the key. -/
theorem exists_key_before (h : p.node.isAny NodeType.membered = true)
    {earlier later front rest : List Path} {v : Path} (hkids : p.kids = earlier ++ c :: later)
    (hkids' : p.kids = front ++ v :: rest) (hc : c.key? = some "key")
    (hv : v.key? = some "value") : ∃ between, front = earlier ++ c :: between := by
  have hne : v ≠ c := by
    rintro rfl
    exact absurd (Option.some.inj (hc.symm.trans hv)) (by decide)
  rw [hkids, List.append_eq_append_iff] at hkids'
  rcases hkids' with ⟨between, hfront, hlater⟩ | ⟨between, hearlier, hrest⟩
  · cases between with
    | nil => exact absurd (List.cons.inj hlater).1.symm hne
    | cons c' between =>
      cases (List.cons.inj hlater).1
      exact ⟨between, hfront⟩
  · cases between with
    | nil => exact absurd (List.cons.inj hrest).1 hne
    | cons v' between =>
      -- Otherwise the value would stand before the key.
      cases (List.cons.inj hrest).1
      have hpairwise := kids_pairwise h
      rw [hkids, hearlier, List.append_assoc, List.pairwise_append, List.cons_append,
        List.pairwise_cons] at hpairwise
      have hkey := hpairwise.2.1.1 c (by simp) hc
      exact absurd (Option.some.inj (hkey.symm.trans hv)) (by decide)

end Path

/-! ## Scopes of a member -/

namespace Path

/-- The scope of the function that a node is. -/
def functionScope? (p : Path) (past : List Event) : Option ScopeId :=
  if p.node.isAny NodeType.functions then (p.ownScopes past).head? else none

/-- A scope that the function or the value of a member makes. -/
inductive MemberScope (p : Path) (past : List Event) : ScopeId → Prop where
  | function {s : ScopeId} (h : s ∈ p.functionScope? past) : MemberScope p past s
  | value {v : Path} {front rest : List Path} {s : ScopeId} (hkids : p.kids = front ++ v :: rest)
      (hvalue : v.key? = some "value")
      (h : s ∈ v.ownScopes (past ++ .enter p :: allEvents front)) : MemberScope p past s

/-- The scopes around a node and outside the function that it is. -/
def outerScopes (p : Path) (past : List Event) (around : List ScopeId) : List ScopeId :=
  (if p.node.isAny NodeType.functions then (p.ownScopes past).tail else p.ownScopes past) ++ around

theorem ownScopes_append (p : Path) (past : List Event) (around : List ScopeId) :
    p.ownScopes past ++ around = (p.functionScope? past).toList ++ p.outerScopes past around := by
  unfold functionScope? outerScopes
  split
  · cases p.ownScopes past <;> rfl
  · rfl

end Path

/-! ## Chains -/

namespace Graph

theorem parent?_of_chain (hg : g.Ranked) {before after : List ScopeId}
    (h : g.chain s = before ++ t :: after) : g.parent? t = after.head? := by
  induction before generalizing s with
  | nil =>
    cases hp : g.parent? s with
    | none =>
      rw [chain_of_parent?_eq_none hp] at h
      cases h
      exact hp
    | some p =>
      rw [chain_of_parent?_eq_some hg hp] at h
      cases h
      exact hp
  | cons u before ih =>
    cases hp : g.parent? s with
    | none =>
      rw [chain_of_parent?_eq_none hp] at h
      simp at h
    | some p =>
      rw [chain_of_parent?_eq_some hg hp] at h
      exact ih (List.cons.inj h).2

/-- The scopes of a chain are numbered downwards. -/
theorem chain_pairwise (hg : g.Ranked) (s : ScopeId) : (g.chain s).Pairwise (· > ·) := by
  induction s using Nat.strongRecOn with
  | ind s ih =>
    cases hp : g.parent? s with
    | none =>
      rw [chain_of_parent?_eq_none hp]
      exact List.pairwise_singleton _ s
    | some p =>
      rw [chain_of_parent?_eq_some hg hp]
      have hlt := hg s p hp
      exact List.pairwise_cons.2
        ⟨fun t ht => Nat.lt_of_le_of_lt (le_of_mem_chain hg ht) hlt, ih p hlt⟩

end Graph

namespace Builder

variable {b : Builder}

theorem parent?_of_around (hb : b.Sound) {before after : List ScopeId}
    (h : b.around = before ++ t :: after) : b.graph.parent? t = after.head? := by
  unfold around at h
  split at h
  · exact Graph.parent?_of_chain hb.valid.forest.ranked h
  · simp at h

theorem around_pairwise (hb : b.Sound) : b.around.Pairwise (· > ·) := by
  unfold around
  split
  · exact Graph.chain_pairwise hb.valid.forest.ranked _
  · exact .nil

end Builder

/-! ## Reads past a scope -/

/-- A read takes no notice of a scope exactly if a scope further in binds the name, or this one does
not. -/
theorem Path.reads_past_iff {h : Graph} {first rest : List ScopeId} (hg : g.OwnsEntries)
    (hrest : s ∉ rest) (hread : q.Reads g h (first ++ s :: rest) r) :
    q.Reads g h (first ++ rest) r ↔
      ∀ name, q.readName? = some name → g.binds s name = true →
        ∃ t ∈ first, g.binds t name = true := by
  cases r with
  | none =>
    -- No scope binds the name.
    refine iff_of_true (fun name hname t ht => hread name hname t ?_) fun name hname hs => ?_
    · rcases List.mem_append.1 ht with ht | ht
      · exact List.mem_append_left _ ht
      · exact List.mem_append_right _ (List.mem_cons_of_mem _ ht)
    · have hnot := hread name hname s (List.mem_append_right _ List.mem_cons_self)
      rw [hs] at hnot
      cases hnot
  | some read =>
    obtain ⟨e, o⟩ := read
    obtain ⟨name, t, hname, hfound, he, hlast, hread⟩ := hread
    rw [List.find?_append] at hfound
    cases hfirst : first.find? (g.binds · name) with
    | some u =>
      -- A scope further in takes the read in both cases.
      rw [hfirst, Option.some_or] at hfound
      cases hfound
      refine iff_of_true ⟨name, t, hname, ?_, he, hlast, hread⟩ fun name' hname' _ => ?_
      · rw [List.find?_append, hfirst, Option.some_or]
      · cases hname.symm.trans hname'
        exact ⟨t, List.mem_of_find?_eq_some hfirst, by simpa using List.find?_some hfirst⟩
    | none =>
      rw [hfirst, Option.none_or, List.find?_cons] at hfound
      have hnone : ¬ ∃ t ∈ first, g.binds t name = true := by
        rintro ⟨t, ht, hbinds⟩
        exact List.find?_eq_none.1 hfirst t ht hbinds
      cases hs : g.binds s name with
      | true =>
        -- The scope itself takes the read, and its binding belongs to no other scope.
        rw [hs] at hfound
        cases hfound
        refine iff_of_false ?_ fun h => hnone (h name hname hs)
        rintro ⟨name', u, hname', hfound', he', -⟩
        cases hname.symm.trans hname'
        rw [List.find?_append, hfirst, Option.none_or] at hfound'
        obtain ⟨rfl, -⟩ := hg.find?_inj _ _ _ _ e he he'
        exact hrest (List.mem_of_find?_eq_some hfound')
      | false =>
        rw [hs] at hfound
        refine iff_of_true ⟨name, t, hname, ?_, he, hlast, hread⟩ fun name' hname' hs' => ?_
        · rw [List.find?_append, hfirst, Option.none_or]
          exact hfound
        · cases hname.symm.trans hname'
          rw [hs] at hs'
          cases hs'

/-! ## Keys outside -/

section Keys

variable {before after : Builder}

/-- After a node in a key is entered, the builder stands in the scopes of the key, then in the one
of the function, then outside. -/
theorem InKey.around_after (hkey : InKey holder past past' inner q)
    (hholder : Visit root past around holder) (hsole : root.SoleProgram)
    (hpasses : Passes past' q before after final) :
    after.around = (q.ownScopes past' ++ inner) ++
      ((holder.functionScope? past).toList ++ holder.outerScopes past around) := by
  rw [hpasses.around_after, (hkey.visit hholder).around_before hsole hpasses,
    Path.ownScopes_append holder, List.append_assoc]

/-- A scope lies directly in another one of the chain exactly if nothing is between them. -/
theorem Passes.parent?_eq_some_iff (hpasses : Passes past' q before after final)
    (front back rest : List ScopeId) (haround : after.around = front ++ t :: (back ++ s :: rest)) :
    final.graph.parent? t = some s ↔ back = [] := by
  have hafter := hpasses.sound_after
  have hlt : t < after.graph.nextScope :=
    Builder.lt_of_mem_around hafter (by simp [haround])
  rw [hpasses.grows_rest.parent?_eq hlt, Builder.parent?_of_around hafter haround]
  cases back with
  | nil => simp
  | cons u back =>
    -- The scopes around the builder are different from each other.
    have hpairwise := Builder.around_pairwise hafter
    rw [haround, List.pairwise_append, List.pairwise_cons] at hpairwise
    have hne := (List.pairwise_cons.1 hpairwise.2.1.2).1 s (by simp)
    simp only [List.cons_append, List.head?_cons, Option.some.injEq, reduceCtorEq, iff_false]
    exact Nat.ne_of_gt hne

/-- No scope in a key lies directly in the scope of the function exactly if there is none of one of
them, or another scope of the key lies between. -/
theorem InKey.parent_ne_iff (hkey : InKey holder past past' inner q)
    (hholder : Visit root past around holder) (hsole : root.SoleProgram)
    (hpasses : Passes past' q before after final) :
    (∀ s ∈ holder.functionScope? past, ∀ t ∈ q.ownScopes past', final.graph.parent? t ≠ some s) ↔
      holder.functionScope? past = none ∨ q.ownScopes past' = [] ∨ inner ≠ [] := by
  have haround := hkey.around_after hholder hsole hpasses
  cases hscope : holder.functionScope? past with
  | none => simp
  | some s =>
    rw [hscope] at haround
    constructor
    · intro h
      refine .inr (Decidable.or_iff_not_imp_left.2 fun hown hinner => ?_)
      -- The outermost scope of the node would lie directly in that of the function.
      obtain ⟨front, t, hlast⟩ := List.eq_nil_or_concat _ |>.resolve_left hown
      have hdirect : after.around = front ++ t :: ([] ++ s :: holder.outerScopes past around) := by
        simpa [hlast, hinner] using haround
      exact h s rfl t (by simp [hlast]) ((hpasses.parent?_eq_some_iff front [] _ hdirect).2 rfl)
    · rintro (h | h | hinner) s' hs' t ht hparent
      · cases h
      · simp [h] at ht
      · cases hs'
        obtain ⟨front, back, hown⟩ := List.append_of_mem ht
        have hchain : after.around =
            front ++ t :: ((back ++ inner) ++ s :: holder.outerScopes past around) := by
          simpa [hown] using haround
        have hback := (hpasses.parent?_eq_some_iff front (back ++ inner) _ hchain).1 hparent
        exact hinner (List.append_eq_nil_iff.1 hback).2

/-- What is read in a key is what would be read outside of the member, exactly if the function that
the member is does not bind the name or a scope in the key does. -/
theorem InKey.reads_outside_iff (hkey : InKey holder past past' inner q)
    (hholder : Visit root past around holder) (hsole : root.SoleProgram)
    (hpasses : Passes past' q before after final)
    (hread : q.Reads after.graph final.graph after.around r) :
    q.Reads after.graph final.graph
        ((q.ownScopes past' ++ inner) ++ holder.outerScopes past around) r ↔
      ∀ s ∈ holder.functionScope? past, ∀ name, q.readName? = some name →
        after.graph.binds s name = true →
          ∃ t ∈ q.ownScopes past' ++ inner, after.graph.binds t name = true := by
  have haround := hkey.around_after hholder hsole hpasses
  have hafter := hpasses.sound_after
  have hpairwise := Builder.around_pairwise hafter
  rw [haround] at hread hpairwise
  cases hscope : holder.functionScope? past with
  | none =>
    rw [hscope] at hread
    exact iff_of_true hread (by simp)
  | some s =>
    rw [hscope] at hread hpairwise
    have hrest : s ∉ holder.outerScopes past around := by
      have houter := (List.pairwise_append.1 hpairwise).2.1
      exact fun hs => Nat.lt_irrefl s ((List.pairwise_cons.1 houter).1 s hs)
    rw [Path.reads_past_iff hafter.valid.owns hrest hread]
    simp

/-- The scopes of the value of a member are made after those in its key. -/
theorem InKey.le_of_value {front rest : List Path} {v : Path}
    (hkey : InKey holder past past' inner q) (hpasses : Passes past' q before after final)
    (hmember : holder.node.isAny NodeType.membered = true)
    (hkids : holder.kids = front ++ v :: rest) (hvalue : v.key? = some "value")
    (hs : s ∈ v.ownScopes (past ++ .enter holder :: Path.allEvents front)) :
    after.graph.nextScope ≤ s := by
  obtain ⟨earlier, c, later, events, hkids', hc, hevents⟩ := hkey.exists_events
  obtain ⟨between, rfl⟩ := Path.exists_key_before hmember hkids' hkids hc hvalue
  have hpast : past ++ .enter holder :: Path.allEvents (earlier ++ c :: between) =
      past' ++ .enter q ::
        (Path.allEvents q.kids ++ .exit q :: events ++ Path.allEvents between) := by
    have hsplit : past ++ .enter holder :: Path.allEvents (earlier ++ c :: between) =
        (past ++ .enter holder :: Path.allEvents (earlier ++ [c])) ++ Path.allEvents between := by
      simp [Path.allEvents]
    rw [hsplit, hevents, Path.events_eq q]
    simp
  rw [hpast, Path.mem_ownScopes] at hs
  refine Nat.le_trans ?_ hs.1
  rw [hpasses.nextScope_after, scopesMade, scopesMade, List.flatMap_append, List.flatMap_cons,
    List.countP_append, List.countP_append]
  exact Nat.add_le_add_left (Nat.le_add_right _ _) _

/-- Outside of a member there are none of its scopes, and in its key neither. -/
theorem InKey.not_memberScope (hkey : InKey holder past past' inner q)
    (hholder : Visit root past around holder) (hsole : root.SoleProgram)
    (hpasses : Passes past' q before after final)
    (hmember : holder.node.isAny NodeType.membered = true) (hs : holder.MemberScope past s) :
    s ∉ (q.ownScopes past' ++ inner) ++ holder.outerScopes past around := by
  have haround := hkey.around_after hholder hsole hpasses
  intro hmem
  cases hs with
  | function hs =>
    rw [hs] at haround
    have hpairwise := Builder.around_pairwise hpasses.sound_after
    rw [haround, List.pairwise_append] at hpairwise
    rcases List.mem_append.1 hmem with hmem | hmem
    · exact Nat.lt_irrefl s (hpairwise.2.2 s hmem s List.mem_cons_self)
    · exact Nat.lt_irrefl s ((List.pairwise_cons.1 hpairwise.2.1).1 s hmem)
  | value hkids hvalue hs =>
    have hle := hkey.le_of_value hpasses hmember hkids hvalue hs
    have hin : s ∈ after.around := by
      rw [haround]
      rcases List.mem_append.1 hmem with hmem | hmem
      · exact List.mem_append_left _ hmem
      · exact List.mem_append_right _ (List.mem_append_right _ hmem)
    exact Nat.not_lt.2 hle (Builder.lt_of_mem_around hpasses.sound_after hin)

/-- No scope in a key lies directly in a scope of the member exactly if the member is no function,
the node makes no scopes, or another scope of the key lies between. -/
theorem InKey.parent_ne_iff_of_member (hkey : InKey holder past past' inner q)
    (hholder : Visit root past around holder) (hsole : root.SoleProgram)
    (hpasses : Passes past' q before after final)
    (hmember : holder.node.isAny NodeType.membered = true) :
    (∀ s, holder.MemberScope past s → ∀ t ∈ q.ownScopes past', final.graph.parent? t ≠ some s) ↔
      holder.functionScope? past = none ∨ q.ownScopes past' = [] ∨ inner ≠ [] := by
  rw [← hkey.parent_ne_iff hholder hsole hpasses]
  constructor
  · exact fun h s hs => h s (.function hs)
  · intro h s hs t ht hparent
    cases hs with
    | function hs => exact h s hs t ht hparent
    | value hkids hvalue hs =>
      -- A scope is made after the one in which it lies.
      have hle := hkey.le_of_value hpasses hmember hkids hvalue hs
      have hlt := hpasses.sound_final.valid.forest.ranked t s hparent
      have ht := (Path.mem_ownScopes.1 ht).2
      rw [← hpasses.nextScope_after] at ht
      exact Nat.lt_irrefl t (Nat.lt_trans (Nat.lt_of_lt_of_le ht hle) hlt)

/-- A node in the key of a member is treated as if the key stood outside of the member, exactly as
far as the member is no function, or the scope of this function does not come between: what is read
is not bound there or is bound in the key, and the scopes that the node makes lie in another scope
of the key. -/
theorem key_outside_member_iff (hfinal : collect (.object root) = .ok final)
    (hsole : root.SoleProgram) (hholder : Visit root past around holder)
    (hmember : holder.node.isAny NodeType.membered = true)
    (hkey : InKey holder past past' inner q) :
    ∃ before after r, Passes past' q before after final ∧
      Graph.Gains before.graph after.graph r ∧
      (∀ s, holder.MemberScope past s →
        s ∉ (q.ownScopes past' ++ inner) ++ holder.outerScopes past around) ∧
      (q.Reads after.graph final.graph
          ((q.ownScopes past' ++ inner) ++ holder.outerScopes past around) r ↔
        ∀ s ∈ holder.functionScope? past, ∀ name, q.readName? = some name →
          after.graph.binds s name = true →
            ∃ t ∈ q.ownScopes past' ++ inner, after.graph.binds t name = true) ∧
      ((∀ s, holder.MemberScope past s → ∀ t ∈ q.ownScopes past',
          final.graph.parent? t ≠ some s) ↔
        holder.functionScope? past = none ∨ q.ownScopes past' = [] ∨ inner ≠ []) := by
  have hvisit := hkey.visit hholder
  obtain ⟨before, after, hpasses⟩ := hvisit.passes (ofTree_of_collect hfinal).2
  obtain ⟨r, hread, hgains⟩ := hvisit.exists_reads hsole hpasses
  rw [← hvisit.around_before hsole hpasses, ← hpasses.around_after] at hread
  exact ⟨before, after, r, hpasses, hgains,
    fun _ hs => hkey.not_memberScope hholder hsole hpasses hmember hs,
    hkey.reads_outside_iff hholder hsole hpasses hread,
    hkey.parent_ne_iff_of_member hholder hsole hpasses hmember⟩

end Keys

section Method

open Sample

/-- A method of an object, with the key `[a]` and the parameter `a`. -/
def keyedMethod : Node :=
  node "ObjectMethod" 8 16 [("computed", .bool true), ("key", .object (identifier "a" 9)),
    ("params", list [identifier "a" 12]), ("body", .object (block 14 16 []))]

def keyedObject : Node := node "ObjectExpression" 7 17 [("properties", list [keyedMethod])]

/-- The method in an object, after a declaration of another `a`. -/
def keyedProgram : Node :=
  program 18 [declaration "let" "a" 0,
    node "ExpressionStatement" 6 18 [("expression", .object keyedObject)]]

/-- The statement with the object. -/
def keyedStatement : Path :=
  .child (.root keyedProgram) "body" (some 1)
    (node "ExpressionStatement" 6 18 [("expression", .object keyedObject)])

def keyedHolder : Path :=
  .child (.child keyedStatement "expression" none keyedObject) "properties" (some 0) keyedMethod

/-- The read in the key. -/
def keyedRead : Path := .child keyedHolder "key" none (identifier "a" 9)

theorem exists_visit_keyedHolder : ∃ past around, Visit keyedProgram past around keyedHolder := by
  have hstatement : (Path.root keyedProgram).kids =
      [.child (.root keyedProgram) "body" (some 0) (declaration "let" "a" 0)] ++
        keyedStatement :: [] := rfl
  have hobject : keyedStatement.kids =
      [] ++ .child keyedStatement "expression" none keyedObject :: [] := rfl
  have hmethod : (Path.child keyedStatement "expression" none keyedObject).kids =
      [] ++ keyedHolder :: [] := rfl
  exact ⟨_, _, ((Visit.root.child hstatement).child hobject).child hmethod⟩

theorem key_outside_member_iff_method :
    ∃ final past past' around inner before after r, collect (.object keyedProgram) = .ok final ∧
      Visit keyedProgram past around keyedHolder ∧ InKey keyedHolder past past' inner keyedRead ∧
      Passes past' keyedRead before after final ∧ Graph.Gains before.graph after.graph r ∧
      (∀ s, keyedHolder.MemberScope past s →
        s ∉ (keyedRead.ownScopes past' ++ inner) ++ keyedHolder.outerScopes past around) ∧
      (keyedRead.Reads after.graph final.graph
          ((keyedRead.ownScopes past' ++ inner) ++ keyedHolder.outerScopes past around) r ↔
        ∀ s ∈ keyedHolder.functionScope? past, ∀ name, keyedRead.readName? = some name →
          after.graph.binds s name = true →
            ∃ t ∈ keyedRead.ownScopes past' ++ inner, after.graph.binds t name = true) ∧
      ((∀ s, keyedHolder.MemberScope past s → ∀ t ∈ keyedRead.ownScopes past',
          final.graph.parent? t ≠ some s) ↔
        keyedHolder.functionScope? past = none ∨ keyedRead.ownScopes past' = [] ∨ inner ≠ []) := by
  obtain ⟨final, hfinal⟩ := exists_eq_ok (e := collect (.object keyedProgram)) (by decide +kernel)
  obtain ⟨past, around, hvisit⟩ := exists_visit_keyedHolder
  have hread : keyedRead ∈ keyedHolder.kids := List.mem_cons_self
  obtain ⟨past', inner, hkey⟩ := exists_inKey hread rfl List.mem_cons_self past
  obtain ⟨before, after, r, h⟩ :=
    key_outside_member_iff hfinal (by decide +kernel) hvisit (by decide) hkey
  exact ⟨final, past, past', around, inner, before, after, r, hfinal, hvisit, hkey, h⟩

/-- The `a` around the object has no read; that of the function has the one in the key. -/
theorem keyedRead_is_caught :
    (collect (.object keyedProgram)).toOption.map (fun b =>
        [2, 3].map fun s => (b.graph.find? s (.string "a")).map fun e =>
          (b.graph.entry e).refs.length) =
      some [some 0, some 1] := by
  decide +kernel

end Method

end LexicalScopes
