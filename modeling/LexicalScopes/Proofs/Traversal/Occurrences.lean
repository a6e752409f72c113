import LexicalScopes.Proofs.Missing.Holes
import LexicalScopes.Proofs.Ranges.Parts

/-!
# Occurrences

A path stands for one occurrence of a node in the tree. The events of a walk are in brackets: what
happens between entering and leaving a node happens to the nodes below it. If no object names a
field twice, every occurrence is entered once and left once.
-/

namespace LexicalScopes

/-! ## Brackets -/

/-- Whatever is entered is left, after everything that was entered in between. -/
inductive Bracketed : List Event → Prop where
  | nil : Bracketed []
  | node {p : Path} {inner rest : List Event} (hinner : Bracketed inner) (hrest : Bracketed rest) :
      Bracketed (.enter p :: (inner ++ .exit p :: rest))

theorem Bracketed.append {first second : List Event} (hfirst : Bracketed first)
    (hsecond : Bracketed second) : Bracketed (first ++ second) := by
  induction hfirst with
  | nil => exact hsecond
  | @node p inner rest hinner _ _ ih =>
    have h := Bracketed.node (p := p) hinner ih
    simpa using h

namespace Path

theorem bracketed_allEvents {ps : List Path} (h : ∀ p ∈ ps, Bracketed p.events) :
    Bracketed (allEvents ps) := by
  induction ps with
  | nil => exact .nil
  | cons p ps ih =>
    obtain ⟨hp, hps⟩ := List.forall_mem_cons.1 h
    exact hp.append (ih hps)

theorem bracketed_events (p : Path) : Bracketed p.events := by
  induction p using induction_on_kids with
  | step p ih =>
    rw [events_eq]
    exact .node (bracketed_allEvents ih) .nil

end Path

/-! ## Events of a node -/

/-- The node that is entered or left. -/
def Event.path : Event → Path
  | .enter p => p
  | .exit p => p

namespace Path

variable {p q c c' : Path} {key : String} {e : Event}

/-- Exactly the nodes below a node and the node itself are entered and left. -/
theorem mem_events_iff : e ∈ p.events ↔ e.path ∈ p :: p.descendants := by
  induction p using induction_on_kids with
  | step p ih =>
    have hkids : e ∈ allEvents p.kids ↔ e.path ∈ p.descendants := by
      rw [allEvents, List.mem_flatMap, mem_descendants_iff]
      refine exists_congr fun c => and_congr_right fun hc => ?_
      rw [ih c hc, List.mem_cons]
    rw [events_eq, List.mem_cons, List.mem_append, hkids, List.mem_singleton, List.mem_cons]
    cases e with
    | enter q => simp [Event.path]
    | exit q => simp [Event.path, or_comm]

theorem above_of_mem_kids (hc : c ∈ p.kids) : c.above = p :: p.above := by
  obtain ⟨key, hkey⟩ := exists_inField_of_mem_kids hc
  obtain ⟨index, heq⟩ := exists_eq_child hkey
  rw [heq, above]

/-- The way from a node below to the root passes the node and goes on as from there. -/
theorem suffix_above (hq : q ∈ p.descendants) : p :: p.above <:+ q.above := by
  induction p using induction_on_kids with
  | step p ih =>
    obtain ⟨c, hc, hq⟩ := mem_descendants_iff.1 hq
    rw [← above_of_mem_kids hc]
    rcases hq with rfl | hq
    · exact List.suffix_rfl
    · exact (List.suffix_cons c c.above).trans (ih c hc hq)

theorem suffix_line (hq : q ∈ p :: p.descendants) : p :: p.above <:+ q :: q.above := by
  rcases List.mem_cons.1 hq with rfl | hq
  · exact List.suffix_rfl
  · exact (suffix_above hq).trans (List.suffix_cons q q.above)

/-- No node is below itself. -/
theorem not_mem_descendants_self (p : Path) : p ∉ p.descendants := by
  intro h
  have hlength := (suffix_above h).length_le
  rw [List.length_cons] at hlength
  omega

/-- A node is below one child only. -/
theorem eq_of_mem_kids (hc : c ∈ p.kids) (hc' : c' ∈ p.kids) (hq : q ∈ c :: c.descendants)
    (hq' : q ∈ c' :: c'.descendants) : c = c' := by
  -- Both children stand on the way from the node to the root, at the same distance from the root.
  have hline := suffix_line hq
  have hline' := suffix_line hq'
  rw [above_of_mem_kids hc] at hline
  rw [above_of_mem_kids hc'] at hline'
  have hsuffix := List.suffix_of_suffix_length_le hline hline' (Nat.le_refl _)
  exact (List.cons.inj (hsuffix.eq_of_length rfl)).1

/-! ## One occurrence each -/

theorem index?_of_mem_listed {start : Nat} {items : List Json} (h : c ∈ p.listed key start items) :
    ∃ index, c.index? = some index ∧ start ≤ index := by
  induction items generalizing start with
  | nil => cases h
  | cons item rest ih =>
    rw [listed] at h
    split at h
    · rcases List.mem_cons.1 h with rfl | h
      · exact ⟨start, rfl, Nat.le_refl _⟩
      · obtain ⟨index, hindex, hle⟩ := ih h
        exact ⟨index, hindex, by omega⟩
    · obtain ⟨index, hindex, hle⟩ := ih h
      exact ⟨index, hindex, by omega⟩

theorem nodup_listed (p : Path) (key : String) (start : Nat) (items : List Json) :
    (p.listed key start items).Nodup := by
  induction items generalizing start with
  | nil => exact List.nodup_nil
  | cons item rest ih =>
    rw [listed]
    split
    · refine List.nodup_cons.2 ⟨fun h => ?_, ih _⟩
      obtain ⟨index, hindex, hle⟩ := index?_of_mem_listed h
      cases hindex
      omega
    · exact ih _

theorem nodup_inField (p : Path) (key : String) : (p.inField key).Nodup := by
  unfold inField
  split
  · exact p.nodup_listed key 0 _
  · split
    · exact List.nodup_singleton _
    · exact List.nodup_nil

/-- No child occurs twice if no field does. -/
theorem nodup_kids (h : (p.node.map (·.1)).Nodup) : p.kids.Nodup := by
  cases hfields : p.node.childFields with
  | error fault =>
    rw [kids, children, hfields]
    exact List.nodup_nil
  | ok keys =>
    rw [kids_eq hfields, List.nodup_flatMap]
    refine ⟨fun key _ => p.nodup_inField key, ?_⟩
    refine (Node.nodup_childFields h hfields).imp fun hne => ?_
    intro c hc hc'
    have hkey := (key?_of_mem_inField hc).symm.trans (key?_of_mem_inField hc')
    exact hne (Option.some.inj hkey)

theorem distinct_of_mem_kids (h : Json.Prunes.Distinct (.object p.node)) (hc : c ∈ p.kids) :
    Json.Prunes.Distinct (.object c.node) := by
  obtain ⟨key, hkey⟩ := exists_inField_of_mem_kids hc
  exact fun n hn => h n (Json.mem_objects_iff.2 (.inr (mem_inside_of_mem_inField hkey hn)))

/-- Every node is entered once and left once. -/
theorem nodup_events (h : Json.Prunes.Distinct (.object p.node)) : p.events.Nodup := by
  induction p using induction_on_kids with
  | step p ih =>
    have hbelow {e : Event} (he : e ∈ allEvents p.kids) : e.path ∈ p.descendants := by
      obtain ⟨c, hc, he⟩ := List.mem_flatMap.1 he
      exact mem_descendants_iff.2 ⟨c, hc, List.mem_cons.1 (mem_events_iff.1 he)⟩
    have hself {e : Event} (he : e.path = p) : e ∉ allEvents p.kids := fun hmem =>
      p.not_mem_descendants_self (he ▸ hbelow hmem)
    have hkids : (allEvents p.kids).Nodup := by
      rw [allEvents, List.nodup_flatMap]
      refine ⟨fun c hc => ih c hc (distinct_of_mem_kids h hc), ?_⟩
      have hnodup := nodup_kids (h p.node Json.mem_objects_self)
      refine hnodup.imp_of_mem fun hc hc' hne e he he' => hne ?_
      exact eq_of_mem_kids hc hc' (mem_events_iff.1 he) (mem_events_iff.1 he')
    rw [events_eq, List.nodup_cons, List.nodup_append']
    refine ⟨?_, hkids, List.nodup_singleton _, ?_⟩
    · rw [List.mem_append, List.mem_singleton]
      rintro (hmem | heq)
      · exact hself rfl hmem
      · cases heq
    · intro e he hexit
      rw [List.mem_singleton.1 hexit] at he
      exact hself rfl he

end Path

end LexicalScopes
