import LexicalScopes.Proofs.Order

/-!
# Sorted locations

Sorting keeps the locations, whatever their order. Where any two of them can be compared it answers,
and no location stands before one that it is after: the run with which it begins ascends, and
inserting a location by bisection keeps a list that ascends.
-/

namespace LexicalScopes.Location

variable {a b l last : Location} {ls run rest done out : List Location} {fuel : Nat}

/-! ## What is sorted -/

/-- In a list that is not empty a location is inserted before or behind the one in the middle. -/
theorem insertSorted_succ (fuel : Nat) (l : Location) (hdone : done ≠ []) :
    ∃ before pivot after, done = before ++ pivot :: after ∧ before.length = done.length / 2 ∧
      insertSorted (fuel + 1) l done = (do
        if ← l.lt pivot then return (← insertSorted fuel l before) ++ pivot :: after
        else return before ++ pivot :: (← insertSorted fuel l after)) := by
  have hpos : 0 < done.length := List.length_pos_iff.2 hdone
  have hmiddle : done.length / 2 < done.length := by omega
  have hdrop := List.drop_eq_getElem_cons hmiddle
  refine ⟨done.take (done.length / 2), done[done.length / 2], done.drop (done.length / 2 + 1), ?_,
    ?_, ?_⟩
  · rw [← hdrop, List.take_append_drop]
  · rw [List.length_take]
    omega
  · cases done with
    | nil => exact absurd rfl hdone
    | cons first more =>
      rw [insertSorted, hdrop]

theorem insertSorted_perm (h : insertSorted fuel l done = .ok out) : out.Perm (l :: done) := by
  induction fuel generalizing done out with
  | zero =>
    cases h
    exact .refl _
  | succ fuel ih =>
    by_cases hdone : done = []
    · subst hdone
      cases h
      exact .refl _
    · obtain ⟨before, pivot, after, rfl, -, heq⟩ := insertSorted_succ fuel l hdone
      rw [heq] at h
      obtain ⟨b, -, h⟩ := bind_eq_ok.1 h
      cases b with
      | true =>
        obtain ⟨inner, hinner, h⟩ := bind_eq_ok.1 h
        cases h
        exact (ih hinner).append_right _
      | false =>
        obtain ⟨inner, hinner, h⟩ := bind_eq_ok.1 h
        cases h
        calc (before ++ pivot :: inner).Perm (before ++ pivot :: l :: after) :=
              ((ih hinner).cons pivot).append_left before
          _ |>.Perm (before ++ l :: pivot :: after) :=
            (List.Perm.swap l pivot after).append_left before
          _ |>.Perm (l :: (before ++ pivot :: after)) := List.perm_middle

theorem append_of_risingFrom (h : risingFrom last ls = .ok (run, rest)) : run ++ rest = ls := by
  induction ls generalizing last run with
  | nil =>
    cases h
    rfl
  | cons l ls ih =>
    obtain ⟨b, -, h⟩ := bind_eq_ok.1 h
    cases b with
    | true =>
      cases h
      rfl
    | false =>
      obtain ⟨⟨run', rest'⟩, hrun, h⟩ := bind_eq_ok.1 h
      cases h
      rw [List.cons_append, ih hrun]

theorem append_of_fallingFrom (h : fallingFrom last ls = .ok (run, rest)) : run ++ rest = ls := by
  induction ls generalizing last run with
  | nil =>
    cases h
    rfl
  | cons l ls ih =>
    obtain ⟨b, -, h⟩ := bind_eq_ok.1 h
    cases b with
    | false =>
      cases h
      rfl
    | true =>
      obtain ⟨⟨run', rest'⟩, hrun, h⟩ := bind_eq_ok.1 h
      cases h
      rw [List.cons_append, ih hrun]

theorem perm_of_firstRun (h : firstRun ls = .ok (run, rest)) : (run ++ rest).Perm ls := by
  match ls with
  | [] =>
    cases h
    exact .refl _
  | [a] =>
    cases h
    exact .refl _
  | a :: b :: ls =>
    obtain ⟨c, -, h⟩ := bind_eq_ok.1 h
    cases c with
    | true =>
      obtain ⟨⟨run', rest'⟩, hrun, h⟩ := bind_eq_ok.1 h
      cases h
      rw [← append_of_fallingFrom hrun]
      exact (List.reverse_perm (a :: b :: run')).append_right rest
    | false =>
      obtain ⟨⟨run', rest'⟩, hrun, h⟩ := bind_eq_ok.1 h
      cases h
      rw [← append_of_risingFrom hrun]
      exact .refl _

theorem foldlM_insertSorted_perm
    (h : rest.foldlM (fun done l => insertSorted done.length l done) done = .ok out) :
    out.Perm (done ++ rest) := by
  induction rest generalizing done with
  | nil =>
    cases h
    rw [List.append_nil]
  | cons l rest ih =>
    rw [List.foldlM_cons] at h
    obtain ⟨next, hnext, h⟩ := bind_eq_ok.1 h
    exact (ih h).trans (((insertSorted_perm hnext).append_right rest).trans List.perm_middle.symm)

/-- Whatever the order of the locations, sorting keeps them. -/
theorem sorted_perm (h : sorted ls = .ok out) : out.Perm ls := by
  obtain ⟨⟨run, rest⟩, hrun, h⟩ := bind_eq_ok.1 h
  exact (foldlM_insertSorted_perm h).trans (perm_of_firstRun hrun)

/-! ## The order of what is sorted -/

/-- The line and the column are numbers that can be compared with any other number. -/
def IsOrdered (l : Location) : Prop :=
  ∃ x y, l.numbers? = some (x, y) ∧ x ≠ .undefined ∧ y ≠ .undefined

theorem IsOrdered.isSome (h : l.IsOrdered) : l.numbers?.isSome = true := by
  obtain ⟨x, y, h, -⟩ := h
  rw [h, Option.isSome_some]

/-- One of two locations is before the other one, or not after it. -/
theorem lt_or_le (ha : a.IsOrdered) (hb : b.IsOrdered) :
    a.lt b = .ok true ∧ a.le b = .ok true ∨ a.lt b = .ok false ∧ b.le a = .ok true := by
  obtain ⟨x, y, ha, hx, hy⟩ := ha
  obtain ⟨z, w, hb, hz, hw⟩ := hb
  have hline := Number.compare_ne_unordered hx hz
  have hcolumn := Number.compare_ne_unordered hy hw
  rw [lt, compare_of_numbers? ha hb, le_of_numbers? ha hb, le_of_numbers? hb ha,
    ← Number.swap_compare x z, ← Number.swap_compare y w]
  cases hxz : x.compare z <;> cases hyw : y.compare w <;> first | decide | contradiction

/-- No location is after a later one. -/
def Ascends (ls : List Location) : Prop := ls.Pairwise fun a b => a.le b = .ok true

theorem IsOrdered.le_trans {c : Location} (ha : a.IsOrdered) (hb : b.IsOrdered) (hc : c.IsOrdered)
    (h : a.le b = .ok true) (h' : b.le c = .ok true) : a.le c = .ok true :=
  Location.le_trans ha.isSome hb.isSome hc.isSome h h'

/-- By induction on the fuel: what stands before the middle stays before what stands behind it. -/
theorem exists_insertSorted (hl : l.IsOrdered) (hordered : ∀ a ∈ done, a.IsOrdered)
    (hfuel : done.length ≤ fuel) (hdone : Ascends done) :
    ∃ out, insertSorted fuel l done = .ok out ∧ Ascends out := by
  induction fuel generalizing done with
  | zero =>
    rw [List.length_eq_zero_iff.1 (Nat.le_zero.1 hfuel)]
    exact ⟨[l], rfl, List.pairwise_singleton _ _⟩
  | succ fuel ih =>
    by_cases hempty : done = []
    · subst hempty
      exact ⟨[l], rfl, List.pairwise_singleton _ _⟩
    · obtain ⟨before, pivot, after, hsplit, hlength, heq⟩ := insertSorted_succ fuel l hempty
      have hpos : 0 < done.length := List.length_pos_iff.2 hempty
      have hlengths : done.length = before.length + (after.length + 1) := by
        rw [hsplit, List.length_append, List.length_cons]
      rw [hsplit, List.forall_mem_append, List.forall_mem_cons] at hordered
      obtain ⟨hbefore, hpivot, hafter⟩ := hordered
      rw [hsplit] at hdone
      obtain ⟨hascends, hascends', hacross⟩ := List.pairwise_append.1 hdone
      obtain ⟨hleast, hascends''⟩ := List.pairwise_cons.1 hascends'
      rw [heq]
      rcases lt_or_le hl hpivot with ⟨hlt, hle⟩ | ⟨hlt, hle⟩
      · obtain ⟨inner, hinner, hinnerAscends⟩ := ih hbefore (by omega) hascends
        refine ⟨inner ++ pivot :: after, by rw [hlt, ok_bind, if_pos rfl, hinner]; rfl,
          List.pairwise_append.2 ⟨hinnerAscends, hascends', fun a ha => ?_⟩⟩
        rcases List.mem_cons.1 ((insertSorted_perm hinner).mem_iff.1 ha) with rfl | ha
        · exact List.forall_mem_cons.2
            ⟨hle, fun b hb => hl.le_trans hpivot (hafter b hb) hle (hleast b hb)⟩
        · exact hacross a ha
      · obtain ⟨inner, hinner, hinnerAscends⟩ := ih hafter (by omega) hascends''
        have hinnerLeast : ∀ b ∈ inner, pivot.le b = .ok true := fun b hb => by
          rcases List.mem_cons.1 ((insertSorted_perm hinner).mem_iff.1 hb) with rfl | hb
          · exact hle
          · exact hleast b hb
        refine ⟨before ++ pivot :: inner, by rw [hlt, ok_bind, if_neg nofun, hinner]; rfl,
          List.pairwise_append.2 ⟨hascends, List.pairwise_cons.2 ⟨hinnerLeast, hinnerAscends⟩,
            fun a ha => ?_⟩⟩
        have hpivotLast : a.le pivot = .ok true := hacross a ha pivot List.mem_cons_self
        refine List.forall_mem_cons.2 ⟨hpivotLast, fun b hb => ?_⟩
        rcases List.mem_cons.1 ((insertSorted_perm hinner).mem_iff.1 hb) with rfl | hb
        · exact (hbefore a ha).le_trans hpivot hl hpivotLast hle
        · exact hacross a ha b (List.mem_cons_of_mem _ hb)

/-- A run that does not fall ascends. -/
theorem exists_risingFrom (hlast : last.IsOrdered) (hordered : ∀ a ∈ ls, a.IsOrdered) :
    ∃ run rest, risingFrom last ls = .ok (run, rest) ∧ Ascends (last :: run) := by
  induction ls generalizing last with
  | nil => exact ⟨[], [], rfl, List.pairwise_singleton _ _⟩
  | cons l ls ih =>
    rw [List.forall_mem_cons] at hordered
    obtain ⟨hl, hordered⟩ := hordered
    rcases lt_or_le hl hlast with ⟨hlt, -⟩ | ⟨hlt, hle⟩
    · exact ⟨[], l :: ls, by rw [risingFrom, hlt]; rfl, List.pairwise_singleton _ _⟩
    · obtain ⟨run, rest, hrun, hascends⟩ := ih hl hordered
      refine ⟨l :: run, rest, by rw [risingFrom, hlt, ok_bind, if_neg nofun, hrun]; rfl, ?_⟩
      have hmem (a) (ha : a ∈ run) : a.IsOrdered :=
        hordered a (append_of_risingFrom hrun ▸ List.mem_append_left rest ha)
      refine List.pairwise_cons.2 ⟨List.forall_mem_cons.2 ⟨hle, fun a ha => ?_⟩, hascends⟩
      exact hlast.le_trans hl (hmem a ha) hle (List.rel_of_pairwise_cons hascends ha)

/-- A run that falls ascends when it is turned round. -/
theorem exists_fallingFrom (hlast : last.IsOrdered) (hordered : ∀ a ∈ ls, a.IsOrdered) :
    ∃ run rest, fallingFrom last ls = .ok (run, rest) ∧ Ascends (last :: run).reverse := by
  induction ls generalizing last with
  | nil => exact ⟨[], [], rfl, List.pairwise_singleton _ _⟩
  | cons l ls ih =>
    rw [List.forall_mem_cons] at hordered
    obtain ⟨hl, hordered⟩ := hordered
    rcases lt_or_le hl hlast with ⟨hlt, hle⟩ | ⟨hlt, -⟩
    · obtain ⟨run, rest, hrun, hascends⟩ := ih hl hordered
      refine ⟨l :: run, rest, by rw [fallingFrom, hlt, ok_bind, if_pos rfl, hrun]; rfl, ?_⟩
      have hmem (a) (ha : a ∈ run) : a.IsOrdered :=
        hordered a (append_of_fallingFrom hrun ▸ List.mem_append_left rest ha)
      rw [Ascends, List.pairwise_reverse] at hascends ⊢
      refine List.pairwise_cons.2 ⟨List.forall_mem_cons.2 ⟨hle, fun a ha => ?_⟩, hascends⟩
      exact (hmem a ha).le_trans hl hlast (List.rel_of_pairwise_cons hascends ha) hle
    · exact ⟨[], l :: ls, by rw [fallingFrom, hlt]; rfl, List.pairwise_singleton _ _⟩

theorem exists_firstRun (hordered : ∀ a ∈ ls, a.IsOrdered) :
    ∃ run rest, firstRun ls = .ok (run, rest) ∧ Ascends run := by
  match ls with
  | [] => exact ⟨[], [], rfl, .nil⟩
  | [a] => exact ⟨[a], [], rfl, List.pairwise_singleton _ _⟩
  | a :: b :: ls =>
    rw [List.forall_mem_cons] at hordered
    obtain ⟨ha, hordered⟩ := hordered
    rcases lt_or_le (hordered b List.mem_cons_self) ha with ⟨hlt, -⟩ | ⟨hlt, -⟩
    · obtain ⟨run, rest, hrun, hascends⟩ := exists_fallingFrom ha hordered
      refine ⟨(a :: run).reverse, rest, ?_, hascends⟩
      rw [fallingFrom, hlt, ok_bind, if_pos rfl] at hrun
      obtain ⟨⟨run', rest'⟩, hrun, h⟩ := bind_eq_ok.1 hrun
      cases h
      rw [firstRun, hlt, ok_bind, if_pos rfl, hrun]
      rfl
    · obtain ⟨run, rest, hrun, hascends⟩ := exists_risingFrom ha hordered
      refine ⟨a :: run, rest, ?_, hascends⟩
      rw [risingFrom, hlt, ok_bind, if_neg nofun] at hrun
      obtain ⟨⟨run', rest'⟩, hrun, h⟩ := bind_eq_ok.1 hrun
      cases h
      rw [firstRun, hlt, ok_bind, if_neg nofun, hrun]
      rfl

theorem exists_foldlM_insertSorted (hdone : ∀ a ∈ done, a.IsOrdered)
    (hrest : ∀ a ∈ rest, a.IsOrdered) (hascends : Ascends done) :
    ∃ out, rest.foldlM (fun done l => insertSorted done.length l done) done = .ok out ∧
      Ascends out := by
  induction rest generalizing done with
  | nil => exact ⟨done, rfl, hascends⟩
  | cons l rest ih =>
    rw [List.forall_mem_cons] at hrest
    obtain ⟨next, hnext, hnextAscends⟩ :=
      exists_insertSorted hrest.1 hdone (Nat.le_refl _) hascends
    have hmem (a) (ha : a ∈ next) : a.IsOrdered :=
      List.forall_mem_cons.2 ⟨hrest.1, hdone⟩ a ((insertSorted_perm hnext).mem_iff.1 ha)
    obtain ⟨out, hout, houtAscends⟩ := ih hmem hrest.2 hnextAscends
    exact ⟨out, by rw [List.foldlM_cons, hnext, ok_bind, hout], houtAscends⟩

/-- Locations that can be compared are sorted: the same ones, none of them after a later one. -/
theorem exists_sorted (hordered : ∀ a ∈ ls, a.IsOrdered) :
    ∃ out, sorted ls = .ok out ∧ out.Perm ls ∧ Ascends out := by
  obtain ⟨run, rest, hrun, hascends⟩ := exists_firstRun hordered
  have hmem (a) (ha : a ∈ run ++ rest) : a.IsOrdered :=
    hordered a ((perm_of_firstRun hrun).mem_iff.1 ha)
  obtain ⟨out, hout, houtAscends⟩ := exists_foldlM_insertSorted
    (fun a ha => hmem a (List.mem_append_left _ ha))
    (fun a ha => hmem a (List.mem_append_right _ ha)) hascends
  have hsorted : sorted ls = .ok out := by rw [sorted, hrun]; exact hout
  exact ⟨out, hsorted, sorted_perm hsorted, houtAscends⟩

end LexicalScopes.Location
