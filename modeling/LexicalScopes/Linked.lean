/-!
# Linked lists

A list as a chain of cells: each cell holds a value and the number of the cell after it. Values are
appended through the last cell, without walking the chain, and read by following it from the first
one.
-/

namespace LexicalScopes

/-- A value and the number of the cell after it. -/
structure Cell (α : Type) where
  value : α
  next : Option Nat

/-- A chain of cells in the order in which they were made, with its two ends. -/
structure Linked (α : Type) where
  cells : Array (Cell α) := #[]
  head : Option Nat := none
  tail : Option Nat := none

namespace Linked

variable {α β : Type} {l : Linked α} {f : α → β → β} {b : β}

/-- Append a value: the last cell so far is made to point to a new one. -/
def append (l : Linked α) (a : α) : Linked α :=
  let new := l.cells.size
  let cells := l.cells.push ⟨a, none⟩
  match l.tail with
  | none => ⟨cells, some new, some new⟩
  | some last => ⟨cells.modify last fun c => { c with next := some new }, l.head, some new⟩

/-- Combine the values from a cell on, of which at most `fuel` are visited. -/
def foldFrom (l : Linked α) (f : α → β → β) (b : β) : Nat → Option Nat → β
  | 0, _ => b
  | _ + 1, none => b
  | fuel + 1, some i =>
    match l.cells[i]? with
    | none => b
    | some c => f c.value (foldFrom l f b fuel c.next)

/-- Combine the values from the first one on. -/
def fold (l : Linked α) (f : α → β → β) (b : β) : β := l.foldFrom f b l.cells.size l.head

/-- The values from the first one on. -/
def toList (l : Linked α) : List α := l.fold List.cons []

/-! ## Order -/

/-- The number, if there is a cell of that number. -/
def cell? (l : Linked α) (i : Nat) : Option Nat := if i < l.cells.size then some i else none

/-- Every cell points to the one made after it. The list begins at the cell made first and is
appended to at the cell made last. -/
structure InOrder (l : Linked α) : Prop where
  head : l.head = l.cell? 0
  next : ∀ i c, l.cells[i]? = some c → c.next = l.cell? (i + 1)
  tail : l.tail = if l.cells.size = 0 then none else some (l.cells.size - 1)

theorem inOrder_empty : ({} : Linked α).InOrder :=
  ⟨rfl, fun i c h => by simp at h, rfl⟩

/-- By cases on the cell: the new one is the last, the one before it now points to it, and all
others are as they were. -/
theorem InOrder.append (h : l.InOrder) (a : α) : (l.append a).InOrder := by
  have htail := h.tail
  unfold Linked.append
  split at htail
  · rename_i hzero
    simp only [htail]
    refine ⟨by simp [cell?, hzero], fun i c hc => ?_, by simp [hzero]⟩
    rw [Array.getElem?_push, hzero] at hc
    split at hc
    · cases hc
      simp [cell?, hzero]
    · rw [Array.getElem?_eq_none (by omega)] at hc
      cases hc
  · rename_i hpos
    simp only [htail]
    refine ⟨?_, fun i c hc => ?_, by simp⟩
    · rw [h.head]
      simp [cell?, Nat.pos_of_ne_zero hpos]
    · rw [Array.getElem?_modify, Array.getElem?_push] at hc
      by_cases hnew : i = l.cells.size
      · rw [if_pos hnew, if_neg (by omega)] at hc
        cases hc
        simp [cell?, hnew]
      · rw [if_neg hnew] at hc
        have hlt : i < l.cells.size := by
          refine Nat.lt_of_not_le fun hge => ?_
          rw [Array.getElem?_eq_none hge] at hc
          split at hc <;> cases hc
        split at hc
        · obtain ⟨c', -, rfl⟩ := Option.map_eq_some_iff.1 hc
          have : i + 1 = l.cells.size := by omega
          simp [cell?, this]
        · rw [h.next i c hc]
          simp only [cell?, Array.size_modify, Array.size_push]
          rw [if_pos (by omega), if_pos (by omega)]

/-! ## Reading -/

/-- The values in the order in which they were appended. -/
def values (l : Linked α) : List α := l.cells.toList.map Cell.value

/-- Following the numbers of the next cells from a cell on leads through the values and ends at no
cell. -/
inductive Leads (l : Linked α) : Option Nat → List α → Prop where
  | nil : Leads l none []
  | cons {i : Nat} {c : Cell α} {rest : List α} (hcell : l.cells[i]? = some c)
      (hnext : Leads l c.next rest) : Leads l (some i) (c.value :: rest)

/-- By induction on the cells from `i` on: the cell after `i` is `i + 1`. -/
theorem InOrder.leads_drop (h : l.InOrder) (i : Nat) :
    l.Leads (l.cell? i) (l.values.drop i) := by
  induction hn : l.cells.size - i generalizing i with
  | zero =>
    rw [cell?, if_neg (by omega), List.drop_eq_nil_of_le (by simp [values]; omega)]
    exact .nil
  | succ n ih =>
    have hlt : i < l.cells.size := by omega
    have hcell : l.cells[i]? = some l.cells[i] := Array.getElem?_eq_getElem hlt
    have hdrop : l.values.drop i = l.cells[i].value :: l.values.drop (i + 1) := by
      rw [List.drop_eq_getElem_cons (by simpa [values] using hlt)]
      simp [values]
    rw [cell?, if_pos hlt, hdrop]
    refine .cons hcell ?_
    rw [h.next i _ hcell]
    exact ih (i + 1) (by omega)

theorem Leads.foldFrom_eq {o : Option Nat} {as : List α} {fuel : Nat} (h : l.Leads o as)
    (hfuel : as.length ≤ fuel) : l.foldFrom f b fuel o = as.foldr f b := by
  induction h generalizing fuel with
  | nil => cases fuel <;> rfl
  | cons hcell _ ih =>
    cases fuel with
    | zero => cases hfuel
    | succ fuel =>
      rw [foldFrom, hcell, List.foldr_cons]
      dsimp only
      rw [ih (Nat.le_of_succ_le_succ hfuel)]

theorem InOrder.leads_values (h : l.InOrder) : l.Leads l.head l.values := by
  simpa [h.head] using h.leads_drop 0

theorem InOrder.fold_eq (h : l.InOrder) : l.fold f b = l.values.foldr f b :=
  h.leads_values.foldFrom_eq (by simp [values])

theorem InOrder.toList_eq (h : l.InOrder) : l.toList = l.values := by
  rw [toList, h.fold_eq, List.foldr_cons_nil]

theorem InOrder.leads_toList (h : l.InOrder) : l.Leads l.head l.toList := by
  rw [h.toList_eq]
  exact h.leads_values

@[simp] theorem toList_empty : ({} : Linked α).toList = [] := rfl

/-- Pointing a cell elsewhere leaves its value. -/
theorem map_value_modify (cells : List (Cell α)) (i : Nat) (next : Option Nat) :
    (cells.modify i fun c => { c with next }).map Cell.value = cells.map Cell.value := by
  refine List.ext_getElem (by simp) fun j _ _ => ?_
  rw [List.getElem_map, List.getElem_map, List.getElem_modify]
  split <;> rfl

/-- Following the chain meets what was appended to it last at its end, after all that it held. -/
theorem InOrder.toList_append (h : l.InOrder) (a : α) : (l.append a).toList = l.toList ++ [a] := by
  rw [(h.append a).toList_eq, h.toList_eq]
  unfold values Linked.append
  split
  · simp
  · rw [Array.toList_modify, Array.toList_push, map_value_modify, List.map_append,
      List.map_singleton]

/-- The chain made of a list, one value after the other. -/
def appendAll (l : Linked α) (as : List α) : Linked α := as.foldl append l

theorem InOrder.appendAll (h : l.InOrder) (as : List α) : (l.appendAll as).InOrder := by
  induction as generalizing l with
  | nil => exact h
  | cons a rest ih => exact ih (h.append a)

theorem InOrder.toList_appendAll (h : l.InOrder) (as : List α) :
    (l.appendAll as).toList = l.toList ++ as := by
  induction as generalizing l with
  | nil => rw [Linked.appendAll, List.foldl_nil, List.append_nil]
  | cons a rest ih =>
    rw [Linked.appendAll, List.foldl_cons, ← Linked.appendAll, ih (h.append a), h.toList_append,
      List.append_assoc, List.singleton_append]

/-- A chain made of a list is combined as the list is. -/
theorem fold_appendAll_empty (as : List α) :
    (({} : Linked α).appendAll as).fold f b = as.foldr f b := by
  have h := inOrder_empty.appendAll as
  rw [h.fold_eq, ← h.toList_eq, inOrder_empty.toList_appendAll, toList_empty, List.nil_append]

/-- A chain without a first cell has no cells. -/
theorem InOrder.head_eq_none_iff (h : l.InOrder) : l.head = none ↔ l.toList = [] := by
  rw [h.head, h.toList_eq, values, List.map_eq_nil_iff, ← List.length_eq_zero_iff,
    Array.length_toList, cell?]
  split
  · rename_i hpos
    exact iff_of_false (Option.some_ne_none _) (Nat.ne_of_gt hpos)
  · rename_i hzero
    exact iff_of_true rfl (Nat.eq_zero_of_not_pos hzero)

end Linked

end LexicalScopes
