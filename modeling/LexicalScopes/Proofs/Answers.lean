import LexicalScopes.Proofs.Reading

/-!
# Readings that answer

A reading answers if it succeeds or ends in a reported fault. Such a reading never meets a value
that it has no meaning for. What is built of such readings answers, too.
-/

namespace LexicalScopes

/-- The reading gives a value with the property, or a reported fault. -/
inductive Answers {α : Type} (P : α → Prop) : Except Cause α → Prop where
  | ok {a : α} (h : P a) : Answers P (.ok a)
  | reported (e : ScopeError) : Answers P (.error (.reported e))

/-- Readings of which only the faults matter. -/
abbrev Answers.Any {α : Type} (_ : α) : Prop := True

namespace Answers

variable {α β : Type} {P : α → Prop} {Q : β → Prop} {x : Except Cause α} {f : α → Except Cause β}

theorem mono {P' : α → Prop} (h : Answers P x) (hP : ∀ a, P a → P' a) : Answers P' x := by
  cases h with
  | ok h => exact .ok (hP _ h)
  | reported e => exact .reported e

theorem bind (h : Answers P x) (hf : ∀ a, P a → Answers Q (f a)) : Answers Q (x >>= f) := by
  cases h with
  | ok h => exact hf _ h
  | reported e => exact .reported e

/-- The value that a reading answers with is the one that it reads. -/
theorem read (h : Answers P x) : Answers (fun a => P a ∧ x = .ok a) x := by
  cases h with
  | ok h => exact .ok ⟨h, rfl⟩
  | reported e => exact .reported e

theorem ite {c : Prop} [Decidable c] {y : Except Cause α} (hx : c → Answers P x)
    (hy : ¬c → Answers P y) : Answers P (if c then x else y) := by
  split
  · exact hx ‹_›
  · exact hy ‹_›

theorem mapM {xs : List α} (h : ∀ a ∈ xs, Answers Q (f a)) :
    Answers (fun ys => ∀ y ∈ ys, Q y) (xs.mapM f) := by
  induction xs with
  | nil => exact .ok (by simp)
  | cons a xs ih =>
    rw [List.mapM_cons]
    refine (h a List.mem_cons_self).bind fun y hy => ?_
    refine (ih fun a ha => h a (List.mem_cons_of_mem _ ha)).bind fun ys hys => .ok ?_
    exact List.forall_mem_cons.2 ⟨hy, hys⟩

theorem ok_or_reported (h : Answers P x) :
    (∃ a, x = .ok a) ∨ ∃ e, x = .error (.reported e) := by
  cases h with
  | ok _ => exact .inl ⟨_, rfl⟩
  | reported e => exact .inr ⟨e, rfl⟩

theorem exists_of_error {fault : Cause} (h : Answers P x) (hx : x = .error fault) :
    ∃ e, fault = .reported e := by
  cases h with
  | ok h => cases hx
  | reported e =>
    cases hx
    exact ⟨e, rfl⟩

end Answers

end LexicalScopes
