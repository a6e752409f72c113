import LexicalScopes.Proofs.Reading

/-!
# Readings that go alike

Two readings go alike if both fail, with whatever fault, or both succeed with related values. What
is built of readings that go alike goes alike.
-/

namespace LexicalScopes

/-- Both readings fail, or both read values that are related. -/
inductive Alike {α β : Type} (R : α → β → Prop) : Except Cause α → Except Cause β → Prop where
  | ok {a : α} {b : β} (h : R a b) : Alike R (.ok a) (.ok b)
  | error (fault fault' : Cause) : Alike R (.error fault) (.error fault')

namespace Alike

variable {α β γ δ : Type} {R : α → β → Prop} {S : γ → δ → Prop} {x : Except Cause α}
  {y : Except Cause β} {f : α → Except Cause γ} {g : β → Except Cause δ}

theorem refl (x : Except Cause α) : Alike Eq x x := by
  cases x with
  | ok a => exact .ok rfl
  | error fault => exact .error fault fault

theorem mono {R' : α → β → Prop} (h : Alike R x y) (hR : ∀ a b, R a b → R' a b) :
    Alike R' x y := by
  cases h with
  | ok h => exact .ok (hR _ _ h)
  | error fault fault' => exact .error fault fault'

theorem of_eq {x x' : Except Cause α} (h : x = x') : Alike Eq x x' := h ▸ refl x

theorem bind (h : Alike R x y) (hfg : ∀ a b, R a b → Alike S (f a) (g b)) :
    Alike S (x >>= f) (y >>= g) := by
  cases h with
  | ok h => exact hfg _ _ h
  | error fault fault' => exact .error fault fault'

/-- Readings that go on from the same value. -/
theorem bind_eq {x y : Except Cause α} {g : α → Except Cause δ} (h : Alike Eq x y)
    (hfg : ∀ a, Alike S (f a) (g a)) : Alike S (x >>= f) (y >>= g) :=
  h.bind fun a _ hab => hab ▸ hfg a

theorem ite {c : Prop} [Decidable c] {x' : Except Cause α} {y' : Except Cause β}
    (h : Alike R x y) (h' : Alike R x' y') :
    Alike R (if c then x else x') (if c then y else y') := by
  split
  · exact h
  · exact h'

theorem readable {o : Option α} {o' : Option β} (h : Option.Rel R o o') (e e' : Cause) :
    Alike R (readable o e) (readable o' e') := by
  cases h with
  | none => exact .error _ _
  | some h => exact .ok h

theorem mapM {xs : List α} {ys : List β} (h : List.Forall₂ R xs ys)
    (hfg : ∀ a b, R a b → Alike S (f a) (g b)) :
    Alike (List.Forall₂ S) (xs.mapM f) (ys.mapM g) := by
  induction h with
  | nil => exact .ok .nil
  | cons hab _ ih =>
    rw [List.mapM_cons, List.mapM_cons]
    exact (hfg _ _ hab).bind fun c d hcd => ih.bind fun cs ds hcds => .ok (.cons hcd hcds)

theorem mapM_eq {xs : List α} {ys : List β} {f : α → Except Cause γ} {g : β → Except Cause γ}
    (h : List.Forall₂ R xs ys) (hfg : ∀ a b, R a b → Alike Eq (f a) (g b)) :
    Alike Eq (xs.mapM f) (ys.mapM g) :=
  (mapM h hfg).mono fun _ _ hvalues => by rwa [List.forall₂_eq_eq_eq] at hvalues

/-- Readings that go alike with the same values succeed with the same value. -/
theorem eq_ok_iff {x y : Except Cause α} (h : Alike Eq x y) {a : α} : x = .ok a ↔ y = .ok a := by
  cases h with
  | ok h => rw [h]
  | error fault fault' => simp

end Alike

end LexicalScopes
