import LexicalScopes.Fault
import Mathlib.Data.List.Forall2

/-!
# Readings that succeed

A chain of readings succeeds exactly when each of them does, and a list is read exactly when each
of its entries is. Steps that change a state are taken in the same way one after the other.
-/

namespace LexicalScopes

variable {ε α β : Type}

theorem bind_eq_ok {x : Except ε α} {f : α → Except ε β} {b : β} :
    x >>= f = .ok b ↔ ∃ a, x = .ok a ∧ f a = .ok b := by
  cases x <;> simp [bind, Except.bind]

theorem pure_eq_ok {a b : α} : (pure a : Except ε α) = .ok b ↔ a = b := by
  simp [pure, Except.pure]

theorem map_ok (f : α → β) (a : α) : f <$> (Except.ok a : Except ε α) = .ok (f a) := rfl

theorem map_eq_ok {f : α → β} {x : Except ε α} {b : β} :
    f <$> x = .ok b ↔ ∃ a, x = .ok a ∧ f a = b := by
  cases x <;> simp [Functor.map, Except.map]

theorem map_eq_error {f : α → β} {x : Except ε α} {fault : ε} :
    f <$> x = .error fault ↔ x = .error fault := by
  cases x <;> simp [Functor.map, Except.map]

theorem ok_bind (a : α) (f : α → Except ε β) : (Except.ok a : Except ε α) >>= f = f a := rfl

theorem error_bind (fault : ε) (f : α → Except ε β) :
    (Except.error fault : Except ε α) >>= f = .error fault := rfl

theorem exists_eq_ok {e : Except ε α} (h : e.isOk = true) : ∃ a, e = .ok a := by
  cases e with
  | ok a => exact ⟨a, rfl⟩
  | error err => cases h

theorem eq_ok_of_toOption {e : Except ε α} {a : α} (h : e.toOption = some a) : e = .ok a := by
  cases e with
  | ok b =>
    cases h
    rfl
  | error err => cases h

theorem readable_eq_ok {o : Option α} {e : ε} {a : α} : readable o e = .ok a ↔ o = some a := by
  cases o <;> simp

theorem liftM_eq_ok {x : Except Cause α} {a : α} :
    (liftM x : Except Fault α) = .ok a ↔ x = .ok a := by
  cases x <;> simp

theorem readable_eq_error {o : Option α} {e fault : ε} :
    readable o e = .error fault ↔ o = none ∧ fault = e := by
  cases o <;> simp [eq_comm]

theorem Json.record_eq_ok {j : Json} {n : Node} : j.record = .ok n ↔ j = .object n :=
  readable_eq_ok.trans node?_eq_some_iff

theorem Node.required_eq_ok {n : Node} {key : String} {value : Json} :
    n.required key = .ok value ↔ n.has key = true ∧ n.get key = value := by
  rw [required, readable_eq_ok, has, get]
  cases n.lookup key <;> simp

/-- Two questions, of which the second is asked only if the answer to the first is yes. -/
theorem and_eq_ok {x y : Except ε Bool} :
    (do if ← x then y else return false) = .ok true ↔ x = .ok true ∧ y = .ok true := by
  rw [bind_eq_ok]
  constructor
  · rintro ⟨b, hx, h⟩
    cases b with
    | true => exact ⟨hx, h⟩
    | false => cases h
  · rintro ⟨hx, hy⟩
    exact ⟨true, hx, hy⟩

/-- A list is read entry by entry. -/
theorem mapM_eq_ok {f : α → Except ε β} {xs : List α} {ys : List β} :
    xs.mapM f = .ok ys ↔ List.Forall₂ (fun x y => f x = .ok y) xs ys := by
  induction xs generalizing ys with
  | nil => rw [List.mapM_nil, pure_eq_ok, List.forall₂_nil_left_iff, eq_comm]
  | cons x xs ih =>
    rw [List.mapM_cons, List.forall₂_cons_left_iff, bind_eq_ok]
    constructor
    · rintro ⟨y, hy, h⟩
      obtain ⟨ys', hys', h⟩ := bind_eq_ok.1 h
      exact ⟨y, ys', hy, ih.1 hys', (pure_eq_ok.1 h).symm⟩
    · rintro ⟨y, ys', hy, hys', rfl⟩
      exact ⟨y, hy, bind_eq_ok.2 ⟨ys', ih.2 hys', rfl⟩⟩

theorem exists_mapM_eq_ok {f : α → Except ε β} {xs : List α} (h : ∀ x ∈ xs, ∃ y, f x = .ok y) :
    ∃ ys, xs.mapM f = .ok ys := by
  induction xs with
  | nil => exact ⟨[], rfl⟩
  | cons x xs ih =>
    obtain ⟨⟨y, hy⟩, hrest⟩ := List.forall_mem_cons.1 h
    obtain ⟨ys, hys⟩ := ih hrest
    exact ⟨y :: ys, by rw [List.mapM_cons, hy, ok_bind, hys]; rfl⟩

/-- Whether a list is read does not depend on what is made of its entries. -/
theorem mapM_map_eq {γ : Type} {f : α → Except ε β} {g : α → Except ε γ} (h : β → γ)
    (hg : ∀ x, g x = f x >>= fun y => .ok (h y)) (xs : List α) :
    xs.mapM g = xs.mapM f >>= fun ys => .ok (ys.map h) := by
  induction xs with
  | nil => rfl
  | cons x xs ih =>
    rw [List.mapM_cons, List.mapM_cons, hg x, ih]
    cases f x with
    | error err => rfl
    | ok y => cases xs.mapM f <;> rfl

/-- Two readings go on alike if what they make of the values read is the same. -/
theorem bind_congr_map {γ δ : Type} {x : Except ε α} {y : Except ε β} {k : α → γ} {l : β → γ}
    {f : α → Except ε δ} {g : β → Except ε δ} (h : k <$> x = l <$> y)
    (hfg : ∀ a b, k a = l b → f a = g b) : x >>= f = y >>= g := by
  cases x with
  | error fault =>
    cases y with
    | error fault' => exact congrArg Except.error (Except.error.inj h)
    | ok b => cases h
  | ok a =>
    cases y with
    | error fault' => cases h
    | ok b => exact hfg a b (Except.ok.inj h)

/-- Two lists are read alike if their entries are. -/
theorem map_mapM_congr {γ δ : Type} {f : α → Except ε β} {g : α → Except ε γ} {k : β → δ}
    {l : γ → δ} (xs : List α) (h : ∀ x ∈ xs, k <$> f x = l <$> g x) :
    List.map k <$> xs.mapM f = List.map l <$> xs.mapM g := by
  induction xs with
  | nil => rfl
  | cons x xs ih =>
    simp only [List.mapM_cons, map_bind, map_pure]
    refine bind_congr_map (h x List.mem_cons_self) fun a b hab => ?_
    refine bind_congr_map (ih fun y hy => h y (List.mem_cons_of_mem _ hy)) fun as bs habs => ?_
    rw [List.map_cons, List.map_cons, hab, habs]

theorem exists_of_mem_forall₂ {R : α → β → Prop} {xs : List α} {ys : List β} {y : β}
    (h : List.Forall₂ R xs ys) (hy : y ∈ ys) : ∃ x ∈ xs, R x y := by
  induction h with
  | nil => cases hy
  | @cons x y' xs ys hx _ ih =>
    rcases List.mem_cons.1 hy with rfl | hy
    · exact ⟨x, List.mem_cons_self, hx⟩
    · obtain ⟨x', hx', hread⟩ := ih hy
      exact ⟨x', List.mem_cons_of_mem _ hx', hread⟩

theorem exists_of_mem_mapM {f : α → Except ε β} {xs : List α} {ys : List β} {y : β}
    (h : xs.mapM f = .ok ys) (hy : y ∈ ys) : ∃ x ∈ xs, f x = .ok y :=
  exists_of_mem_forall₂ (R := fun x y => f x = .ok y) (mapM_eq_ok.1 h) hy

/-! ## Steps in a row -/

section Steps

variable {σ : Type} {m : EStateM ε σ α} {f : α → EStateM ε σ β} {s s' : σ}

theorem bind_of_ok {a : α} (h : m s = .ok a s') : (m >>= f) s = f a s' := by
  change EStateM.bind m f s = _
  rw [EStateM.bind, h]

theorem bind_of_error {fault : ε} (h : m s = .error fault s') :
    (m >>= f) s = .error fault s' := by
  change EStateM.bind m f s = _
  rw [EStateM.bind, h]

theorem exists_of_bind_eq_ok {b : β} (h : (m >>= f) s = .ok b s') :
    ∃ a s₁, m s = .ok a s₁ ∧ f a s₁ = .ok b s' := by
  cases hm : m s with
  | ok a s₁ => exact ⟨a, s₁, rfl, by rw [← h, bind_of_ok hm]⟩
  | error fault s₁ =>
    rw [bind_of_error hm] at h
    cases h

end Steps

end LexicalScopes
