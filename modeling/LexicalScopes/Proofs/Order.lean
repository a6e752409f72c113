import LexicalScopes.Proofs.Reading
import LexicalScopes.Scope.Location
import Mathlib.Algebra.Order.Ring.Int

/-!
# The order of locations

Numbers are compared by value, and what is not after a number that is not after a third one is not
after the third one either. The same then holds of locations whose lines and columns are numbers,
for which it is always decided which comes first. A range therefore contains what a range inside it
contains.
-/

namespace LexicalScopes

/-! ## Comparisons -/

namespace Comparison

/-- The first value is not after the second. -/
def isLe (c : Comparison) : Bool := c == .before || c == .equal

/-- How the second value stands to the first. -/
def swap : Comparison → Comparison
  | .before => .after
  | .after => .before
  | c => c

/-- The comparison of two sequences: the first parts that differ decide. -/
def next : Comparison → Comparison → Comparison
  | .equal, c => c
  | c, _ => c

theorem isLe_iff {c : Comparison} : c.isLe = true ↔ c = .before ∨ c = .equal := by
  cases c <;> decide

theorem isLe_next_iff {c d : Comparison} :
    (c.next d).isLe = true ↔ c = .before ∨ c = .equal ∧ d.isLe = true := by
  cases c <;> simp [next, isLe]

theorem isLe_of_next {c d : Comparison} (h : (c.next d).isLe = true) : c.isLe = true := by
  cases c with
  | before => rfl
  | equal => rfl
  | after => cases h
  | unordered => cases h

theorem next_before {c : Comparison} (h : c.isLe = true) : c.next .before = .before := by
  cases c with
  | before => rfl
  | equal => rfl
  | after => cases h
  | unordered => cases h

theorem swap_next (c d : Comparison) : (c.next d).swap = c.swap.next d.swap := by
  cases c <;> rfl

theorem swap_ofOrdering (o : Ordering) : (ofOrdering o).swap = ofOrdering o.swap := by
  cases o <;> rfl

theorem isLe_ofOrdering {o : Ordering} : (ofOrdering o).isLe = o.isLE := by
  cases o <;> rfl

end Comparison

/-! ## Numbers -/

namespace Number

/-- The number `m * 2 ^ q`, counted in units of `2 ^ k`, where `k` is at most `q`. -/
def units (k m q : Int) : Int := m * Int.pow 2 (q - k).toNat

/-- A number counted in finer units. -/
theorem units_eq {k l q : Int} (m : Int) (hkl : k ≤ l) (hlq : l ≤ q) :
    units k m q = units l m q * Int.pow 2 (l - k).toNat := by
  have hsplit : (q - k).toNat = (q - l).toNat + (l - k).toNat := by omega
  rw [units, units, hsplit, Int.mul_assoc]
  exact congrArg (m * ·) (Int.pow_add 2 _ _)

/-- Two numbers can be compared in units as fine as one likes. -/
theorem compare_eq_units {k m q n r : Int} (hq : k ≤ q) (hr : k ≤ r) :
    (finite m q).compare (finite n r) = .ofOrdering (Ord.compare (units k m q) (units k n r)) := by
  have hpos : (0 : Int) < Int.pow 2 (min q r - k).toNat := Int.pow_pos (by decide)
  have hm : units (min q r) m q = m * Int.pow 2 (q - r).toNat := by
    rw [units, show (q - min q r).toNat = (q - r).toNat by omega]
  have hn : units (min q r) n r = n * Int.pow 2 (r - q).toNat := by
    rw [units, show (r - min q r).toNat = (r - q).toNat by omega]
  rw [units_eq m (le_min hq hr) (min_le_left q r), units_eq n (le_min hq hr) (min_le_right q r),
    ← cmp_eq_compare, cmp_mul_pos_right hpos, cmp_eq_compare, hm, hn, compare]

theorem compare_finite_trans {m q n r o s : Int}
    (h : ((finite m q).compare (finite n r)).isLe = true)
    (h' : ((finite n r).compare (finite o s)).isLe = true) :
    (finite m q).compare (finite o s) =
      ((finite m q).compare (finite n r)).next ((finite n r).compare (finite o s)) := by
  -- All three numbers are integers in units of their smallest exponent.
  obtain ⟨k, hq, hr, hs⟩ : ∃ k, k ≤ q ∧ k ≤ r ∧ k ≤ s :=
    ⟨min q (min r s), by omega, by omega, by omega⟩
  rw [compare_eq_units hq hr] at h ⊢
  rw [compare_eq_units hr hs] at h' ⊢
  rw [compare_eq_units hq hs]
  rw [Comparison.isLe_ofOrdering] at h h'
  generalize units k m q = x, units k n r = y, units k o s = z at h h' ⊢
  rw [Int.isLE_compare] at h h'
  rcases Int.lt_or_eq_of_le h with hxy | rfl
  · rw [Int.compare_eq_lt.2 hxy, Int.compare_eq_lt.2 (Int.lt_of_lt_of_le hxy h')]
    rfl
  · rw [Int.compare_eq_eq.2 rfl]
    rfl

/-- The comparison the other way round. -/
theorem swap_compare (x y : Number) : (x.compare y).swap = y.compare x := by
  cases x with
  | undefined => cases y <;> rfl
  | infinite negative =>
    cases y with
    | undefined => rfl
    | infinite negative' => cases negative <;> cases negative' <;> rfl
    | finite n r => cases negative <;> rfl
  | finite m q =>
    cases y with
    | undefined => rfl
    | infinite negative => cases negative <;> rfl
    | finite n r => rw [compare, compare, Comparison.swap_ofOrdering, Int.compare_swap]

theorem compare_ne_unordered {x y : Number} (hx : x ≠ undefined) (hy : y ≠ undefined) :
    x.compare y ≠ .unordered := by
  have hordered (o : Ordering) : Comparison.ofOrdering o ≠ .unordered := by cases o <;> nofun
  cases x with
  | undefined => exact absurd rfl hx
  | infinite negative =>
    cases y with
    | undefined => exact absurd rfl hy
    | infinite negative' => exact hordered _
    | finite n r => cases negative <;> nofun
  | finite m q =>
    cases y with
    | undefined => exact absurd rfl hy
    | infinite negative => cases negative <;> nofun
    | finite n r => exact hordered _

theorem eq_of_isLe_undefined {y : Number} (h : (undefined.compare y).isLe = true) :
    y = undefined := by
  cases y with
  | undefined => rfl
  | finite n r => cases h
  | infinite negative => cases h

theorem eq_of_isLe_infinite {y : Number} (h : ((infinite false).compare y).isLe = true) :
    y = infinite false := by
  cases y with
  | undefined => cases h
  | finite n r => cases h
  | infinite negative =>
    cases negative with
    | false => rfl
    | true => cases h

/-- What is not after a number that is not after a third one is before the third one, unless all
three are equal. -/
theorem compare_trans {x y z : Number} (h : (x.compare y).isLe = true)
    (h' : (y.compare z).isLe = true) : x.compare z = (x.compare y).next (y.compare z) := by
  cases x with
  | undefined =>
    obtain rfl := eq_of_isLe_undefined h
    rfl
  | infinite negative =>
    cases negative with
    | false =>
      obtain rfl := eq_of_isLe_infinite h
      rfl
    | true =>
      cases y with
      | undefined => cases h
      | finite n r =>
        cases z with
        | undefined => cases h'
        | finite o s => rfl
        | infinite negative =>
          cases negative with
          | false => rfl
          | true => cases h'
      | infinite negative =>
        cases negative with
        | false =>
          obtain rfl := eq_of_isLe_infinite h'
          rfl
        | true => rfl
  | finite m q =>
    cases y with
    | undefined => cases h
    | infinite negative =>
      cases negative with
      | false =>
        obtain rfl := eq_of_isLe_infinite h'
        rfl
      | true => cases h
    | finite n r =>
      cases z with
      | undefined => cases h'
      | infinite negative =>
        cases negative with
        | false => exact (Comparison.next_before h).symm
        | true => cases h'
      | finite o s => exact compare_finite_trans h h'

end Number

namespace Json

/-- The number that a value stands for. -/
def toNumber? : Json → Option Number
  | .scalar s => s.number?
  | _ => none

variable {a b : Json} {x y : Number}

theorem same_of_toNumber? (ha : a.toNumber? = some x) (hb : b.toNumber? = some y) :
    a.same b = (x.compare y == .equal) := by
  cases a with
  | scalar s =>
    cases b with
    | scalar t =>
      rw [toNumber?] at ha hb
      rw [same, Scalar.same, ha, hb]
    | array items => cases hb
    | object fields => cases hb
  | array items => cases ha
  | object fields => cases ha

theorem compare?_of_toNumber? (ha : a.toNumber? = some x) (hb : b.toNumber? = some y) :
    a.compare? b = some (x.compare y) := by
  cases a with
  | scalar s =>
    cases b with
    | scalar t =>
      rw [toNumber?] at ha hb
      rw [compare?, Scalar.compare?, ha, hb]
      rintro s t rfl rfl
      cases ha
    | array items => cases hb
    | object fields => cases hb
  | array items => cases ha
  | object fields => cases ha

end Json

/-! ## Locations -/

namespace Location

/-- The line and the column, where both are numbers. -/
def numbers? (l : Location) : Option (Number × Number) := do
  return (← l.line.toNumber?, ← l.column.toNumber?)

variable {a b c : Location}

theorem numbers?_eq_some {x y : Number} :
    a.numbers? = some (x, y) ↔ a.line.toNumber? = some x ∧ a.column.toNumber? = some y := by
  simp [numbers?, bind, Option.bind_eq_some_iff]

/-- The lines decide which location comes first, on one line the columns. -/
theorem compare_of_numbers? {x y z w : Number} (ha : a.numbers? = some (x, y))
    (hb : b.numbers? = some (z, w)) :
    a.compare b = .ok ((x.compare z).next (y.compare w)) := by
  obtain ⟨hline, hcolumn⟩ := numbers?_eq_some.1 ha
  obtain ⟨hline', hcolumn'⟩ := numbers?_eq_some.1 hb
  rw [compare, Json.compareItems?, Json.same_of_toNumber? hline hline',
    Json.compare?_of_toNumber? hline hline', Json.compareItems?,
    Json.same_of_toNumber? hcolumn hcolumn', Json.compare?_of_toNumber? hcolumn hcolumn',
    Json.compareItems?]
  cases x.compare z <;> cases y.compare w <;> rfl

theorem le_of_numbers? {x y z w : Number} (ha : a.numbers? = some (x, y))
    (hb : b.numbers? = some (z, w)) :
    a.le b = .ok ((x.compare z).next (y.compare w)).isLe := by
  rw [le, compare_of_numbers? ha hb]
  rfl

theorem same_of_numbers? {x y z w : Number} (ha : a.numbers? = some (x, y))
    (hb : b.numbers? = some (z, w)) :
    a.same b = ((x.compare z).next (y.compare w) == .equal) := by
  obtain ⟨hline, hcolumn⟩ := numbers?_eq_some.1 ha
  obtain ⟨hline', hcolumn'⟩ := numbers?_eq_some.1 hb
  rw [same, Json.same_of_toNumber? hline hline', Json.same_of_toNumber? hcolumn hcolumn']
  cases x.compare z <;> cases y.compare w <;> rfl

/-- Two locations are the same exactly if neither is after the other. -/
theorem same_iff_le (ha : a.numbers?.isSome = true) (hb : b.numbers?.isSome = true) :
    a.same b = true ↔ a.le b = .ok true ∧ b.le a = .ok true := by
  obtain ⟨⟨x, y⟩, ha⟩ := Option.isSome_iff_exists.1 ha
  obtain ⟨⟨z, w⟩, hb⟩ := Option.isSome_iff_exists.1 hb
  rw [same_of_numbers? ha hb, le_of_numbers? ha hb, le_of_numbers? hb ha,
    ← Number.swap_compare x z, ← Number.swap_compare y w, ← Comparison.swap_next, Except.ok.injEq,
    Except.ok.injEq]
  cases (x.compare z).next (y.compare w) <;> decide

theorem exists_le (ha : a.numbers?.isSome = true) (hb : b.numbers?.isSome = true) :
    ∃ c, a.le b = .ok c := by
  obtain ⟨⟨x, y⟩, ha⟩ := Option.isSome_iff_exists.1 ha
  obtain ⟨⟨z, w⟩, hb⟩ := Option.isSome_iff_exists.1 hb
  exact ⟨_, le_of_numbers? ha hb⟩

theorem le_trans (ha : a.numbers?.isSome = true) (hb : b.numbers?.isSome = true)
    (hc : c.numbers?.isSome = true) (h : a.le b = .ok true) (h' : b.le c = .ok true) :
    a.le c = .ok true := by
  obtain ⟨⟨x, y⟩, ha⟩ := Option.isSome_iff_exists.1 ha
  obtain ⟨⟨z, w⟩, hb⟩ := Option.isSome_iff_exists.1 hb
  obtain ⟨⟨u, v⟩, hc⟩ := Option.isSome_iff_exists.1 hc
  rw [le_of_numbers? ha hb, Except.ok.injEq] at h
  rw [le_of_numbers? hb hc, Except.ok.injEq] at h'
  rw [le_of_numbers? ha hc, Except.ok.injEq, Number.compare_trans (Comparison.isLe_of_next h)
    (Comparison.isLe_of_next h'), Comparison.isLe_next_iff]
  rw [Comparison.isLe_next_iff] at h h'
  rcases h with hline | ⟨hline, hcolumn⟩
  · left
    rw [hline]
    rfl
  · rw [hline]
    refine h'.imp_right fun ⟨hline', hcolumn'⟩ => ⟨hline', ?_⟩
    -- On one line the columns are compared.
    rw [Number.compare_trans hcolumn hcolumn', Comparison.isLe_next_iff]
    exact (Comparison.isLe_iff.1 hcolumn).imp_right fun hequal => ⟨hequal, hcolumn'⟩

end Location

namespace Range

/-- The lines and columns of both ends are numbers. -/
def IsNumeric (r : Range) : Prop :=
  r.start.numbers?.isSome = true ∧ r.stop.numbers?.isSome = true

instance (r : Range) : Decidable r.IsNumeric :=
  inferInstanceAs (Decidable (r.start.numbers?.isSome = true ∧ r.stop.numbers?.isSome = true))

variable {r s : Range} {l : Location}

theorem contains_eq_ok :
    r.contains l = .ok true ↔ r.start.le l = .ok true ∧ l.le r.stop = .ok true :=
  and_eq_ok

theorem encloses_eq_ok :
    r.encloses s = .ok true ↔ r.start.le s.start = .ok true ∧ s.stop.le r.stop = .ok true :=
  and_eq_ok

theorem exists_contains (hr : r.IsNumeric) (hl : l.numbers?.isSome = true) :
    ∃ c, r.contains l = .ok c := by
  obtain ⟨c, hc⟩ := Location.exists_le hr.1 hl
  obtain ⟨d, hd⟩ := Location.exists_le hl hr.2
  rw [contains, hc, ok_bind]
  split
  · exact ⟨d, hd⟩
  · exact ⟨false, rfl⟩

/-- Two ranges are the same exactly if each encloses the other. -/
theorem same_iff_encloses (hr : r.IsNumeric) (hs : s.IsNumeric) :
    r.same s = true ↔ r.encloses s = .ok true ∧ s.encloses r = .ok true := by
  rw [same, Bool.and_eq_true, Location.same_iff_le hr.1 hs.1, Location.same_iff_le hr.2 hs.2,
    encloses_eq_ok, encloses_eq_ok]
  tauto

/-- A range contains what a range inside it contains. -/
theorem contains_of_encloses (hr : r.IsNumeric) (hs : s.IsNumeric) (hl : l.numbers?.isSome = true)
    (h : r.encloses s = .ok true) (hcontains : s.contains l = .ok true) :
    r.contains l = .ok true := by
  obtain ⟨hstart, hstop⟩ := encloses_eq_ok.1 h
  obtain ⟨hafter, hbefore⟩ := contains_eq_ok.1 hcontains
  apply contains_eq_ok.2
  constructor
  · exact Location.le_trans hr.1 hs.1 hl hstart hafter
  · exact Location.le_trans hl hs.2 hr.2 hbefore hstop

end Range

end LexicalScopes
