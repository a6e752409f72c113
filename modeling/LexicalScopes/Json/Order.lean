import LexicalScopes.Json.Basic
import LexicalScopes.Decimal.Shortest

/-!
# Equality and order of values

Numbers are compared by value, whether they are integers, floats or truth values (false is 0 and
true is 1). Strings are compared by code point and lists lexicographically. Other values cannot be
compared: asking for it has no answer.

The *key* of a scalar is what makes two names the same name: equal numbers share a key. The *normal
form* of a value does the same for values of every shape.
-/

namespace LexicalScopes

/-! ## Numbers -/

/-- An exact number: `m * 2 ^ q`, or one of the floats without a finite value. -/
inductive Number where
  | finite (m : Int) (q : Int)
  | infinite (negative : Bool)
  | undefined
deriving DecidableEq, Repr

/-- The exact value of a float. -/
def Number.ofFloat (x : Float) : Number :=
  if x.isNaN then .undefined
  else if x.isInf then .infinite (x < 0)
  else
    let b := Decimal.Binary.ofBits x.toBits
    .finite (if x < 0 then -(b.m : Int) else b.m) b.q

/-- How one value stands to another. -/
inductive Comparison where
  | before
  | equal
  | after
  /-- Neither is before the other, and they are not equal. -/
  | unordered
deriving DecidableEq, Repr

/-- The comparison of two values in a total order. -/
def Comparison.ofOrdering : Ordering → Comparison
  | .lt => before
  | .eq => equal
  | .gt => after

/-- Compare two numbers by value. A float that is no number equals itself and is unordered with all
other numbers. -/
def Number.compare : Number → Number → Comparison
  | .undefined, .undefined => .equal
  | .undefined, _ => .unordered
  | _, .undefined => .unordered
  | .infinite a, .infinite b => .ofOrdering (Ord.compare b.toNat a.toNat)
  | .infinite negative, .finite _ _ => if negative then .before else .after
  | .finite _ _, .infinite negative => if negative then .after else .before
  | .finite m q, .finite n r =>
    .ofOrdering (Ord.compare (m * Int.pow 2 (q - r).toNat) (n * Int.pow 2 (r - q).toNat))

namespace Scalar

/-- The number a scalar stands for. -/
def number? : Scalar → Option Number
  | .bool b => some (.finite b.toInt 0)
  | .int n => some (.finite n 0)
  | .float x => some (.ofFloat x)
  | .null => none
  | .string _ => none

/-- Equality by value. -/
def same (a b : Scalar) : Bool :=
  match a.number?, b.number? with
  | some x, some y => x.compare y == .equal
  | none, none => a == b
  | _, _ => false

/-- Numbers are compared by value and strings by code point. -/
def compare? (a b : Scalar) : Option Comparison :=
  match a, b with
  | .string s, .string t => some (.ofOrdering (compare (Text.codes s) (Text.codes t)))
  | _, _ =>
    match a.number?, b.number? with
    | some x, some y => some (x.compare y)
    | _, _ => none

end Scalar

/-! ## Values -/

namespace Json

mutual

/-- Equality by value; the fields of an object may come in any order. -/
def same : Json → Json → Bool
  | .scalar a, .scalar b => a.same b
  | .array a, .array b => sameItems a b
  | .object a, .object b => a.length == b.length && sameFields a b
  | _, _ => false

def sameItems : List Json → List Json → Bool
  | [], [] => true
  | a :: as, b :: bs => same a b && sameItems as bs
  | _, _ => false

/-- Every field of the first list has an equal one in the second. -/
def sameFields : List (String × Json) → List (String × Json) → Bool
  | [], _ => true
  | (key, a) :: as, bs =>
    (match bs.lookup key with
      | some b => same a b
      | none => false) && sameFields as bs

end

mutual

/-- Compare two values that are not equal, or lists of them. -/
def compare? : Json → Json → Option Comparison
  | .scalar a, .scalar b => a.compare? b
  | .array a, .array b => compareItems? a b
  | _, _ => none

/-- The first items that differ decide; a list comes after its beginnings. -/
def compareItems? : List Json → List Json → Option Comparison
  | [], [] => some .equal
  | [], _ :: _ => some .before
  | _ :: _, [] => some .after
  | a :: as, b :: bs => if same a b then compareItems? as bs else compare? a b

end

end Json

/-! ## Keys -/

/-- What identifies a name. -/
inductive Key where
  | null
  | number (n : Int)
  | float (bits : UInt64)
  | string (s : String)
deriving DecidableEq, Repr

/-- Truth values and floats without a fraction share the key of the integer they are equal to. -/
def Scalar.key : Scalar → Key
  | .null => .null
  | .bool b => .number b.toInt
  | .int n => .number n
  | .float x =>
    match Decimal.wholeValue? x with
    | some n => .number n
    | none => .float x.toBits
  | .string s => .string s

@[simp] theorem Scalar.key_string (s : String) : (Scalar.string s).key = .string s := rfl

/-- The key of a value that can be a name. Lists and objects cannot. -/
def Json.key? : Json → Option Key
  | .scalar s => some s.key
  | _ => none

/-! ## Normal forms -/

/-- Truth values and floats without a fraction become the integer they are equal to. -/
def Scalar.normal : Scalar → Scalar
  | .bool b => .int b.toInt
  | .float x =>
    match Decimal.wholeValue? x with
    | some n => .int n
    | none => .float x
  | s => s

theorem Scalar.isPresent_normal (s : Scalar) : s.normal.isPresent = s.isPresent := by
  cases s with
  | bool b => cases b <;> rfl
  | float x =>
    cases h : Decimal.wholeValue? x with
    | none => simp [normal, isPresent, h]
    | some n => by_cases hn : n = 0 <;> simp [normal, isPresent, h, bne, hn]
  | _ => rfl

namespace Json

/-- Fields in the order of their names. -/
def sortedFields (fields : List (String × Json)) : List (String × Json) :=
  fields.mergeSort fun a b => a.1 ≤ b.1

mutual

/-- The value with its numbers in normal form and the fields of its objects sorted. -/
def normal : Json → Json
  | .scalar s => .scalar s.normal
  | .array items => .array (normalItems items)
  | .object fields => .object (sortedFields (normalFields fields))

def normalItems : List Json → List Json
  | [] => []
  | item :: rest => item.normal :: normalItems rest

def normalFields : List (String × Json) → List (String × Json)
  | [] => []
  | (key, value) :: rest => (key, value.normal) :: normalFields rest

end

@[simp] theorem normal_string (s : String) : (Json.string s).normal = .string s := rfl

/-- A value counts as absent exactly when its normal form does. -/
theorem isPresent_normal (j : Json) : j.normal.isPresent = j.isPresent := by
  cases j with
  | scalar s => exact s.isPresent_normal
  | array items => cases items <;> rfl
  | object fields =>
    cases fields with
    | nil => simp [normal, normalFields, sortedFields]
    | cons field rest =>
      have h : (sortedFields (normalFields (field :: rest))).length ≠ 0 := by
        simp [sortedFields, normalFields]
      rw [normal, isPresent, isPresent, List.isEmpty_eq_false_iff.mpr, List.isEmpty_cons]
      exact fun he => h (by rw [he, List.length_nil])

end Json

end LexicalScopes
