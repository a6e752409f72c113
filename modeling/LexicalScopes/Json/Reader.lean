import LexicalScopes.Json.Basic
import LexicalScopes.Text.CodePoint

/-!
# Reading JSON

A reader for one JSON text. The fields of an object keep their order. A number without a point and
an exponent is an exact integer, any other number the 64-bit float nearest to it. `NaN`, `Infinity`
and `-Infinity` are floats too. An escape may give half of a surrogate pair.

Every step consumes at least one character, so the length of the text bounds the recursion.
-/

namespace LexicalScopes

namespace Json

/-- White space between tokens. -/
def isSpace (c : Char) : Bool := c == ' ' || c == '\t' || c == '\n' || c == '\r'

/-- The text from the next token on. -/
def skipSpace (cs : List Char) : List Char := cs.dropWhile isSpace

/-- The rest of a text that starts with the given word. -/
def dropWord? : List Char → List Char → Option (List Char)
  | [], cs => some cs
  | w :: word, c :: cs => if w == c then dropWord? word cs else none
  | _ :: _, [] => none

/-! ## Numbers -/

/-- The value of a run of decimal digits. -/
def digitsValue (ds : List Char) : Nat :=
  ds.foldl (fun n d => 10 * n + (d.toNat - '0'.toNat)) 0

/-- The digits after the point, if there is one; a point needs a digit after it. -/
def fraction? : List Char → Option (Option (List Char) × List Char)
  | '.' :: cs =>
    match cs.span Char.isDigit with
    | ([], _) => none
    | (ds, rest) => some (some ds, rest)
  | cs => some (none, cs)

/-- The exponent, if there is one; an exponent needs a digit. -/
def exponent? : List Char → Option (Option Int × List Char)
  | [] => some (none, [])
  | c :: cs =>
    if c == 'e' || c == 'E' then
      let (sign, cs) : Int × List Char :=
        match cs with
        | '+' :: r => (1, r)
        | '-' :: r => (-1, r)
        | r => (1, r)
      match cs.span Char.isDigit with
      | ([], _) => none
      | (ds, rest) => some (some (sign * (digitsValue ds : Int)), rest)
    else some (none, c :: cs)

/-- The float nearest to `mantissa * 10 ^ exponent`. -/
def nearestFloat (negative : Bool) (mantissa : Nat) (exponent : Int) : Float :=
  let x := Float.ofScientific mantissa (exponent < 0) exponent.natAbs
  if negative then -x else x

/-- A number after its sign. The integral part has no leading zero. -/
def number? (negative : Bool) (cs : List Char) : Option (Json × List Char) :=
  match cs.span Char.isDigit with
  | ([], _) => none
  | ('0' :: _ :: _, _) => none
  | (whole, cs) => do
    let (fraction, cs) ← fraction? cs
    let (exponent, cs) ← exponent? cs
    match fraction, exponent with
    | none, none =>
      let n := digitsValue whole
      pure (.int (if negative then -(n : Int) else n), cs)
    | _, _ =>
      let after := fraction.getD []
      let x := nearestFloat negative (digitsValue (whole ++ after))
        (exponent.getD 0 - after.length)
      pure (.float x, cs)

/-- The float that is no number. -/
def notANumber : Float := Float.ofBits 0x7FF8000000000000

/-- The float above all numbers. -/
def infinity : Float := Float.ofBits 0x7FF0000000000000

/-- The word `Infinity` after its first letter. -/
def infinityTail : List Char := ['n', 'f', 'i', 'n', 'i', 't', 'y']

/-! ## Strings -/

/-- The value of a hexadecimal digit. -/
def hexDigit? (c : Char) : Option Nat :=
  if '0' ≤ c ∧ c ≤ '9' then some (c.toNat - '0'.toNat)
  else if 'a' ≤ c ∧ c ≤ 'f' then some (c.toNat - 'a'.toNat + 10)
  else if 'A' ≤ c ∧ c ≤ 'F' then some (c.toNat - 'A'.toNat + 10)
  else none

/-- The 16-bit unit written with four hexadecimal digits. -/
def unit? (a b c d : Char) : Option Nat := do
  pure (((← hexDigit? a) * 16 + (← hexDigit? b)) * 256 + (← hexDigit? c) * 16 + (← hexDigit? d))

/-- Add a 16-bit unit to the code points read so far, the last one first. It completes the half of a
pair that stands before it. -/
def pushUnit (seen : List Nat) (unit : Nat) : List Nat :=
  match seen with
  | [] => [unit]
  | last :: before =>
    if Text.isHigh last && Text.isLow unit then Text.joined last unit :: before
    else unit :: last :: before

/-- The character of a one-letter escape. -/
def letterEscape? (c : Char) : Option Char :=
  [('"', '"'), ('\\', '\\'), ('/', '/'), ('b', '\x08'), ('f', '\x0c'), ('n', '\n'), ('r', '\r'),
    ('t', '\t')].lookup c

/-- The rest of a string after `seen`, whose last code point comes first, up to the closing quote,
and the text after it. -/
def stringFrom? (seen : List Nat) : List Char → Option (String × List Char)
  | '"' :: rest => some (Text.ofCodes seen.reverse, rest)
  | '\\' :: 'u' :: a :: b :: c :: d :: rest =>
    match unit? a b c d with
    | some unit => stringFrom? (pushUnit seen unit) rest
    | none => none
  | '\\' :: c :: rest =>
    match letterEscape? c with
    | some c => stringFrom? (c.toNat :: seen) rest
    | none => none
  | c :: rest => if c.toNat < 0x20 then none else stringFrom? (c.toNat :: seen) rest
  | [] => none

/-! ## Values -/

mutual

/-- A value and the text after it. -/
def value? : Nat → List Char → Option (Json × List Char)
  | 0, _ => none
  | fuel + 1, cs =>
    match skipSpace cs with
    | [] => none
    | '"' :: rest => (stringFrom? [] rest).map fun (s, rest) => (.string s, rest)
    | '[' :: rest =>
      match skipSpace rest with
      | ']' :: rest => some (.array [], rest)
      | rest => (itemsFrom? fuel [] rest).map fun (items, rest) => (.array items, rest)
    | '\x7b' :: rest =>
      match skipSpace rest with
      | '\x7d' :: rest => some (.object [], rest)
      | rest => (fieldsFrom? fuel [] rest).map fun (fields, rest) => (.object fields, rest)
    | 't' :: rest => (dropWord? ['r', 'u', 'e'] rest).map fun rest => (.bool true, rest)
    | 'f' :: rest => (dropWord? ['a', 'l', 's', 'e'] rest).map fun rest => (.bool false, rest)
    | 'n' :: rest => (dropWord? ['u', 'l', 'l'] rest).map fun rest => (.null, rest)
    | 'N' :: rest => (dropWord? ['a', 'N'] rest).map fun rest => (.float notANumber, rest)
    | 'I' :: rest => (dropWord? infinityTail rest).map fun rest => (.float infinity, rest)
    | '-' :: 'I' :: rest => (dropWord? infinityTail rest).map fun rest => (.float (-infinity), rest)
    | '-' :: rest => number? true rest
    | rest => number? false rest

/-- The items of an array after `seen`, up to the closing bracket. -/
def itemsFrom? : Nat → List Json → List Char → Option (List Json × List Char)
  | 0, _, _ => none
  | fuel + 1, seen, cs => do
    let (item, rest) ← value? fuel cs
    match skipSpace rest with
    | ',' :: rest => itemsFrom? fuel (item :: seen) rest
    | ']' :: rest => some ((item :: seen).reverse, rest)
    | _ => none

/-- The fields of an object after `seen`, up to the closing brace. -/
def fieldsFrom? : Nat → List (String × Json) → List Char →
    Option (List (String × Json) × List Char)
  | 0, _, _ => none
  | fuel + 1, seen, cs => do
    let '"' :: rest := skipSpace cs | none
    let (key, rest) ← stringFrom? [] rest
    let ':' :: rest := skipSpace rest | none
    let (value, rest) ← value? fuel rest
    match skipSpace rest with
    | ',' :: rest => fieldsFrom? fuel ((key, value) :: seen) rest
    | '\x7d' :: rest => some (((key, value) :: seen).reverse, rest)
    | _ => none

end

/-- Read a text that holds one value and nothing else. -/
def parse? (s : String) : Option Json := do
  let cs := s.toList
  let (j, rest) ← value? (cs.length + 1) cs
  if (skipSpace rest).isEmpty then some j else none

end Json

end LexicalScopes
