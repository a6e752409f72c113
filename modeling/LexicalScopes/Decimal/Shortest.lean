/-!
# Shortest decimals

A 64-bit float is written with the fewest digits that read back to it; of the shortest decimals
the one nearest to the value is taken. The digits are found by exact arithmetic on naturals: the
decimals that read back form an interval around the value, and on each decimal grid only the two
neighbours of the value need to be tested.
-/

namespace LexicalScopes.Decimal

/-- A positive finite value `m * 2 ^ q`. The gap to the next value below may be half the gap to
the next value above. -/
structure Binary where
  m : Nat
  q : Int
  narrowBelow : Bool
deriving DecidableEq, Repr

/-- The absolute value of a finite float, from its bits. -/
def Binary.ofBits (bits : UInt64) : Binary :=
  let biased := ((bits >>> 52) &&& 0x7FF).toNat
  let fraction := (bits &&& 0xFFFFFFFFFFFFF).toNat
  if biased = 0 then ⟨fraction, -1074, false⟩
  else ⟨0x10000000000000 + fraction, (biased : Int) - 1075, fraction = 0 && 1 < biased⟩

/-- The decimal `digits * 10 ^ scale`. -/
structure Numeral where
  digits : Nat
  scale : Int
deriving DecidableEq, Repr

/-- Compare `a * 10 ^ i` with `n * 2 ^ j`. -/
def compareScaled (a : Nat) (i : Int) (n : Nat) (j : Int) : Ordering :=
  compare (a * Nat.pow 10 i.toNat * Nat.pow 2 (-j).toNat)
    (n * Nat.pow 2 j.toNat * Nat.pow 10 (-i).toNat)

/-- The decimal is nearer to `x` than to any other float; a decimal half way between two floats
belongs to the one with the even mantissa. -/
def Binary.readsBack (x : Binary) (d : Numeral) : Bool :=
  let lower := if x.narrowBelow then 4 * x.m - 1 else 4 * x.m - 2
  let upper := 4 * x.m + 2
  let even := x.m % 2 = 0
  let toLower := compareScaled d.digits d.scale lower (x.q - 2)
  let toUpper := compareScaled d.digits d.scale upper (x.q - 2)
  (toLower = .gt || (even && toLower = .eq)) && (toUpper = .lt || (even && toUpper = .eq))

/-- The greatest `n` with `n * 10 ^ scale ≤ x`. -/
def Binary.floorAt (x : Binary) (scale : Int) : Nat :=
  x.m * Nat.pow 2 x.q.toNat * Nat.pow 10 (-scale).toNat /
    (Nat.pow 2 (-x.q).toNat * Nat.pow 10 scale.toNat)

/-- On the grid of multiples of `10 ^ scale`, the neighbour of `x` that reads back; of two the
nearer, and the even one if they are equally near. -/
def Binary.onGrid? (x : Binary) (scale : Int) : Option Numeral :=
  let below : Numeral := ⟨x.floorAt scale, scale⟩
  let above : Numeral := ⟨x.floorAt scale + 1, scale⟩
  match x.readsBack below && below.digits ≠ 0, x.readsBack above with
  | true, true =>
    match compareScaled (below.digits + above.digits) scale x.m (x.q + 1) with
    | .gt => some below
    | .lt => some above
    | .eq => some (if below.digits % 2 = 0 then below else above)
  | true, false => some below
  | false, true => some above
  | false, false => none

/-- The first grid with a decimal that reads back, from `10 ^ scale` down through `fuel` finer
grids. -/
def Binary.search? (x : Binary) : Nat → Int → Option Numeral
  | 0, _ => none
  | fuel + 1, scale => (x.onGrid? scale).or (search? x fuel (scale - 1))

/-- A power of ten that is not below the value: `10 ^ 0.302 > 2`. -/
def Binary.scaleAbove (x : Binary) : Int :=
  ((x.m.log2 : Int) + 1 + x.q) * 302 / 1000 + 3

/-- The digits without trailing zeros. -/
def stripZeros : Nat → Numeral → Numeral
  | 0, d => d
  | fuel + 1, d =>
    if d.digits % 10 = 0 then stripZeros fuel ⟨d.digits / 10, d.scale + 1⟩ else d

/-- The shortest decimal that reads back to the value. -/
def Binary.shortest (x : Binary) : Numeral :=
  match x.search? 30 x.scaleAbove with
  | some d => stripZeros d.digits.log2 d
  | none => ⟨0, 0⟩

/-! ## Layout -/

/-- The decimal digits of a natural. -/
def digitsOf (n : Nat) : List Char := Nat.toDigits 10 n

/-- The decimal with its point: between the digits or after zeros where the leading digit's
exponent is from -4 to 15, and in scientific form with a signed exponent of at least two digits
elsewhere. A whole number keeps `.0` in the first form only. -/
def Numeral.layout (d : Numeral) : List Char :=
  let ds := digitsOf d.digits
  let exponent : Int := d.scale + ds.length - 1
  if -4 ≤ exponent && exponent < 16 then
    if 0 ≤ d.scale then ds ++ List.replicate d.scale.toNat '0' ++ ['.', '0']
    else if exponent < 0 then
      '0' :: '.' :: List.replicate (-exponent - 1).toNat '0' ++ ds
    else ds.take (exponent + 1).toNat ++ '.' :: ds.drop (exponent + 1).toNat
  else
    let mantissa := match ds with
      | c :: rest@(_ :: _) => c :: '.' :: rest
      | short => short
    let size := digitsOf exponent.natAbs
    mantissa ++ 'e' :: (if exponent < 0 then '-' else '+') ::
      (List.replicate (2 - size.length) '0' ++ size)

/-- The text of a float. -/
def text (x : Float) : String :=
  let bits := x.toBits
  let sign := if bits >>> 63 = 0 then "" else "-"
  if x.isNaN then "nan"
  else if x.isInf then sign ++ "inf"
  else if x == 0 then sign ++ "0.0"
  else sign ++ String.ofList (Binary.ofBits bits).shortest.layout

/-- The exact value of a float that is a whole number. -/
def wholeValue? (x : Float) : Option Int :=
  if x.isNaN || x.isInf then none
  else
    let b := Binary.ofBits x.toBits
    let scaled := b.m * Nat.pow 2 b.q.toNat
    let unit := Nat.pow 2 (-b.q).toNat
    if scaled % unit = 0 then
      some (if x < 0 then -((scaled / unit : Nat) : Int) else (scaled / unit : Nat))
    else none

end LexicalScopes.Decimal
