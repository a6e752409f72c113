/-!
# Whole numbers in text

How a whole number is written on a command line: blanks around it, an optional sign, and at most
4300 decimal digits of any script of Unicode 14, with single underscores allowed between digits.
-/

namespace LexicalScopes.Text

/-- White space, as closed ascending ranges of code points. -/
def blankRanges : List (Nat × Nat) :=
  [(0x9, 0xD), (0x20, 0x20), (0x85, 0x85), (0xA0, 0xA0), (0x1680, 0x1680), (0x2000, 0x200A),
   (0x2028, 0x2029), (0x202F, 0x202F), (0x205F, 0x205F), (0x3000, 0x3000)]

/-- The character is white space. -/
def isBlank (c : Char) : Bool :=
  blankRanges.any fun (lo, hi) => lo ≤ c.toNat && c.toNat ≤ hi

/-- The code point of the digit zero of each script; its nine successors are the other digits. -/
def zeros : List Nat :=
  [0x30, 0x660, 0x6F0, 0x7C0, 0x966, 0x9E6, 0xA66, 0xAE6, 0xB66, 0xBE6, 0xC66, 0xCE6, 0xD66,
   0xDE6, 0xE50, 0xED0, 0xF20, 0x1040, 0x1090, 0x17E0, 0x1810, 0x1946, 0x19D0, 0x1A80, 0x1A90,
   0x1B50, 0x1BB0, 0x1C40, 0x1C50, 0xA620, 0xA8D0, 0xA900, 0xA9D0, 0xA9F0, 0xAA50, 0xABF0, 0xFF10,
   0x104A0, 0x10D30, 0x11066, 0x110F0, 0x11136, 0x111D0, 0x112F0, 0x11450, 0x114D0, 0x11650,
   0x116C0, 0x11730, 0x118E0, 0x11950, 0x11C50, 0x11D50, 0x11DA0, 0x16A60, 0x16AC0, 0x16B50,
   0x1D7CE, 0x1D7D8, 0x1D7E2, 0x1D7EC, 0x1D7F6, 0x1E140, 0x1E2F0, 0x1E950, 0x1FBF0]

/-- The value of a decimal digit. -/
def digit? (c : Char) : Option Nat :=
  (zeros.find? fun base => base ≤ c.toNat && c.toNat ≤ base + 9).map (c.toNat - ·)

/-- The value of digits that continue a number worth `acc`; one underscore may stand between two
digits. -/
def digitsFrom? (acc : Nat) : List Char → Option Nat
  | [] => some acc
  | '_' :: c :: rest => (digit? c).bind fun d => digitsFrom? (10 * acc + d) rest
  | c :: rest => (digit? c).bind fun d => digitsFrom? (10 * acc + d) rest

/-- Numbers with more digits are refused. -/
def mostDigits : Nat := 4300

/-- An unsigned number starts with a digit. -/
def natural? (cs : List Char) : Option Nat :=
  if mostDigits < cs.countP fun c => (digit? c).isSome then none
  else
    match cs with
    | [] => none
    | c :: rest => (digit? c).bind fun d => digitsFrom? d rest

/-- The text without the white space at its two ends. -/
def trimBlank (cs : List Char) : List Char :=
  ((cs.dropWhile isBlank).reverse.dropWhile isBlank).reverse

/-- Read a whole number. -/
def whole? (s : String) : Option Int :=
  match trimBlank s.toList with
  | '-' :: rest => (natural? rest).map fun n => -(n : Int)
  | '+' :: rest => (natural? rest).map fun n => (n : Int)
  | rest => (natural? rest).map fun n => (n : Int)

end LexicalScopes.Text
