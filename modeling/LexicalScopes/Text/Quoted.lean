import LexicalScopes.Text.CodePoint
import LexicalScopes.Text.Printable

/-!
# Quoted text

A text is quoted with apostrophes, or with double quotes if it holds an apostrophe and no double
quote. Inside, the quote and the backslash are escaped, and so is every code point that is not
printable: line feed, carriage return and tab by a letter, the others by two, four or eight
hexadecimal digits.
-/

namespace LexicalScopes.Text

/-- The last `width` hexadecimal digits of `n`, in lower case. -/
def hex : Nat → Nat → List Char
  | 0, _ => []
  | width + 1, n => hex width (n / 16) ++ [Nat.digitChar (n % 16)]

/-- A text with an apostrophe and no double quote is put in double quotes, any other in
apostrophes. -/
def quoteFor (cs : List Char) : Char :=
  if cs.contains '\x27' && !cs.contains '"' then '"' else '\x27'

/-- How a code point is written between two `quote` characters. -/
def escape (quote : Char) (code : Nat) : List Char :=
  let c := Char.ofNat code
  if c == quote || c == '\\' then ['\\', c]
  else if c == '\n' then ['\\', 'n']
  else if c == '\r' then ['\\', 'r']
  else if c == '\t' then ['\\', 't']
  else if isPrintable code then [c]
  else if code ≤ 0xFF then '\\' :: 'x' :: hex 2 code
  else if code ≤ 0xFFFF then '\\' :: 'u' :: hex 4 code
  else '\\' :: 'U' :: hex 8 code

/-- The text in quotes. -/
def quoted (s : String) : String :=
  let quote := quoteFor s.toList
  String.ofList (quote :: (codes s).flatMap (escape quote) ++ [quote])

end LexicalScopes.Text
