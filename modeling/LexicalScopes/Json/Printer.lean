import LexicalScopes.Json.Basic
import LexicalScopes.Decimal.Shortest

/-!
# Writing JSON

A value is written over several lines: each item and each field stands on a line of its own, two
columns further in than what holds it, and an empty list or object on one line. Inside a string
only the double quote, the backslash and the control characters below the space are escaped.
-/

namespace LexicalScopes

namespace Json

/-- The two low hexadecimal digits of a control character. -/
def controlDigits (c : Char) : List Char :=
  [Nat.digitChar (c.toNat / 16 % 16), Nat.digitChar (c.toNat % 16)]

/-- How a character is written inside a JSON string. -/
def escapeChar (c : Char) : List Char :=
  if c == '"' then ['\\', '"']
  else if c == '\\' then ['\\', '\\']
  else if c == '\n' then ['\\', 'n']
  else if c == '\r' then ['\\', 'r']
  else if c == '\t' then ['\\', 't']
  else if c == '\x08' then ['\\', 'b']
  else if c == '\x0c' then ['\\', 'f']
  else if c.toNat < 0x20 then '\\' :: 'u' :: '0' :: '0' :: controlDigits c
  else [c]

/-- A string in double quotes. -/
def stringLiteral (s : String) : String :=
  String.ofList ('"' :: s.toList.flatMap escapeChar ++ ['"'])

/-- A float is written with the fewest digits that read back. -/
def floatLiteral (x : Float) : String :=
  if x.isNaN then "NaN"
  else if x.isInf then (if x < 0 then "-Infinity" else "Infinity")
  else Decimal.text x

end Json

/-- A scalar in JSON. -/
def Scalar.literal : Scalar → String
  | .null => "null"
  | .bool true => "true"
  | .bool false => "false"
  | .int n => toString n
  | .float x => Json.floatLiteral x
  | .string s => Json.stringLiteral s

/-- A scalar as the key of an object: its literal, without the quotes of a string. -/
def Scalar.keyText : Scalar → String
  | .string s => s
  | s => s.literal

namespace Json

/-- A line break, and the margin of a value at this depth. -/
def newline (depth : Nat) : String := "\n" ++ String.ofList (List.replicate (2 * depth) ' ')

mutual

/-- The lines of a value that starts at this depth. -/
def printAt (depth : Nat) : Json → String
  | .scalar s => s.literal
  | .array [] => "[]"
  | .array (item :: rest) =>
    "[" ++ newline (depth + 1) ++ printAt (depth + 1) item ++ printItems (depth + 1) rest
      ++ newline depth ++ "]"
  | .object [] => "\x7b\x7d"
  | .object ((key, value) :: rest) =>
    "\x7b" ++ newline (depth + 1) ++ stringLiteral key ++ ": " ++ printAt (depth + 1) value
      ++ printFields (depth + 1) rest ++ newline depth ++ "\x7d"

def printItems (depth : Nat) : List Json → String
  | [] => ""
  | item :: rest => "," ++ newline depth ++ printAt depth item ++ printItems depth rest

def printFields (depth : Nat) : List (String × Json) → String
  | [] => ""
  | (key, value) :: rest =>
    "," ++ newline depth ++ stringLiteral key ++ ": " ++ printAt depth value
      ++ printFields depth rest

end

/-- The text of a value. -/
def print (j : Json) : String := printAt 0 j

end Json

end LexicalScopes
