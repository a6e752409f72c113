import LexicalScopes.Json.Basic
import LexicalScopes.Text.Quoted
import LexicalScopes.Decimal.Shortest

/-!
# Values in messages

How a value appears inside a message or a display name. A string stands for itself; inside a list
or an object, and where a message quotes a value, it is quoted.
-/

namespace LexicalScopes

/-- A scalar with its string quoted. -/
def Scalar.quoted : Scalar → String
  | .null => "None"
  | .bool true => "True"
  | .bool false => "False"
  | .int n => toString n
  | .float x => Decimal.text x
  | .string s => Text.quoted s

namespace Json

mutual

/-- The value with every string in it quoted. -/
def quoted : Json → String
  | .scalar s => s.quoted
  | .array items => "[" ++ ", ".intercalate (quotedItems items) ++ "]"
  | .object fields => "\x7b" ++ ", ".intercalate (quotedFields fields) ++ "\x7d"

def quotedItems : List Json → List String
  | [] => []
  | item :: rest => item.quoted :: quotedItems rest

def quotedFields : List (String × Json) → List String
  | [] => []
  | (key, value) :: rest => (Text.quoted key ++ ": " ++ value.quoted) :: quotedFields rest

end

/-- The value as it stands in running text. -/
def text : Json → String
  | .string s => s
  | j => j.quoted

end Json

/-- A scalar as it stands in running text. -/
def Scalar.text (s : Scalar) : String := Json.text (.scalar s)

end LexicalScopes
