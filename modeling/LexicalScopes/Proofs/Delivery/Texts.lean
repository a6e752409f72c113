import LexicalScopes.Json.Printer
import LexicalScopes.Json.Reader
import Mathlib.Tactic.SplitIfs

/-!
# Texts of JSON values

What is a text of a value is said by a grammar: where a value stands, which text may stand there
and what comes after it. Space between the parts and the choice of escapes are left open. The
printer writes a text of the value, at any depth.
-/

namespace LexicalScopes

/-! ## Strings -/

namespace Json

/-- Inside quotes a character is written as itself, by an escape of one letter, or by its code. -/
inductive CharSpelled (c : Char) : List Char → List Char → Prop
  | plain {rest : List Char} (hquote : c ≠ '"') (hbackslash : c ≠ '\\') (hshown : 0x20 ≤ c.toNat) :
      CharSpelled c (c :: rest) rest
  | letter {l : Char} {rest : List Char} (h : letterEscape? l = some c) :
      CharSpelled c ('\\' :: l :: rest) rest
  | code {d₁ d₂ d₃ d₄ : Char} {rest : List Char} (h : unit? d₁ d₂ d₃ d₄ = some c.toNat) :
      CharSpelled c ('\\' :: 'u' :: d₁ :: d₂ :: d₃ :: d₄ :: rest) rest

/-- The characters are written one after the other, up to a closing quote. -/
inductive CharsSpelled : List Char → List Char → List Char → Prop
  | nil {rest : List Char} : CharsSpelled [] ('"' :: rest) rest
  | cons {c : Char} {more text after rest : List Char} (hchar : CharSpelled c text after)
      (hmore : CharsSpelled more after rest) : CharsSpelled (c :: more) text rest

/-- A string in quotes. -/
inductive StringSpelled (s : String) : List Char → List Char → Prop
  | quoted {text rest : List Char} (h : CharsSpelled s.toList text rest) :
      StringSpelled s ('"' :: text) rest

end Json

/-! ## Values -/

/-- The word, the digits or the string of a scalar. Floats that are no numbers have words, too. -/
inductive Scalar.Spelled : Scalar → List Char → List Char → Prop
  | null {rest : List Char} : Spelled .null ("null".toList ++ rest) rest
  | yes {rest : List Char} : Spelled (.bool true) ("true".toList ++ rest) rest
  | no {rest : List Char} : Spelled (.bool false) ("false".toList ++ rest) rest
  | int {n : Int} {rest : List Char} : Spelled (.int n) ((toString n).toList ++ rest) rest
  | nan {x : Float} {rest : List Char} (hx : x.isNaN = true) :
      Spelled (.float x) ("NaN".toList ++ rest) rest
  | infinite {x : Float} {rest : List Char} (hx : x.isInf = true) (hpos : ¬x < 0) :
      Spelled (.float x) ("Infinity".toList ++ rest) rest
  | negative {x : Float} {rest : List Char} (hx : x.isInf = true) (hneg : x < 0) :
      Spelled (.float x) ("-Infinity".toList ++ rest) rest
  | finite {x : Float} {rest : List Char} (hnan : x.isNaN = false) (hinf : x.isInf = false) :
      Spelled (.float x) ((Decimal.text x).toList ++ rest) rest
  | string {s : String} {text rest : List Char} (h : Json.StringSpelled s text rest) :
      Spelled (.string s) text rest

namespace Json

/-- White space that may stand between two parts. -/
inductive Space : List Char → List Char → Prop
  | none {rest : List Char} : Space rest rest
  | more {c : Char} {text rest : List Char} (hc : isSpace c = true) (h : Space text rest) :
      Space (c :: text) rest

mutual

/-- The text begins with a value, and after it comes the rest. -/
inductive Spelled : Json → List Char → List Char → Prop
  | scalar {s : Scalar} {text rest : List Char} (h : s.Spelled text rest) :
      Spelled (.scalar s) text rest
  | emptyArray {text rest : List Char} (h : Space text (']' :: rest)) :
      Spelled (.array []) ('[' :: text) rest
  | array {item : Json} {more : List Json} {text first after rest : List Char}
      (hspace : Space text first) (hitem : Spelled item first after)
      (hmore : ItemsSpelled more after rest) : Spelled (.array (item :: more)) ('[' :: text) rest
  | emptyObject {text rest : List Char} (h : Space text ('\x7d' :: rest)) :
      Spelled (.object []) ('\x7b' :: text) rest
  | object {field : String × Json} {more : List (String × Json)}
      {text first after rest : List Char} (hspace : Space text first)
      (hfield : FieldSpelled field first after) (hmore : FieldsSpelled more after rest) :
      Spelled (.object (field :: more)) ('\x7b' :: text) rest

/-- More items with a comma before each, and the bracket behind the last one. -/
inductive ItemsSpelled : List Json → List Char → List Char → Prop
  | close {text rest : List Char} (h : Space text (']' :: rest)) : ItemsSpelled [] text rest
  | comma {item : Json} {more : List Json} {text next first after rest : List Char}
      (hcomma : Space text (',' :: next)) (hspace : Space next first)
      (hitem : Spelled item first after) (hmore : ItemsSpelled more after rest) :
      ItemsSpelled (item :: more) text rest

/-- A key and its value, with a colon between them. -/
inductive FieldSpelled : String × Json → List Char → List Char → Prop
  | field {key : String} {value : Json} {text colon next first rest : List Char}
      (hkey : StringSpelled key text colon) (hcolon : Space colon (':' :: next))
      (hspace : Space next first) (hvalue : Spelled value first rest) :
      FieldSpelled (key, value) text rest

/-- More fields with a comma before each, and the brace behind the last one. -/
inductive FieldsSpelled : List (String × Json) → List Char → List Char → Prop
  | close {text rest : List Char} (h : Space text ('\x7d' :: rest)) : FieldsSpelled [] text rest
  | comma {field : String × Json} {more : List (String × Json)}
      {text next first after rest : List Char} (hcomma : Space text (',' :: next))
      (hspace : Space next first) (hfield : FieldSpelled field first after)
      (hmore : FieldsSpelled more after rest) : FieldsSpelled (field :: more) text rest

end

/-- The text is one of the value, with nothing after it. -/
def IsTextOf (text : String) (j : Json) : Prop := j.Spelled text.toList []

/-! ## What the printer writes -/

theorem charSpelled_escapeChar (c : Char) (rest : List Char) :
    CharSpelled c (escapeChar c ++ rest) rest := by
  have hletter (l c : Char) (rest : List Char) (h : letterEscape? l = some c) :
      CharSpelled c (['\\', l] ++ rest) rest := .letter h
  have hdigits : ∀ n < 0x20, unit? '0' '0' (Nat.digitChar (n / 16 % 16)) (Nat.digitChar (n % 16)) =
      some n := by decide
  unfold escapeChar
  split_ifs with hquote hbackslash hfeed hreturn htab hback hform hcontrol
  · exact hletter '"' c rest (by rw [eq_of_beq hquote]; rfl)
  · exact hletter '\\' c rest (by rw [eq_of_beq hbackslash]; rfl)
  · exact hletter 'n' c rest (by rw [eq_of_beq hfeed]; rfl)
  · exact hletter 'r' c rest (by rw [eq_of_beq hreturn]; rfl)
  · exact hletter 't' c rest (by rw [eq_of_beq htab]; rfl)
  · exact hletter 'b' c rest (by rw [eq_of_beq hback]; rfl)
  · exact hletter 'f' c rest (by rw [eq_of_beq hform]; rfl)
  · exact .code (hdigits _ hcontrol)
  · exact .plain (by simpa using hquote) (by simpa using hbackslash) (Nat.le_of_not_lt hcontrol)

theorem charsSpelled_flatMap (cs rest : List Char) :
    CharsSpelled cs (cs.flatMap escapeChar ++ '"' :: rest) rest := by
  induction cs with
  | nil => exact .nil
  | cons c cs ih =>
    rw [List.flatMap_cons, List.append_assoc]
    exact .cons (charSpelled_escapeChar c _) ih

theorem stringSpelled_stringLiteral (s : String) (rest : List Char) :
    StringSpelled s ((stringLiteral s).toList ++ rest) rest := by
  have h := charsSpelled_flatMap s.toList rest
  rw [stringLiteral, String.toList_ofList]
  simpa using StringSpelled.quoted h

theorem spelled_floatLiteral (x : Float) (rest : List Char) :
    (Scalar.float x).Spelled ((floatLiteral x).toList ++ rest) rest := by
  unfold floatLiteral
  split_ifs with hnan hinf hneg
  · exact .nan hnan
  · exact .negative hinf hneg
  · exact .infinite hinf hneg
  · exact .finite (by simpa using hnan) (by simpa using hinf)

theorem spelled_literal (s : Scalar) (rest : List Char) :
    s.Spelled (s.literal.toList ++ rest) rest := by
  cases s with
  | null => exact .null
  | bool b =>
    cases b with
    | true => exact .yes
    | false => exact .no
  | int n => exact .int
  | float x => exact spelled_floatLiteral x rest
  | string s => exact .string (stringSpelled_stringLiteral s rest)

theorem space_newline (depth : Nat) (rest : List Char) :
    Space ((newline depth).toList ++ rest) rest := by
  have hmargin (n : Nat) : Space (List.replicate n ' ' ++ rest) rest := by
    induction n with
    | zero => exact .none
    | succ n ih => exact .more rfl ih
  simp only [newline, String.toList_append, String.toList_ofList, List.append_assoc]
  exact .more rfl (hmargin _)

mutual

/-- The printer writes a text of the value, whatever comes after it. -/
theorem spelled_printAt (depth : Nat) (rest : List Char) :
    (j : Json) → Spelled j ((printAt depth j).toList ++ rest) rest
  | .scalar s => by
    rw [printAt]
    exact .scalar (spelled_literal s rest)
  | .array [] => by
    rw [printAt]
    exact .emptyArray .none
  | .array (item :: more) => by
    have hmore := itemsSpelled_printItems (depth + 1) depth rest more
    rw [printAt]
    simp only [String.toList_append, List.append_assoc]
    exact .array (space_newline _ _) (spelled_printAt (depth + 1) _ item) hmore
  | .object [] => by
    rw [printAt]
    exact .emptyObject .none
  | .object ((key, value) :: more) => by
    have hmore := fieldsSpelled_printFields (depth + 1) depth rest more
    rw [printAt]
    simp only [String.toList_append, List.append_assoc]
    exact .object (space_newline _ _) (.field (stringSpelled_stringLiteral key _) .none
      (.more rfl .none) (spelled_printAt (depth + 1) _ value)) hmore

theorem itemsSpelled_printItems (depth outer : Nat) (rest : List Char) :
    (items : List Json) → ItemsSpelled items
      ((printItems depth items).toList ++ ((newline outer).toList ++ ("]".toList ++ rest))) rest
  | [] => .close (space_newline outer _)
  | item :: more => by
    have hmore := itemsSpelled_printItems depth outer rest more
    rw [printItems]
    simp only [String.toList_append, List.append_assoc]
    exact .comma .none (space_newline _ _) (spelled_printAt depth _ item) hmore

theorem fieldsSpelled_printFields (depth outer : Nat) (rest : List Char) :
    (fields : List (String × Json)) → FieldsSpelled fields
      ((printFields depth fields).toList ++
        ((newline outer).toList ++ ("\x7d".toList ++ rest))) rest
  | [] => .close (space_newline outer _)
  | (key, value) :: more => by
    have hmore := fieldsSpelled_printFields depth outer rest more
    rw [printFields]
    simp only [String.toList_append, List.append_assoc]
    exact .comma .none (space_newline _ _) (.field (stringSpelled_stringLiteral key _) .none
      (.more rfl .none) (spelled_printAt depth _ value)) hmore

end

theorem isTextOf_print (j : Json) : IsTextOf j.print j := by
  have h := spelled_printAt 0 [] j
  rw [List.append_nil] at h
  exact h

end Json

end LexicalScopes
