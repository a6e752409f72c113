import LexicalScopes.Scope.Location
import LexicalScopes.Syntax.Wrapper

/-!
# Scope trees

The result of an analysis. A scope covers a range of the source, binds names and holds the scopes
nested in it; it does not know the scope around it. A binding lists where its name is declared and
where it is read, each read with the wrappers around it.
-/

namespace LexicalScopes

/-! ## Kinds -/

/-- How a name was introduced. -/
inductive BindingKind where
  /-- Not by the source itself. -/
  | implicit
  | var
  /-- By `let`, or as a class or a function in a block. -/
  | lexical
  | constant
  | imported
deriving DecidableEq, Repr

/-- The word for a kind of binding. -/
def BindingKind.text : BindingKind → String
  | .implicit => "implicit"
  | .var => "var"
  | .lexical => "let"
  | .constant => "const"
  | .imported => "import"

/-- The kinds of binding. -/
def BindingKind.all : List BindingKind := [.implicit, .var, .lexical, .constant, .imported]

/-- The kind of binding that a word names. -/
def BindingKind.ofText? (s : String) : Option BindingKind := all.find? (·.text == s)

/-- What introduces a scope. -/
inductive ScopeType where
  | function
  | block
  | object
  /-- The layer between the global scopes and the source; a block once the analysis is done. -/
  | moduleLayer
deriving DecidableEq, Repr

/-- The word for a type of scope. -/
def ScopeType.text : ScopeType → String
  | .function => "function"
  | .block => "block"
  | .object => "object"
  | .moduleLayer => "module"

/-- The types of scope. -/
def ScopeType.all : List ScopeType := [.function, .block, .object, .moduleLayer]

/-- The type of scope that a word names. -/
def ScopeType.ofText? (s : String) : Option ScopeType := all.find? (·.text == s)

/-- The type under which a scope is shown. -/
def ScopeType.shown : ScopeType → ScopeType
  | .moduleLayer => .block
  | type => type

/-! ## Bindings -/

/-- A form of expression around a reference, and the range it covers. -/
structure Wrapping where
  form : WrapperForm
  range : Range
deriving DecidableEq, Repr

/-- A read of a binding with its wrappers, the innermost first. -/
structure Reference where
  range : Range
  wrappers : List Wrapping
deriving DecidableEq, Repr

/-- A name in a scope: where it is declared and where it is read, in the order of the source. -/
structure Binding where
  kind : BindingKind
  declarations : List Range
  refs : List Reference
deriving DecidableEq, Repr

/-! ## Scopes -/

/-- A scope with all scopes below it. The bindings are in the order in which the names
arrived. -/
structure Scope where
  type : ScopeType
  name : Json
  range : Range
  bindings : List (Scalar × Binding)
  children : List Scope

namespace Scope

mutual

/-- The number of scopes in a tree. -/
def size : Scope → Nat
  | ⟨_, _, _, _, children⟩ => 1 + sizeAll children

def sizeAll : List Scope → Nat
  | [] => 0
  | s :: rest => s.size + sizeAll rest

end

theorem sizeAll_append (xs ys : List Scope) : sizeAll (xs ++ ys) = sizeAll xs + sizeAll ys := by
  induction xs with
  | nil => simp [sizeAll]
  | cons s rest ih => simp [sizeAll, ih]; omega

theorem size_eq (s : Scope) : s.size = 1 + sizeAll s.children := by
  cases s
  rw [size]

theorem size_lt_of_mem_children {s t : Scope} (h : t ∈ s.children) : t.size < s.size := by
  obtain ⟨earlier, later, hsplit⟩ := List.append_of_mem h
  rw [size_eq s, hsplit, sizeAll_append, sizeAll]
  omega

/-- The scopes of pending trees: the first scope, then its children, then the other trees. -/
def walkFrom : List Scope → List Scope
  | [] => []
  | s :: rest => s :: walkFrom (s.children ++ rest)
termination_by pending => sizeAll pending
decreasing_by
  rw [sizeAll_append, sizeAll, size_eq]
  omega

/-- Every scope of a tree, each before those below it and siblings from left to right. -/
def walk (s : Scope) : List Scope := walkFrom [s]

end Scope

end LexicalScopes
