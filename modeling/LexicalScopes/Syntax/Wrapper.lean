import LexicalScopes.Linked
import LexicalScopes.Syntax.Path

/-!
# Wrappers of a reference

Four forms of expression around a reference leave it recognisable: the pair `(0, reference)` and
the call `Object(reference)` stand for the reference itself, an access `reference.name` for one of
its properties, and a call `reference()` without arguments for its result. The wrappers of a
reference are the longest run of such forms from its parent outwards, the innermost first.
-/

namespace LexicalScopes

/-- What a wrapper makes of the value it wraps. -/
inductive WrapperForm where
  /-- The same value. -/
  | inherit
  /-- The result of calling the value. -/
  | call
  /-- A property of the value. -/
  | member (property : Json)
deriving DecidableEq, Repr

/-- A wrapper with the raw places where it starts and ends. -/
structure Wrapper where
  form : WrapperForm
  start : Json
  stop : Json
deriving DecidableEq, Repr

/-- The wrapper of a form that covers a whole node. -/
def Wrapper.covering (form : WrapperForm) (n : Node) : Except Cause Wrapper := do
  let loc ← n.loc
  return ⟨form, loc.get "start", loc.get "end"⟩

/-! ## Pairs -/

/-- The expressions are two, and the first is a number literal. Only a list has a first
expression. -/
def Json.isBoxingPair (expressions : Json) : Except Cause Bool := do
  let entries ← expressions.counted
  match expressions, entries with
  | .object _, [_, _] => .error (.misread (.missing (.int 0)))
  | _, [first, _] => return first.isNumericLiteral
  | _, _ => return false

/-- The number one column further right. -/
def Json.nextColumn (column : Json) : Except Cause Json :=
  match column with
  | .int n => .ok (.int (n + 1))
  | .bool b => .ok (.int (b.toInt + 1))
  | .float x => .ok (.float (x + 1))
  | _ => .error (.misread (.successor column.kind))

/-- The value with its present field `key` replaced. -/
def Node.replace (n : Node) (key : String) (value : Json) : Node :=
  n.map fun (k, v) => if k == key then (k, value) else (k, v)

/-- The place one column further right. -/
def Json.nextPlace (place : Json) : Except Cause Json := do
  let n ← place.record
  let column ← (← n.required "column").nextColumn
  return .object (n.replace "column" column)

/-- The pair at `pair`. As a callee it is stretched over its parentheses, from the start of the
call to one column past its own end. -/
def pairWrapper (pair : Path) : Except Cause Wrapper := do
  let loc ← pair.node.loc
  match pair with
  | .child call _ _ _ =>
    if pair.isChildOf NodeType.calls "callee" then
      return ⟨.inherit, ← call.node.start, ← (loc.get "end").nextPlace⟩
    else return ⟨.inherit, loc.get "start", loc.get "end"⟩
  | .root _ => return ⟨.inherit, loc.get "start", loc.get "end"⟩

/-! ## Accesses and calls -/

/-- The property that an access names. Brackets name one only if they hold a string literal. -/
def Node.accessedProperty? (n : Node) : Except Cause (Option Json) := do
  let property := n.get "property"
  if (n.get "computed").isPresent then
    return if property.isStringLiteral then property.field? "value" else none
  else return some (← property.field "name")

/-- The number of arguments of a call. -/
def Node.argumentCount (n : Node) : Except Cause Nat := do
  return (← (n.get "arguments").counted).length

/-- The node in field `key` of `parent`, at `index` if that is a list, is wrapped by `parent`. -/
def wrapperAt? (parent : Path) (key : String) (index : Option Nat) :
    Except Cause (Option Wrapper) := do
  let n := parent.node
  if n.isAny ["SequenceExpression"] then
    if ← (n.get "expressions").isBoxingPair then
      if key == "expressions" && index == some 1 then
        return some (← pairWrapper parent)
    return none
  else if n.isAny NodeType.calls then
    if key == "arguments" && (n.get "callee").isAny ["Identifier"]
        && (n.get "callee").field? "name" == some (.string "Object") then
      if (← n.argumentCount) = 1 then return some (← Wrapper.covering .inherit n)
      else return none
    else if key == "callee" then
      if (← n.argumentCount) = 0 then return some (← Wrapper.covering .call n)
      else return none
    else return none
  else if n.isAny NodeType.members && key == "object" then
    let loc ← n.loc
    return (← n.accessedProperty?).map fun property =>
      ⟨.member property, loc.get "start", loc.get "end"⟩
  else return none

namespace Path

/-- Append the wrappers of the node at a path to a chain, the innermost first. -/
def chainOnto (chain : Linked Wrapper) : Path → Except Cause (Linked Wrapper)
  | .root _ => .ok chain
  | .child parent key index _ => do
    match ← wrapperAt? parent key index with
    | some w => parent.chainOnto (chain.append w)
    | none => return chain

/-- The chain of the wrappers of the node at a path. -/
def chain (p : Path) : Except Cause (Linked Wrapper) := p.chainOnto {}

/-- The wrappers of the node at a path, the innermost first. -/
def wrappers (p : Path) : Except Cause (List Wrapper) := Linked.toList <$> p.chain

/-! ## Chains as lists -/

variable {chain : Linked Wrapper} {p : Path}

theorem inOrder_of_chainOnto {result : Linked Wrapper} (hchain : chain.InOrder)
    (h : p.chainOnto chain = .ok result) : result.InOrder := by
  induction p generalizing chain with
  | root n =>
    cases h
    exact hchain
  | child parent key index n ih =>
    rw [chainOnto] at h
    cases hw : wrapperAt? parent key index with
    | error cause => simp [hw, bind, Except.bind] at h
    | ok wrapper =>
      cases wrapper with
      | none =>
        simp only [hw, bind, Except.bind, pure, Except.pure, Except.ok.injEq] at h
        exact h ▸ hchain
      | some w => exact ih (hchain.append w) (by simpa [hw, bind, Except.bind] using h)

/-- The chain that a path starts has its links in the order in which they were appended. -/
theorem inOrder_of_chain (h : p.chain = .ok chain) : chain.InOrder :=
  inOrder_of_chainOnto Linked.inOrder_empty h

/-- What the chain held before stands in front of the wrappers of the path. -/
theorem toList_chainOnto (hchain : chain.InOrder) :
    Linked.toList <$> p.chainOnto chain = (chain.toList ++ ·) <$> p.wrappers := by
  induction p generalizing chain with
  | root n => simp [wrappers, Path.chain, chainOnto, Functor.map, Except.map]
  | child parent key index n ih =>
    rw [wrappers, Path.chain, chainOnto, chainOnto]
    cases hw : wrapperAt? parent key index with
    | error cause => rfl
    | ok wrapper =>
      cases wrapper with
      | none => simp [bind, Except.bind, pure, Except.pure, Functor.map, Except.map]
      | some w =>
        simp only [bind, Except.bind]
        rw [ih (hchain.append w), ih (Linked.inOrder_empty.append w), hchain.toList_append]
        cases parent.wrappers <;> simp [Functor.map, Except.map, Linked.inOrder_empty.toList_append]

@[simp] theorem wrappers_root (n : Node) : (root n).wrappers = .ok [] := rfl

/-- The wrappers of a node are that of its parent, if it is one, and then those of the parent. -/
theorem wrappers_child (parent : Path) (key : String) (index : Option Nat) (n : Node) :
    (child parent key index n).wrappers = do
      match ← wrapperAt? parent key index with
      | some w => return w :: (← parent.wrappers)
      | none => return [] := by
  rw [wrappers, Path.chain, chainOnto]
  cases wrapperAt? parent key index with
  | error cause => rfl
  | ok wrapper =>
    cases wrapper with
    | none => rfl
    | some w =>
      simp only [bind, Except.bind]
      rw [toList_chainOnto (Linked.inOrder_empty.append w), Linked.inOrder_empty.toList_append]
      cases parent.wrappers <;> rfl

end Path

end LexicalScopes
