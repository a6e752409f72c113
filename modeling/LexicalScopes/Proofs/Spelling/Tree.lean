import LexicalScopes.Proofs.Ranges.Located
import LexicalScopes.Proofs.Targets

/-!
# Trees in another spelling

The same program can be spelled with plain types of nodes or with a finer division of literals,
properties, fields, calls and accesses, in which a method is one node with the function inside it. A
tree respells another one if any of its nodes are spelled the other way.
-/

namespace LexicalScopes

/-! ## Types -/

namespace NodeType

/-- Types that are spelled in two ways whatever the node holds: the plain type and the other. -/
def spellings : List (String × String) :=
  [("Property", "ObjectProperty"), ("PropertyDefinition", "ClassProperty"),
    ("CallExpression", "OptionalCallExpression"), ("MemberExpression", "OptionalMemberExpression")]

/-- Literals in either spelling. -/
def literals : List String := ["Literal", "StringLiteral", "NumericLiteral"]

/-- All pairs of types that a node can have in the two spellings. -/
def allSpellings : List (String × String) :=
  spellings ++ [("Literal", "StringLiteral"), ("Literal", "NumericLiteral")]

/-- The two types of a method: of the node around its function, and of the node that is its
function. -/
def methods : List (String × String) :=
  [("MethodDefinition", "ClassMethod"), ("Property", "ObjectMethod")]

/-- The set of types does not tell the spellings apart. -/
def closed (types : List String) : Bool :=
  allSpellings.all fun (plain, other) => types.contains plain == types.contains other

end NodeType

namespace Node

/-- The type of a node is spelled in the same way or in the other one. -/
inductive Spells (n m : Node) : Prop where
  | same (h : m.type = n.type)
  | other {plain other : String} (hspelling : (plain, other) ∈ NodeType.spellings)
      (hplain : n.type = .string plain) (hother : m.type = .string other)
  | text (hplain : n.type = .string "Literal") (hvalue : (n.get "value").string?.isSome = true)
      (hother : m.type = .string "StringLiteral")
  | number (hplain : n.type = .string "Literal") (hvalue : (n.get "value").isNumber = true)
      (hother : m.type = .string "NumericLiteral")

/-- The field can hold nodes. Bookkeeping, literals and the names of identifiers hold none. -/
def holdsNodes (n : Node) (key : String) : Bool :=
  !NodeType.bookkeeping.contains key && !n.isAny NodeType.literals &&
    !(n.isAny ["Identifier"] && key == "name")

/-- The two types of a method in the list that a field holds. -/
def methodTypes? (n : Node) (key : String) : Option (String × String) :=
  if n.isAny ["ClassBody"] && key == "body" then some ("MethodDefinition", "ClassMethod")
  else if n.isAny ["ObjectExpression"] && key == "properties" then some ("Property", "ObjectMethod")
  else none

/-- The node is `n` with its own type perhaps spelled the other way. -/
structure Retags (n m : Node) : Prop where
  type : n.Spells m
  keys : m.map Prod.fst = n.map Prod.fst
  /-- Children stand in the same fields; a literal in the other spelling holds none. -/
  children : m.childFields = n.childFields
  same : ∀ key, key ≠ "type" → n.holdsNodes key = false → m.get key = n.get key
  /-- The name of an accessed property is a text. -/
  property : n.isAny NodeType.members = true →
    (m.get "property").field? "name" = (n.get "property").field? "name"

/-- The key of a method is an identifier or a literal with a fixed name. -/
def isPlainKey (key : Node) : Bool :=
  key.isAny ["Identifier"] ||
    (key.isAny ["Literal"] && ((key.get "value").string?.isSome || (key.get "value").isNumber))

/-- The node `m` is the function of a method and the method itself, for a node `method` with the
function `f` as its value. -/
structure Merges (types : String × String) (method f m : Node) : Prop where
  known : types ∈ NodeType.methods
  methodType : method.type = .string types.1
  mergedType : m.type = .string types.2
  plain : (method.get "computed").isPresent = false
  mergedPlain : (m.get "computed").isPresent = false
  key : ∃ key : Node, method.get "key" = .object key ∧ key.isPlainKey = true
  value : method.get "value" = .object f
  function : f.type = .string "FunctionExpression"
  unnamed : f.get "id" = .null
  mergedUnnamed : m.get "id" = .null
  loc : m.get "loc" = f.get "loc"
  params : (f.parts "params").all (·.isAny patterns) = true
  body : (f.get "body").isAny ["BlockStatement"] = true

end Node

/-- The second value is the first one with some of its nodes spelled the other way. In a list of
methods with the types `methods`, each method can be merged with its function. -/
inductive Json.Respells : (methods : Option (String × String)) → Json → Json → Prop where
  | same {methods : Option (String × String)} (j : Json) : Respells methods j j
  | list {methods : Option (String × String)} {xs ys : List Json} (hlength : ys.length = xs.length)
      (hitems : ∀ (i : Nat) (x y : Json), xs[i]? = some x → ys[i]? = some y →
        Respells methods x y) :
      Respells methods (.array xs) (.array ys)
  | node {methods : Option (String × String)} {n m : Node} (h : n.Retags m)
      (hfields : ∀ key, n.holdsNodes key = true →
        Respells (n.methodTypes? key) (n.get key) (m.get key)) :
      Respells methods (.object n) (.object m)
  | method {types : String × String} {method f m : Node} (h : Node.Merges types method f m)
      (hkey : Respells none (method.get "key") (m.get "key"))
      (hparams : Respells none (f.get "params") (m.get "params"))
      (hbody : Respells none (f.get "body") (m.get "body")) :
      Respells (some types) (.object method) (.object m)

/-- The node is `n` with some of the nodes in it, or `n` itself, spelled the other way. -/
structure Node.Respelled (n m : Node) : Prop where
  tag : n.Retags m
  fields : ∀ key, n.holdsNodes key = true →
    Json.Respells (n.methodTypes? key) (n.get key) (m.get key)

variable {n m : Node} {j k : Json} {key : String} {types : List String}
  {methods : Option (String × String)}

theorem Node.Retags.refl (n : Node) : n.Retags n :=
  ⟨.same rfl, rfl, rfl, fun _ _ _ => rfl, fun _ => rfl⟩

theorem Node.Respelled.refl (n : Node) : n.Respelled n := ⟨.refl n, fun _ _ => .same _⟩

/-! ## Types of respelled nodes -/

theorem Node.Spells.cases (h : n.Spells m) :
    m.type = n.type ∨
      ∃ p ∈ NodeType.allSpellings, n.type = .string p.1 ∧ m.type = .string p.2 := by
  cases h with
  | same h => exact .inl h
  | other hspelling hplain hother =>
    exact .inr ⟨_, List.mem_append_left _ hspelling, hplain, hother⟩
  | text hplain _ hother => exact .inr ⟨("Literal", "StringLiteral"), by decide, hplain, hother⟩
  | number hplain _ hother => exact .inr ⟨("Literal", "NumericLiteral"), by decide, hplain, hother⟩

theorem Node.Spells.isAny_eq (h : n.Spells m) (hclosed : NodeType.closed types = true) :
    m.isAny types = n.isAny types := by
  unfold isAny
  rcases h.cases with heq | ⟨p, hp, hplain, hother⟩
  · rw [heq]
  · have hclosed := List.all_eq_true.1 hclosed p hp
    rw [hplain, hother]
    exact (beq_iff_eq.1 hclosed).symm

theorem Node.Spells.role?_eq (h : n.Spells m) : m.role? = n.role? := by
  have htable : ∀ p ∈ NodeType.allSpellings, Role.table.lookup p.2 = Role.table.lookup p.1 := by
    decide
  unfold role?
  rcases h.cases with heq | ⟨p, hp, hplain, hother⟩
  · rw [heq]
  · rw [hplain, hother]
    exact htable p hp

theorem Node.Spells.reading_eq (h : n.Spells m) : m.reading = n.reading := by
  have htable : ∀ p ∈ NodeType.allSpellings,
      Reading.table.lookup p.2 = Reading.table.lookup p.1 := by decide
  unfold reading
  rcases h.cases with heq | ⟨p, hp, hplain, hother⟩
  · rw [heq]
  · rw [hplain, hother]
    dsimp only
    rw [htable p hp]

/-! ## Fields of respelled nodes -/

namespace Node

theorem has_eq_contains (n : Node) (key : String) : n.has key = (n.map Prod.fst).contains key := by
  unfold has
  induction n with
  | nil => rfl
  | cons field rest ih =>
    obtain ⟨k, value⟩ := field
    rw [List.lookup_cons, List.map_cons, List.contains_cons]
    cases key == k with
    | true => rfl
    | false => simpa using ih

theorem Retags.has_eq (h : n.Retags m) (key : String) : m.has key = n.has key := by
  rw [has_eq_contains, h.keys, has_eq_contains]

theorem Retags.isPresent_eq (h : n.Retags m) :
    (Json.object m).isPresent = (Json.object n).isPresent := by
  have hlength := congrArg List.length h.keys
  rw [List.length_map, List.length_map] at hlength
  cases n <;> cases m <;> simp_all [Json.isPresent]

theorem methodTypes?_eq_none (hbody : key ≠ "body") (hproperties : key ≠ "properties") :
    n.methodTypes? key = none := by
  simp [methodTypes?, hbody, hproperties]

theorem methodTypes?_eq_none_of_isAny (h : n.isAny types = true)
    (hdisjoint : ∀ t ∈ types, t ∉ ["ClassBody", "ObjectExpression"]) :
    n.methodTypes? key = none := by
  have hbody : n.isAny ["ClassBody"] = false := isAny_eq_false h fun t ht => by
    have := hdisjoint t ht
    simp_all
  have hobject : n.isAny ["ObjectExpression"] = false := isAny_eq_false h fun t ht => by
    have := hdisjoint t ht
    simp_all
  simp [methodTypes?, hbody, hobject]

namespace Respelled

theorem get_methods (h : n.Respelled m) (hkey : key ≠ "type") :
    Json.Respells (n.methodTypes? key) (n.get key) (m.get key) := by
  cases hholds : n.holdsNodes key with
  | true => exact h.fields key hholds
  | false =>
    rw [h.tag.same key hkey hholds]
    exact .same _

theorem get (h : n.Respelled m) (hkey : key ≠ "type") (hnone : n.methodTypes? key = none) :
    Json.Respells none (n.get key) (m.get key) :=
  hnone ▸ h.get_methods hkey

/-- No list that is read as a whole has methods in it. -/
theorem get_plain (h : n.Respelled m) (hkey : key ∉ ["type", "body", "properties"]) :
    Json.Respells none (n.get key) (m.get key) := by
  simp only [List.mem_cons, List.not_mem_nil, or_false, not_or] at hkey
  exact h.get hkey.1 (methodTypes?_eq_none hkey.2.1 hkey.2.2)

theorem get_loc (h : n.Respelled m) : m.get "loc" = n.get "loc" :=
  h.tag.same "loc" (by decide) rfl

theorem isAny_eq (h : n.Respelled m) (hclosed : NodeType.closed types = true) :
    m.isAny types = n.isAny types := h.tag.type.isAny_eq hclosed

/-- The fields of a literal are the same in both spellings. -/
theorem get_of_literal (h : n.Respelled m) (hliteral : n.isAny NodeType.literals = true)
    (hkey : key ≠ "type") : m.get key = n.get key :=
  h.tag.same key hkey (by simp [holdsNodes, hliteral])

theorem get_name (h : n.Respelled m) (hid : n.isAny ["Identifier"] = true) :
    m.get "name" = n.get "name" :=
  h.tag.same "name" (by decide) (by simp [holdsNodes, hid])

end Respelled

end Node

/-! ## Respelled values -/

namespace Json.Respells

/-- A value outside lists of methods is respelled part by part. -/
theorem cases (h : Respells none j k) :
    (∃ s, j = .scalar s ∧ k = .scalar s) ∨
      (∃ xs ys, j = .array xs ∧ k = .array ys ∧ List.Forall₂ (Respells none) xs ys) ∨
      ∃ n m : Node, j = .object n ∧ k = .object m ∧ n.Respelled m := by
  cases h with
  | same j =>
    cases j with
    | scalar s => exact .inl ⟨s, rfl, rfl⟩
    | array xs => exact .inr (.inl ⟨xs, xs, rfl, rfl, List.forall₂_same.2 fun x _ => .same x⟩)
    | object n => exact .inr (.inr ⟨n, n, rfl, rfl, .refl n⟩)
  | @list _ xs ys hlength hitems =>
    refine .inr (.inl ⟨xs, ys, rfl, rfl, ?_⟩)
    rw [List.forall₂_iff_get]
    exact ⟨hlength.symm, fun i hx hy => hitems i _ _ (by simp [hx]) (by simp [hy])⟩
  | node h hfields => exact .inr (.inr ⟨_, _, rfl, rfl, h, hfields⟩)

theorem isPresent_eq (h : Respells none j k) : k.isPresent = j.isPresent := by
  rcases h.cases with ⟨s, rfl, rfl⟩ | ⟨xs, ys, rfl, rfl, hitems⟩ | ⟨n, m, rfl, rfl, hn⟩
  · rfl
  · cases hitems <;> rfl
  · exact hn.tag.isPresent_eq

theorem isNull_eq (h : Respells none j k) : k.isNull = j.isNull := by
  rcases h.cases with ⟨s, rfl, rfl⟩ | ⟨xs, ys, rfl, rfl, -⟩ | ⟨n, m, rfl, rfl, -⟩ <;> rfl

/-- A text or a number is the same in both trees. -/
theorem eq_scalar_iff (h : Respells none j k) {s : Scalar} : k = .scalar s ↔ j = .scalar s := by
  rcases h.cases with ⟨s, rfl, rfl⟩ | ⟨xs, ys, rfl, rfl, -⟩ | ⟨n, m, rfl, rfl, -⟩ <;> simp

theorem node? (h : Respells none j k) : Option.Rel Node.Respelled j.node? k.node? := by
  rcases h.cases with ⟨s, rfl, rfl⟩ | ⟨xs, ys, rfl, rfl, -⟩ | ⟨n, m, rfl, rfl, hn⟩
  · exact .none
  · exact .none
  · exact .some hn

theorem entries? (h : Respells none j k) :
    Option.Rel (List.Forall₂ (Respells none)) j.entries? k.entries? := by
  have hsame : ∀ xs : List Json, List.Forall₂ (Respells none) xs xs := fun xs =>
    List.forall₂_same.2 fun x _ => .same x
  rcases h.cases with ⟨s, rfl, rfl⟩ | ⟨xs, ys, rfl, rfl, hitems⟩ | ⟨n, m, rfl, rfl, hn⟩
  · cases (Json.scalar s).entries? with
    | none => exact .none
    | some xs => exact .some (hsame xs)
  · exact .some hitems
  · -- The keys of an object are its entries.
    have hkeys : (Json.object m).entries? = (Json.object n).entries? := by
      have h := congrArg (List.map Json.string) hn.tag.keys
      rw [List.map_map, List.map_map] at h
      exact congrArg some h
    rw [hkeys]
    exact .some (hsame _)

/-- Two objects are the nodes of respelled values. -/
theorem object_iff {n m : Node} : Respells none (.object n) (.object m) ↔ n.Respelled m := by
  constructor
  · intro h
    rcases h.cases with ⟨s, h, -⟩ | ⟨xs, ys, h, -⟩ | ⟨n', m', hn, hm, h⟩
    · cases h
    · cases h
    · cases hn
      cases hm
      exact h
  · exact fun h => .node h.tag h.fields

theorem isAny_eq (h : Respells none j k) (hclosed : NodeType.closed types = true) :
    k.isAny types = j.isAny types := by
  rcases h.cases with ⟨s, rfl, rfl⟩ | ⟨xs, ys, rfl, rfl, -⟩ | ⟨n, m, rfl, rfl, hn⟩
  · rfl
  · rfl
  · exact hn.isAny_eq hclosed

theorem field? (h : Respells none j k) (hkey : key ∉ ["type", "body", "properties"]) :
    Option.Rel (Respells none) (j.field? key) (k.field? key) := by
  rcases h.cases with ⟨s, rfl, rfl⟩ | ⟨xs, ys, rfl, rfl, -⟩ | ⟨n, m, rfl, rfl, hn⟩
  · exact .none
  · exact .none
  · exact .some (hn.get_plain hkey)

/-- The name of an identifier is the same in both trees. -/
theorem field?_name (h : Respells none j k) (hid : j.isAny ["Identifier"] = true) :
    k.field? "name" = j.field? "name" := by
  rcases h.cases with ⟨s, rfl, rfl⟩ | ⟨xs, ys, rfl, rfl, -⟩ | ⟨n, m, rfl, rfl, hn⟩
  · rfl
  · rfl
  · rw [field?_object, field?_object, hn.get_name hid]

theorem any_eq {o o' : Option Json} (h : Option.Rel (Respells none) o o') {f : Json → Bool}
    (hf : ∀ x y, Respells none x y → f y = f x) : o'.any f = o.any f := by
  cases h with
  | none => rfl
  | some h => exact hf _ _ h

theorem isLexicalDeclaration_eq (h : Respells none j k) :
    k.isLexicalDeclaration = j.isLexicalDeclaration := by
  have hkind := h.field? (by decide : "kind" ∉ ["type", "body", "properties"])
  unfold isLexicalDeclaration
  rw [h.isAny_eq (by decide), any_eq hkind fun x y hxy => by simp only [hxy.eq_scalar_iff]]

theorem declaresInBlock_eq (h : Respells none j k) : k.declaresInBlock = j.declaresInBlock := by
  rw [declaresInBlock, h.isLexicalDeclaration_eq, h.isAny_eq (by decide), declaresInBlock]

/-- The value of a literal is the same in both trees. -/
theorem field?_of_literal (h : Respells none j k) (hliteral : j.isAny NodeType.literals = true)
    (hkey : key ≠ "type") : k.field? key = j.field? key := by
  rcases h.cases with ⟨s, rfl, rfl⟩ | ⟨xs, ys, rfl, rfl, -⟩ | ⟨n, m, rfl, rfl, hn⟩
  · rfl
  · rfl
  · rw [field?_object, field?_object, hn.get_of_literal hliteral hkey]

end Json.Respells

/-! ## Literals -/

theorem Node.isAny_of_type {t : String} (h : n.type = .string t) :
    n.isAny types = types.contains t := by
  rw [isAny, h]

/-- A literal of one kind is one in both spellings: by its type, or as a plain literal by its
value. -/
theorem Node.Respelled.literal_eq (h : n.Respelled m) {type : String} {good : Json → Bool}
    (htype : type ∈ ["StringLiteral", "NumericLiteral"])
    (htext : ∀ v : Json, v.string?.isSome = true → good v = (type == "StringLiteral"))
    (hnumber : ∀ v : Json, v.isNumber = true → good v = (type == "NumericLiteral")) :
    (m.isAny [type] || (m.isAny ["Literal"] && good (m.get "value"))) =
      (n.isAny [type] || (n.isAny ["Literal"] && good (n.get "value"))) := by
  cases h.tag.type with
  | same heq =>
    have hisAny (types : List String) : m.isAny types = n.isAny types := by
      rw [isAny, heq, isAny]
    rw [hisAny, hisAny]
    cases hliteral : n.isAny ["Literal"] with
    | false => rfl
    | true => rw [h.get_of_literal (isAny_mono hliteral (by decide)) (by decide)]
  | other hspelling hplain hother =>
    -- The spellings of other nodes are no literals at all, so both sides are false.
    have hspellings : ∀ p ∈ NodeType.spellings, ∀ t ∈ NodeType.literals, p.1 ≠ t ∧ p.2 ≠ t := by
      decide
    have hne := hspellings _ hspelling
    have htype := hne type (List.mem_cons_of_mem _ htype)
    have hliteral := hne "Literal" (by decide)
    simp_all [isAny_of_type hplain, isAny_of_type hother]
  | text hplain hvalue hother =>
    simp only [isAny_of_type hplain, isAny_of_type hother, htext _ hvalue]
    revert type
    simp
  | number hplain hvalue hother =>
    simp only [isAny_of_type hplain, isAny_of_type hother, hnumber _ hvalue]
    revert type
    simp

namespace Json.Respells

theorem isNumericLiteral_eq (h : Respells none j k) : k.isNumericLiteral = j.isNumericLiteral := by
  rcases h.cases with ⟨s, rfl, rfl⟩ | ⟨xs, ys, rfl, rfl, -⟩ | ⟨n, m, rfl, rfl, hn⟩
  · rfl
  · rfl
  · refine hn.literal_eq (by decide : "NumericLiteral" ∈ _) (fun v hv => ?_) fun v hv => hv
    rcases v with (_ | _ | _ | _ | _) | _ | _ <;> first | rfl | cases hv

theorem isStringLiteral_eq (h : Respells none j k) : k.isStringLiteral = j.isStringLiteral := by
  rcases h.cases with ⟨s, rfl, rfl⟩ | ⟨xs, ys, rfl, rfl, -⟩ | ⟨n, m, rfl, rfl, hn⟩
  · rfl
  · rfl
  · refine hn.literal_eq (by decide : "StringLiteral" ∈ _) (fun v hv => hv) fun v hv => ?_
    rcases v with (_ | _ | _ | _ | _) | _ | _ <;> first | rfl | cases hv

/-! ## Names -/

theorem keyName_eq (h : Respells none j k) : k.keyName = j.keyName := by
  rcases h.cases with ⟨s, rfl, rfl⟩ | ⟨xs, ys, rfl, rfl, -⟩ | ⟨n, m, rfl, rfl, hn⟩
  · rfl
  · rfl
  · simp only [keyName, Json.node?]
    rw [hn.isAny_eq (by decide), hn.isAny_eq (by decide)]
    split
    · rw [hn.get_name ‹_›]
    · split
      · rw [hn.get_of_literal (Node.isAny_mono ‹_› (by decide)) (by decide)]
      · rfl

theorem targetName?_eq (h : Respells none j k) : k.targetName? = j.targetName? := by
  unfold targetName?
  rw [h.isAny_eq (by decide)]
  split
  · exact h.field?_name ‹_›
  · rfl

end Json.Respells

end LexicalScopes
