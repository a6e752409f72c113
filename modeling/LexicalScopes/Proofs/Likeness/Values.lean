import LexicalScopes.Proofs.Spelling.Paths

/-!
# Values that are read alike

A likeness relates values of which an analysis sees the same. It is closed under looking: related
nodes have the same type and the same location, what is handed on from them is the same, and the
values that are looked into are related again. A flag tells the properties of accesses from other
values, for of them the name is handed on. Nothing is asked of the fields that no step looks at.

Only the number of keys of an object that stands in the place of a list may differ, as long as both
have some.
-/

namespace LexicalScopes

variable {R : Bool → Json → Json → Prop} {a : Bool} {j k : Json} {n m : Node} {key : String}
  {types : List String}

/-! ## Likenesses -/

/-- The fields that are looked into, whatever the type of the node. -/
def Node.inspected : List String :=
  ["id", "params", "properties", "argument", "elements", "left", "declarations", "specifiers",
    "local", "kind", "init", "consequent", "cases", "param", "arguments", "callee", "computed",
    "key", "source", "operator", "expressions"]

/-- The same is read off the nodes, and the values that are looked into are related. -/
structure Node.Matches (R : Bool → Json → Json → Prop) (accessed : Bool) (n m : Node) : Prop where
  type : m.type = n.type
  hasType : m.has "type" = n.has "type"
  hasOperator : m.has "operator" = n.has "operator"
  isEmpty : m.isEmpty = n.isEmpty
  loc : m.get "loc" = n.get "loc"
  name : accessed = true ∨ n.isAny ["Identifier"] = true → m.get "name" = n.get "name"
  literal : n.isAny NodeType.literals = true → m.get "value" = n.get "value"
  value : n.isAny NodeType.literals = false → R false (n.get "value") (m.get "value")
  body : n.isAny NodeType.functions = false → R false (n.get "body") (m.get "body")
  property : n.isAny NodeType.members = true → R true (n.get "property") (m.get "property")
  counted : n.isAny ["SequenceExpression"] = true →
    (m.get "expressions").entries?.map List.length = (n.get "expressions").entries?.map List.length
  part : ∀ key ∈ Node.inspected, R false (n.get key) (m.get key)

/-- The values are built alike. -/
inductive Json.Matches (R : Bool → Json → Json → Prop) (accessed : Bool) : Json → Json → Prop where
  | scalar (s : Scalar) : Matches R accessed (.scalar s) (.scalar s)
  | array {xs ys : List Json} (h : List.Forall₂ (R false) xs ys) :
      Matches R accessed (.array xs) (.array ys)
  | object {n m : Node} (h : n.Matches R accessed m) : Matches R accessed (.object n) (.object m)

theorem Json.Matches.kind_eq (h : Json.Matches R a j k) : k.kind = j.kind := by
  cases h <;> rfl

/-- What is said of one value is said of the other. -/
theorem Json.Matches.misread_eq (h : Json.Matches R a j k) (ask : Json.Kind → Misreading) :
    Cause.misread (ask k.kind) = .misread (ask j.kind) := by
  rw [h.kind_eq]

/-- Related values are built alike. -/
def Likeness (R : Bool → Json → Json → Prop) : Prop :=
  ∀ {a : Bool} {j k : Json}, R a j k → Json.Matches R a j k

/-- Every value is like itself. -/
theorem Likeness.eq : Likeness fun _ j k => k = j := by
  rintro a j k rfl
  cases k with
  | scalar s => exact .scalar s
  | array items => exact .array (List.forall₂_same.2 fun _ _ => rfl)
  | object n =>
    exact .object ⟨rfl, rfl, rfl, rfl, rfl, fun _ => rfl, fun _ => rfl, fun _ => rfl, fun _ => rfl,
      fun _ => rfl, fun _ => rfl, fun _ _ => rfl⟩

/-- Readings that go on alike from related values. -/
theorem readable_bind_congr {α β γ : Type} {S : α → β → Prop} {o : Option α} {o' : Option β}
    {e e' : Cause} {f : α → Except Cause γ} {g : β → Except Cause γ} (h : Option.Rel S o o')
    (he : e' = e) (hfg : ∀ a b, S a b → g b = f a) : readable o' e' >>= g = readable o e >>= f := by
  subst he
  cases h with
  | none => rfl
  | some h => exact hfg _ _ h

/-! ## Nodes -/

theorem Cause.malformed_congr (hloc : m.get "loc" = n.get "loc") (defect : Defect) :
    malformed defect (.object m) = malformed defect (.object n) := by
  have hposition : Position.ofNode? (.object m) = Position.ofNode? (.object n) := by
    simp only [Position.ofNode?, Json.node?, hloc]
  rw [malformed, hposition, malformed]

theorem Node.loc_congr (htype : m.type = n.type) (hloc : m.get "loc" = n.get "loc") :
    m.loc = n.loc := by
  unfold loc
  rw [hloc, htype, Cause.malformed_congr hloc]

namespace Node.Matches

theorem isAny_eq (h : n.Matches R a m) : m.isAny types = n.isAny types := by
  rw [isAny, h.type, isAny]

theorem role?_eq (h : n.Matches R a m) : m.role? = n.role? := by
  rw [role?, h.type, role?]

theorem reading_eq (h : n.Matches R a m) : m.reading = n.reading := by
  rw [reading, h.type, reading]

theorem malformed_eq (h : n.Matches R a m) (defect : Defect) :
    Cause.malformed defect (.object m) = Cause.malformed defect (.object n) :=
  Cause.malformed_congr h.loc defect

theorem loc_eq (h : n.Matches R a m) : m.loc = n.loc := loc_congr h.type h.loc

theorem start_eq (h : n.Matches R a m) : m.start = n.start := by
  rw [start, h.loc_eq, start]

end Node.Matches

/-! ## Values -/

namespace Json.Matches

theorem node? (h : Json.Matches R a j k) : Option.Rel (Node.Matches R a) j.node? k.node? := by
  cases h with
  | scalar s => exact .none
  | array h => exact .none
  | object h => exact .some h

theorem isAny_eq (h : Json.Matches R a j k) : k.isAny types = j.isAny types := by
  cases h with
  | scalar s => rfl
  | array h => rfl
  | object h => exact h.isAny_eq

theorem isPresent_eq (h : Json.Matches R a j k) : k.isPresent = j.isPresent := by
  cases h with
  | scalar s => rfl
  | array h => cases h <;> rfl
  | object h => rw [isPresent, isPresent, h.isEmpty]

theorem isNull_eq (h : Json.Matches R a j k) : k.isNull = j.isNull := by
  cases h <;> rfl

theorem eq_scalar_iff (h : Json.Matches R a j k) {s : Scalar} : k = .scalar s ↔ j = .scalar s := by
  cases h <;> simp

theorem beq_scalar (h : Json.Matches R a j k) (s : Scalar) :
    (k == .scalar s) = (j == .scalar s) := by
  rw [beq_eq_decide, beq_eq_decide]
  exact decide_eq_decide.2 h.eq_scalar_iff

theorem malformed_eq (h : Json.Matches R a j k) (defect : Defect) :
    Cause.malformed defect k = Cause.malformed defect j := by
  cases h with
  | scalar s => rfl
  | array h => rfl
  | object h => exact h.malformed_eq defect

theorem field? (h : Json.Matches R a j k) (hkey : key ∈ Node.inspected) :
    Option.Rel (R false) (j.field? key) (k.field? key) := by
  cases h with
  | scalar s => exact .none
  | array h => exact .none
  | object h => exact .some (h.part key hkey)

theorem field?_type (h : Json.Matches R a j k) : k.field? "type" = j.field? "type" := by
  cases h with
  | scalar s => rfl
  | array h => rfl
  | object h => exact congrArg some h.type

/-- The name of an identifier and that of an accessed property are handed on. -/
theorem field?_name (h : Json.Matches R a j k) (hname : a = true ∨ j.isAny ["Identifier"] = true) :
    k.field? "name" = j.field? "name" := by
  cases h with
  | scalar s => rfl
  | array h => rfl
  | object h => exact congrArg some (h.name hname)

theorem field?_value (h : Json.Matches R a j k) (hliteral : j.isAny NodeType.literals = true) :
    k.field? "value" = j.field? "value" := by
  cases h with
  | scalar s => rfl
  | array h => rfl
  | object h => exact congrArg some (h.literal hliteral)

theorem and_field?_value (h : Json.Matches R a j k) {q : Json → Bool} :
    (j.isAny ["Literal"] && (k.field? "value").any q) =
      (j.isAny ["Literal"] && (j.field? "value").any q) := by
  cases hliteral : j.isAny ["Literal"] with
  | false => rfl
  | true =>
    rw [h.field?_value]
    cases h with
    | scalar s => cases hliteral
    | array h => cases hliteral
    | object h => exact Node.isAny_mono hliteral (by decide)

theorem isNumericLiteral_eq (h : Json.Matches R a j k) :
    k.isNumericLiteral = j.isNumericLiteral := by
  simp only [isNumericLiteral, h.isAny_eq, h.and_field?_value]

theorem isStringLiteral_eq (h : Json.Matches R a j k) : k.isStringLiteral = j.isStringLiteral := by
  simp only [isStringLiteral, h.isAny_eq, h.and_field?_value]

end Json.Matches

namespace Likeness

theorem isLexicalDeclaration_eq (hR : Likeness R) (h : R a j k) :
    k.isLexicalDeclaration = j.isLexicalDeclaration := by
  have hkind := (hR h).field? (by decide : "kind" ∈ Node.inspected)
  rw [Json.isLexicalDeclaration, (hR h).isAny_eq, Json.isLexicalDeclaration]
  generalize j.field? "kind" = o, k.field? "kind" = o' at hkind
  cases hkind with
  | none => rfl
  | some hkind => simp only [Option.any_some, (hR hkind).eq_scalar_iff]

theorem declaresInBlock_eq (hR : Likeness R) (h : R a j k) :
    k.declaresInBlock = j.declaresInBlock := by
  rw [Json.declaresInBlock, hR.isLexicalDeclaration_eq h, (hR h).isAny_eq, Json.declaresInBlock]

end Likeness

/-! ## Entries -/

/-- Entries of related lists: they are related one by one, or they are texts in both, which are the
keys of objects or the characters of a text. -/
inductive Listed (R : Bool → Json → Json → Prop) : List Json → List Json → Prop where
  | items {xs ys : List Json} (h : List.Forall₂ (R false) xs ys) : Listed R xs ys
  | texts {xs ys : List Json} (hxs : ∀ x ∈ xs, ∃ s, x = .string s)
      (hys : ∀ y ∈ ys, ∃ s, y = .string s) (hempty : ys.isEmpty = xs.isEmpty) : Listed R xs ys

/-- The entries of a text, and those of an object, are texts. -/
theorem Json.texts_of_entries? {entries : List Json} (h : j.entries? = some entries)
    (hj : ∀ items, j ≠ .array items) : ∀ x ∈ entries, ∃ s, x = .string s := by
  intro x hx
  unfold entries? at h
  split at h
  · exact (hj _ rfl).elim
  · cases h
    obtain ⟨field, -, rfl⟩ := List.mem_map.1 hx
    exact ⟨_, rfl⟩
  · cases h
    obtain ⟨s, -, rfl⟩ := List.mem_map.1 hx
    exact ⟨_, rfl⟩
  · split at h
    · cases h
    · cases h
      cases hx

theorem Json.Matches.entries? (h : Json.Matches R a j k) :
    Option.Rel (Listed R) j.entries? k.entries? := by
  cases h with
  | scalar s =>
    cases hentries : (Json.scalar s).entries? with
    | none => exact .none
    | some entries =>
      have htexts := texts_of_entries? hentries nofun
      exact .some (.texts htexts htexts rfl)
  | array h => exact .some (.items h)
  | @object n m h =>
    have hempty : (m.map fun field => Json.string field.1).isEmpty =
        (n.map fun field => Json.string field.1).isEmpty := by
      rw [List.isEmpty_map, List.isEmpty_map, h.isEmpty]
    exact .some (.texts (texts_of_entries? (j := .object n) rfl nofun)
      (texts_of_entries? (j := .object m) rfl nofun) hempty)

namespace Listed

variable {xs ys : List Json}

theorem isEmpty_eq (h : Listed R xs ys) : ys.isEmpty = xs.isEmpty := by
  cases h with
  | items h => cases h <;> rfl
  | texts _ _ hempty => exact hempty

/-- Something is found in both lists or in neither, if it is never a text. -/
theorem any_eq {f : Json → Bool} (h : Listed R xs ys) (hf : ∀ x y, R false x y → f y = f x)
    (htext : ∀ s, f (.string s) = false) : ys.any f = xs.any f := by
  cases h with
  | items h =>
    induction h with
    | nil => rfl
    | cons hxy _ ih => rw [List.any_cons, List.any_cons, hf _ _ hxy, ih]
  | texts hxs hys _ =>
    have hnone (zs : List Json) (hzs : ∀ z ∈ zs, ∃ s, z = .string s) : zs.any f = false := by
      rw [List.any_eq_false]
      intro z hz
      obtain ⟨s, rfl⟩ := hzs z hz
      simp [htext]
    rw [hnone xs hxs, hnone ys hys]

/-- Lists in which something is found in every place have related entries. -/
theorem forall₂_of_all {f : Json → Bool} (h : Listed R xs ys) (htext : ∀ s, f (.string s) = false)
    (hall : xs.all f = true) : List.Forall₂ (R false) xs ys := by
  cases h with
  | items h => exact h
  | texts hxs _ hempty =>
    cases xs with
    | nil =>
      rw [List.isEmpty_nil, List.isEmpty_iff] at hempty
      rw [hempty]
      exact .nil
    | cons x xs =>
      obtain ⟨s, rfl⟩ := hxs x List.mem_cons_self
      rw [List.all_cons, htext] at hall
      cases hall

theorem all_eq {f : Json → Bool} (h : Listed R xs ys) (hf : ∀ x y, R false x y → f y = f x)
    (htext : ∀ s, f (.string s) = false) : ys.all f = xs.all f := by
  cases h with
  | items h =>
    induction h with
    | nil => rfl
    | cons hxy _ ih => rw [List.all_cons, List.all_cons, hf _ _ hxy, ih]
  | texts hxs hys hempty =>
    have hfirst (zs : List Json) (hzs : ∀ z ∈ zs, ∃ s, z = .string s) : zs.all f = zs.isEmpty := by
      cases zs with
      | nil => rfl
      | cons z zs =>
        obtain ⟨s, rfl⟩ := hzs z List.mem_cons_self
        rw [List.all_cons, htext, Bool.false_and, List.isEmpty_cons]
    rw [hfirst xs hxs, hfirst ys hys, hempty]

/-- The lists are read alike if their entries are, and if no text can be read. -/
theorem mapM_eq {α : Type} {f : Json → Except Cause α} (h : Listed R xs ys) (fault : Cause)
    (hf : ∀ x y, R false x y → f y = f x) (htext : ∀ s, f (.string s) = .error fault) :
    ys.mapM f = xs.mapM f := by
  cases h with
  | items h =>
    induction h with
    | nil => rfl
    | cons hxy _ ih => rw [List.mapM_cons, List.mapM_cons, hf _ _ hxy, ih]
  | texts hxs hys hempty =>
    -- The first text ends the reading.
    cases xs with
    | nil =>
      rw [List.isEmpty_nil, List.isEmpty_iff] at hempty
      rw [hempty]
    | cons x xs =>
      cases ys with
      | nil => cases hempty
      | cons y ys =>
        obtain ⟨s, rfl⟩ := hxs x List.mem_cons_self
        obtain ⟨t, rfl⟩ := hys y List.mem_cons_self
        rw [List.mapM_cons, List.mapM_cons, htext, htext, error_bind, error_bind]

/-- What the entries make is the same, one after the other, if texts make nothing. -/
theorem flatten_mapM_eq {α : Type} {f : Json → Except Cause (List α)} (h : Listed R xs ys)
    (hf : ∀ x y, R false x y → f y = f x) (htext : ∀ s, f (.string s) = .ok []) :
    List.flatten <$> ys.mapM f = List.flatten <$> xs.mapM f := by
  cases h with
  | items h =>
    have hsame : ys.mapM f = xs.mapM f := by
      induction h with
      | nil => rfl
      | cons hxy _ ih => rw [List.mapM_cons, List.mapM_cons, hf _ _ hxy, ih]
    rw [hsame]
  | texts hxs hys _ =>
    have hnothing (zs : List Json) (hzs : ∀ z ∈ zs, ∃ s, z = .string s) :
        List.flatten <$> zs.mapM f = .ok [] := by
      induction zs with
      | nil => rfl
      | cons z zs ih =>
        obtain ⟨⟨s, rfl⟩, htexts⟩ := List.forall_mem_cons.1 hzs
        have hrest := ih htexts
        rw [List.mapM_cons, htext, ok_bind]
        cases hread : zs.mapM f with
        | error fault =>
          rw [hread] at hrest
          cases hrest
        | ok made =>
          rw [hread] at hrest
          exact congrArg Except.ok (Except.ok.inj hrest)
    rw [hnothing xs hxs, hnothing ys hys]

end Listed

/-! ## Lists read as a whole -/

/-- Related values are pairs alike if they have as many entries. -/
theorem Likeness.isBoxingPair_eq (hR : Likeness R) (h : R a j k)
    (hlength : k.entries?.map List.length = j.entries?.map List.length) :
    k.isBoxingPair = j.isBoxingPair := by
  cases hR h with
  | scalar s => rfl
  | array hitems =>
    match hitems with
    | .nil => rfl
    | .cons _ .nil => rfl
    | .cons hfirst (.cons _ .nil) => exact congrArg Except.ok (hR hfirst).isNumericLiteral_eq
    | .cons _ (.cons _ (.cons _ _)) => rfl
  | @object n m _ =>
    have hentries (n : Node) :
        (Json.object n).counted = .ok (n.map fun field => Json.string field.1) := rfl
    -- Of the fields of an object, only the number matters here.
    have hfields : (m.map fun field => Json.string field.1).length =
        (n.map fun field => Json.string field.1).length := Option.some.inj hlength
    rw [Json.isBoxingPair, hentries, Json.isBoxingPair, hentries]
    generalize m.map (fun field => Json.string field.1) = ys,
      n.map (fun field => Json.string field.1) = xs at hfields
    rcases xs with _ | ⟨first, _ | ⟨second, _ | ⟨third, rest⟩⟩⟩ <;>
      rcases ys with _ | ⟨first', _ | ⟨second', _ | ⟨third', rest'⟩⟩⟩ <;>
      first
      | rfl
      | simp at hfields

end LexicalScopes
