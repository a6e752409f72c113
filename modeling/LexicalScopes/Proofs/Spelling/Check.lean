import LexicalScopes.Proofs.Spelling.Tree

/-!
# Checking spellings

Whether a tree respells another one can be computed. The check follows both trees down to a given
depth; below that depth it asks for equal values.
-/

namespace LexicalScopes

namespace Node

/-- Check that the type of a node is spelled in the same way or in the other one. -/
def spells? (n m : Node) : Bool :=
  m.type == n.type ||
    NodeType.spellings.any (fun p => n.type == .string p.1 && m.type == .string p.2) ||
    (n.type == .string "Literal" &&
      (((n.get "value").string?.isSome && m.type == .string "StringLiteral") ||
        ((n.get "value").isNumber && m.type == .string "NumericLiteral")))

/-- Check that a node is `n` with its type perhaps spelled the other way. -/
def retags? (n m : Node) : Bool :=
  n.spells? m && m.map Prod.fst == n.map Prod.fst &&
    (match m.childFields, n.childFields with
      | .ok keys, .ok keys' => keys == keys'
      | _, _ => false) &&
    (n.map Prod.fst).all (fun key => key == "type" || n.holdsNodes key || m.get key == n.get key) &&
    (!n.isAny NodeType.members ||
      (m.get "property").field? "name" == (n.get "property").field? "name")

/-- Check that `m` is a method together with its function. -/
def merges? (types : String × String) (method f m : Node) : Bool :=
  NodeType.methods.contains types && method.type == .string types.1 && m.type == .string types.2 &&
    !(method.get "computed").isPresent && !(m.get "computed").isPresent &&
    (method.get "key").node?.any isPlainKey && method.get "value" == .object f &&
    f.type == .string "FunctionExpression" && f.get "id" == .null && m.get "id" == .null &&
    m.get "loc" == f.get "loc" && (f.parts "params").all (·.isAny patterns) &&
    (f.get "body").isAny ["BlockStatement"]

/-- Check the fields of a retagged node one by one. -/
def respelled? (check : Option (String × String) → Json → Json → Bool) (n m : Node) : Bool :=
  n.retags? m && (n.map Prod.fst).all fun key =>
    !n.holdsNodes key || check (n.methodTypes? key) (n.get key) (m.get key)

/-- Check a method that may be merged with its function. -/
def mergedInto? (check : Option (String × String) → Json → Json → Bool)
    (methods : Option (String × String)) (method m : Node) : Bool :=
  methods.any fun types => (method.get "value").node?.any fun f =>
    method.merges? types f m && check none (method.get "key") (m.get "key") &&
      check none (f.get "params") (m.get "params") && check none (f.get "body") (m.get "body")

end Node

/-- Check that a value respells another one, at most `fuel` steps down. -/
def Json.respells? : Nat → Option (String × String) → Json → Json → Bool
  | 0, _, j, k => j == k
  | fuel + 1, methods, j, k =>
    j == k || match j, k with
      | .array xs, .array ys =>
        ys.length == xs.length && (xs.zip ys).all fun (x, y) => respells? fuel methods x y
      | .object n, .object m =>
        Node.respelled? (respells? fuel) n m || Node.mergedInto? (respells? fuel) methods n m
      | _, _ => false

variable {n m f method : Node} {j k : Json}

namespace Node

theorem spells_of_check (h : n.spells? m = true) : n.Spells m := by
  simp only [spells?, Bool.or_eq_true, Bool.and_eq_true, beq_iff_eq, List.any_eq_true] at h
  rcases h with (htype | ⟨p, hp, hplain, hother⟩) | ⟨hplain, ⟨hvalue, hother⟩ | ⟨hvalue, hother⟩⟩
  · exact .same htype
  · exact .other hp hplain hother
  · exact .text hplain hvalue hother
  · exact .number hplain hvalue hother

theorem get_of_not_mem {key : String} (h : key ∉ n.map Prod.fst) : n.get key = .null := by
  have hhas : n.has key = false := by
    rw [has_eq_contains]
    simpa using h
  rw [has, Option.isSome_eq_false_iff, Option.isNone_iff_eq_none] at hhas
  rw [get, hhas]
  rfl

/-- What holds of the fields of a node and of missing fields holds of all fields. -/
theorem forall_get {P : String → Json → Json → Prop} (hkeys : m.map Prod.fst = n.map Prod.fst)
    (hnull : ∀ key, P key .null .null)
    (h : ∀ key ∈ n.map Prod.fst, P key (n.get key) (m.get key)) (key : String) :
    P key (n.get key) (m.get key) := by
  by_cases hkey : key ∈ n.map Prod.fst
  · exact h key hkey
  · rw [get_of_not_mem hkey, get_of_not_mem (hkeys ▸ hkey)]
    exact hnull key

theorem retags_of_check (h : n.retags? m = true) : n.Retags m := by
  simp only [retags?, Bool.and_eq_true, beq_iff_eq] at h
  obtain ⟨⟨⟨⟨htype, hkeys⟩, hchildren⟩, hsame⟩, hproperty⟩ := h
  refine ⟨spells_of_check htype, hkeys, ?_, ?_, ?_⟩
  · split at hchildren
    · rename_i hm hn
      rw [hm, hn, beq_iff_eq.1 hchildren]
    · cases hchildren
  · refine forall_get (P := fun key j k => key ≠ "type" → n.holdsNodes key = false → k = j) hkeys
      (fun _ _ _ => rfl) fun key hkey hne hholds => ?_
    have hsame := List.all_eq_true.1 hsame key hkey
    simpa [hne, hholds] using hsame
  · intro hmember
    simpa [hmember] using hproperty

theorem merges_of_check {types : String × String} (h : method.merges? types f m = true) :
    Merges types method f m := by
  simp only [merges?, Bool.and_eq_true, beq_iff_eq, Bool.not_eq_true', Option.any_eq_true,
    List.contains_iff_mem] at h
  obtain ⟨⟨⟨⟨⟨⟨⟨⟨⟨⟨⟨⟨hknown, hmethod⟩, hmerged⟩, hplain⟩, hmergedPlain⟩, key, hkey, hplainKey⟩,
    hvalue⟩, hfunction⟩, hunnamed⟩, hmergedUnnamed⟩, hloc⟩, hparams⟩, hbody⟩ := h
  exact ⟨hknown, hmethod, hmerged, hplain, hmergedPlain, ⟨key, Json.node?_eq_some_iff.1 hkey,
    hplainKey⟩, hvalue, hfunction, hunnamed, hmergedUnnamed, hloc, hparams, hbody⟩

section Fields

variable {check : Option (String × String) → Json → Json → Bool}
  {methods : Option (String × String)}
  (hcheck : ∀ methods j k, check methods j k = true → Json.Respells methods j k)
include hcheck

theorem respelled_of_check (h : n.respelled? check m = true) : n.Respelled m := by
  rw [respelled?, Bool.and_eq_true, List.all_eq_true] at h
  have htag := retags_of_check h.1
  refine ⟨htag, forall_get (P := fun key j k => n.holdsNodes key = true →
    Json.Respells (n.methodTypes? key) j k) htag.keys (fun _ _ => .same _)
    fun key hkey hholds => ?_⟩
  have hfield := h.2 key hkey
  rw [hholds] at hfield
  exact hcheck _ _ _ hfield

theorem respells_of_mergedInto? (h : method.mergedInto? check methods m = true) :
    Json.Respells methods (.object method) (.object m) := by
  simp only [mergedInto?, Option.any_eq_true, Bool.and_eq_true] at h
  obtain ⟨types, rfl, f, -, ⟨⟨hmerges, hkey⟩, hparams⟩, hbody⟩ := h
  exact .method (merges_of_check hmerges) (hcheck _ _ _ hkey) (hcheck _ _ _ hparams)
    (hcheck _ _ _ hbody)

end Fields

end Node

/-- What passes the check is respelled. -/
theorem Json.respells_of_check (fuel : Nat) (methods : Option (String × String)) (j k : Json)
    (h : respells? fuel methods j k = true) : Respells methods j k := by
  -- Induction on the depth of the check.
  induction fuel generalizing methods j k with
  | zero =>
    rw [respells?, beq_iff_eq] at h
    exact h ▸ .same j
  | succ fuel ih =>
    unfold respells? at h
    rw [Bool.or_eq_true, beq_iff_eq] at h
    rcases h with rfl | h
    · exact .same j
    · split at h
      · simp only [Bool.and_eq_true, beq_iff_eq, List.all_eq_true] at h
        refine .list h.1 fun i x y hx hy => ih _ _ _ (h.2 (x, y) ?_)
        exact List.mem_of_getElem? (i := i) (by rw [List.getElem?_zip_eq_some]; exact ⟨hx, hy⟩)
      · rw [Bool.or_eq_true] at h
        rcases h with h | h
        · have hn := Node.respelled_of_check ih h
          exact .node hn.tag hn.fields
        · exact Node.respells_of_mergedInto? ih h
      · cases h

end LexicalScopes
