import LexicalScopes.Proofs.Encapsulation.Bodies
import LexicalScopes.Proofs.Likeness.Paths
import LexicalScopes.Proofs.Samples

/-!
# Unknown wrappers are transparent

A statement of a program may be wrapped in nodes of an unknown type, one around the other, and the
analysis does not notice: such a node does nothing itself and is searched for what it holds, and
nothing depends on whether a statement stands in the program or in such a node.
-/

namespace LexicalScopes

/-- The types that are known by name. -/
def NodeType.known : List String :=
  childFields.map (·.1) ++ Reading.table.map (·.1) ++ Role.table.map (·.1)

/-- A node that has a type and holds one value. -/
def Node.wrapping (type key : String) (value : Json) : Node :=
  [("type", .string type), (key, value)]

/-- The value in a node that holds nothing else. -/
def Json.wrapped (type key : String) (value : Json) : Json :=
  .object (Node.wrapping type key value)

variable {n m x : Node} {p q : Path} {type key : String} {value : Json}
  {items before after : List Json} {start : Nat}

/-! ## Wrappers -/

/-- The type is unknown, and the field can hold children. -/
structure NodeType.Wraps (type key : String) : Prop where
  unknown : type ∉ known
  searched : key ∉ bookkeeping
  source : key ≠ "source"

namespace NodeType.Wraps

theorem type_wrapping : (Node.wrapping type key value).type = .string type := rfl

theorem get_key (h : Wraps type key) : (Node.wrapping type key value).get key = value := by
  have hne : (key == "type") = false :=
    beq_eq_false_iff_ne.2 fun heq => h.searched (heq ▸ by decide)
  simp [Node.get, Node.wrapping, List.lookup_cons, hne]

theorem lookup_eq_none {α : Type} {table : List (String × α)} (h : Wraps type key)
    (htable : ∀ t ∈ table.map (·.1), t ∈ known) : table.lookup type = none := by
  rw [List.lookup_eq_none_iff]
  intro entry hentry
  rw [bne_iff_ne]
  rintro rfl
  exact h.unknown (htable _ (List.mem_map_of_mem hentry))

theorem isInert (h : Wraps type key) : (Node.wrapping type key value).IsInert where
  type := by
    have hsignificant : ∀ t ∈ significant, t ∈ known := by decide
    exact ⟨type, rfl, fun hmem => h.unknown (hsignificant type hmem)⟩
  source := by
    have hne : ("source" == key) = false := beq_eq_false_iff_ne.2 h.source.symm
    have hnull : (Node.wrapping type key value).get "source" = .null := by
      simp [Node.get, Node.wrapping, List.lookup_cons, hne]
    rw [hnull]
    rfl

theorem childFields_wrapping (h : Wraps type key) :
    (Node.wrapping type key value).childFields =
      .ok (if value.holdsChildren then [key] else []) := by
  have hlookup : NodeType.childFields.lookup type = none := h.lookup_eq_none (by decide)
  have htype : NodeType.bookkeeping.contains "type" = true := by decide
  have hsearched : NodeType.bookkeeping.contains key = false := by
    rw [← Bool.not_eq_true, List.contains_iff_mem]
    exact h.searched
  rw [Node.childFields, type_wrapping]
  simp only [hlookup, Option.getD_none, Node.searchedFields, Node.wrapping, List.filter_cons,
    List.filter_nil, htype, hsearched, Bool.not_true, Bool.not_false, Bool.false_and, Bool.true_and,
    Bool.false_eq_true, if_false]
  split <;> rfl

/-- A wrapper in the body of a program does nothing itself. -/
theorem hooks_eq_nil (h : Wraps type key) (index : Option Nat) (value : Json) :
    (Path.child p "body" index (.wrapping type key value)).enterActions = [] ∧
      (Path.child p "body" index (.wrapping type key value)).exitActions = [] := by
  have hrole : (Node.wrapping type key value).role? = none := by
    rw [Node.role?, type_wrapping]
    exact h.lookup_eq_none (by decide)
  refine Path.hooks_eq_nil ?_ ?_
  · rw [Path.isProgram, Path.node_child, Node.isAny, type_wrapping]
    have hprogram : "Program" ∈ known := by decide
    have hne : type ≠ "Program" := fun heq => h.unknown (heq ▸ hprogram)
    simpa using hne
  · rw [Path.ownActions, Path.roleActions, Path.node_child, hrole]
    rfl

end NodeType.Wraps

/-! ## Statements -/

/-- Equal nodes below inert ones have the same script. -/
theorem Path.script_eq_of_inert (hp : p.node.IsInert) (hq : q.node.IsInert) (key key' : String)
    (index index' : Option Nat) :
    (child q key' index' x).script = (child p key index x).script := by
  have hakin : Akin (fun _ j k => k = j) (child p key index x) (child q key' index' x) :=
    .inert hp hq rfl key key' index index'
  exact hakin.script_eq Likeness.eq Likeness.deep_eq

namespace NodeType.Wraps

/-- A wrapper has the script of the node that it holds. -/
theorem script_eq (h : Wraps type key) (hp : p.node.IsInert) (htyped : x.has "type" = true)
    (index index' : Option Nat) :
    (Path.child q "body" index (.wrapping type key (.object x))).script =
      (Path.child p "body" index' x).script := by
  obtain ⟨henter, hexit⟩ := h.hooks_eq_nil (p := q) index (.object x)
  have hchild := Path.child?_of_has htyped
  have hfields : (Path.child q "body" index (.wrapping type key (.object x))).node.childFields =
      .ok [key] := by
    rw [Path.node_child, h.childFields_wrapping, Json.holdsChildren_object, hchild]
    rfl
  have hinField := Path.inField_of_object
    (p := .child q "body" index (.wrapping type key (.object x))) h.get_key htyped
  rw [Path.script_eq, henter, hexit, Path.scripts_children hfields]
  simp only [List.flatMap_cons, List.flatMap_nil, List.append_nil, List.nil_append, hinField]
  exact Path.script_eq_of_inert (q := .child q "body" index (.wrapping type key (.object x)))
    hp h.isInert "body" key index' none

/-- A wrapper around what is no node has no script. -/
theorem script_eq_nil (h : Wraps type key) (htyped : x.has "type" = false) (index : Option Nat) :
    (Path.child q "body" index (.wrapping type key (.object x))).script = [] := by
  obtain ⟨henter, hexit⟩ := h.hooks_eq_nil (p := q) index (.object x)
  have hfields : (Path.child q "body" index (.wrapping type key (.object x))).node.childFields =
      .ok [] := by
    rw [Path.node_child, h.childFields_wrapping, Json.holdsChildren_object,
      Json.child?_of_not_has htyped]
    rfl
  rw [Path.script_eq, henter, hexit, Path.scripts_children hfields]
  rfl

end NodeType.Wraps

/-! ## Bodies of programs -/

namespace Path

/-- The actions of the nodes in a list. -/
def listedScript (p : Path) (start : Nat) (items : List Json) : List Action :=
  (p.listed "body" start items).flatMap script

theorem listedScript_cons (p : Path) (start : Nat) (item : Json) (items : List Json) :
    p.listedScript start (item :: items) =
      (item.child?.elim [] fun n => (child p "body" (some start) n).script) ++
        p.listedScript (start + 1) items := by
  unfold listedScript
  rw [listed]
  cases item.child? with
  | none => rfl
  | some n => rfl

/-- Below inert nodes equal lists have the same script. -/
theorem listedScript_eq (hp : p.node.IsInert) (hq : q.node.IsInert) :
    q.listedScript start items = p.listedScript start items := by
  induction items generalizing start with
  | nil => rfl
  | cons item items ih =>
    rw [listedScript_cons, listedScript_cons, ih]
    cases item.child? with
    | none => rfl
    | some n => rw [Option.elim_some, Option.elim_some, script_eq_of_inert hp hq]

/-- One of the entries may be wrapped. -/
theorem listedScript_wrapped (h : NodeType.Wraps type key) (hp : p.node.IsInert)
    (hq : q.node.IsInert) :
    q.listedScript start (before ++ .wrapped type key (.object x) :: after) =
      p.listedScript start (before ++ .object x :: after) := by
  induction before generalizing start with
  | nil =>
    have hwrapper : (Json.wrapped type key (.object x)).child? =
        some (.wrapping type key (.object x)) := child?_of_has rfl
    rw [List.nil_append, List.nil_append, listedScript_cons, listedScript_cons,
      listedScript_eq hp hq, hwrapper, Option.elim_some]
    cases htyped : x.has "type" with
    | true => rw [child?_of_has htyped, Option.elim_some, h.script_eq hp htyped]
    | false => rw [Json.child?_of_not_has htyped, h.script_eq_nil htyped, Option.elim_none]
  | cons item before ih =>
    rw [List.cons_append, List.cons_append, listedScript_cons, listedScript_cons, ih]
    cases item.child? with
    | none => rfl
    | some n => rw [Option.elim_some, Option.elim_some, script_eq_of_inert hp hq]

end Path

/-- The root is a program without a source. -/
structure Node.IsPlainProgram (n : Node) : Prop where
  program : n.isAny ["Program"] = true
  source : n.has "source" = false

namespace Node.IsPlainProgram

theorem isInert (h : n.IsPlainProgram) : n.IsInert where
  type := by
    obtain ⟨t, ht, htype⟩ := isAny_iff.1 h.program
    rw [List.mem_singleton.1 ht] at htype
    exact ⟨"Program", htype, by decide⟩
  source := by
    rw [get_eq_null_of_has_eq_false h.source]
    rfl

/-- With another body it is such a program, too. -/
theorem replace (h : n.IsPlainProgram) : (n.replace "body" value).IsPlainProgram where
  program := by
    rw [isAny, type, get_replace_of_ne (by decide)]
    exact h.program
  source := by rw [has_replace, h.source]

theorem script_eq (h : n.IsPlainProgram) (hbody : n.get "body" = .array items) :
    (Path.root n).script = Action.attempt n.programActions ++
      (Path.root n).listedScript 0 items ++ [.returnToRoot] := by
  have hfields : (Path.root n).node.childFields = .ok ["body"] :=
    childFields_of_isAny (by decide) h.program
  have hprogram : (Path.root n).isProgram = true := h.program
  rw [Path.script_eq, Path.scripts_children hfields, List.flatMap_cons, List.flatMap_nil,
    List.append_nil, Path.inField, Path.node_root, hbody, Path.enterActions, Path.exitActions,
    hprogram]
  rfl

end Node.IsPlainProgram

/-! ## Wrapped statements -/

/-- Wrapping any object in the body of a program in nodes of an unknown type, any number of times,
changes neither the scope tree nor the cause for which there is none, and so neither the class nor
the text of the error. -/
theorem analyze_wrapped (hprogram : n.isAny ["Program"] = true) (hsource : n.has "source" = false)
    (hbody : n.get "body" = .array (before ++ .object x :: after)) (htype : type ∉ NodeType.known)
    (hkey : key ∉ NodeType.bookkeeping) (hkey' : key ≠ "source") (times : Nat)
    (generated : Bool) :
    analyze (.object (n.replace "body" (.array
        (before ++ (Json.wrapped type key)^[times] (.object x) :: after)))) generated =
      analyze (.object n) generated := by
  have hwraps : NodeType.Wraps type key := ⟨htype, hkey, hkey'⟩
  have hplain : n.IsPlainProgram := ⟨hprogram, hsource⟩
  have hhas : n.has "body" = true := by
    by_contra hnot
    rw [Node.get_eq_null_of_has_eq_false (Bool.eq_false_iff.2 hnot)] at hbody
    cases hbody
  -- The wrapped statement is an object again, whatever the number of wrappers.
  have hobject (k : Nat) : ∃ y, (Json.wrapped type key)^[k] (.object x) = .object y := by
    cases k with
    | zero => exact ⟨x, rfl⟩
    | succ k => exact ⟨_, Function.iterate_succ_apply' ..⟩
  have hlisted (k : Nat) (m : Node) (hm : m.IsPlainProgram) :
      (Path.root m).listedScript 0 (before ++ (Json.wrapped type key)^[k] (.object x) :: after) =
        (Path.root n).listedScript 0 (before ++ .object x :: after) := by
    induction k with
    | zero => exact Path.listedScript_eq hplain.isInert hm.isInert
    | succ k ih =>
      obtain ⟨y, hy⟩ := hobject k
      rw [hy] at ih
      rw [Function.iterate_succ_apply', hy, Path.listedScript_wrapped (p := .root m)
        (q := .root m) hwraps hm.isInert hm.isInert, ih]
  have hsame (value : Json) : (n.replace "body" value).type = n.type ∧
      (n.replace "body" value).get "loc" = n.get "loc" :=
    ⟨Node.get_replace_of_ne (by decide), Node.get_replace_of_ne (by decide)⟩
  refine analyze_eq_of_script (hsame _).1 (hsame _).2 ?_ generated
  rw [hplain.replace.script_eq (Node.get_replace hhas), hplain.script_eq hbody,
    hlisted times _ hplain.replace, Node.programActions, Node.loc_congr (hsame _).1 (hsame _).2,
    Node.programActions]

namespace Sample

/-- A name is declared and read, and the declaration may be another value. -/
def declaring (first : Json) : Node :=
  node "Program" 0 7 [("body", .array [first, .object (reading "a" 6)])]

end Sample

open Sample in
/-- A declaration in three wrappers still declares. -/
theorem analyze_wrapped_declaration :
    "Wrapper" ∉ NodeType.known ∧ "inner" ∉ NodeType.bookkeeping ∧
      ∃ tree, analyze (.object (declaring (.object (declaration "let" "a" 0)))) false = .ok tree ∧
        analyze (.object (declaring
          ((Json.wrapped "Wrapper" "inner")^[3] (.object (declaration "let" "a" 0))))) false =
            .ok tree := by
  have htype : "Wrapper" ∉ NodeType.known := by decide +kernel
  have hkey : "inner" ∉ NodeType.bookkeeping := by decide +kernel
  obtain ⟨tree, htree⟩ :=
    exists_eq_ok (e := analyze (.object (declaring (.object (declaration "let" "a" 0)))) false)
      (by decide +kernel)
  have hbody : (declaring (.object (declaration "let" "a" 0))).get "body" =
      .array ([] ++ .object (declaration "let" "a" 0) :: [.object (reading "a" 6)]) := rfl
  have hwrapped := analyze_wrapped (by decide) (by decide) hbody htype hkey (by decide) 3 false
  exact ⟨htype, hkey, tree, htree, hwrapped.trans htree⟩

end LexicalScopes
