import LexicalScopes.Cli.Command
import LexicalScopes.Proofs.Chains
import LexicalScopes.Proofs.Cursor.Enclosing
import LexicalScopes.Proofs.Delivery.Texts

/-!
# What is shown of a scope tree

Which object shows a scope tree, and which line a single scope, is said field by field and word by
word, so that whoever reads the result can rely on it. Every part of the tree has its place in the
object: the types and kinds by their words, names and places as they are, and the wrappers of a read
as a chain.
-/

namespace LexicalScopes

/-! ## Words -/

/-- The words for the types of scopes. -/
def ScopeType.words : List (ScopeType × String) :=
  [(.function, "function"), (.block, "block"), (.object, "object"), (.moduleLayer, "module")]

/-- The words for the kinds of bindings. -/
def BindingKind.words : List (BindingKind × String) :=
  [(.implicit, "implicit"), (.var, "var"), (.lexical, "let"), (.constant, "const"),
    (.imported, "import")]

/-- The key for a name: a string itself, any other scalar its text. -/
inductive Scalar.IsKeyed : Scalar → String → Prop
  | string {s : String} : IsKeyed (.string s) s
  | other {s : Scalar} {key : String} (hs : ∀ t, s ≠ .string t) (h : s.Spelled key.toList []) :
      IsKeyed s key

theorem ScopeType.mem_words (type : ScopeType) : (type, type.text) ∈ words := by
  cases type <;> decide

theorem BindingKind.mem_words (kind : BindingKind) : (kind, kind.text) ∈ words := by
  cases kind <;> decide

theorem Scalar.isKeyed_keyText (s : Scalar) : s.IsKeyed s.keyText := by
  have hspelled := Json.spelled_literal s []
  rw [List.append_nil] at hspelled
  cases s with
  | string s => exact .string
  | null => exact .other nofun hspelled
  | bool b => exact .other nofun hspelled
  | int n => exact .other nofun hspelled
  | float x => exact .other nofun hspelled

/-! ## Objects -/

/-- The object has exactly these fields, in this order. -/
def Node.HasKeys (n : Node) (keys : List String) : Prop := n.map (·.1) = keys

/-- The value shows the place. -/
def Location.ShownBy (l : Location) (j : Json) : Prop :=
  j = .object [("line", l.line), ("column", l.column)]

/-- The object shows where the range starts and where it ends. -/
structure Range.ShownBy (r : Range) (n : Node) : Prop where
  start : r.start.ShownBy (n.get "start")
  stop : r.stop.ShownBy (n.get "end")

/-- The object shows the form and the range of the wrapper. -/
structure Wrapping.ShownBy (w : Wrapping) (n : Node) : Prop where
  form : w.form.WrittenAs n
  range : w.range.ShownBy n

/-- The object shows the read with the chain of its wrappers. -/
structure Reference.ShownBy (r : Reference) (n : Node) : Prop where
  keys : n.HasKeys ["start", "end", "meta"]
  range : r.range.ShownBy n
  wrappers : ∃ chain, (n.get "meta").Chained chain ∧
    List.Forall₂ Wrapping.ShownBy r.wrappers chain

/-- The object shows the declaration. -/
structure Range.Declared (r : Range) (n : Node) : Prop where
  keys : n.HasKeys ["start", "end"]
  range : r.ShownBy n

/-- The object shows the binding with its declarations and its reads. -/
structure Binding.ShownBy (b : Binding) (n : Node) : Prop where
  keys : n.HasKeys ["type", "declarations", "refs"]
  kind : ∃ word, (b.kind, word) ∈ BindingKind.words ∧ n.get "type" = .string word
  declarations : ∃ shown : List Node, n.get "declarations" = .array (shown.map .object) ∧
    List.Forall₂ Range.Declared b.declarations shown
  refs : ∃ shown : List Node, n.get "refs" = .array (shown.map .object) ∧
    List.Forall₂ Reference.ShownBy b.refs shown

/-- The object shows the scope, its bindings by name, and the scopes inside it. -/
inductive Scope.ShownBy : Scope → Node → Prop
  | intro {s : Scope} {n : Node} {word : String} {bindings : List (String × Node)}
      {children : List Node}
      (keys : n.HasKeys ["type", "displayName", "start", "end", "bindings", "children"])
      (type : (s.type, word) ∈ ScopeType.words) (shown : n.get "type" = .string word)
      (name : n.get "displayName" = s.name) (range : s.range.ShownBy n)
      (listed : n.get "bindings" = .object (bindings.map fun (key, b) => (key, .object b)))
      (bound : List.Forall₂ (fun x y => x.1.IsKeyed y.1 ∧ x.2.ShownBy y.2) s.bindings bindings)
      (nested : n.get "children" = .array (children.map .object))
      (inner : List.Forall₂ ShownBy s.children children) : ShownBy s n

/-! ## What is written -/

theorem Range.shownBy_fields (r : Range) (more : Node) : r.ShownBy (r.fields ++ more) := ⟨rfl, rfl⟩

theorem Wrapping.exists_chained_shown (ws : List Wrapping) :
    ∃ chain, (chainToJson ws).Chained chain ∧ List.Forall₂ ShownBy ws chain := by
  induction ws with
  | nil => exact ⟨[], .nil, .nil⟩
  | cons w ws ih =>
    obtain ⟨chain, hchained, hshown⟩ := ih
    rw [chainToJson_cons]
    refine ⟨_, .cons ?_, .cons ⟨form_writtenAs w _, rfl, rfl⟩ hshown⟩
    rwa [get_parent_payload]

/-- What is written for each item shows it. -/
theorem exists_shown {α : Type} {P : α → Node → Prop} (write : α → Json) (items : List α)
    (h : ∀ a ∈ items, ∃ n, write a = .object n ∧ P a n) :
    ∃ shown : List Node, items.map write = shown.map .object ∧ List.Forall₂ P items shown := by
  induction items with
  | nil => exact ⟨[], rfl, .nil⟩
  | cons a items ih =>
    rw [List.forall_mem_cons] at h
    obtain ⟨⟨n, hn, hP⟩, hrest⟩ := h
    obtain ⟨shown, hshown, hall⟩ := ih hrest
    exact ⟨n :: shown, by rw [List.map_cons, hn, hshown, List.map_cons], .cons hP hall⟩

theorem Reference.exists_shownBy (r : Reference) : ∃ n, r.toJson = .object n ∧ r.ShownBy n :=
  ⟨_, rfl, rfl, r.range.shownBy_fields _, Wrapping.exists_chained_shown r.wrappers⟩

theorem Binding.exists_shownBy (b : Binding) : ∃ n, b.toJson = .object n ∧ b.ShownBy n := by
  obtain ⟨declared, hdeclared, hranges⟩ :=
    exists_shown (P := Range.Declared) (fun r => .object r.fields) b.declarations
      fun r _ => ⟨_, rfl, rfl, r.shownBy_fields []⟩
  obtain ⟨read, hread, hrefs⟩ :=
    exists_shown Reference.toJson b.refs fun r _ => r.exists_shownBy
  exact ⟨_, rfl, rfl, ⟨_, b.kind.mem_words, rfl⟩,
    ⟨declared, congrArg Json.array hdeclared, hranges⟩,
    ⟨read, congrArg Json.array hread, hrefs⟩⟩

namespace Scope

theorem allToJson_eq_map (scopes : List Scope) : allToJson scopes = scopes.map toJson := by
  induction scopes with
  | nil => rfl
  | cons s scopes ih => rw [allToJson, ih, List.map_cons]

/-- What is written for the bindings of a scope shows each of them under its name. -/
theorem exists_bindings_shown (bindings : List (Scalar × Binding)) :
    ∃ shown : List (String × Node),
      bindings.map (fun (name, b) => (name.keyText, b.toJson)) =
        shown.map (fun (key, b) => (key, Json.object b)) ∧
      List.Forall₂ (fun x y => x.1.IsKeyed y.1 ∧ x.2.ShownBy y.2) bindings shown := by
  induction bindings with
  | nil => exact ⟨[], rfl, .nil⟩
  | cons x bindings ih =>
    obtain ⟨name, b⟩ := x
    obtain ⟨shown, hshown, hall⟩ := ih
    obtain ⟨n, hn, hshows⟩ := b.exists_shownBy
    refine ⟨(name.keyText, n) :: shown, ?_, .cons ⟨name.isKeyed_keyText, hshows⟩ hall⟩
    rw [List.map_cons, hshown, List.map_cons]
    dsimp only
    rw [hn]

/-- By induction on the tree: what is written for a scope shows it and the scopes inside it. -/
theorem exists_shownBy (s : Scope) : ∃ n, s.toJson = .object n ∧ s.ShownBy n := by
  induction s using induction_on_children with
  | h s ih =>
    obtain ⟨bindings, hbindings, hbound⟩ := exists_bindings_shown s.bindings
    obtain ⟨children, hchildren, hinner⟩ := exists_shown toJson s.children ih
    obtain ⟨type, name, range, _, _⟩ := s
    rw [toJson, allToJson_eq_map]
    refine ⟨_, rfl, @ShownBy.intro _ _ type.text bindings children rfl type.mem_words rfl rfl
      ⟨rfl, rfl⟩ ?_ hbound ?_ hinner⟩
    · exact congrArg Json.object hbindings
    · exact congrArg Json.array hchildren

/-! ## Scopes around a location -/

variable {s : Scope} {l : Location} {scopes found : List Scope}

/-- The scopes around a location from the innermost one outwards to the scope itself: inside a scope
they are those of the first child that contains the location. -/
inductive Surrounds (l : Location) : Scope → List Scope → Prop
  | innermost {s : Scope} (hnone : ∀ c ∈ s.children, c.range.contains l = .ok false) :
      Surrounds l s [s]
  | inside {s c : Scope} {before after found : List Scope}
      (hchildren : s.children = before ++ c :: after)
      (hbefore : ∀ t ∈ before, t.range.contains l = .ok false)
      (hc : c.range.contains l = .ok true) (h : Surrounds l c found) : Surrounds l s (found ++ [s])

theorem enclosingIn_eq_ok : enclosingIn l scopes = .ok found ↔
    (∀ s ∈ scopes, s.range.contains l = .ok false) ∧ found = [] ∨
      ∃ before c after, scopes = before ++ c :: after ∧
        (∀ s ∈ before, s.range.contains l = .ok false) ∧ c.range.contains l = .ok true ∧
        c.enclosing l = .ok found := by
  induction scopes with
  | nil => simp [enclosingIn, eq_comm]
  | cons s scopes ih =>
    rw [enclosingIn, bind_eq_ok]
    constructor
    · rintro ⟨b, hb, h⟩
      cases b with
      | true => exact .inr ⟨[], s, scopes, rfl, by simp, hb, h⟩
      | false =>
        rcases ih.1 h with ⟨hnone, hfound⟩ | ⟨before, c, after, rfl, hbefore, hc, hfound⟩
        · exact .inl ⟨by simpa [hb] using hnone, hfound⟩
        · exact .inr ⟨s :: before, c, after, rfl, by simpa [hb] using hbefore, hc, hfound⟩
    · rintro (⟨hnone, hfound⟩ | ⟨before, c, after, hscopes, hbefore, hc, hfound⟩)
      · rw [List.forall_mem_cons] at hnone
        exact ⟨false, hnone.1, ih.2 (.inl ⟨hnone.2, hfound⟩)⟩
      · cases before with
        | nil =>
          cases hscopes
          exact ⟨true, hc, hfound⟩
        | cons t before =>
          cases hscopes
          rw [List.forall_mem_cons] at hbefore
          exact ⟨false, hbefore.1, ih.2 (.inr ⟨before, c, after, rfl, hbefore.2, hc, hfound⟩)⟩

/-- The search answers with the scopes around the location, whenever there are such. -/
theorem enclosing_eq_ok_iff : s.enclosing l = .ok found ↔ s.Surrounds l found := by
  constructor
  · intro h
    induction s using induction_on_children generalizing found with
    | h s ih =>
      rw [enclosing_eq] at h
      obtain ⟨inner, hinner, h⟩ := bind_eq_ok.1 h
      cases h
      rcases enclosingIn_eq_ok.1 hinner with
        ⟨hnone, rfl⟩ | ⟨before, c, after, hchildren, hbefore, hc, hfound⟩
      · exact .innermost hnone
      · exact .inside hchildren hbefore hc (ih c (by simp [hchildren]) hfound)
  · intro h
    induction h with
    | innermost hnone => rw [enclosing_eq, enclosingIn_eq_ok.2 (.inl ⟨hnone, rfl⟩)]; rfl
    | inside hchildren hbefore hc _ ih =>
      rw [enclosing_eq, enclosingIn_eq_ok.2 (.inr ⟨_, _, _, hchildren, hbefore, hc, ih⟩)]
      rfl

/-- In a tree whose scopes lie inside one another, and in which no two siblings contain the
location, the scopes around the location are the root and all scopes below it that contain the
location. -/
theorem Surrounds.mem_iff (h : s.Surrounds l found) (hnested : s.Nested) (hapart : s.Apart l)
    (hl : l.numbers?.isSome = true) {t : Scope} :
    t ∈ found ↔ t ∈ s.walk.tail ∧ t.range.contains l = .ok true ∨ t = s := by
  have hfound := enclosing_eq_ok_iff.2 h
  rw [hnested.enclosing_eq hl hapart, Except.ok.injEq] at hfound
  rw [← hfound, List.mem_append, List.mem_reverse, containing, List.mem_filter, List.mem_singleton,
    decide_eq_true_eq]

/-! ## Lines about scopes -/

/-- The line names a bound name and its kind. -/
def Names (x : Scalar × Binding) (entry : String) : Prop :=
  ∃ kind, (x.2.kind, kind) ∈ BindingKind.words ∧ entry = x.1.text ++ " (" ++ kind ++ ")"

/-- The line tells the type of the scope, its name, and what it binds. -/
def ListedBy (s : Scope) (line : String) : Prop :=
  ∃ word entries, (s.type, word) ∈ ScopeType.words ∧ List.Forall₂ Names s.bindings entries ∧
    line = word ++ " " ++ s.name.text ++ ": " ++ ", ".intercalate entries

theorem listedBy_scopeLine (s : Scope) : s.ListedBy (Cli.scopeLine s) := by
  refine ⟨s.type.text, _, s.type.mem_words, ?_, rfl⟩
  rw [List.forall₂_map_right_iff, List.forall₂_same]
  exact fun x _ => ⟨_, x.2.kind.mem_words, rfl⟩

end Scope

end LexicalScopes
