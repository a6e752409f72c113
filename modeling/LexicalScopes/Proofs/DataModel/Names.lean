import LexicalScopes.Proofs.Missing.Holes
import LexicalScopes.Proofs.Ranges.Parts

/-!
# Names of the grammar

In a tree of the grammar identifiers have strings for names. Every name that a node declares is the
name of an identifier inside the node, and the name of a function is that of an identifier, the text
of a key or a word for functions without a name. So all of them are strings.
-/

namespace LexicalScopes

/-! ## Well-named nodes -/

namespace Node

/-- For some types of nodes, a field that holds a string. -/
def textFields : List (String × String) :=
  [("Identifier", "name"), ("PrivateIdentifier", "name"), ("StringLiteral", "value")]

/-- The node names things as the grammar has it. Identifiers and string literals hold strings. A
private name holds an identifier and has no name of its own. An access without brackets holds one of
the three kinds of names. -/
def isWellNamed (n : Node) : Bool :=
  (textFields.all fun (type, key) => !n.isAny [type] || (n.get key).string?.isSome)
    && (!n.isAny ["PrivateName"] || (n.get "id").isAny ["Identifier"] && !n.has "name")
    && (!n.isAny NodeType.members || (n.get "computed").isPresent
      || (n.get "property").isAny ["Identifier", "PrivateIdentifier", "PrivateName"])

end Node

/-- The objects of the value are well named. -/
def Json.WellNamed (j : Json) : Prop := ∀ n ∈ j.objects, n.isWellNamed = true

instance (j : Json) : Decidable j.WellNamed :=
  inferInstanceAs (Decidable (∀ n ∈ j.objects, n.isWellNamed = true))

variable {n m : Node} {j target name : Json} {p : Path} {bound : BoundName}
  {headings : List Heading} {type key : String}

theorem Json.exists_object_of_isAny {types : List String} (h : j.isAny types = true) :
    ∃ n : Node, j = .object n ∧ n.isAny types = true := by
  unfold isAny at h
  split at h
  · exact ⟨_, Json.node?_eq_some_iff.1 ‹_›, h⟩
  · cases h

namespace Json.WellNamed

theorem of_inside (h : j.WellNamed) (hm : ∀ m ∈ target.objects, m ∈ j.inside) :
    target.WellNamed :=
  fun m hmem => h m (mem_objects_iff.2 (.inr (hm m hmem)))

theorem get (h : (Json.object n).WellNamed) (key : String) : (n.get key).WellNamed :=
  h.of_inside fun _ => mem_inside_of_get

/-- A node of a type with a text has it. -/
theorem exists_text (h : (Json.object n).WellNamed) (hfield : (type, key) ∈ Node.textFields)
    (htype : n.isAny [type] = true) : ∃ text, n.get key = .string text := by
  have hnamed := h n mem_objects_self
  simp only [Node.isWellNamed, Bool.and_eq_true, List.all_eq_true] at hnamed
  have htext := hnamed.1.1 _ hfield
  rw [htype, Bool.not_true, Bool.false_or, Option.isSome_iff_exists] at htext
  obtain ⟨text, htext⟩ := htext
  refine ⟨text, ?_⟩
  unfold string? at htext
  split at htext
  · rename_i heq
    cases htext
    exact heq
  · cases htext

end Json.WellNamed

/-! ## Declared names -/

/-- The name is that of an identifier inside the target. -/
theorem TargetBinds.exists_identifier (h : TargetBinds bound target) :
    ∃ m ∈ target.objects, m.isAny ["Identifier"] = true ∧ m.boundName = .ok bound := by
  have hinside {n : Node} {part : Json}
      (hpart : ∀ m ∈ part.objects, m ∈ (Json.object n).inside)
      (ih : ∃ m ∈ part.objects, m.isAny ["Identifier"] = true ∧ m.boundName = .ok bound) :
      ∃ m ∈ (Json.object n).objects,
        m.isAny ["Identifier"] = true ∧ m.boundName = .ok bound := by
    obtain ⟨m, hm, hid⟩ := ih
    exact ⟨m, Json.mem_objects_iff.2 (.inr (hpart m hm)), hid⟩
  induction h with
  | identifier htype h => exact ⟨_, Json.mem_objects_self, htype, h⟩
  | property htype hentries hmem h ih =>
    refine hinside (fun m hm => ?_) ih
    have hslot := Json.mem_objects_iff.2 (.inr (Json.mem_inside_of_get hm))
    have hlist := Json.mem_inside_of_mem_entries? hentries hmem hslot
    exact Json.mem_inside_of_get (Json.mem_objects_iff.2 (.inr hlist))
  | element htype hentries hmem h ih =>
    refine hinside (fun m hm => ?_) ih
    have hlist := Json.mem_inside_of_mem_entries? hentries hmem hm
    exact Json.mem_inside_of_get (Json.mem_objects_iff.2 (.inr hlist))
  | default htype h ih => exact hinside (fun _ => Json.mem_inside_of_get) ih
  | rest htype h ih => exact hinside (fun _ => Json.mem_inside_of_get) ih

theorem Json.mem_objects_of_field (h : j.field key = .ok target) (hm : m ∈ target.objects) :
    m ∈ j.objects := by
  obtain ⟨n, hn, rfl⟩ := Option.map_eq_some_iff.1 (readable_eq_ok.1 h)
  rw [Json.node?_eq_some_iff.1 hn]
  exact mem_objects_iff.2 (.inr (mem_inside_of_get hm))

/-- The targets of a node stand inside the node. -/
theorem Node.Target.mem_inside (h : n.Target target) (hm : m ∈ target.objects) :
    m ∈ (Json.object n).inside := by
  have hentry {field : String} {entries : List Json} {entry : Json}
      (hentries : (n.get field).entries = .ok entries) (hmem : entry ∈ entries)
      (hm : m ∈ entry.objects) : m ∈ (Json.object n).inside := by
    have hlist := Json.mem_inside_of_mem_entries? (readable_eq_ok.1 hentries) hmem hm
    exact Json.mem_inside_of_get (Json.mem_objects_iff.2 (.inr hlist))
  cases h with
  | name hname h =>
    rw [← (isAny_of_identifier? h).1] at hm
    exact Json.mem_inside_of_get hm
  | parameter hrole h hmem => exact hentry h hmem hm
  | caught hrole => exact Json.mem_inside_of_get hm
  | declarator hrole h hmem htarget =>
    exact hentry h hmem (Json.mem_objects_of_field (field_of_declaratorTarget htarget) hm)
  | specifier hrole h hmem hname => exact hentry h hmem (Json.mem_objects_of_field hname hm)

/-- The names that a well-named node declares are strings. -/
theorem Node.Binds.exists_text (h : n.Binds bound) (hn : (Json.object n).WellNamed) :
    ∃ text, bound.name = .string text := by
  obtain ⟨target, htarget, hbound⟩ := h
  obtain ⟨m, hm, htype, hbound⟩ := (targetBinds_of_mem_boundNames hbound).exists_identifier
  have hnamed := hn.of_inside fun _ => htarget.mem_inside
  have hm : (Json.object m).WellNamed := fun o ho => hnamed o (Json.mem_objects_trans hm ho)
  obtain ⟨text, htext⟩ : ∃ text, m.get "name" = .string text := hm.exists_text (by decide) htype
  obtain ⟨loc, -, hbound⟩ := bind_eq_ok.1 hbound
  obtain ⟨name, hname, hbound⟩ := bind_eq_ok.1 hbound
  cases hbound
  rw [scalarName, htext] at hname
  cases hname
  exact ⟨text, rfl⟩

/-! ## Names of functions -/

/-- The node of the path and the nodes above it are well named. -/
def Path.WellNamed (p : Path) : Prop := ∀ q ∈ p :: p.above, (Json.object q.node).WellNamed

theorem Path.WellNamed.node (h : p.WellNamed) : (Json.object p.node).WellNamed :=
  h p List.mem_cons_self

theorem Path.WellNamed.parent {parent : Path} {index : Option Nat}
    (h : (Path.child parent key index n).WellNamed) : parent.WellNamed :=
  fun q hq => h q (List.mem_cons_of_mem _ hq)

namespace Json.WellNamed

theorem exists_text_of_field? (h : j.WellNamed) (htype : j.isAny ["Identifier"] = true)
    (hname : j.field? "name" = some name) : ∃ text, name = .string text := by
  obtain ⟨n, rfl, htype⟩ := Json.exists_object_of_isAny htype
  cases hname
  exact h.exists_text (by decide) htype

/-- The name of a key is a string, unless the key has none. -/
theorem exists_text_of_keyName (h : j.WellNamed) (hname : j.keyName.isNull = false) :
    ∃ text, j.keyName = .string text := by
  unfold keyName at hname ⊢
  split at hname
  · cases hname
  · rename_i n hn
    rw [Json.node?_eq_some_iff.1 hn] at h
    split at hname
    · rename_i htype
      rw [if_pos htype]
      exact h.exists_text (by decide) htype
    · rename_i htype
      rw [if_neg htype]
      split at hname
      · rw [if_pos ‹_›]
        split
        · split <;> exact ⟨_, rfl⟩
        · exact ⟨_, rfl⟩
      · cases hname

theorem exists_text_of_targetName? (h : j.WellNamed) (hname : j.targetName? = some name) :
    ∃ text, name = .string text := by
  unfold targetName? at hname
  split at hname
  · exact h.exists_text_of_field? ‹_› hname
  · cases hname

theorem exists_text_of_plainProperty? (h : j.WellNamed)
    (hname : j.plainProperty? = .ok (some name)) : ∃ text, name = .string text := by
  unfold plainProperty? at hname
  split at hname
  · cases hname
  · rename_i n hn
    rw [Json.node?_eq_some_iff.1 hn] at h
    obtain ⟨type, -, hname⟩ := bind_eq_ok.1 hname
    split at hname
    · rename_i hplain
      exact (h.get "property").exists_text_of_field? (Bool.and_eq_true_iff.1 hplain).2
        (pure_eq_ok.1 hname)
    · cases hname

end Json.WellNamed

/-- A parent gives the name of its key, of a target or of a property, or a word. -/
theorem nameFromParent_cases {function parent : Json} {field : Option String}
    (h : nameFromParent function parent field = .ok name) :
    ∃ holder : Node, parent = .object holder ∧
      ((holder.get "key").keyName = name ∧ name.isNull = false ∨
        (holder.get "left").targetName? = some name ∨
        (holder.get "left").plainProperty? = .ok (some name) ∨
        (holder.get "id").targetName? = some name ∨
        name = .string "default" ∨ name = .string "anonymous") := by
  unfold nameFromParent at h
  obtain ⟨holder, hholder, h⟩ := bind_eq_ok.1 h
  obtain ⟨type, -, h⟩ := bind_eq_ok.1 h
  refine ⟨holder, Json.node?_eq_some_iff.1 (readable_eq_ok.1 hholder), ?_⟩
  dsimp only at h
  cases hplain : (holder.get "left").plainProperty? with
  | error fault => grind [pure_eq_ok, error_bind]
  | ok property => grind [pure_eq_ok, ok_bind]

theorem exists_text_of_nameFromParent {function : Json} {field : Option String}
    (hn : (Json.object n).WellNamed) (h : nameFromParent function (.object n) field = .ok name) :
    ∃ text, name = .string text := by
  obtain ⟨holder, heq, hname⟩ := nameFromParent_cases h
  cases heq
  rcases hname with ⟨rfl, hkey⟩ | hleft | hplain | hid | rfl | rfl
  · exact (hn.get "key").exists_text_of_keyName hkey
  · exact (hn.get "left").exists_text_of_targetName? hleft
  · exact (hn.get "left").exists_text_of_plainProperty? hplain
  · exact (hn.get "id").exists_text_of_targetName? hid
  · exact ⟨_, rfl⟩
  · exact ⟨_, rfl⟩

/-- Every function of a well-named tree has a string for its name. -/
theorem Path.WellNamed.exists_text_of_functionName (h : p.WellNamed)
    (hname : p.functionName = .ok name) : ∃ text, name = .string text := by
  unfold Path.functionName LexicalScopes.functionName at hname
  simp only [Json.fields_object, ok_bind] at hname
  split at hname
  · cases hname
    exact (h.node.get "id").exists_text_of_targetName? ‹_›
  · split at hname
    · rename_i hkey
      cases hname
      have hname := (Bool.and_eq_true_iff.1 hkey).2
      exact (h.node.get "key").exists_text_of_keyName (by simpa using hname)
    · cases p with
      | root n =>
        cases hname
        exact ⟨_, rfl⟩
      | child parent key index n => exact exists_text_of_nameFromParent h.parent.node hname

/-! ## Names of scopes -/

/-- The scopes that a well-named node contributes have strings for names. -/
theorem Path.WellNamed.exists_text_of_contributed (h : p.WellNamed)
    (hheadings : p.contributed = .ok headings) :
    ∀ heading ∈ headings, ∃ text, heading.name = .string text := by
  obtain ⟨field, hfield, hheadings⟩ := bind_eq_ok.1 hheadings
  obtain ⟨own, hown, hheadings⟩ := bind_eq_ok.1 hheadings
  cases hheadings
  have hcovering {reason : Bool} {type : ScopeType} {label : String} {covers : List Heading}
      (hcovers : p.node.coveringIf reason type label = .ok covers) :
      ∀ heading ∈ covers, ∃ text, heading.name = .string text := by
    intro heading hmem
    obtain ⟨loc, rfl⟩ := exists_eq_of_coveringIf hcovers heading hmem
    exact ⟨label, rfl⟩
  refine List.forall_mem_append.2 ⟨hcovering hfield, ?_⟩
  -- Only the name of a function comes from the tree.
  unfold typeScopes at hown
  dsimp only at hown
  split at hown
  · obtain ⟨wrapper, hwrapper, hown⟩ := bind_eq_ok.1 hown
    obtain ⟨name, hname, hown⟩ := bind_eq_ok.1 hown
    obtain ⟨range, -, hown⟩ := bind_eq_ok.1 hown
    cases hown
    refine List.forall_mem_append.2 ⟨hcovering hwrapper, ?_⟩
    simpa using h.exists_text_of_functionName hname
  · split at hown
    · exact hcovering hown
    · split at hown
      · intro heading hmem
        obtain ⟨loc, rfl⟩ := exists_eq_of_loopScopes hown heading hmem
        exact ⟨"For", rfl⟩
      · split at hown
        · exact hcovering hown
        · split at hown
          · exact hcovering hown
          · split at hown
            · exact hcovering hown
            · cases hown
              simp

end LexicalScopes
