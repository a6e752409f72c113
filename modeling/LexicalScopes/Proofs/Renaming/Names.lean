import LexicalScopes.Proofs.Renaming.Tree
import LexicalScopes.Proofs.Targets

/-!
# Names of renamed trees

What is read off a renamed tree by name: the names that a target binds, whether a function has a
name, and the wrappers of a reference. Only the name under which a function is shown and the
property that a wrapper accesses are texts of the tree. They are masked before two readings are
compared.
-/

namespace LexicalScopes

/-! ## Renamings -/

/-- The names that mean something to the analysis. -/
def reservedNames : List String :=
  ["this", "arguments", "module", "exports", "__dirname", "__filename", "require", "Object"]

/-- A change of names that keeps different names apart and the reserved names as they are. -/
structure Renaming (r : String → String) : Prop where
  injective : Function.Injective r
  fixes : ∀ name ∈ reservedNames, r name = name

theorem Renaming.refl : Renaming id := ⟨fun _ _ h => h, fun _ _ => rfl⟩

/-- Names that have the same key before renaming are those that have it afterwards. -/
theorem Renaming.key_eq_iff {r : String → String} (hr : Renaming r) {a b : Scalar} :
    (a.renamed r).key = (b.renamed r).key ↔ a.key = b.key := by
  have hfloat : ∀ x : Float, ∀ s : String, (Scalar.float x).key ≠ .string s := by
    intro x s
    rw [Scalar.key]
    cases Decimal.wholeValue? x <;> simp
  cases a <;> cases b <;>
    simp [Scalar.renamed, Scalar.key_string, hr.injective.eq_iff, hfloat, (hfloat _ _).symm] <;>
    simp [Scalar.key]

/-! ## Masks -/

def BoundName.renamed (r : String → String) (bound : BoundName) : BoundName :=
  { bound with name := bound.name.renamed r }

/-- The wrapper without the text of the property that it accesses. -/
def WrapperForm.masked : WrapperForm → WrapperForm
  | .member _ => .member .null
  | form => form

def Wrapper.masked (w : Wrapper) : Wrapper := { w with form := w.form.masked }

def Occurrence.masked (o : Occurrence) : Occurrence :=
  { o with wrappers := o.wrappers.map Wrapper.masked }

variable {r : String → String} {n : Node} {j : Json} {p : Path}

@[simp] theorem Scalar.renamed_id (s : Scalar) : s.renamed id = s := by
  cases s <;> rfl

@[simp] theorem BoundName.renamed_id (bound : BoundName) : bound.renamed id = bound := by
  simp [renamed]

/-! ## Names -/

theorem Node.scalarName_renamed (h : n.isAny ["Identifier"] = true) :
    (n.renamed r).scalarName = Scalar.renamed r <$> n.scalarName := by
  unfold scalarName
  rw [get_name_renamed h]
  cases n.get "name" <;> rfl

theorem Node.boundName_renamed (h : n.isAny ["Identifier"] = true) :
    (n.renamed r).boundName = BoundName.renamed r <$> n.boundName := by
  simp only [boundName, loc_renamed, scalarName_renamed h, map_bind, bind_map_left, map_pure]
  rfl

theorem Node.identifier?_renamed :
    (n.renamed r).identifier? = n.identifier?.map (Node.renamed r) := by
  simp (disch := decide) only [identifier?, get_renamed, Json.node?_renamed]
  cases (n.get "id").node? with
  | none => rfl
  | some identifier => simp [apply_ite]

theorem propertySlot_renamed {pattern property : Json} :
    propertySlot (pattern.renamed r) (property.renamed r) =
      Node.renamed r <$> propertySlot pattern property := by
  unfold propertySlot
  rw [Json.node?_renamed, Cause.malformed_renamed]
  cases property.node? <;> rfl

theorem Node.get_targetField_renamed :
    (n.renamed r).get (n.renamed r).targetField = (n.get n.targetField).renamed r := by
  rw [targetField, isAny_renamed, targetField]
  split
  · exact get_renamed (by decide) (by decide)
  · exact get_renamed (by decide) (by decide)

/-- Where the entries of a list bind the renamed names, the list does. -/
theorem listedNames_renamed {names names' : Json → List (Except Cause BoundName)}
    {entries : Except Cause (List Json)}
    (h : ∀ items, entries = .ok items → ∀ item ∈ items,
      names' (item.renamed r) = (names item).map (BoundName.renamed r <$> ·)) :
    listedNames names' (List.map (Json.renamed r) <$> entries) =
      (listedNames names entries).map (BoundName.renamed r <$> ·) := by
  cases entries with
  | error fault => rfl
  | ok items =>
    simp only [listedNames, Functor.map, Except.map, List.flatMap_map, List.map_flatMap]
    exact List.flatMap_congr fun item hitem => h items rfl item hitem

/-- A renamed target binds the renamed names. -/
theorem boundNames_renamed (target : Json) :
    boundNames (target.renamed r) = (boundNames target).map (BoundName.renamed r <$> ·) := by
  -- Induction on the target: its parts bind the renamed names.
  induction target using boundNames.induct with
  | case1 n htype =>
    have hid := Node.isAny_iff.2 ⟨_, List.mem_singleton_self _, htype⟩
    rw [Json.renamed_object, boundNames_identifier (by simpa using hid), boundNames_identifier hid,
      Node.boundName_renamed hid, List.map_singleton]
  | case2 n htype hentries =>
    rw [Json.renamed_object, boundNames_objectPattern (by simpa using htype),
      boundNames_objectPattern htype, Node.get_renamed (by decide) (by decide),
      Json.entries_renamed, Json.entries, hentries]
    rfl
  | case3 n htype properties hentries ih =>
    rw [Json.renamed_object, boundNames_objectPattern (by simpa using htype),
      boundNames_objectPattern htype, Node.get_renamed (by decide) (by decide),
      Json.entries_renamed]
    refine listedNames_renamed fun items hitems property hproperty => ?_
    cases hentries.symm.trans (readable_eq_ok.1 hitems)
    unfold slotNames
    rw [← Json.renamed_object, propertySlot_renamed]
    cases hslot : propertySlot (.object n) property with
    | error fault => rfl
    | ok slot =>
      simp only [Functor.map, Except.map, Node.get_targetField_renamed]
      exact ih property hproperty slot hslot
  | case4 n htype hentries =>
    rw [Json.renamed_object, boundNames_arrayPattern (by simpa using htype),
      boundNames_arrayPattern htype, Node.get_renamed (by decide) (by decide),
      Json.entries_renamed, Json.entries, hentries]
    rfl
  | case5 n htype elements hentries ih =>
    rw [Json.renamed_object, boundNames_arrayPattern (by simpa using htype),
      boundNames_arrayPattern htype, Node.get_renamed (by decide) (by decide),
      Json.entries_renamed]
    refine listedNames_renamed fun items hitems element helement => ?_
    cases hentries.symm.trans (readable_eq_ok.1 hitems)
    exact ih element helement
  | case6 n htype ih =>
    rw [Json.renamed_object, boundNames_assignmentPattern (by simpa using htype),
      boundNames_assignmentPattern htype, Node.get_renamed (by decide) (by decide), ih]
  | case7 n htype ih =>
    rw [Json.renamed_object, boundNames_restElement (by simpa using htype),
      boundNames_restElement htype, Node.get_renamed (by decide) (by decide), ih]
  | case8 n hidentifier hobject harray hdefault hrest =>
    have hother : ∀ t ∈ NodeType.targets, Node.type n ≠ .string t := by
      simpa [NodeType.targets] using ⟨hidentifier, hobject, harray, hdefault, hrest⟩
    rw [Json.renamed_object, boundNames_other (by simpa using hother), boundNames_other hother,
      List.map_nil]
  | case9 target hobject =>
    cases target with
    | scalar s => simp [boundNames]
    | array items => simp [boundNames]
    | object n => exact (hobject n rfl).elim

/-! ## Names of functions -/

/-- Whether a value can be read, and the fault if it cannot. -/
def verdict {α : Type} (reading : Except Cause α) : Except Cause Unit := (fun _ => ()) <$> reading

section Verdict

variable {α β : Type}

@[simp] theorem verdict_ok (a : α) : verdict (.ok a) = .ok () := rfl

@[simp] theorem verdict_pure (a : α) : verdict (pure a) = .ok () := rfl

@[simp] theorem verdict_error (fault : Cause) :
    verdict (.error fault : Except Cause α) = .error fault := rfl

@[simp] theorem verdict_ite (c : Prop) [Decidable c] (x y : Except Cause α) :
    verdict (if c then x else y) = if c then verdict x else verdict y :=
  apply_ite verdict c x y

@[simp] theorem verdict_bind (x : Except Cause α) (f : α → Except Cause β) :
    verdict (x >>= f) = x >>= fun a => verdict (f a) := by
  cases x <;> rfl

@[simp] theorem verdict_map (f : α → β) (x : Except Cause α) : verdict (f <$> x) = verdict x := by
  cases x <;> rfl

end Verdict

theorem Json.isNull_renamedName : (j.renamedName r).isNull = j.isNull := by
  cases j with
  | scalar s => cases s <;> rfl
  | array items => rfl
  | object n => rfl

theorem Json.isNull_keyName_renamed : (j.renamed r).keyName.isNull = j.keyName.isNull := by
  unfold keyName
  rw [node?_renamed]
  cases j.node? with
  | none => rfl
  | some n =>
    simp only [Option.map_some, Node.isAny_renamed]
    split
    · rename_i hid
      rw [Node.get_name_renamed hid, isNull_renamedName]
    · split
      · rw [Node.get_renamed (by decide) (by decide)]
        cases n.get "value" with
        | scalar s => rfl
        | array items => simp [isNull]
        | object m => simp [isNull]
      · rfl

theorem Json.field?_name_renamed (h : j.isAny ["Identifier"] = true) :
    (j.renamed r).field? "name" = (j.field? "name").map (renamedName r) := by
  unfold isAny at h
  unfold field?
  rw [node?_renamed]
  cases hnode : j.node? with
  | none => rfl
  | some n =>
    rw [hnode] at h
    simp [Node.get_name_renamed h]

theorem Json.targetName?_renamed :
    (j.renamed r).targetName? = j.targetName?.map (renamedName r) := by
  unfold targetName?
  rw [isAny_renamed]
  split
  · exact field?_name_renamed ‹_›
  · rfl

theorem Json.plainProperty?_renamed :
    (j.renamed r).plainProperty? = Option.map (renamedName r) <$> j.plainProperty? := by
  unfold plainProperty?
  rw [node?_renamed]
  cases j.node? with
  | none => rfl
  | some n =>
    simp only [Option.map_some, Node.type_renamed, map_bind]
    congr 1
    funext type
    simp (disch := decide) only [Node.get_renamed, isPresent_renamed, isAny_renamed]
    split
    · rename_i h
      rw [field?_name_renamed (Bool.and_eq_true_iff.1 h).2]
      rfl
    · rfl

/-- The name that a parent gives can be read unless it is that of an unreadable access. -/
theorem verdict_nameFromParent {function parent : Json} {field : Option String} :
    verdict (nameFromParent function parent field) = (do
      let holder ← parent.fields
      let type ← holder.type.scalarType
      if type.isOneOf (NodeType.properties ++ NodeType.classFields ++ ["MethodDefinition"])
          && field == some "value" && !(holder.get "computed").isPresent
          && !(holder.get "key").keyName.isNull then .ok ()
      else if type.isOneOf ["AssignmentExpression"] && field == some "right"
          && holder.isPlainAssignment && (holder.get "left").targetName?.isNone then
        verdict (holder.get "left").plainProperty?
      else .ok ()) := by
  unfold nameFromParent
  cases parent.fields with
  | error fault => rfl
  | ok holder =>
    simp only [ok_bind]
    cases holder.type.scalarType with
    | error fault => rfl
    | ok type =>
      -- No name that is found makes a difference, only an access that cannot be read.
      simp only [ok_bind, verdict_ite, verdict_pure]
      rcases (holder.get "left").targetName? with _ | left <;>
        rcases (holder.get "left").plainProperty? with fault | _ | property <;>
        rcases (holder.get "id").targetName? with _ | id <;>
        simp only [verdict_ite, verdict_pure, verdict_error, verdict_ok, ok_bind,
          error_bind, ite_self, Option.isNone_some, Option.isNone_none, Bool.and_true,
          Bool.and_false, Bool.false_eq_true, if_false]

theorem nameFromParent_renamed {function parent : Json} {field : Option String} :
    verdict (nameFromParent (function.renamed r) (parent.renamed r) field) =
      verdict (nameFromParent function parent field) := by
  have hassignment : ∀ holder : Node,
      (holder.renamed r).isPlainAssignment = holder.isPlainAssignment := by
    intro holder
    simp (disch := decide) only [Node.isPlainAssignment, Node.has_renamed, Node.get_renamed,
      beq_eq_decide, Json.renamed_eq_scalar_iff]
  rw [verdict_nameFromParent, verdict_nameFromParent, Json.fields_renamed]
  cases parent.fields with
  | error fault => rfl
  | ok holder =>
    simp (disch := decide) only [map_ok, ok_bind, Node.type_renamed,
      Node.get_renamed, Json.isPresent_renamed, Json.isNull_keyName_renamed, hassignment,
      Json.targetName?_renamed, Option.isNone_map, Json.plainProperty?_renamed, verdict_map]

theorem functionName_renamed (function parent : Json) (field : Option String) :
    verdict (functionName (function.renamed r) (parent.renamed r) field) =
      verdict (functionName function parent field) := by
  unfold functionName
  rw [Json.fields_renamed]
  cases function.fields with
  | error fault => rfl
  | ok n =>
    simp (disch := decide) only [map_ok, ok_bind, Node.get_renamed,
      Json.targetName?_renamed, Json.isPresent_renamed, Node.isAny_renamed,
      Json.isNull_keyName_renamed, Json.isNull_renamed]
    cases (n.get "id").targetName? with
    | some name => rfl
    | none => simp only [Option.map_none, verdict_ite, verdict_pure, nameFromParent_renamed]

theorem Path.functionName_renamed :
    verdict (p.renamed r).functionName = verdict p.functionName := by
  have h (parent : Json) :=
    LexicalScopes.functionName_renamed (r := r) (.object p.node) parent p.ownField?
  unfold functionName
  rw [node_renamed, ownField?_renamed, parent?_renamed]
  cases p.parent? with
  | none => simpa using h .null
  | some holder => simpa using h (.object holder.node)

/-! ## Wrappers -/

theorem Json.isBoxingPair_renamed : (j.renamed r).isBoxingPair = j.isBoxingPair := by
  unfold isBoxingPair
  rw [counted_renamed]
  rcases j.counted with fault | (_ | ⟨first, _ | ⟨second, _ | ⟨third, rest⟩⟩⟩) <;> cases j <;>
    simp [Functor.map, Except.map, bind, Except.bind]

theorem pairWrapper_renamed : pairWrapper (p.renamed r) = pairWrapper p := by
  cases p with
  | root n => simp [pairWrapper, Path.renamed]
  | child call key index n => simp [pairWrapper, Path.renamed, Path.isChildOf]

theorem Node.argumentCount_renamed : (n.renamed r).argumentCount = n.argumentCount := by
  simp (disch := decide) [argumentCount, get_renamed]

theorem Wrapper.covering_renamed {form : WrapperForm} :
    covering form (n.renamed r) = covering form n := by
  rw [covering, Node.loc_renamed, covering]

/-- Whether an access names a property does not depend on names. -/
theorem Node.accessedProperty?_renamed :
    Option.map (fun _ => ()) <$> (n.renamed r).accessedProperty? =
      Option.map (fun _ => ()) <$> n.accessedProperty? := by
  unfold accessedProperty?
  simp (disch := decide) only [get_renamed, Json.isPresent_renamed, Json.isStringLiteral_renamed]
  split
  · split
    · simp (disch := decide) [Json.field?_renamed, Function.comp_def]
    · rfl
  · unfold Json.field Json.field?
    rw [Json.node?_renamed, Json.kind_renamed]
    cases (n.get "property").node? <;> rfl

/-- A reserved name is the name of the same identifiers after renaming. -/
theorem Renaming.renamedName_eq_iff (hr : Renaming r) {name : String}
    (hname : name ∈ reservedNames) :
    j.renamedName r = .string name ↔ j = .string name := by
  cases j with
  | scalar s =>
    cases s with
    | string s =>
      simp only [Json.renamedName, Scalar.renamed, Json.scalar.injEq, Scalar.string.injEq]
      rw [← hr.fixes name hname, hr.injective.eq_iff, hr.fixes name hname]
    | _ => simp [Json.renamedName, Scalar.renamed]
  | array items => rfl
  | object n => rfl

theorem Renaming.namesObject_renamed (hr : Renaming r) :
    (j.isAny ["Identifier"] && (j.renamed r).field? "name" == some (.string "Object")) =
      (j.isAny ["Identifier"] && j.field? "name" == some (.string "Object")) := by
  cases h : j.isAny ["Identifier"] with
  | false => rfl
  | true =>
    rw [Json.field?_name_renamed h]
    cases j.field? "name" with
    | none => rfl
    | some name =>
      have hname : "Object" ∈ reservedNames := by decide
      simp [beq_eq_decide, hr.renamedName_eq_iff hname]

theorem Renaming.wrapperAt?_renamed (hr : Renaming r) (p : Path) (key : String)
    (index : Option Nat) :
    Option.map Wrapper.masked <$> wrapperAt? (p.renamed r) key index =
      Option.map Wrapper.masked <$> wrapperAt? p key index := by
  unfold wrapperAt?
  simp (disch := decide) only [Path.node_renamed, Node.isAny_renamed, Node.get_renamed,
    Json.isBoxingPair_renamed, pairWrapper_renamed, Json.isAny_renamed, Node.argumentCount_renamed,
    Wrapper.covering_renamed, Node.loc_renamed, Bool.and_assoc, hr.namesObject_renamed]
  split
  · rfl
  · split
    · rfl
    · split
      · -- The accessed property is masked.
        simp only [map_bind, map_pure, Option.map_map]
        congr 1
        funext loc
        refine bind_congr_map Node.accessedProperty?_renamed fun after before h => ?_
        cases after <;> cases before <;> first | rfl | cases h
      · rfl

theorem Renaming.wrappers_renamed (hr : Renaming r) :
    List.map Wrapper.masked <$> (p.renamed r).wrappers =
      List.map Wrapper.masked <$> p.wrappers := by
  induction p with
  | root n => rfl
  | child parent key index n ih =>
    simp only [Path.renamed, Path.wrappers_child, map_bind]
    refine bind_congr_map (hr.wrapperAt?_renamed parent key index) fun after before h => ?_
    cases after with
    | none => cases before with
      | none => rfl
      | some w => cases h
    | some w => cases before with
      | none => cases h
      | some w' =>
        simp only [map_bind, map_pure]
        refine bind_congr_map ih fun ws ws' hws => ?_
        rw [List.map_cons, List.map_cons, hws, Option.some.inj h]

theorem Renaming.occurrence_renamed (hr : Renaming r) :
    Occurrence.masked <$> (p.renamed r).occurrence = Occurrence.masked <$> p.occurrence := by
  simp only [Path.occurrence, Path.node_renamed, Node.loc_renamed, map_bind, map_pure]
  congr 1
  funext loc
  refine bind_congr_map hr.wrappers_renamed fun ws ws' hws => ?_
  simp only [Occurrence.masked, hws]

end LexicalScopes
