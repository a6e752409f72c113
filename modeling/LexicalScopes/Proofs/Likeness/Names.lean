import LexicalScopes.Proofs.Likeness.Values

/-!
# Names in values that are read alike

Related targets bind the same names, up to the first fault, and related functions have the same
name if they stand below related nodes.
-/

namespace LexicalScopes

variable {R : Bool → Json → Json → Prop} {a : Bool} {j k : Json} {n m : Node} {xs ys : List Json}

/-! ## Names of targets -/

namespace Node.Matches

theorem scalarName_eq (h : n.Matches R a m) (hid : n.isAny ["Identifier"] = true) :
    m.scalarName = n.scalarName := by
  rw [scalarName, h.name (.inr hid), scalarName]

theorem boundName_eq (h : n.Matches R a m) (hid : n.isAny ["Identifier"] = true) :
    m.boundName = n.boundName := by
  rw [boundName, h.loc_eq, h.scalarName_eq hid, boundName]

theorem identifier? (h : n.Matches R a m) (hR : Likeness R) :
    Option.Rel (Node.Matches R false) n.identifier? m.identifier? := by
  have hid := (hR (h.part "id" (by decide))).node?
  unfold Node.identifier?
  generalize (n.get "id").node? = o, (m.get "id").node? = o' at hid
  cases hid with
  | none => exact .none
  | some hid =>
    dsimp only
    rw [hid.isAny_eq]
    split
    · exact .some hid
    · exact .none

theorem slotNames_eq (h : n.Matches R a m) : slotNames (.object m) = slotNames (.object n) := by
  funext property
  have hslot : propertySlot (.object m) property = propertySlot (.object n) property := by
    unfold propertySlot
    rw [h.malformed_eq]
  rw [slotNames, hslot, slotNames]

end Node.Matches

theorem boundNames_string (s : String) : boundNames (.string s) = [] := by
  simp [boundNames]

/-- Lists bind the same names if their entries do. Entries that are texts bind nothing, or all of
them are the same fault. -/
theorem Listed.mapM_flatMap_eq {α : Type} {f : Json → List (Except Cause α)} (h : Listed R xs ys)
    (hf : ∀ x ∈ xs, ∀ y, R false x y → (f y).mapM id = (f x).mapM id)
    (htext : (∀ s, f (.string s) = []) ∨ ∃ fault, ∀ s, f (.string s) = [.error fault]) :
    (ys.flatMap f).mapM id = (xs.flatMap f).mapM id := by
  cases h with
  | items h =>
    induction h with
    | nil => rfl
    | cons hxy _ ih =>
      obtain ⟨hfirst, hrest⟩ := List.forall_mem_cons.1 hf
      rw [List.flatMap_cons, List.flatMap_cons, List.mapM_append, List.mapM_append,
        hfirst _ hxy, ih hrest]
  | texts hxs hys hempty =>
    rcases htext with htext | ⟨fault, htext⟩
    · have hnothing (zs : List Json) (hzs : ∀ z ∈ zs, ∃ s, z = .string s) : zs.flatMap f = [] := by
        rw [List.flatMap_eq_nil_iff]
        intro z hz
        obtain ⟨s, rfl⟩ := hzs z hz
        exact htext s
      rw [hnothing xs hxs, hnothing ys hys]
    · cases xs with
      | nil =>
        rw [List.isEmpty_nil, List.isEmpty_iff] at hempty
        rw [hempty]
      | cons x xs =>
        cases ys with
        | nil => cases hempty
        | cons y ys =>
          obtain ⟨s, rfl⟩ := hxs x List.mem_cons_self
          obtain ⟨t, rfl⟩ := hys y List.mem_cons_self
          rw [List.flatMap_cons, List.flatMap_cons, htext, htext, List.singleton_append,
            List.singleton_append, List.mapM_cons, List.mapM_cons]
          rfl

theorem mapM_listedNames_eq {f : Json → List (Except Cause BoundName)} {o o' : Option (List Json)}
    {e e' : Cause} (h : Option.Rel (Listed R) o o') (he : e' = e)
    (hf : ∀ items, o = some items → ∀ x ∈ items, ∀ y, R false x y →
      (f y).mapM id = (f x).mapM id)
    (htext : (∀ s, f (.string s) = []) ∨ ∃ fault, ∀ s, f (.string s) = [.error fault]) :
    (listedNames f (readable o' e')).mapM id = (listedNames f (readable o e)).mapM id := by
  subst he
  cases h with
  | none => rfl
  | some h => exact h.mapM_flatMap_eq (hf _ rfl) htext

/-- Related targets bind the same names. -/
theorem Likeness.mapM_boundNames_eq (hR : Likeness R) (h : R a j k) :
    (boundNames k).mapM id = (boundNames j).mapM id := by
  -- Induction on the target: the parts that bind names are related.
  induction j using boundNames.induct generalizing a k with
  | case1 n htype =>
    have hid := Node.isAny_iff.2 ⟨_, List.mem_singleton_self _, htype⟩
    cases hR h with
    | object hm =>
      rw [boundNames_identifier (hm.isAny_eq.trans hid), boundNames_identifier hid,
        hm.boundName_eq hid]
  | case2 n htype hentries =>
    cases hR h with
    | object hm =>
      have hproperties := hR (hm.part "properties" (by decide))
      rw [boundNames_objectPattern (hm.type.trans htype), boundNames_objectPattern htype,
        hm.slotNames_eq]
      refine mapM_listedNames_eq hproperties.entries? (hproperties.misread_eq .entries)
        (fun items hitems => ?_) (.inr ⟨_, fun s => rfl⟩)
      cases hentries.symm.trans hitems
  | case3 n htype properties hentries ih =>
    cases hR h with
    | object hm =>
      have hproperties := hR (hm.part "properties" (by decide))
      rw [boundNames_objectPattern (hm.type.trans htype), boundNames_objectPattern htype,
        hm.slotNames_eq]
      refine mapM_listedNames_eq hproperties.entries? (hproperties.misread_eq .entries)
        (fun items hitems x hx y hxy => ?_)
        (.inr ⟨_, fun s => rfl⟩)
      cases hentries.symm.trans hitems
      have hnode := (hR hxy).node?
      have hslot := ih x hx
      unfold slotNames
      unfold propertySlot at hslot ⊢
      generalize x.node? = o, y.node? = o' at hnode hslot
      cases hnode with
      | none => rfl
      | @some slot slot' hmatches =>
        dsimp only at hslot ⊢
        have hfield : slot'.targetField = slot.targetField := by
          rw [Node.targetField, hmatches.isAny_eq, Node.targetField]
        rw [hfield]
        have hsame := @hslot slot rfl
        unfold Node.targetField at hsame ⊢
        split
        · rename_i hrest
          rw [if_pos hrest] at hsame
          exact hsame (hmatches.part "argument" (by decide))
        · rename_i hrest
          rw [if_neg hrest] at hsame
          cases hliteral : slot.isAny NodeType.literals with
          | true => rw [hmatches.literal hliteral]
          | false => exact hsame (hmatches.value hliteral)
  | case4 n htype hentries =>
    cases hR h with
    | object hm =>
      have helements := hR (hm.part "elements" (by decide))
      rw [boundNames_arrayPattern (hm.type.trans htype), boundNames_arrayPattern htype]
      refine mapM_listedNames_eq helements.entries? (helements.misread_eq .entries)
        (fun items hitems => ?_)
        (.inl fun s => boundNames_string s)
      cases hentries.symm.trans hitems
  | case5 n htype elements hentries ih =>
    cases hR h with
    | object hm =>
      have helements := hR (hm.part "elements" (by decide))
      rw [boundNames_arrayPattern (hm.type.trans htype), boundNames_arrayPattern htype]
      refine mapM_listedNames_eq helements.entries? (helements.misread_eq .entries)
        (fun items hitems x hx y hxy => ?_)
        (.inl fun s => boundNames_string s)
      cases hentries.symm.trans hitems
      exact ih x hx hxy
  | case6 n htype ih =>
    cases hR h with
    | object hm =>
      rw [boundNames_assignmentPattern (hm.type.trans htype), boundNames_assignmentPattern htype]
      exact ih (hm.part "left" (by decide))
  | case7 n htype ih =>
    cases hR h with
    | object hm =>
      rw [boundNames_restElement (hm.type.trans htype), boundNames_restElement htype]
      exact ih (hm.part "argument" (by decide))
  | case8 n hidentifier hobject harray hdefault hrest =>
    cases hR h with
    | object hm =>
      have hother : ∀ t ∈ NodeType.targets, Node.type n ≠ .string t := by
        simpa [NodeType.targets] using ⟨hidentifier, hobject, harray, hdefault, hrest⟩
      rw [boundNames_other (hm.type ▸ hother), boundNames_other hother]
  | case9 target hobject =>
    cases hR h with
    | scalar s => rfl
    | array _ => simp [boundNames]
    | object hm => exact (hobject _ rfl).elim

/-! ## Names of functions -/

namespace Likeness

theorem keyName_eq (hR : Likeness R) (h : R a j k) : k.keyName = j.keyName := by
  cases hR h with
  | scalar s => rfl
  | array _ => rfl
  | object hm =>
    unfold Json.keyName
    simp only [Json.node?, hm.isAny_eq]
    split
    · exact hm.name (.inr ‹_›)
    · split
      · rw [hm.literal (Node.isAny_mono ‹_› (by decide))]
      · rfl

theorem targetName?_eq (hR : Likeness R) (h : R a j k) : k.targetName? = j.targetName? := by
  unfold Json.targetName?
  rw [(hR h).isAny_eq]
  split
  · exact (hR h).field?_name (.inr ‹_›)
  · rfl

/-- The name of an accessed property is handed on. -/
theorem plainProperty?_eq (hR : Likeness R) (h : R a j k) :
    k.plainProperty? = j.plainProperty? := by
  cases hR h with
  | scalar s => rfl
  | array _ => rfl
  | @object n m hm =>
    unfold Json.plainProperty?
    simp only [Json.node?, hm.type, (hR (hm.part "computed" (by decide))).isPresent_eq]
    cases htype : n.type.scalarType with
    | error fault => rfl
    | ok type =>
      simp only [ok_bind]
      cases hmember : type.isOneOf NodeType.members with
      | false => rfl
      | true =>
        have hany : n.isAny NodeType.members = true := by
          unfold Json.scalarType at htype
          split at htype
          · rename_i s hs
            cases htype
            rw [Node.isAny, hs]
            cases type <;> exact hmember
          · cases htype
        have hproperty := hR (hm.property hany)
        rw [hproperty.isAny_eq, hproperty.field?_name (.inl rfl)]

theorem isPlainAssignment_eq (hR : Likeness R) (h : n.Matches R a m) :
    m.isPlainAssignment = n.isPlainAssignment := by
  rw [Node.isPlainAssignment, h.hasOperator, (hR (h.part "operator" (by decide))).beq_scalar,
    Node.isPlainAssignment]

/-- Related nodes give related functions the same name. -/
theorem nameFromParent_eq (hR : Likeness R) {a' : Bool} {parent parent' : Json}
    {field : Option String} (h : Json.Matches R a j k)
    (hparent : Json.Matches R a' parent parent') :
    nameFromParent k parent' field = nameFromParent j parent field := by
  unfold nameFromParent
  refine readable_bind_congr hparent.node? (hparent.misread_eq (.method · "get"))
    fun holder holder' h' => ?_
  have hpart (key : String) (hkey : key ∈ Node.inspected) := h'.part key hkey
  simp only [h'.type, (hR (hpart "computed" (by decide))).isPresent_eq,
    hR.keyName_eq (hpart "key" (by decide)), hR.targetName?_eq (hpart "left" (by decide)),
    hR.plainProperty?_eq (hpart "left" (by decide)), hR.targetName?_eq (hpart "id" (by decide)),
    hR.isPlainAssignment_eq h', h.isAny_eq]

/-- Functions that are read alike have the same name if their parents give them the same one. -/
theorem functionName_eq (hR : Likeness R) {parent parent' : Json} {field field' : Option String}
    (h : Json.Matches R a j k) (hnull : parent'.isNull = parent.isNull)
    (hname : nameFromParent k parent' field' = nameFromParent j parent field) :
    functionName k parent' field' = functionName j parent field := by
  unfold functionName
  refine readable_bind_congr h.node? (h.misread_eq (.method · "get")) fun f f' hf => ?_
  have hpart (key : String) (hkey : key ∈ Node.inspected) := hf.part key hkey
  simp only [hR.targetName?_eq (hpart "id" (by decide)), hR.keyName_eq (hpart "key" (by decide)),
    (hR (hpart "computed" (by decide))).isPresent_eq, hf.isAny_eq, hnull, hname]

end Likeness

end LexicalScopes
