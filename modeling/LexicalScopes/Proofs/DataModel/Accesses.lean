import LexicalScopes.Proofs.DataModel.Names
import LexicalScopes.Scope.Finish

/-!
# Keys of accesses

Each wrapper of a read is made by one of the nodes above it, the innermost by the parent. A member
carries the key of the access that makes it: the name after the dot or the string in brackets. A
private name is a node without a name of its own, so an access by private name carries no key.
-/

namespace LexicalScopes

variable {n : Node} {p q : Path} {key : String} {index : Option Nat} {property : Json}
  {form : WrapperForm} {w : Wrapper} {ws : List Wrapper}

/-! ## Keys -/

namespace Node

/-- The access is by a private name. -/
def isPrivateAccess (n : Node) : Bool :=
  !(n.get "computed").isPresent && (n.get "property").isAny ["PrivateName"]

/-- The key that an access reads, if the source spells it out: a string in brackets, a name, or the
identifier of a private name. -/
def accessedKey? (n : Node) : Option String :=
  let property := n.get "property"
  if (n.get "computed").isPresent then
    if property.isStringLiteral then (property.field? "value").bind Json.string? else none
  else if n.isPrivateAccess then
    ((property.field? "id").bind (Json.field? · "name")).bind Json.string?
  else (property.field? "name").bind Json.string?

/-- If the node makes a member, the node is an access, and the member carries its key as a string,
or null if the access is by a private name. -/
def CarriesKey (n : Node) (form : WrapperForm) : Prop :=
  ∀ property, form = .member property → n.isAny NodeType.members = true ∧
    ∃ key, n.accessedKey? = some key ∧
      property = if n.isPrivateAccess then .null else .string key

end Node

theorem Json.exists_text_of_isStringLiteral {j : Json} (h : j.WellNamed)
    (hliteral : j.isStringLiteral = true) : ∃ text, j.field? "value" = some (.string text) := by
  rw [isStringLiteral, Bool.or_eq_true, Bool.and_eq_true] at hliteral
  rcases hliteral with htype | ⟨-, hvalue⟩
  · obtain ⟨n, rfl, htype⟩ := Json.exists_object_of_isAny htype
    obtain ⟨text, htext⟩ : ∃ text, n.get "value" = .string text :=
      h.exists_text (by decide) htype
    exact ⟨text, congrArg some htext⟩
  · obtain ⟨value, hfield, hstring⟩ := (Option.any_eq_true _ _).1 hvalue
    cases value with
    | scalar s =>
      cases s with
      | string text => exact ⟨text, hfield⟩
      | _ => cases hstring
    | _ => cases hstring

/-- A private name holds an identifier and has no name. -/
theorem Json.WellNamed.exists_of_privateName (h : (Json.object n).WellNamed)
    (htype : n.isAny ["PrivateName"] = true) :
    ∃ key, (n.get "id").field? "name" = some (.string key) ∧ n.get "name" = .null := by
  have hnamed := h n mem_objects_self
  simp only [Node.isWellNamed, htype, Bool.not_true, Bool.false_or, Bool.and_eq_true,
    Bool.not_eq_true'] at hnamed
  obtain ⟨⟨-, hid, hname⟩, -⟩ := hnamed
  obtain ⟨identifier, hobject, hid⟩ := Json.exists_object_of_isAny hid
  have hidentifier := h.get "id"
  rw [hobject] at hidentifier ⊢
  obtain ⟨key, hkey⟩ : ∃ key, identifier.get "name" = .string key :=
    hidentifier.exists_text (by decide) hid
  exact ⟨key, congrArg some hkey, Node.get_eq_null_of_has_eq_false hname⟩

/-- The other names after a dot are strings. -/
theorem Json.WellNamed.exists_text_of_identifier (h : (Json.object n).WellNamed)
    (htype : n.isAny ["Identifier", "PrivateIdentifier", "PrivateName"] = true)
    (hname : n.isAny ["PrivateName"] = false) : ∃ text, n.get "name" = .string text := by
  obtain ⟨type, hmem, htype⟩ := Node.isAny_iff.1 htype
  simp only [List.mem_cons, List.not_mem_nil, or_false] at hmem
  rcases hmem with rfl | rfl | rfl
  · exact h.exists_text (by decide) (Node.isAny_singleton htype)
  · exact h.exists_text (by decide) (Node.isAny_singleton htype)
  · rw [Node.isAny_singleton htype] at hname
    cases hname

/-- In brackets only a string literal names a property. -/
theorem Json.WellNamed.exists_accessedKey?_of_computed (h : (Json.object n).WellNamed)
    (hcomputed : (n.get "computed").isPresent = true)
    (hproperty : n.accessedProperty? = .ok (some property)) :
    ∃ key, n.accessedKey? = some key ∧ property = .string key := by
  rw [Node.accessedProperty?, if_pos hcomputed] at hproperty
  rw [Node.accessedKey?, if_pos hcomputed]
  split at hproperty
  · rename_i hliteral
    obtain ⟨text, htext⟩ := exists_text_of_isStringLiteral (h.get "property") hliteral
    rw [htext] at hproperty
    cases hproperty
    exact ⟨text, by rw [if_pos hliteral, htext]; rfl, rfl⟩
  · cases hproperty

/-- The property that an access names is its key, unless the key is that of a private name. -/
theorem Json.WellNamed.exists_accessedKey? (h : (Json.object n).WellNamed)
    (htype : n.isAny NodeType.members = true)
    (hproperty : n.accessedProperty? = .ok (some property)) :
    ∃ key, n.accessedKey? = some key ∧
      property = if n.isPrivateAccess then .null else .string key := by
  cases hcomputed : (n.get "computed").isPresent with
  | true =>
    have hpublic : n.isPrivateAccess = false := by rw [Node.isPrivateAccess, hcomputed]; rfl
    rw [hpublic]
    exact h.exists_accessedKey?_of_computed hcomputed hproperty
  | false =>
    rw [Node.accessedProperty?, if_neg (by simp [hcomputed])] at hproperty
    rw [Node.accessedKey?, if_neg (by simp [hcomputed])]
    obtain ⟨name, hname, hproperty⟩ := bind_eq_ok.1 hproperty
    cases hproperty
    -- What stands after the dot is a node with one of the three kinds of names.
    obtain ⟨m, hm, rfl⟩ := Option.map_eq_some_iff.1 (readable_eq_ok.1 hname)
    have hm := Json.node?_eq_some_iff.1 hm
    have hparts := h.get "property"
    have hnamed := h n mem_objects_self
    rw [hm] at hparts
    simp only [Node.isWellNamed, htype, hcomputed, hm, Json.isAny_object, Bool.and_eq_true,
      Bool.not_true, Bool.false_or] at hnamed
    have hprivate : n.isPrivateAccess = m.isAny ["PrivateName"] := by
      rw [Node.isPrivateAccess, hcomputed, hm]
      rfl
    rw [hprivate]
    cases hname : m.isAny ["PrivateName"] with
    | true =>
      obtain ⟨key, hkey, hnull⟩ := hparts.exists_of_privateName hname
      exact ⟨key, by simp [hm, hkey, Json.string?], hnull⟩
    | false =>
      obtain ⟨text, htext⟩ := hparts.exists_text_of_identifier hnamed.2 hname
      exact ⟨text, by simp [hm, htext, Json.string?], htext⟩

/-! ## Makers of wrappers -/

theorem form_of_covering (h : Wrapper.covering form n = .ok w) : w.form = form := by
  obtain ⟨loc, -, h⟩ := bind_eq_ok.1 h
  cases h
  rfl

theorem form_of_pairWrapper (h : pairWrapper p = .ok w) : w.form = .inherit := by
  obtain ⟨loc, -, h⟩ := bind_eq_ok.1 h
  split at h
  · split at h
    · obtain ⟨start, -, h⟩ := bind_eq_ok.1 h
      obtain ⟨stop, -, h⟩ := bind_eq_ok.1 h
      cases h
      rfl
    · cases h
      rfl
  · cases h
    rfl

/-- Only an access makes a member, which carries the property that the access names. -/
theorem exists_access_of_wrapperAt? (h : wrapperAt? q key index = .ok (some w))
    (hform : w.form = .member property) :
    q.node.isAny NodeType.members = true ∧ q.node.accessedProperty? = .ok (some property) := by
  -- Pairs and calls make wrappers of other forms.
  have hother {x : Except Cause Wrapper} (form : WrapperForm) (hne : form ≠ .member property)
      (hx : ∀ w, x = .ok w → w.form = form)
      (h : (x >>= fun w => pure (some w)) = .ok (some w)) : False := by
    obtain ⟨w', hw', h⟩ := bind_eq_ok.1 h
    cases h
    exact hne ((hx w hw').symm.trans hform)
  unfold wrapperAt? at h
  dsimp only at h
  split at h
  · obtain ⟨pair, -, h⟩ := bind_eq_ok.1 h
    split at h
    · split at h
      · exact (hother .inherit nofun (fun _ => form_of_pairWrapper) h).elim
      · cases h
    · cases h
  · split at h
    · split at h
      · obtain ⟨count, -, h⟩ := bind_eq_ok.1 h
        split at h
        · exact (hother .inherit nofun (fun _ => form_of_covering) h).elim
        · cases h
      · split at h
        · obtain ⟨count, -, h⟩ := bind_eq_ok.1 h
          split at h
          · exact (hother .call nofun (fun _ => form_of_covering) h).elim
          · cases h
        · cases h
    · split at h
      · rename_i hmember
        obtain ⟨loc, -, h⟩ := bind_eq_ok.1 h
        obtain ⟨found, hfound, h⟩ := bind_eq_ok.1 h
        obtain ⟨_, rfl, rfl⟩ := Option.map_eq_some_iff.1 (pure_eq_ok.1 h)
        cases hform
        exact ⟨(Bool.and_eq_true_iff.1 hmember).1, hfound⟩
      · cases h

theorem carriesKey_of_wrapperAt? (hq : q.WellNamed) (h : wrapperAt? q key index = .ok (some w)) :
    q.node.CarriesKey w.form := by
  intro property hform
  obtain ⟨htype, hproperty⟩ := exists_access_of_wrapperAt? h hform
  exact ⟨htype, hq.node.exists_accessedKey? htype hproperty⟩

/-- The forms around the read at the path are made by the nodes above it, one by each from the
parent outwards, and the members carry the keys of the accesses. -/
def Path.CarriesKeys (p : Path) (forms : List WrapperForm) : Prop :=
  ∃ makers, makers <+: p.above ∧
    List.Forall₂ (fun q form => q.node.CarriesKey form) makers forms

theorem Path.WellNamed.carriesKeys_wrappers (h : p.WellNamed) (hws : p.wrappers = .ok ws) :
    p.CarriesKeys (ws.map (·.form)) := by
  induction p generalizing ws with
  | root n =>
    cases hws
    exact ⟨[], List.nil_prefix, .nil⟩
  | child parent key index n ih =>
    rw [wrappers_child] at hws
    obtain ⟨found, hfound, hws⟩ := bind_eq_ok.1 hws
    cases found with
    | none =>
      cases hws
      exact ⟨[], List.nil_prefix, .nil⟩
    | some w =>
      obtain ⟨outer, houter, hws⟩ := bind_eq_ok.1 hws
      cases hws
      obtain ⟨makers, hprefix, hmakers⟩ := ih h.parent houter
      exact ⟨parent :: makers, List.cons_prefix_cons.2 ⟨rfl, hprefix⟩,
        .cons (carriesKey_of_wrapperAt? h.parent hfound) hmakers⟩

/-- A read keeps the forms around it when its places are looked up. -/
theorem forms_of_toReference {o : Occurrence} {r : Reference} (h : o.toReference = .ok r) :
    r.wrappers.map (·.form) = o.wrappers.map (·.form) := by
  obtain ⟨range, -, h⟩ := bind_eq_ok.1 h
  obtain ⟨wrappings, hwrappings, h⟩ := bind_eq_ok.1 h
  cases h
  have hsame : List.Forall₂ (fun w wrapping => wrapping.form = w.form) o.wrappers wrappings := by
    refine (Wrapper.exportChain_eq_ok.1 hwrappings).imp fun w wrapping hw => ?_
    obtain ⟨range, -, hw⟩ := bind_eq_ok.1 hw
    cases hw
    rfl
  exact List.forall₂_eq_eq_eq ▸
    List.forall₂_map_left_iff.2 (List.forall₂_map_right_iff.2 hsame.flip)

/-- The read at a path in a well-named tree carries the keys of the accesses around it. -/
theorem Path.WellNamed.carriesKeys_toReference {o : Occurrence} {r : Reference} (h : p.WellNamed)
    (ho : p.occurrence = .ok o) (hr : o.toReference = .ok r) :
    p.CarriesKeys (r.wrappers.map (·.form)) := by
  rw [forms_of_toReference hr]
  obtain ⟨loc, -, ho⟩ := bind_eq_ok.1 ho
  obtain ⟨ws, hws, ho⟩ := bind_eq_ok.1 ho
  cases ho
  exact h.carriesKeys_wrappers hws

end LexicalScopes
