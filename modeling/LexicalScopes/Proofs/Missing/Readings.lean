import LexicalScopes.Proofs.Answers
import LexicalScopes.Proofs.Missing.Holes
import LexicalScopes.Proofs.Ranges.Parts
import LexicalScopes.Proofs.Targets

/-!
# Reading intact nodes

The parts of an intact node are read without a fault, or the fault that they lack is reported. Where
a location is read, it has the lines and columns that the scope tree needs.
-/

namespace LexicalScopes

variable {j target : Json} {n m identifier : Node} {types : List String} {key : String}
  {kind : FieldKind} {α : Type} {P : α → Prop}

/-! ## Fields -/

/-- The field of a node holds what its type says. -/
theorem Node.IsReadable.admits (hn : n.IsReadable) (h : n.isAny types = true)
    (hkind : (types, key, kind) ∈ Node.kinds) : kind.admits (n.get key) = true := by
  obtain ⟨-, hkinds⟩ := Bool.and_eq_true_iff.1 hn.grammatical
  have hadmits : (!n.isAny types || kind.admits (n.get key)) = true :=
    List.all_eq_true.1 hkinds _ hkind
  rwa [h, Bool.not_true, Bool.false_or] at hadmits

theorem Node.IsReadable.isLocation (hn : n.IsReadable) : (n.get "loc").isLocation = true := by
  obtain ⟨hn, -⟩ := Bool.and_eq_true_iff.1 hn.grammatical
  exact (Bool.and_eq_true_iff.1 hn).2

theorem Node.IsReadable.exists_type (hn : n.IsReadable) : ∃ s, n.type = .scalar s := by
  obtain ⟨hn, -⟩ := Bool.and_eq_true_iff.1 hn.grammatical
  exact FieldKind.admits_scalar_iff.1 (Bool.and_eq_true_iff.1 hn).1

/-- A field for a node that holds a child of an intact node holds nothing else. -/
theorem Path.Intact.get_of_isChildOf {parent : Path} {field : String} {index : Option Nat}
    (h : (Path.child parent key index n).Intact)
    (hchild : (Path.child parent key index n).isChildOf types field = true)
    (hkind : (types, field, .object) ∈ Node.kinds) :
    parent.node.isAny types = true ∧ parent.node.get field = .object n := by
  obtain ⟨hkey, htype⟩ := Bool.and_eq_true_iff.1 hchild
  obtain ⟨hparent, -, hmem⟩ := h
  rw [eq_of_beq hkey] at hmem
  exact ⟨htype, eq_of_mem_inField (hparent.node.node.admits htype hkind) hmem⟩

/-- An optional node is null or an object. -/
theorem optionalNode_of_admits (h : FieldKind.object.admits j = true) :
    ∃ n, j.optionalNode = .ok n ∧ ∀ key, n.get key = (j.field? key).getD .null := by
  rcases FieldKind.admits_object_iff.1 h with rfl | ⟨n, rfl⟩
  · exact ⟨[], rfl, fun _ => rfl⟩
  · cases n with
    | nil => exact ⟨[], rfl, fun _ => rfl⟩
    | cons field rest => exact ⟨field :: rest, rfl, fun _ => rfl⟩

theorem exists_entries? (h : FieldKind.objects.admits j = true) :
    ∃ items, j.entries? = some items := by
  rcases FieldKind.admits_objects_iff.1 h with rfl | ⟨items, rfl, -⟩ <;> exact ⟨_, rfl⟩

/-- A list of an intact value can be read. -/
theorem Json.Intact.answers_entries (h : j.Intact) (hj : FieldKind.objects.admits j = true) :
    Answers (fun items => ∀ item ∈ items, item.Intact) j.entries := by
  obtain ⟨items, hitems⟩ := exists_entries? hj
  rw [Json.entries, hitems]
  exact .ok fun item hitem => h.of_mem_entries? hitems hitem

/-- Without null in it an intact list is one of nodes. -/
theorem Json.Intact.answers_objects (h : j.Intact) (hj : FieldKind.objects.admits j = true)
    (hwhole : j.listsNull = false) :
    Answers (fun items => ∀ item ∈ items, ∃ m, item = .object m ∧ (Json.object m).Intact)
      j.entries := by
  rcases FieldKind.admits_objects_iff.1 hj with rfl | ⟨items, rfl, hitems⟩
  · exact .ok nofun
  · refine .ok fun item hitem => ?_
    have hintact : item.Intact := h.of_mem_entries? rfl hitem
    rcases FieldKind.admits_object_iff.1 (hitems item hitem) with rfl | ⟨m, rfl⟩
    · have hnull := List.any_eq_false.1 hwhole _ hitem
      exact absurd rfl hnull
    · exact ⟨m, rfl, hintact⟩

/-! ## Positions -/

theorem Node.IsReadable.exists_position (hn : n.IsReadable) :
    ∃ position, Position.ofNode? (.object n) = .ok position := by
  have hloc := hn.isLocation
  simp only [Json.isLocation, Bool.and_eq_true] at hloc
  obtain ⟨loc, hoptional, hfield⟩ := optionalNode_of_admits hloc.1.1
  have hstart : FieldKind.object.admits (loc.get "start") = true := by
    rw [hfield]
    cases h : (n.get "loc").field? "start" with
    | none => rfl
    | some start =>
      rw [h] at hloc
      exact (Bool.and_eq_true_iff.1 hloc.1.2).1
  obtain ⟨start, hoptional', -⟩ := optionalNode_of_admits hstart
  simp [Position.ofNode?, Json.node?, hoptional, hoptional', ok_bind, pure, Except.pure]

/-- A malformed node is reported. -/
theorem Json.Intact.answers_malformed (h : j.Intact) (defect : Defect) :
    Answers P (.error (.malformed defect j)) := by
  have hposition : ∃ position, Position.ofNode? j = .ok position := by
    cases j with
    | object n => exact h.node.exists_position
    | _ => exact ⟨none, rfl⟩
  obtain ⟨position, hposition⟩ := hposition
  rw [Cause.malformed, hposition]
  exact .reported _

/-! ## Locations -/

/-- The location lasts from one place with a line and a column to another. -/
def Json.IsSpan (loc : Json) : Prop :=
  loc.startPlace.isPoint = true ∧ loc.endPlace.isPoint = true

theorem exists_ofPlace {place : Json} (h : place.isPoint = true) :
    ∃ l, Location.ofPlace place = .ok l := by
  obtain ⟨n, hn, hkeys⟩ := (Option.any_eq_true _ _).1 h
  refine ⟨⟨n.get "line", n.get "column"⟩, ?_⟩
  rw [Bool.and_eq_true] at hkeys
  exact Location.ofPlace_eq_ok.2 ⟨n, Json.node?_eq_some_iff.1 hn, hkeys.1, hkeys.2, rfl⟩

theorem exists_ofPlaces {start stop : Json} (hstart : start.isPoint = true)
    (hstop : stop.isPoint = true) : ∃ r, Range.ofPlaces start stop = .ok r := by
  obtain ⟨l, hl⟩ := exists_ofPlace hstart
  obtain ⟨l', hl'⟩ := exists_ofPlace hstop
  exact ⟨⟨l, l'⟩, by rw [Range.ofPlaces, hl, hl']; rfl⟩

theorem Json.IsSpan.exists_ofLoc {loc : Json} (h : loc.IsSpan) : ∃ r, Range.ofLoc loc = .ok r := by
  cases loc with
  | object n =>
    obtain ⟨l, hl⟩ := exists_ofPlace h.1
    obtain ⟨l', hl'⟩ := exists_ofPlace h.2
    exact ⟨⟨l, l'⟩, Range.ofLoc_eq_ok.2 ⟨n, rfl, hl, hl'⟩⟩
  | _ => cases h.1

theorem get_of_loc {loc : Node} (h : n.loc = .ok loc) : n.get "loc" = .object loc := by
  unfold Node.loc at h
  split at h
  · rename_i hnode
    split at h <;> cases h
    exact Json.node?_eq_some_iff.1 hnode
  · cases h

theorem error_of_loc {fault : Cause} (h : n.loc = .error fault) :
    fault = .malformed (.noLocation n.type) (.object n) := by
  unfold Node.loc at h
  split at h
  · split at h <;> cases h
    rfl
  · cases h
    rfl

/-- A place that is not open has a line and a column. -/
theorem Json.Intact.answers_places (h : (Json.object n).Intact) :
    Answers (fun loc => ((Json.object n).startsOpen = false → (loc.get "start").isPoint = true) ∧
      ((Json.object n).endsOpen = false → (loc.get "end").isPoint = true)) n.loc := by
  cases hloc : n.loc with
  | ok loc =>
    refine .ok ⟨fun hstart => ?_, fun hend => ?_⟩
    · simpa [Json.startsOpen, Json.node?, hloc, Except.toOption] using hstart
    · simpa [Json.endsOpen, Json.node?, hloc, Except.toOption] using hend
  | error fault =>
    rw [error_of_loc hloc]
    exact h.answers_malformed _

/-- A node that is read with another one for its whole location has it. -/
theorem Json.Intact.answers_loc_of_mem {holder : Node} (h : (Json.object n).Intact)
    (hholder : holder.IsReadable) (hstart : .object n ∈ holder.leading)
    (hend : .object n ∈ holder.trailing) :
    Answers (fun loc => (Json.object loc).IsSpan) n.loc := by
  have hplace := hholder.whole .place
  rw [Node.lacks, Bool.or_eq_false_iff, List.any_eq_false, List.any_eq_false] at hplace
  exact h.answers_places.mono fun loc hloc =>
    ⟨hloc.1 (Bool.eq_false_iff.2 (hplace.1 _ hstart)),
      hloc.2 (Bool.eq_false_iff.2 (hplace.2 _ hend))⟩

theorem Json.Intact.answers_loc (h : (Json.object n).Intact) (htype : n.isAny types = true)
    (hlocated : ∀ t ∈ types, t ∈ NodeType.located) :
    Answers (fun loc => (Json.object loc).IsSpan) n.loc := by
  have hany : n.isAny NodeType.located = true := Node.isAny_mono htype hlocated
  refine h.answers_loc_of_mem h.node ?_ ?_ <;> simp [Node.leading, Node.trailing, hany]

/-- A node that is read with another one for its start has it. -/
theorem Json.Intact.answers_start {holder : Node} (h : (Json.object n).Intact)
    (hholder : holder.IsReadable) (hstart : .object n ∈ holder.leading) :
    Answers (fun start => start.isPoint = true) n.start := by
  have hplace := hholder.whole .place
  rw [Node.lacks, Bool.or_eq_false_iff, List.any_eq_false] at hplace
  have hclosed := Bool.eq_false_iff.2 (hplace.1 _ hstart)
  exact h.answers_places.bind fun _ hloc => .ok (hloc.1 hclosed)

/-! ## Names -/

theorem answers_scalarName (hn : n.IsReadable) (hid : n.isAny ["Identifier"] = true) :
    Answers Answers.Any n.scalarName := by
  have hname : FieldKind.scalar.admits (n.get "name") = true := hn.admits hid (by decide)
  obtain ⟨s, hs⟩ := FieldKind.admits_scalar_iff.1 hname
  rw [Node.scalarName, hs]
  exact .ok trivial

theorem answers_boundName (h : (Json.object n).Intact) (hid : n.isAny ["Identifier"] = true) :
    Answers (fun bound => bound.loc.IsSpan) n.boundName :=
  (h.answers_loc hid (by decide)).bind fun _ hloc =>
    (answers_scalarName h.node hid).bind fun _ _ => .ok hloc

theorem answers_propertySlot {property : Json} (htarget : target.Intact) :
    Answers Answers.Any (propertySlot target property) := by
  unfold propertySlot
  split
  · exact .ok trivial
  · exact htarget.answers_malformed .emptySlot

/-- Every name that an intact target binds has a location, or a fault is reported in its place. -/
theorem answers_boundNames (h : target.Intact) :
    ∀ x ∈ boundNames target, Answers (fun bound => bound.loc.IsSpan) x := by
  -- The lists of a pattern can be read by the grammar, so cases 2 and 4 do not arise. In the others
  -- each part of the pattern is intact like the pattern itself.
  fun_induction boundNames target with
  | case1 n htype =>
    intro x hx
    rw [List.mem_singleton.1 hx]
    exact answers_boundName h (Node.isAny_singleton htype)
  | case2 n htype hentries =>
    have hlist : FieldKind.objects.admits (Node.get n "properties") = true :=
      h.node.admits (Node.isAny_singleton htype) (by decide)
    obtain ⟨items, hitems⟩ := exists_entries? hlist
    rw [hitems] at hentries
    cases hentries
  | case3 n htype properties hentries ih =>
    intro x hx
    obtain ⟨⟨property, hmem⟩, -, hx⟩ := List.mem_flatMap.1 hx
    dsimp only at hx
    have hproperty := (h.get "properties").of_mem_entries? hentries hmem
    split at hx
    · rename_i fault hslot
      obtain ⟨e, rfl⟩ := (answers_propertySlot h).exists_of_error hslot
      rw [List.mem_singleton.1 hx]
      exact .reported e
    · rename_i slot hslot
      rw [object_of_propertySlot hslot] at hproperty
      exact ih property hmem slot hslot (hproperty.get _) x hx
  | case4 n htype hentries =>
    have hlist : FieldKind.objects.admits (Node.get n "elements") = true :=
      h.node.admits (Node.isAny_singleton htype) (by decide)
    obtain ⟨items, hitems⟩ := exists_entries? hlist
    rw [hitems] at hentries
    cases hentries
  | case5 n htype elements hentries ih =>
    intro x hx
    obtain ⟨⟨element, hmem⟩, -, hx⟩ := List.mem_flatMap.1 hx
    exact ih element hmem ((h.get "elements").of_mem_entries? hentries hmem) x hx
  | case6 n htype ih => exact ih (h.get "left")
  | case7 n htype ih => exact ih (h.get "argument")
  | case8 => nofun
  | case9 => nofun

end LexicalScopes
