import LexicalScopes.Proofs.Missing.Readings
import LexicalScopes.Proofs.Renaming.Names

/-!
# Reads and function names in intact trees

The wrappers of a reference and the name of a function depend on the nodes around it. Where these
are intact, the wrappers have the places that the scope tree needs, and a name is found.
-/

namespace LexicalScopes

variable {p : Path} {n : Node} {j : Json}

/-! ## Pairs -/

theorem Node.replace_eq {key : String} {value : Json} :
    n.replace key value = n.map fun (k, v) => (k, if k == key then value else v) := by
  refine List.map_congr_left fun field _ => ?_
  obtain ⟨k, v⟩ := field
  exact (apply_ite (Prod.mk k) (k == key) value v).symm

theorem Node.has_replace {value : Json} (key other : String) :
    (n.replace key value).has other = n.has other := by
  rw [has, replace_eq, lookup_map fun k v => if k == key then value else v, Option.isSome_map, has]

/-- One column further right than a place with a number for its column there is a place, too. -/
theorem answers_nextPlace_of_isNumber {place : Json} (hpoint : place.isPoint = true)
    (hcolumn : (place.field? "column").any Json.isNumber = true) :
    Answers (fun next => next.isPoint = true) place.nextPlace := by
  obtain ⟨m, hm, hkeys⟩ := (Option.any_eq_true _ _).1 hpoint
  rw [Json.field?, hm, Option.map_some, Option.any_some] at hcolumn
  have hnext : Answers Answers.Any (m.get "column").nextColumn := by
    unfold Json.isNumber at hcolumn
    split at hcolumn
    · rename_i hint
      rw [hint]
      exact .ok trivial
    · rename_i hfloat
      rw [hfloat]
      exact .ok trivial
    · cases hcolumn
  have hhas : m.has "column" = true := (Bool.and_eq_true_iff.1 hkeys).2
  rw [Json.nextPlace, Json.node?_eq_some_iff.1 hm, Json.record_object, ok_bind,
    Node.required_of_has hhas, ok_bind]
  refine hnext.bind fun column _ => .ok ?_
  rwa [Json.isPoint, Json.node?, Option.any_some, Node.has_replace, Node.has_replace]

/-- The end of an intact sequence that is called has a number for its column. -/
theorem answers_nextPlace {call loc : Node} (h : (Json.object n).Intact) (hcall : call.IsReadable)
    (htype : call.isAny NodeType.calls = true) (hcallee : call.get "callee" = .object n)
    (hpair : n.isAny ["SequenceExpression"] = true) (hloc : n.loc = .ok loc)
    (hspan : (Json.object loc).IsSpan) :
    Answers (fun next => next.isPoint = true) (loc.get "end").nextPlace := by
  obtain ⟨stop, hstop, -⟩ := (Option.any_eq_true _ _).1 hspan.2
  have hobject : loc.get "end" = .object stop := Json.node?_eq_some_iff.1 hstop
  -- The column is null or a number by the grammar, and null would be a hole.
  have hwhole := hcall.whole .lastColumn
  have hlocation := h.node.isLocation
  simp only [Node.lacks, htype, hcallee, Json.isAny_object, hpair, Json.endsInNull, Json.node?,
    hloc, Except.toOption, Option.any_some, Bool.true_and, hobject, Json.field?_object] at hwhole
  simp only [get_of_loc hloc, Json.isLocation, Json.isPlace, Json.field?_object, Option.all_some,
    hobject, Bool.and_eq_true, FieldKind.admits, hwhole, Bool.false_or] at hlocation
  refine answers_nextPlace_of_isNumber hspan.2 ?_
  rw [hobject]
  exact hlocation.2.2

/-- The ends of the wrapper have a line and a column. -/
def Wrapper.IsSpan (w : Wrapper) : Prop := w.start.isPoint = true ∧ w.stop.isPoint = true

theorem answers_covering (h : (Json.object n).Intact) (hcall : n.isAny NodeType.calls = true)
    (form : WrapperForm) : Answers Wrapper.IsSpan (Wrapper.covering form n) :=
  (h.answers_loc hcall (by decide)).bind fun _ hloc => .ok hloc

theorem answers_pairWrapper (h : p.Intact) (hpair : p.node.isAny ["SequenceExpression"] = true) :
    Answers Wrapper.IsSpan (pairWrapper p) := by
  unfold pairWrapper
  refine (h.node.answers_loc hpair (by decide)).read.bind fun loc hloc => ?_
  cases p with
  | root n => exact .ok hloc.1
  | child call key index n =>
    refine .ite (fun hcallee => ?_) fun _ => .ok hloc.1
    obtain ⟨htype, hget⟩ := h.get_of_isChildOf hcallee (by decide)
    obtain ⟨hcall, hn, -⟩ := h
    have hstart : Answers (fun start => start.isPoint = true) call.node.start :=
      (hcall.node.answers_loc htype (by decide)).bind fun _ hloc => .ok hloc.1
    refine hstart.bind fun start hstart => ?_
    exact (answers_nextPlace hn hcall.node.node htype hget hpair hloc.2 hloc.1).bind
      fun stop hstop => .ok ⟨hstart, hstop⟩

theorem answers_isBoxingPair (h : FieldKind.objects.admits j = true) :
    Answers Answers.Any j.isBoxingPair := by
  rcases FieldKind.admits_objects_iff.1 h with rfl | ⟨items, rfl, -⟩
  · exact .ok trivial
  · -- Whether there are two expressions shows after the first three.
    rcases items with _ | ⟨first, _ | ⟨second, _ | ⟨third, rest⟩⟩⟩ <;> exact .ok trivial

/-! ## Accesses and calls -/

theorem answers_argumentCount (hn : n.IsReadable) (hcall : n.isAny NodeType.calls = true) :
    Answers Answers.Any n.argumentCount := by
  have hlist : FieldKind.objects.admits (n.get "arguments") = true := hn.admits hcall (by decide)
  obtain ⟨items, hitems⟩ := exists_entries? hlist
  rw [Node.argumentCount, Json.counted, hitems]
  exact .ok trivial

theorem answers_accessedProperty? (hn : n.IsReadable) (hmember : n.isAny NodeType.members = true) :
    Answers Answers.Any n.accessedProperty? := by
  have hobject : FieldKind.object.admits (n.get "property") = true := hn.admits hmember (by decide)
  have hwhole := hn.whole .property
  unfold Node.accessedProperty?
  refine .ite (fun _ => .ok trivial) fun hcomputed => ?_
  simp only [Node.lacks, hmember, hcomputed, Bool.not_false, Bool.true_and] at hwhole
  rcases FieldKind.admits_object_iff.1 hobject with hnull | ⟨property, hproperty⟩
  · rw [hnull] at hwhole
    cases hwhole
  · rw [hproperty]
    exact .ok trivial

/-- The wrapper, if there is one, has lines and columns. -/
abbrev Wrapper.IsSpanIfAny (w : Option Wrapper) : Prop := ∀ wrapper ∈ w, wrapper.IsSpan

theorem answers_wrapperAt? (h : p.Intact) (key : String) (index : Option Nat) :
    Answers Wrapper.IsSpanIfAny (wrapperAt? p key index) := by
  have hn := h.node.node
  have hsome {x : Except Cause Wrapper} (hx : Answers Wrapper.IsSpan x) :
      Answers Wrapper.IsSpanIfAny (some <$> x) :=
    hx.bind fun w hw => .ok (by simpa [Wrapper.IsSpanIfAny] using hw)
  have hnone : Answers Wrapper.IsSpanIfAny (.ok none) := .ok nofun
  -- One case for pairs, one for calls and one for accesses.
  unfold wrapperAt?
  dsimp only
  split
  · rename_i hpair
    have hlist : FieldKind.objects.admits (p.node.get "expressions") = true :=
      hn.admits hpair (by decide)
    refine (answers_isBoxingPair hlist).bind fun _ _ => .ite (fun _ => ?_) fun _ => hnone
    exact .ite (fun _ => hsome (answers_pairWrapper h hpair)) fun _ => hnone
  · refine .ite (fun hcall => ?_) fun _ => .ite (fun hmember => ?_) fun _ => hnone
    · have hcount := answers_argumentCount hn hcall
      refine .ite (fun _ => ?_) fun _ => .ite (fun _ => ?_) fun _ => hnone
      · exact hcount.bind fun _ _ =>
          .ite (fun _ => hsome (answers_covering h.node hcall .inherit)) fun _ => hnone
      · exact hcount.bind fun _ _ =>
          .ite (fun _ => hsome (answers_covering h.node hcall .call)) fun _ => hnone
    · have htype := (Bool.and_eq_true_iff.1 hmember).1
      refine (h.node.answers_loc htype (by decide)).bind fun loc hloc => ?_
      refine (answers_accessedProperty? hn htype).bind fun property _ => .ok fun w hw => ?_
      obtain ⟨_, -, rfl⟩ := Option.map_eq_some_iff.1 hw
      exact hloc

theorem answers_wrappers (h : p.Intact) :
    Answers (fun ws => ∀ w ∈ ws, w.IsSpan) p.wrappers := by
  induction p with
  | root n => exact .ok nofun
  | child parent key index n ih =>
    rw [Path.wrappers_child]
    refine (answers_wrapperAt? h.1 key index).bind fun w hw => ?_
    cases w with
    | none => exact .ok nofun
    | some w => exact (ih h.1).bind fun ws hws => .ok (List.forall_mem_cons.2 ⟨hw w rfl, hws⟩)

/-- The read stands at two places with a line and a column, and so do its wrappers. -/
structure Occurrence.IsSpan (o : Occurrence) : Prop where
  start : o.start.isPoint = true
  stop : o.stop.isPoint = true
  wrappers : ∀ w ∈ o.wrappers, w.IsSpan

theorem answers_occurrence {types : List String} (h : p.Intact) (htype : p.node.isAny types = true)
    (hlocated : ∀ t ∈ types, t ∈ NodeType.located) : Answers Occurrence.IsSpan p.occurrence :=
  (h.node.answers_loc htype hlocated).bind fun _ hloc =>
    (answers_wrappers h).bind fun _ hws => .ok ⟨hloc.1, hloc.2, hws⟩

/-! ## Names of functions -/

theorem answers_of_verdict {α : Type} {x : Except Cause α} (h : Answers Answers.Any (verdict x)) :
    Answers Answers.Any x := by
  cases x with
  | ok a => exact .ok trivial
  | error fault =>
    obtain ⟨e, rfl⟩ := h.exists_of_error rfl
    exact .reported e

theorem answers_scalarType (hn : n.IsReadable) : Answers Answers.Any n.type.scalarType := by
  obtain ⟨s, hs⟩ := hn.exists_type
  rw [hs]
  exact .ok trivial

theorem answers_plainProperty? (h : j.Intact) : Answers Answers.Any j.plainProperty? := by
  unfold Json.plainProperty?
  split
  · exact .ok trivial
  · rename_i n hnode
    rw [Json.node?_eq_some_iff.1 hnode] at h
    refine (answers_scalarType h.node).bind fun type _ => ?_
    exact .ite (fun _ => .ok trivial) fun _ => .ok trivial

theorem answers_nameFromParent (h : (Json.object n).Intact) (function : Json)
    (field : Option String) : Answers Answers.Any (nameFromParent function (.object n) field) := by
  refine answers_of_verdict ?_
  rw [verdict_nameFromParent, Json.fields_object, ok_bind]
  refine (answers_scalarType h.node).bind fun type _ => ?_
  refine .ite (fun _ => .ok trivial) fun _ => .ite (fun _ => ?_) fun _ => .ok trivial
  exact (answers_plainProperty? (h.get "left")).bind fun _ _ => .ok trivial

/-- A name is found for every function of an intact tree. -/
theorem answers_functionName (h : p.Intact) : Answers Answers.Any p.functionName := by
  unfold Path.functionName LexicalScopes.functionName
  simp only [Json.fields_object, ok_bind]
  split
  · exact .ok trivial
  · refine .ite (fun _ => .ok trivial) fun _ => ?_
    cases p with
    | root n => exact .ok trivial
    | child parent key index n => exact answers_nameFromParent h.1.node _ _

end LexicalScopes
