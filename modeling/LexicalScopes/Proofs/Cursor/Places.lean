import LexicalScopes.Proofs.Containment

/-!
# Where reads stand

In a tree with ordered places every place can be compared with every other one, and no node starts
after a node that it is in ends. The scopes around a read then include the place where the read
starts, and it is decided for all other scopes whether they do.
-/

namespace LexicalScopes

/-! ## Places in locations -/

namespace Json

/-- The two places can be compared, if both have a line and a column. -/
def comparable (a b : Json) : Bool :=
  match Location.ofPlace a, Location.ofPlace b with
  | .ok l, .ok m => (l.le m).isOk
  | _, _ => true

/-- The place is not before the start of the location and not after its end. -/
def includes (l a : Json) : Bool := l.startPlace.notAfter a && a.notAfter l.endPlace

variable {l a b : Json} {x y : Location} {r : Range}

theorem exists_le_of_comparable (h : a.comparable b = true) (ha : Location.ofPlace a = .ok x)
    (hb : Location.ofPlace b = .ok y) : ∃ c, x.le y = .ok c := by
  rw [comparable, ha, hb] at h
  exact exists_eq_ok h

/-- It is decided whether a range contains a place if both ends can be compared with it. -/
theorem exists_contains_of_comparable (hstart : l.startPlace.comparable a = true)
    (hend : a.comparable l.endPlace = true) (hl : Range.ofLoc l = .ok r)
    (ha : Location.ofPlace a = .ok x) : ∃ c, r.contains x = .ok c := by
  obtain ⟨hlstart, hlend⟩ := exists_of_ofLoc hl
  obtain ⟨c, hc⟩ := exists_le_of_comparable hstart hlstart ha
  obtain ⟨d, hd⟩ := exists_le_of_comparable hend ha hlend
  rw [Range.contains, hc, ok_bind]
  split
  · exact ⟨d, hd⟩
  · exact ⟨false, rfl⟩

theorem contains_of_includes (h : l.includes a = true) (hl : Range.ofLoc l = .ok r)
    (ha : Location.ofPlace a = .ok x) : r.contains x = .ok true := by
  obtain ⟨hstart, hend⟩ := Bool.and_eq_true_iff.1 h
  obtain ⟨hlstart, hlend⟩ := exists_of_ofLoc hl
  rw [Range.contains, le_of_notAfter hstart hlstart ha, ok_bind, if_pos rfl,
    le_of_notAfter hend ha hlend]

end Json

/-! ## Ordered places -/

namespace Node

/-- The places where the nodes of a tree start and end. -/
def places (root : Node) : List Json :=
  (.root root :: (Path.root root).descendants).flatMap fun p =>
    [p.node.place.startPlace, p.node.place.endPlace]

/-- All places can be compared, and no node starts after itself or a node around it ends. -/
structure Ordered (root : Node) : Prop where
  comparable : ∀ a ∈ root.places, ∀ b ∈ root.places, a.comparable b = true
  starts : ∀ p ∈ .root root :: (Path.root root).descendants, ∀ q ∈ p :: p.descendants,
    q.node.place.startPlace.notAfter p.node.place.endPlace = true

instance (root : Node) : Decidable root.Ordered :=
  decidable_of_iff
    ((∀ a ∈ root.places, ∀ b ∈ root.places, a.comparable b = true) ∧
      ∀ p ∈ .root root :: (Path.root root).descendants, ∀ q ∈ p :: p.descendants,
        q.node.place.startPlace.notAfter p.node.place.endPlace = true)
    ⟨fun ⟨hcomparable, hstarts⟩ => ⟨hcomparable, hstarts⟩,
      fun ⟨hcomparable, hstarts⟩ => ⟨hcomparable, hstarts⟩⟩

end Node

section Places

variable {root : Node} {past : List Event} {around : List ScopeId} {p q : Path} {a : Action}
  {heading : Heading} {before after final : Builder} {name : Scalar} {s : ScopeId}

theorem Node.startPlace_mem_places (h : p ∈ .root root :: (Path.root root).descendants) :
    p.node.place.startPlace ∈ root.places := List.mem_flatMap.2 ⟨p, h, by simp⟩

theorem Node.endPlace_mem_places (h : p ∈ .root root :: (Path.root root).descendants) :
    p.node.place.endPlace ∈ root.places := List.mem_flatMap.2 ⟨p, h, by simp⟩

theorem Action.loc_mem_locs (h : a.heading? = some heading) : heading.loc ∈ a.locs := by
  cases a with
  | openRoot loc =>
    cases h
    exact List.mem_cons_self
  | openScope type name loc =>
    cases h
    exact List.mem_cons_self
  | _ => cases h

/-- A scope ends where the node ends that opens it. -/
theorem Path.Performs.endPlace_heading (ha : p.Performs a) (h : a.heading? = some heading) :
    heading.loc.endPlace = p.node.place.endPlace := by
  cases ha with
  | openRoot hloc =>
    cases h
    rw [Node.place_of_loc hloc]
  | openScope hloc type label =>
    cases h
    rw [Node.place_of_loc hloc]
  | openFunction hrole hrange name =>
    cases h
    exact (Node.exists_of_functionRange hrange).1
  | openLoop hrole hlexical hhead hstart hloc =>
    cases h
    rw [Node.place_of_loc hloc]
    rfl
  | _ => cases h

/-! ## Places of scopes -/

/-- Scopes start and end at places of the tree. -/
theorem mem_places_of_collect (hfinal : collect (.object root) = .ok final)
    (hregular : root.Regular) : ∀ s < final.graph.nextScope,
      (final.graph.draft s).loc.startPlace ∈ root.places ∧
        (final.graph.draft s).loc.endPlace ∈ root.places := by
  have htree := (ofTree_of_collect hfinal).2
  refine Builder.run_induction (P := fun _ b => ∀ s < b.graph.nextScope,
    (final.graph.draft s).loc.startPlace ∈ root.places ∧
      (final.graph.draft s).loc.endPlace ∈ root.places) htree ?_ ?_ ?_
  · intro s hs
    exact absurd hs (Nat.not_lt_zero s)
  · intro past around p before after hvisit hpasses hbefore s hs
    rcases Nat.lt_or_ge s before.graph.nextScope with hold | hnew
    · exact hbefore s hold
    · -- The node has made the scope.
      rw [hpasses.nextScope_after] at hs
      rw [hpasses.nextScope_before] at hnew
      obtain ⟨a, heading, ha, hheading, hloc⟩ :=
        hpasses.exists_heading (Path.mem_ownScopes.2 ⟨hnew, hs⟩)
      obtain ⟨⟨q, hq, hstart⟩, q', hq', hend⟩ :=
        (hvisit.orderly hregular).borders_of_mem_locs ha (Action.loc_mem_locs hheading)
      rw [hloc, ← hstart, ← hend]
      exact ⟨Node.startPlace_mem_places (hvisit.mem_of_mem hq),
        Node.endPlace_mem_places (hvisit.mem_of_mem hq')⟩
  · intro past p b b' hgraph hb
    rwa [hgraph]

/-- It is decided whether a scope contains a place of the tree. -/
theorem exists_contains_of_collect (hfinal : collect (.object root) = .ok final)
    (hregular : root.Regular) (hordered : root.Ordered) {place : Json} {l : Location}
    {range : Range} (hplace : place ∈ root.places) (hl : Location.ofPlace place = .ok l)
    (hrange : Range.ofLoc (final.graph.draft s).loc = .ok range) :
    ∃ c, range.contains l = .ok c := by
  have hs : s < final.graph.nextScope := by
    by_contra hge
    rw [Graph.draft_of_le (Nat.not_lt.1 hge)] at hrange
    cases hrange
  obtain ⟨hstart, hend⟩ := mem_places_of_collect hfinal hregular s hs
  exact Json.exists_contains_of_comparable (hordered.comparable _ hstart _ hplace)
    (hordered.comparable _ hplace _ hend) hrange hl

/-! ## Scopes around a read -/

/-- A scope around a node ends where a node ends that the node is in. -/
theorem Visit.exists_ending (h : Visit root past around p)
    (hfinal : Builder.ofTree root = .ok final) (hs : s ∈ around) :
    ∃ q ∈ .root root :: (Path.root root).descendants, p ∈ q.descendants ∧
      (final.graph.draft s).loc.endPlace = q.node.place.endPlace := by
  induction h with
  | root => cases hs
  | @child past around p c earlier later h hkids ih =>
    have hc : c ∈ p.descendants := Path.mem_descendants_of_mem_kids (by simp [hkids])
    rcases List.mem_append.1 hs with hown | hold
    · obtain ⟨before, after, hpasses⟩ := h.passes hfinal
      obtain ⟨a, heading, ha, hheading, hloc⟩ := hpasses.exists_heading hown
      exact ⟨p, h.mem_descendants, hc, by rw [hloc, ha.endPlace_heading hheading]⟩
    · obtain ⟨q, hq, hp, hend⟩ := ih hold
      exact ⟨q, hq, Path.mem_descendants_trans hp hc, hend⟩

theorem isFunctionName_of_readName? {b b' : Builder} (hname : p.readName? = some name)
    (hid : p.isFunctionName = true → p.node.isAny ["Identifier"] = true)
    (h : b.replay p.enterActions = .ok b') : p.isFunctionName = false := by
  rw [Bool.eq_false_iff]
  intro hfunction
  obtain ⟨first, hactions, -⟩ := enterActions_of_readName? hname h
  rw [Path.enterActions_of_isFunctionName (hid hfunction) hfunction] at hactions
  simp at hactions

/-- A node that reads a name opens no scope narrower than itself. -/
theorem Path.Performs.wide_of_readName? (ha : p.Performs a) (hname : p.readName? = some name) :
    p.Wide a := by
  have hrole : p.node.role? = some .this ∨ p.node.role? = some .identifier := by
    have hkinds : ["ThisExpression", "Identifier"] = ["ThisExpression"] ++ ["Identifier"] := rfl
    have htype := isAny_of_readName? hname
    rw [hkinds, Node.isAny_append, Bool.or_eq_true] at htype
    exact htype.imp (Node.role?_of_isAny (by decide)) (Node.role?_of_isAny (by decide))
  rcases hrole with hrole | hrole <;> exact ha.wide (by simp [hrole]) (by simp [hrole])

/-- The scopes around a read include the place where the read starts. -/
theorem Visit.includes_start (h : Visit root past around p) (hregular : root.Regular)
    (hordered : root.Ordered) (hfinal : Builder.ofTree root = .ok final)
    (hname : p.readName? = some name) (hs : s ∈ p.ownScopes past ++ around) :
    (final.graph.draft s).loc.includes p.node.place.startPlace = true := by
  obtain ⟨before, after, hpasses⟩ := h.passes hfinal
  rw [Json.includes, Bool.and_eq_true_iff]
  rcases List.mem_append.1 hs with hown | hold
  · obtain ⟨a, heading, ha, hheading, hloc⟩ := hpasses.exists_heading hown
    rw [hloc, ha.wide_of_readName? hname heading hheading]
    have hself := (h.orderly hregular).surrounds List.mem_cons_self
    exact ⟨(Json.surrounds_iff.1 hself).1, hordered.starts p h.mem_descendants p List.mem_cons_self⟩
  · have hfunction := isFunctionName_of_readName? hname (h.isAny_of_isFunctionName hregular)
      hpasses.run_enter
    have hcovers := h.covers hregular hfinal hfunction s hold p List.mem_cons_self
    obtain ⟨q, hq, hp, hend⟩ := h.exists_ending hfinal hold
    rw [hend]
    exact ⟨(Json.surrounds_iff.1 hcovers).1, hordered.starts q hq p (List.mem_cons_of_mem _ hp)⟩

end Places

end LexicalScopes
