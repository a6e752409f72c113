import LexicalScopes.Proofs.Destructuring.Receivers
import LexicalScopes.Proofs.Positions
import LexicalScopes.Proofs.Ways

/-!
# What a target meets

A declaration target hands its binding on to its receivers, and these to theirs. At the ends of the
ways stand identifiers, which declare their names, and obstacles: slots of object patterns without a
property, lists that are none, identifiers without a location. The names of a target are listed by
what stands at the ends of all ways, in the order of the ways. No way leads to the key of a property
or to a default value, and none leads on from what is no pattern.
-/

namespace LexicalScopes

variable {n pattern : Node} {j k target : Json} {way : Way} {i : Nat} {fault : Cause}
  {x : Except Cause BoundName} {position : Option Position} {defect : Defect}

/-! ## Ways -/

/-- A target hands its binding on, along a way, to the value at the end of the way. -/
inductive Json.HandsOn : Json → Way → Json → Prop
  | here (j : Json) : HandsOn j [] j
  /-- An object pattern hands it on to the values of its properties. -/
  | property {n slot : Node} {properties : List Json} {i : Nat} {way : Way} {j : Json}
      (htype : n.type = .string "ObjectPattern")
      (hproperties : (n.get "properties").entries? = some properties)
      (hslot : properties[i]? = some (.object slot)) (hplain : slot.type ≠ .string "RestElement")
      (h : HandsOn (slot.get "value") way j) : HandsOn (.object n) (i :: way) j
  /-- It hands it on to what its rests hold, too. -/
  | others {n slot : Node} {properties : List Json} {i : Nat} {way : Way} {j : Json}
      (htype : n.type = .string "ObjectPattern")
      (hproperties : (n.get "properties").entries? = some properties)
      (hslot : properties[i]? = some (.object slot)) (hrest : slot.type = .string "RestElement")
      (h : HandsOn (slot.get "argument") way j) : HandsOn (.object n) (i :: way) j
  | element {n : Node} {elements : List Json} {element : Json} {i : Nat} {way : Way} {j : Json}
      (htype : n.type = .string "ArrayPattern")
      (helements : (n.get "elements").entries? = some elements)
      (helement : elements[i]? = some element)
      (h : HandsOn element way j) : HandsOn (.object n) (i :: way) j
  /-- The other side of an `AssignmentPattern` is the default value. -/
  | optional {n : Node} {way : Way} {j : Json} (htype : n.type = .string "AssignmentPattern")
      (h : HandsOn (n.get "left") way j) : HandsOn (.object n) (0 :: way) j
  | rest {n : Node} {way : Way} {j : Json} (htype : n.type = .string "RestElement")
      (h : HandsOn (n.get "argument") way j) : HandsOn (.object n) (0 :: way) j

/-- An object pattern in the target has, at the end of the way, a slot in which no property
stands. -/
inductive Json.HasEmptySlot (target : Json) : Way → Node → Prop
  | intro {pattern : Node} {properties : List Json} {entry : Json} {way : Way} {i : Nat}
      (h : target.HandsOn way (.object pattern)) (htype : pattern.type = .string "ObjectPattern")
      (hproperties : (pattern.get "properties").entries? = some properties)
      (hentry : properties[i]? = some entry) (hempty : entry.node? = none) :
      HasEmptySlot target (way ++ [i]) pattern

/-- What stands at the end of a way: the name that an identifier declares there, or the reason why
the target cannot be read further. -/
inductive Json.Meets (target : Json) : Way → Except Cause BoundName → Prop
  | identifier {way : Way} {n : Node} (h : target.HandsOn way (.object n))
      (htype : n.type = .string "Identifier") : Meets target way n.boundName
  /-- An empty slot is reported, with the position of the pattern if that has one. -/
  | emptySlot {way : Way} {pattern : Node} {position : Option Position}
      (h : target.HasEmptySlot way pattern) (hplace : pattern.isPlaceable = true)
      (hposition : ∀ p, position = some p ↔ pattern.StartsAt p) :
      Meets target way (.error (.reported (.malformed .emptySlot position)))
  /-- But a pattern whose position cannot be read cannot be reported. -/
  | unplacedSlot {way : Way} {pattern : Node} (h : target.HasEmptySlot way pattern)
      (hplace : pattern.isPlaceable = false) :
      Meets target way (.error (.misread (.method pattern.misplacedKind "get")))
  | properties {way : Way} {n : Node} (h : target.HandsOn way (.object n))
      (htype : n.type = .string "ObjectPattern")
      (hlist : (n.get "properties").entries? = none) :
      Meets target way (.error (.misread (.entries (n.get "properties").kind)))
  | elements {way : Way} {n : Node} (h : target.HandsOn way (.object n))
      (htype : n.type = .string "ArrayPattern")
      (hlist : (n.get "elements").entries? = none) :
      Meets target way (.error (.misread (.entries (n.get "elements").kind)))

/-! ## The fault of an empty slot -/

theorem Cause.malformed_of_isPlaceable (hplace : n.isPlaceable = true)
    (hposition : ∀ p, position = some p ↔ n.StartsAt p) :
    Cause.malformed defect (.object n) = .reported (.malformed defect position) := by
  obtain ⟨found, hread, hfound⟩ := Position.ofNode?_eq_ok hplace
  have heq : found = position := Option.ext fun p => (hfound p).trans (hposition p).symm
  rw [Cause.malformed, hread, heq]

theorem Cause.malformed_of_unplaced (hplace : n.isPlaceable = false) :
    Cause.malformed defect (.object n) = .misread (.method n.misplacedKind "get") := by
  rw [Cause.malformed, Position.ofNode?_eq_error hplace]

/-! ## The first step of a way -/

namespace Json

theorem HandsOn.cons (hreceives : n.Receives i (.ok k)) (h : k.HandsOn way j) :
    (Json.object n).HandsOn (i :: way) j := by
  rcases hreceives.cases with ⟨properties, entry, htype, hproperties, hentry, hk⟩ |
    ⟨elements, element, htype, helements, helement, ⟨⟩⟩ | ⟨htype, rfl, ⟨⟩⟩ | ⟨htype, rfl, ⟨⟩⟩
  · rcases Node.slotReceiver_cases (n := n) entry with ⟨slot, rfl, hok⟩ | ⟨-, herror⟩
    · cases hk.trans hok
      by_cases hrest : slot.type = .string "RestElement"
      · rw [Node.get_targetField_of_rest hrest] at h
        exact .others htype hproperties hentry hrest h
      · rw [Node.get_targetField_of_ne hrest] at h
        exact .property htype hproperties hentry hrest h
    · cases hk.trans herror
  · exact .element htype helements helement h
  · exact .optional htype h
  · exact .rest htype h

/-- A way ends at once, or leads on from one of the receivers. -/
theorem HandsOn.cases (h : (Json.object n).HandsOn way j) :
    way = [] ∧ j = .object n ∨
      ∃ i k rest, way = i :: rest ∧ n.Receives i (.ok k) ∧ k.HandsOn rest j := by
  cases h with
  | here _ => exact .inl ⟨rfl, rfl⟩
  | property htype hproperties hslot hplain h =>
    rw [← Node.get_targetField_of_ne hplain] at h
    exact .inr ⟨_, _, _, rfl, Node.receives_property htype hproperties hslot, h⟩
  | others htype hproperties hslot hrest h =>
    rw [← Node.get_targetField_of_rest hrest] at h
    exact .inr ⟨_, _, _, rfl, Node.receives_property htype hproperties hslot, h⟩
  | element htype helements helement h =>
    exact .inr ⟨_, _, _, rfl, Node.receives_element htype helements helement, h⟩
  | optional htype h => exact .inr ⟨_, _, _, rfl, Node.receives_left htype, h⟩
  | rest htype h => exact .inr ⟨_, _, _, rfl, Node.receives_argument htype, h⟩

theorem HandsOn.eq_of_not_object (h : j.HandsOn way k) (hj : ∀ n, j ≠ .object n) : k = j := by
  cases h with
  | here _ => rfl
  | _ => exact absurd rfl (hj _)

/-- An empty slot is one of the target itself, or it is found on the way on from a receiver. -/
theorem HasEmptySlot.cases (h : (Json.object n).HasEmptySlot way pattern) :
    (∃ i, way = [i] ∧ pattern = n ∧
        n.Receives i (.error (.malformed .emptySlot (.object n)))) ∨
      ∃ i k rest, way = i :: rest ∧ n.Receives i (.ok k) ∧ k.HasEmptySlot rest pattern := by
  cases h with
  | @intro _ _ _ _ i h htype hproperties hentry hempty =>
    rcases h.cases with ⟨rfl, ⟨⟩⟩ | ⟨first, k, rest, rfl, hreceives, h⟩
    · have hreceives := Node.receives_property htype hproperties hentry
      rw [Node.slotReceiver_of_empty hempty] at hreceives
      exact .inl ⟨i, rfl, rfl, hreceives⟩
    · exact .inr ⟨first, k, _, rfl, hreceives, .intro h htype hproperties hentry hempty⟩

theorem HasEmptySlot.cons (hreceives : n.Receives i (.ok k)) (h : k.HasEmptySlot way pattern) :
    (Json.object n).HasEmptySlot (i :: way) pattern := by
  cases h with
  | intro h htype hproperties hentry hempty =>
    exact .intro (h.cons hreceives) htype hproperties hentry hempty

/-- Only a slot without a property is a receiver that is none. -/
theorem HasEmptySlot.of_receives (hreceives : n.Receives i (.error fault)) :
    (Json.object n).HasEmptySlot [i] n ∧ fault = .malformed .emptySlot (.object n) := by
  rcases hreceives.cases with ⟨properties, entry, htype, hproperties, hentry, hfault⟩ |
    ⟨_, _, _, _, _, ⟨⟩⟩ | ⟨_, _, ⟨⟩⟩ | ⟨_, _, ⟨⟩⟩
  rcases Node.slotReceiver_cases (n := n) entry with ⟨slot, -, hok⟩ | ⟨hempty, herror⟩
  · cases hfault.trans hok
  · cases hfault.trans herror
    have hslot := HasEmptySlot.intro (.here (.object n)) htype hproperties hentry hempty
    exact ⟨hslot, rfl⟩

theorem Meets.cons (hreceives : n.Receives i (.ok k)) (h : k.Meets way x) :
    (Json.object n).Meets (i :: way) x := by
  cases h with
  | identifier h htype => exact .identifier (h.cons hreceives) htype
  | emptySlot h hplace hposition => exact .emptySlot (h.cons hreceives) hplace hposition
  | unplacedSlot h hplace => exact .unplacedSlot (h.cons hreceives) hplace
  | properties h htype hlist => exact .properties (h.cons hreceives) htype hlist
  | elements h htype hlist => exact .elements (h.cons hreceives) htype hlist

theorem Meets.of_receives (hreceives : n.Receives i (.error fault)) :
    (Json.object n).Meets [i] (.error fault) := by
  obtain ⟨hslot, rfl⟩ := HasEmptySlot.of_receives hreceives
  cases hplace : n.isPlaceable with
  | true =>
    obtain ⟨position, -, hposition⟩ := Position.ofNode?_eq_ok hplace
    rw [Cause.malformed_of_isPlaceable hplace hposition]
    exact .emptySlot hslot hplace hposition
  | false =>
    rw [Cause.malformed_of_unplaced hplace]
    exact .unplacedSlot hslot hplace

theorem Meets.of_receivers_eq_error (h : n.receivers = .error fault) :
    (Json.object n).Meets [] (.error fault) := by
  unfold Node.receivers at h
  split at h
  · rename_i htype
    obtain ⟨hnone, rfl⟩ := readable_eq_error.1 (map_eq_error.1 h)
    exact .properties (.here _) htype hnone
  · rename_i htype
    obtain ⟨hnone, rfl⟩ := readable_eq_error.1 (map_eq_error.1 h)
    exact .elements (.here _) htype hnone
  all_goals cases h

/-- What a target meets stands at its own place, in an empty slot of its own, or on the way on from
one of its receivers. -/
theorem Meets.cases (h : (Json.object n).Meets way x) :
    way = [] ∧ n.type = .string "Identifier" ∧ x = n.boundName ∨
      (∃ fault, way = [] ∧ n.receivers = .error fault ∧ x = .error fault) ∨
      (∃ i fault, way = [i] ∧ n.Receives i (.error fault) ∧ x = .error fault) ∨
      ∃ i k rest, way = i :: rest ∧ n.Receives i (.ok k) ∧ k.Meets rest x := by
  cases h with
  | identifier h htype =>
    rcases h.cases with ⟨rfl, ⟨⟩⟩ | ⟨i, k, rest, rfl, hreceives, h⟩
    · exact .inl ⟨rfl, htype, rfl⟩
    · exact .inr (.inr (.inr ⟨i, k, rest, rfl, hreceives, .identifier h htype⟩))
  | emptySlot h hplace hposition =>
    rcases h.cases with ⟨i, rfl, rfl, hreceives⟩ | ⟨i, k, rest, rfl, hreceives, h⟩
    · rw [Cause.malformed_of_isPlaceable hplace hposition] at hreceives
      exact .inr (.inr (.inl ⟨i, _, rfl, hreceives, rfl⟩))
    · exact .inr (.inr (.inr ⟨i, k, rest, rfl, hreceives, .emptySlot h hplace hposition⟩))
  | unplacedSlot h hplace =>
    rcases h.cases with ⟨i, rfl, rfl, hreceives⟩ | ⟨i, k, rest, rfl, hreceives, h⟩
    · rw [Cause.malformed_of_unplaced hplace] at hreceives
      exact .inr (.inr (.inl ⟨i, _, rfl, hreceives, rfl⟩))
    · exact .inr (.inr (.inr ⟨i, k, rest, rfl, hreceives, .unplacedSlot h hplace⟩))
  | properties h htype hlist =>
    rcases h.cases with ⟨rfl, ⟨⟩⟩ | ⟨i, k, rest, rfl, hreceives, h⟩
    · exact .inr (.inl ⟨_, rfl, Node.receivers_of_unlisted_properties htype hlist, rfl⟩)
    · exact .inr (.inr (.inr ⟨i, k, rest, rfl, hreceives, .properties h htype hlist⟩))
  | elements h htype hlist =>
    rcases h.cases with ⟨rfl, ⟨⟩⟩ | ⟨i, k, rest, rfl, hreceives, h⟩
    · exact .inr (.inl ⟨_, rfl, Node.receivers_of_unlisted_elements htype hlist, rfl⟩)
    · exact .inr (.inr (.inr ⟨i, k, rest, rfl, hreceives, .elements h htype hlist⟩))

/-- Nothing is met in what is no node. -/
theorem Meets.exists_object (h : j.Meets way x) : ∃ n, j = .object n := by
  by_contra hnone
  have hj : ∀ n, j ≠ .object n := fun n hn => hnone ⟨n, hn⟩
  have hobject {rest : Way} {m : Node} (h : j.HandsOn rest (.object m)) : False :=
    hj m (h.eq_of_not_object hj).symm
  cases h with
  | identifier h _ => exact hobject h
  | emptySlot h _ _ =>
    cases h with
    | intro h _ _ _ _ => exact hobject h
  | unplacedSlot h _ =>
    cases h with
    | intro h _ _ _ _ => exact hobject h
  | properties h _ _ => exact hobject h
  | elements h _ _ => exact hobject h

/-! ## All meetings -/

/-- What stands at the ends of all ways. -/
def meetings : Json → List (Way × Except Cause BoundName)
  | .object n =>
    if Node.type n = .string "Identifier" then [([], Node.boundName n)]
    else
      match _h : Node.receivers n with
      | .ok receivers => Way.fromAbove <| receivers.attach.map fun
        | ⟨.ok k, _⟩ => k.meetings
        | ⟨.error fault, _⟩ => [([], .error fault)]
      | .error fault => [([], .error fault)]
  | _ => []
termination_by j => j.size
decreasing_by exact Node.size_lt_of_mem_receivers _h ‹_›

/-- What is met from a receiver on. -/
def receivedMeetings : Except Cause Json → List (Way × Except Cause BoundName)
  | .ok k => k.meetings
  | .error fault => [([], .error fault)]

theorem meetings_identifier (h : n.type = .string "Identifier") :
    (Json.object n).meetings = [([], n.boundName)] := by
  rw [meetings, if_pos h]

theorem meetings_of_receivers {receivers : List (Except Cause Json)}
    (h : n.type ≠ .string "Identifier") (hreceivers : n.receivers = .ok receivers) :
    (Json.object n).meetings = Way.fromAbove (receivers.map receivedMeetings) := by
  rw [meetings, if_neg h]
  split
  · rename_i found hfound
    cases hfound.symm.trans hreceivers
    rw [List.map_subtype (g := receivedMeetings) fun receiver _ => ?_, List.unattach_attach]
    cases receiver <;> rfl
  · rename_i hfault
    cases hfault.symm.trans hreceivers

theorem meetings_of_receivers_eq_error (h : n.type ≠ .string "Identifier")
    (hreceivers : n.receivers = .error fault) :
    (Json.object n).meetings = [([], .error fault)] := by
  rw [meetings, if_neg h]
  split
  · rename_i hfound
    cases hfound.symm.trans hreceivers
  · rename_i hfound
    cases hfound.symm.trans hreceivers
    rfl

theorem meetings_of_not_object (h : ∀ n, j ≠ .object n) : j.meetings = [] := by
  cases j with
  | object n => exact absurd rfl (h n)
  | _ => simp [meetings]

/-- What holds of identifiers, of what has no receivers, and of every other node if it holds of its
receivers, holds of every value. -/
theorem induction_on_receivers {motive : Json → Prop}
    (other : ∀ j, (∀ n, j ≠ .object n) → motive j)
    (identifier : ∀ n : Node, n.type = .string "Identifier" → motive (.object n))
    (unlisted : ∀ (n : Node) fault, n.type ≠ .string "Identifier" → n.receivers = .error fault →
      motive (.object n))
    (pattern : ∀ (n : Node) receivers, n.type ≠ .string "Identifier" →
      n.receivers = .ok receivers → (∀ k, .ok k ∈ receivers → motive k) → motive (.object n))
    (j : Json) : motive j :=
  match j with
  | .object n =>
    if htype : Node.type n = .string "Identifier" then identifier n htype
    else
      match hreceivers : Node.receivers n with
      | .error fault => unlisted n fault htype hreceivers
      | .ok receivers => pattern n receivers htype hreceivers fun k hk =>
        have := Node.size_lt_of_mem_receivers hreceivers hk
        induction_on_receivers other identifier unlisted pattern k
  | .scalar s => other (.scalar s) nofun
  | .array items => other (.array items) nofun
termination_by j.size

/-! ### Membership -/

theorem mem_receivedMeetings {receiver : Except Cause Json} :
    (way, x) ∈ receivedMeetings receiver ↔
      (∃ k, receiver = .ok k ∧ (way, x) ∈ k.meetings) ∨
        ∃ fault, receiver = .error fault ∧ way = [] ∧ x = .error fault := by
  cases receiver <;> simp [receivedMeetings]

/-- An identifier meets its own name and nothing else. -/
theorem meets_identifier_iff (htype : n.type = .string "Identifier") :
    (Json.object n).Meets way x ↔ way = [] ∧ x = n.boundName := by
  constructor
  · intro h
    have hlist := Node.receivers_identifier htype
    have hnone {i : Nat} {receiver : Except Cause Json} : ¬n.Receives i receiver := by
      rintro ⟨receivers, hreceivers, hi⟩
      cases hlist.symm.trans hreceivers
      cases hi
    rcases h.cases with ⟨rfl, -, rfl⟩ | ⟨_, -, hnot, -⟩ | ⟨_, _, -, hreceives, -⟩ |
      ⟨_, _, _, -, hreceives, -⟩
    · exact ⟨rfl, rfl⟩
    · cases hlist.symm.trans hnot
    · exact (hnone hreceives).elim
    · exact (hnone hreceives).elim
  · rintro ⟨rfl, rfl⟩
    exact .identifier (.here _) htype

/-- A pattern whose list is none meets that. -/
theorem meets_unlisted_iff (htype : n.type ≠ .string "Identifier")
    (h : n.receivers = .error fault) :
    (Json.object n).Meets way x ↔ way = [] ∧ x = .error fault := by
  constructor
  · intro hmeets
    rcases hmeets.cases with ⟨-, hid, -⟩ | ⟨_, rfl, hfault, rfl⟩ | ⟨_, _, -, ⟨_, hok, -⟩, -⟩ |
      ⟨_, _, _, -, ⟨_, hok, -⟩, -⟩
    · exact absurd hid htype
    · cases h.symm.trans hfault
      exact ⟨rfl, rfl⟩
    · cases h.symm.trans hok
    · cases h.symm.trans hok
  · rintro ⟨rfl, rfl⟩
    exact .of_receivers_eq_error h

/-- Exactly what the target meets is listed. -/
theorem mem_meetings_iff : (way, x) ∈ target.meetings ↔ target.Meets way x := by
  induction target using induction_on_receivers generalizing way x with
  | other j hj =>
    rw [meetings_of_not_object hj]
    refine ⟨nofun, fun h => ?_⟩
    obtain ⟨n, hn⟩ := h.exists_object
    exact absurd hn (hj n)
  | identifier n htype =>
    rw [meetings_identifier htype, meets_identifier_iff htype, List.mem_singleton, Prod.mk.injEq]
  | unlisted n fault htype hfault =>
    rw [meetings_of_receivers_eq_error htype hfault, meets_unlisted_iff htype hfault,
      List.mem_singleton, Prod.mk.injEq]
  | pattern n receivers htype hreceivers ih =>
    have hreceives {i : Nat} {receiver : Except Cause Json} :
        n.Receives i receiver ↔ receivers[i]? = some receiver := by
      simp [Node.Receives, hreceivers]
    simp only [meetings_of_receivers htype hreceivers, Way.mem_fromAbove, List.getElem?_map,
      Option.map_eq_some_iff]
    constructor
    · rintro ⟨i, _, rest, ⟨receiver, hi, rfl⟩, rfl, hx⟩
      rcases mem_receivedMeetings.1 hx with ⟨k, rfl, hx⟩ | ⟨fault, rfl, rfl, rfl⟩
      · exact ((ih k (List.mem_of_getElem? hi)).1 hx).cons (hreceives.2 hi)
      · exact .of_receives (hreceives.2 hi)
    · intro h
      rcases h.cases with ⟨-, hid, -⟩ | ⟨_, -, hfault, -⟩ | ⟨i, fault, rfl, hreceiver, rfl⟩ |
        ⟨i, k, rest, rfl, hreceiver, h⟩
      · exact absurd hid htype
      · cases hreceivers.symm.trans hfault
      · exact ⟨i, _, [], ⟨_, hreceives.1 hreceiver, rfl⟩, rfl, List.mem_singleton_self _⟩
      · have hi := hreceives.1 hreceiver
        exact ⟨i, _, rest, ⟨_, hi, rfl⟩, rfl, (ih k (List.mem_of_getElem? hi)).2 h⟩

/-! ### Order -/

theorem inOrder_meetings (target : Json) : Way.InOrder target.meetings := by
  induction target using induction_on_receivers with
  | other j hj =>
    rw [meetings_of_not_object hj]
    exact .nil
  | identifier n htype =>
    rw [meetings_identifier htype]
    exact List.pairwise_singleton _ _
  | unlisted n fault htype hfault =>
    rw [meetings_of_receivers_eq_error htype hfault]
    exact List.pairwise_singleton _ _
  | pattern n receivers htype hreceivers ih =>
    rw [meetings_of_receivers htype hreceivers]
    refine Way.inOrder_fromAbove fun inner hinner => ?_
    obtain ⟨receiver, hreceiver, rfl⟩ := List.mem_map.1 hinner
    cases receiver with
    | ok k => exact ih k hreceiver
    | error fault => exact List.pairwise_singleton _ _

/-- The names of a target are what it meets. -/
theorem map_snd_meetings (target : Json) : target.meetings.map (·.2) = boundNames target := by
  induction target using induction_on_receivers with
  | other j hj =>
    rw [meetings_of_not_object hj, boundNames]
    · rfl
    · exact hj
  | identifier n htype =>
    rw [meetings_identifier htype, boundNames_identifier (Node.isAny_singleton htype)]
    rfl
  | unlisted n fault htype hfault =>
    rw [meetings_of_receivers_eq_error htype hfault, Node.boundNames_eq_allReceivedNames htype,
      hfault]
    rfl
  | pattern n receivers htype hreceivers ih =>
    rw [meetings_of_receivers htype hreceivers, Way.map_snd_fromAbove, List.flatMap_map,
      Node.boundNames_eq_allReceivedNames htype, hreceivers, Node.allReceivedNames]
    refine List.flatMap_congr fun receiver hreceiver => ?_
    cases receiver with
    | ok k => exact ih k hreceiver
    | error fault => rfl

end Json

end LexicalScopes
