import LexicalScopes.Proofs.Encapsulation.Bodies
import LexicalScopes.Proofs.Spelling.Script

/-!
# Two walks

Two trees of which one has another part at an address, and which look the same when hollow, are
walked in the same way up to that part and after it. If no walk gets there, the two walks are the
same.
-/

namespace LexicalScopes

variable {root root' n m : Node} {p q r r' c : Path} {ps ps' : List Path} {key : String}
  {index : Option Nat} {j old new item item' : Json} {items items' : List Json}
  {address : List Json.Step}

/-! ## Twins -/

namespace Path

/-- The same node stands in the same place, below nodes that look the same when hollow. -/
structure Twin (r r' : Path) : Prop where
  node_eq : r'.node = r.node
  hollow_eq : r'.hollow = r.hollow

/-- The nodes are twins one by one. -/
abbrev Twins : List Path → List Path → Prop := List.Forall₂ Twin

theorem childFields_of_hollow (h : q.hollow = p.hollow) :
    q.node.childFields = p.node.childFields := by
  have hnode := congrArg Path.node h
  rw [node_hollow, node_hollow] at hnode
  rw [← Node.childFields_hollow, hnode, Node.childFields_hollow]

theorem twin_child (h : q.hollow = p.hollow) :
    Twin (.child p key index n) (.child q key index n) :=
  ⟨rfl, by rw [hollow, h, hollow]⟩

/-- Of listed values only the nodes are walked. -/
theorem twins_listed (h : q.hollow = p.hollow) (start : Nat)
    (hitems : items'.map Json.child? = items.map Json.child?) :
    Twins (p.listed key start items) (q.listed key start items') := by
  induction items generalizing items' start with
  | nil =>
    rw [List.map_nil, List.map_eq_nil_iff] at hitems
    rw [hitems]
    exact .nil
  | cons item rest ih =>
    cases items' with
    | nil => cases hitems
    | cons item' rest' =>
      obtain ⟨hitem, hrest⟩ := List.cons.inj hitems
      rw [listed, listed, hitem]
      split
      · exact .cons (twin_child h) (ih (start + 1) hrest)
      · exact ih (start + 1) hrest

theorem twins_inField (h : q.hollow = p.hollow) (hget : q.node.get key = p.node.get key) :
    Twins (p.inField key) (q.inField key) := by
  rw [inField, inField, hget]
  split
  · exact twins_listed h 0 rfl
  · split
    · exact .cons (twin_child h) .nil
    · exact .nil

theorem twins_fields {keys : List String}
    (hfields : ∀ key ∈ keys, Twins (p.inField key) (q.inField key)) :
    Twins (keys.flatMap p.inField) (keys.flatMap q.inField) := by
  induction keys with
  | nil => exact .nil
  | cons key keys ih =>
    rw [List.flatMap_cons, List.flatMap_cons]
    exact List.rel_append (hfields key List.mem_cons_self)
      (ih fun key' hkey' => hfields key' (List.mem_cons_of_mem _ hkey'))

theorem twins_kids (h : q.hollow = p.hollow)
    (hfields : ∀ keys, p.node.childFields = .ok keys → ∀ key ∈ keys,
      Twins (p.inField key) (q.inField key)) : Twins p.kids q.kids := by
  have hsame := childFields_of_hollow h
  cases hkeys : p.node.childFields with
  | ok keys =>
    rw [kids_eq hkeys, kids_eq (hsame.trans hkeys)]
    exact twins_fields (hfields keys hkeys)
  | error fault =>
    have hnone {p : Path} (hp : p.node.childFields = .error fault) : p.kids = [] := by
      rw [Path.kids, children, hp]
      rfl
    rw [hnone hkeys, hnone (hsame.trans hkeys)]
    exact .nil

theorem Twin.kids (h : Twin r r') : Twins r.kids r'.kids :=
  twins_kids h.hollow_eq fun _ _ key _ => twins_inField h.hollow_eq (by rw [h.node_eq])

theorem Twins.actions (h : Twins ps ps')
    (hone : ∀ r ∈ ps, ∀ r', Twin r r' →
      r'.events.flatMap Event.actions = r.events.flatMap Event.actions) :
    (allEvents ps').flatMap Event.actions = (allEvents ps).flatMap Event.actions := by
  induction h with
  | nil => rfl
  | @cons r r' _ _ hr _ ih =>
    rw [allEvents_cons, allEvents_cons, List.flatMap_append, List.flatMap_append,
      hone r List.mem_cons_self r' hr, ih fun q hq => hone q (List.mem_cons_of_mem _ hq)]

/-- Walking a node does the same as walking its twin. -/
theorem Twin.actions (h : Twin r r') :
    r'.events.flatMap Event.actions = r.events.flatMap Event.actions := by
  induction r using induction_on_kids generalizing r' with
  | step r ih =>
    have hkids := Twins.actions h.kids fun c hc c' hcc' => ih c hc hcc'
    rw [events_eq, events_eq]
    simp only [List.flatMap_cons, List.flatMap_append, List.flatMap_nil, hkids, Event.actions,
      enterActions_of_hollow h.hollow_eq, exitActions_of_hollow h.hollow_eq]

theorem Twins.actions_eq (h : Twins ps ps') :
    (allEvents ps').flatMap Event.actions = (allEvents ps).flatMap Event.actions :=
  h.actions fun _ _ _ hr => hr.actions

/-! ## Children at an address -/

/-- Among two lists of nodes each has another node in one place, and twins stand around it. -/
def Around (c c' : Path) (ps ps' : List Path) : Prop :=
  ∃ earlier later earlier' later', ps = earlier ++ c :: later ∧ ps' = earlier' ++ c' :: later' ∧
    Twins earlier earlier' ∧ Twins later later'

theorem Around.append {c c' : Path} {first first' last last' : List Path}
    (h : Around c c' ps ps') (hfirst : Twins first first') (hlast : Twins last last') :
    Around c c' (first ++ ps ++ last) (first' ++ ps' ++ last') := by
  obtain ⟨earlier, later, earlier', later', rfl, rfl, hearlier, hlater⟩ := h
  exact ⟨first ++ earlier, later ++ last, first' ++ earlier', later' ++ last', by simp, by simp,
    List.rel_append hfirst hearlier, List.rel_append hlater hlast⟩

theorem around_listed (h : q.hollow = p.hollow) (hn : n.has "type" = true)
    (hm : m.has "type" = true) {i : Nat} (hitem : items[i]? = some (.object n)) (start : Nat) :
    Around (.child p key (some (start + i)) n) (.child q key (some (start + i)) m)
      (p.listed key start items) (q.listed key start (items.set i (.object m))) := by
  induction items generalizing i start with
  | nil => cases hitem
  | cons item rest ih =>
    cases i with
    | zero =>
      cases hitem
      rw [listed, child?_of_has hn, List.set_cons_zero, listed, child?_of_has hm]
      exact ⟨[], _, [], _, rfl, rfl, .nil, twins_listed h (start + 1) rfl⟩
    | succ i =>
      have hrest := ih hitem (start + 1)
      rw [Nat.add_assoc, Nat.add_comm 1] at hrest
      rw [listed, List.set_cons_succ, listed]
      split
      · simpa using hrest.append (.cons (twin_child h) .nil) .nil
      · exact hrest

/-- The addresses lead on to two nodes in this field, of which the second has the other part. -/
structure Leads (p q : Path) (key : String) (address : List Json.Step) (old new : Json)
    (index : Option Nat) (rest : List Json.Step) (n m : Node) : Prop where
  address_eq : address = (index.map Json.Step.item).toList ++ rest
  part_eq : (Json.object n).part? rest = some old
  withPart_eq : (Json.object n).withPart rest new = .object m
  distinct : Json.Prunes.Distinct (.object n)
  text : (Json.object n).handsOn false rest = false
  around : Around (.child p key index n) (.child q key index m) (p.inField key) (q.inField key)

end Path

theorem Json.has_of_child? (h : j.child? = some n) : n.has "type" = true := by
  unfold child? at h
  split at h
  · split at h
    · cases h
      assumption
    · cases h
  · cases h

/-- What looks like a node when hollow is a node. -/
theorem Json.exists_of_hollow_eq {a : Bool} (h : j.hollow a = (Json.object n).hollow a) :
    ∃ m : Node, j = .object m ∧ m.has "type" = n.has "type" := by
  rw [hollow_object] at h
  cases j with
  | object m =>
    rw [hollow_object] at h
    refine ⟨m, rfl, ?_⟩
    rw [← Node.has_hollow (a := a), Json.object.inj h, Node.has_hollow]
  | scalar s => simp at h
  | array items => simp at h

namespace Path

/-- Either no node stands in the field at the address, or the address leads on to one. -/
theorem inField_cases {function : Node} {value : Json} {a : Bool} (h : q.hollow = p.hollow)
    (hget : p.node.get key = value) (hget' : q.node.get key = value.withPart address new)
    (hdistinct : Json.Prunes.Distinct value) (hpart : value.part? address = some (.object function))
    (hnew : ∀ a, new.hollow a = (Json.object function).hollow a)
    (htext : value.handsOn a address = false) :
    Twins (p.inField key) (q.inField key) ∨
      ∃ index rest n m, Leads p q key address (.object function) new index rest n m := by
  have hhollow := Json.hollow_withPart hdistinct hpart hnew htext
  cases value with
  | scalar s => cases address <;> simp [Json.part?] at hpart
  | object n =>
    obtain ⟨m, hm, htype⟩ := Json.exists_of_hollow_eq hhollow
    rw [hm] at hget'
    cases hn : Node.has n "type" with
    | true =>
      refine .inr ⟨none, address, n, m, rfl, hpart, hm, hdistinct, Json.handsOn_false htext, ?_⟩
      rw [inField_of_object hget hn, inField_of_object hget' (htype.trans hn)]
      exact ⟨[], [], [], [], rfl, rfl, .nil, .nil⟩
    | false =>
      have hnone {n : Node} (hn : n.has "type" = false) : (Json.object n).child? = none := by
        simp [Json.child?, Json.node?, hn]
      left
      rw [inField, inField, hget, hget']
      simp only [hnone hn, hnone (htype.trans hn)]
      exact .nil
  | array items =>
    cases address with
    | nil => simp at hpart
    | cons step rest =>
      cases step with
      | field key => simp [Json.part?] at hpart
      | item i =>
        obtain ⟨item, hitem, hpart⟩ := Json.part?_item.1 hpart
        have htext := Json.handsOn_item hitem htext
        have hdistinct := hdistinct.of_getElem? hitem
        have hhollow := Json.hollow_withPart hdistinct hpart hnew htext
        rw [Json.withPart_item hitem] at hget'
        cases hchild : item.child? with
        | none =>
          have hchild' : (item.withPart rest new).child? = none := by
            have hmap := congrArg Json.child? hhollow
            rw [Json.child?_hollow, Json.child?_hollow, hchild] at hmap
            exact Option.map_eq_none_iff.1 hmap
          left
          rw [inField, inField, hget, hget']
          refine twins_listed h 0 ?_
          obtain ⟨hi, rfl⟩ := List.getElem?_eq_some_iff.1 hitem
          have hi' : i < (items.map Json.child?).length := by simpa using hi
          have hsame : (items.map Json.child?)[i] = none := by simpa using hchild
          rw [List.map_set, hchild', ← hsame, List.set_getElem_self]
        | some n =>
          obtain rfl := Json.eq_object_of_child? hchild
          obtain ⟨m, hm, htype⟩ := Json.exists_of_hollow_eq hhollow
          have hn : n.has "type" = true := Json.has_of_child? hchild
          rw [hm] at hget'
          refine .inr ⟨some i, rest, n, m, rfl, hpart, hm, hdistinct, htext, ?_⟩
          have hlisted : Around (.child p key (some (0 + i)) n) (.child q key (some (0 + i)) m)
              (p.listed key 0 items) (q.listed key 0 (items.set i (.object m))) :=
            around_listed h hn (htype.trans hn) hitem 0
          rw [Nat.zero_add] at hlisted
          rw [inField, inField, hget, hget']
          exact hlisted

end Path

namespace Path

/-- Either the children are twins, or the address leads on to one child, with twins around it. -/
theorem kids_cases {function : Node} {rest : List Json.Step} (h : q.hollow = p.hollow)
    (hnode : .object q.node = (Json.object p.node).withPart (.field key :: rest) new)
    (hdistinct : Json.Prunes.Distinct (.object p.node))
    (hpart : (Json.object p.node).part? (.field key :: rest) = some (.object function))
    (hnew : ∀ a, new.hollow a = (Json.object function).hollow a)
    (htext : (Json.object p.node).handsOn false (.field key :: rest) = false) :
    Twins p.kids q.kids ∨ ∃ index rest' n m,
      Leads p q key rest (.object function) new index rest' n m ∧
        Around (.child p key index n) (.child q key index m) p.kids q.kids := by
  obtain ⟨value, hvalue, hpart⟩ := Json.part?_field.1 hpart
  rw [Json.withPart_field hvalue] at hnode
  have hnode : q.node = p.node.replace key (value.withPart rest new) := Json.object.inj hnode
  have hget : p.node.get key = value := by rw [Node.get, hvalue, Option.getD_some]
  have hget' : q.node.get key = value.withPart rest new := by
    rw [hnode, Node.get_replace (by rw [Node.has, hvalue, Option.isSome_some])]
  -- All other fields hold what they held.
  have hother : ∀ k ≠ key, Twins (p.inField k) (q.inField k) := fun k hk =>
    twins_inField h (by rw [hnode, Node.get_replace_of_ne hk])
  have hcases := inField_cases h hget hget' (hdistinct.of_lookup hvalue) hpart hnew
    (Json.handsOn_field hvalue htext).2
  rcases hcases with hfield | ⟨index, rest', n, m, hleads⟩
  · left
    refine twins_kids h fun _ _ k _ => ?_
    rcases Decidable.em (k = key) with rfl | hk
    · exact hfield
    · exact hother k hk
  · cases hkeys : p.node.childFields with
    | error fault =>
      left
      exact twins_kids h fun keys hok => by rw [hkeys] at hok; cases hok
    | ok keys =>
      rcases Decidable.em (key ∈ keys) with hmem | hmem
      · right
        refine ⟨index, rest', n, m, hleads, ?_⟩
        have hnodup := Node.nodup_childFields (hdistinct p.node Json.mem_objects_self) hkeys
        obtain ⟨first, last, rfl⟩ := List.append_of_mem hmem
        rw [List.nodup_append', List.nodup_cons] at hnodup
        rw [kids_eq hkeys, kids_eq ((childFields_of_hollow h).trans hkeys)]
        have hfirst : Twins (first.flatMap p.inField) (first.flatMap q.inField) := by
          refine twins_fields fun k hk => hother k ?_
          rintro rfl
          exact hnodup.2.2 hk List.mem_cons_self
        have hlast : Twins (last.flatMap p.inField) (last.flatMap q.inField) := by
          refine twins_fields fun k hk => hother k ?_
          rintro rfl
          exact hnodup.2.1.1 hk
        simpa using hleads.around.append hfirst hlast
      · left
        refine twins_kids h fun keys' hkeys' k hk => hother k ?_
        rintro rfl
        rw [hkeys] at hkeys'
        cases hkeys'
        exact hmem hk

end Path

/-! ## Before a node and after it -/

/-- One node stands in the first tree where the other one stands in the second. Both trees are
walked in the same way before these nodes and after them. -/
structure Path.Parts (root root' : Node) (p p' : Path) (past past' rest rest' : List Event) :
    Prop where
  visit : ∃ around, Visit root past around p
  visit' : ∃ around, Visit root' past' around p'
  events_eq : (Path.root root).events = past ++ (p.events ++ rest)
  events_eq' : (Path.root root').events = past' ++ (p'.events ++ rest')
  past_eq : past'.flatMap Event.actions = past.flatMap Event.actions
  rest_eq : rest'.flatMap Event.actions = rest.flatMap Event.actions
  hollow_eq : p'.hollow = p.hollow

namespace Path.Parts

variable {p' c' : Path} {past past' rest rest' : List Event}

theorem of_roots (h : (Path.root root').hollow = (Path.root root).hollow) :
    Parts root root' (.root root) (.root root') [] [] [] [] :=
  ⟨⟨_, .root⟩, ⟨_, .root⟩, by simp, by simp, rfl, rfl, h⟩

/-- The children that twins stand around are walked after the same and before the same. -/
theorem exists_child (h : Parts root root' p p' past past' rest rest')
    (haround : Around c c' p.kids p'.kids) (hhollow : c'.hollow = c.hollow) :
    ∃ past past' rest rest', Parts root root' c c' past past' rest rest' := by
  obtain ⟨_, hvisit⟩ := h.visit
  obtain ⟨_, hvisit'⟩ := h.visit'
  obtain ⟨earlier, later, earlier', later', hkids, hkids', hearlier, hlater⟩ := haround
  refine ⟨_, _, allEvents later ++ (.exit p :: rest), allEvents later' ++ (.exit p' :: rest'),
    ⟨_, hvisit.child hkids⟩, ⟨_, hvisit'.child hkids'⟩, ?_, ?_, ?_, ?_, hhollow⟩
  · rw [h.events_eq, Path.events_eq p, hkids]
    simp
  · rw [h.events_eq', Path.events_eq p', hkids']
    simp
  · simp only [List.flatMap_append, List.flatMap_cons, h.past_eq, hearlier.actions_eq,
      Event.actions, enterActions_of_hollow h.hollow_eq]
  · simp only [List.flatMap_append, List.flatMap_cons, h.rest_eq, hlater.actions_eq,
      Event.actions, exitActions_of_hollow h.hollow_eq]

/-- With twins as children the two nodes, and so the two trees, are walked in the same way. -/
theorem actions_of_twins (h : Parts root root' p p' past past' rest rest')
    (hkids : Twins p.kids p'.kids) :
    (Path.root root').events.flatMap Event.actions =
      (Path.root root).events.flatMap Event.actions := by
  rw [h.events_eq, h.events_eq', Path.events_eq p, Path.events_eq p']
  simp only [List.flatMap_append, List.flatMap_cons, h.past_eq, h.rest_eq, hkids.actions_eq,
    Event.actions, enterActions_of_hollow h.hollow_eq, exitActions_of_hollow h.hollow_eq]

/-- The address leads to a node of the walk, or no walk gets to what stands there. -/
theorem descend {function : Node} (h : Parts root root' p p' past past' rest rest')
    (hnode : .object p'.node = (Json.object p.node).withPart address new)
    (hdistinct : Json.Prunes.Distinct (.object p.node))
    (hpart : (Json.object p.node).part? address = some (.object function))
    (hnew : ∀ a, new.hollow a = (Json.object function).hollow a)
    (htext : (Json.object p.node).handsOn false address = false) :
    (Path.root root').events.flatMap Event.actions =
        (Path.root root).events.flatMap Event.actions ∨
      ∃ q q' past past' rest rest', Parts root root' q q' past past' rest rest' ∧
        q.node = function ∧ .object q'.node = new ∧ q.address = p.address ++ address ∧
          q'.address = p'.address ++ address := by
  induction hlength : address.length using Nat.strongRecOn
    generalizing p p' past past' rest rest' address with
  | ind k ih =>
    cases address with
    | nil =>
      refine .inr ⟨p, p', past, past', rest, rest', h, ?_, ?_, by simp, by simp⟩
      · simpa using hpart
      · simpa using hnode
    | cons step steps =>
      cases step with
      | item i => simp [Json.part?] at hpart
      | field key =>
        rcases kids_cases h.hollow_eq hnode hdistinct hpart hnew htext with
          hkids | ⟨index, steps', n, m, hleads, haround⟩
        · exact .inl (h.actions_of_twins hkids)
        · have hhollow : m.hollow false = n.hollow false := by
            have hsame := Json.hollow_withPart hleads.distinct hleads.part_eq hnew hleads.text
            rw [hleads.withPart_eq, Json.hollow_object, Json.hollow_object] at hsame
            exact Json.object.inj hsame
          obtain ⟨_, _, _, _, hchild⟩ := h.exists_child haround
            (by rw [hollow, hollow, h.hollow_eq, hhollow])
          have hlt : steps'.length < k := by
            rw [← hlength, hleads.address_eq, List.length_cons, List.length_append]
            omega
          rcases ih _ hlt hchild hleads.withPart_eq.symm hleads.distinct hleads.part_eq hleads.text
            rfl with hsame | ⟨q, q', past, past', rest, rest', hparts, hq, hq', haddress, haddress'⟩
          · exact .inl hsame
          · refine .inr ⟨q, q', past, past', rest, rest', hparts, hq, hq', ?_, ?_⟩
            · rw [haddress, hleads.address_eq, Path.address]
              simp
            · rw [haddress', hleads.address_eq, Path.address]
              simp

end Path.Parts

/-! ## Functions -/

/-- The body of a function is the last of its fields to be walked. -/
theorem Node.exists_childFields_function (h : n.isAny NodeType.functions = true) :
    ∃ keys, n.childFields = .ok (keys ++ ["body"]) ∧ "body" ∉ keys := by
  have htable : ∀ t ∈ NodeType.functions, (NodeType.childFields.lookup t).any fun keys =>
      keys.dropLast ++ ["body"] == keys && !keys.dropLast.contains "body" := by decide
  obtain ⟨t, ht, htype⟩ := isAny_iff.1 h
  have hfields := htable t ht
  cases hlookup : NodeType.childFields.lookup t with
  | none =>
    rw [hlookup] at hfields
    cases hfields
  | some keys =>
    rw [hlookup, Option.any_some, Bool.and_eq_true, beq_iff_eq] at hfields
    refine ⟨keys.dropLast, ?_, by simpa using hfields.2⟩
    rw [childFields, htype, hfields.1]
    simp only [hlookup, Option.getD_some]

/-- Before the body of a function the same nodes are walked whatever the body is. -/
theorem Path.exists_kids_function {body : Json} (h : q.hollow = p.hollow)
    (hfunction : p.node.isAny NodeType.functions = true)
    (hnode : q.node = p.node.replace "body" body) :
    ∃ first first', p.kids = first ++ p.inField "body" ∧ q.kids = first' ++ q.inField "body" ∧
      Twins first first' := by
  obtain ⟨keys, hkeys, hbody⟩ := Node.exists_childFields_function hfunction
  refine ⟨keys.flatMap p.inField, keys.flatMap q.inField, ?_, ?_, ?_⟩
  · rw [kids_eq hkeys, List.flatMap_append, List.flatMap_singleton]
  · rw [kids_eq ((childFields_of_hollow h).trans hkeys), List.flatMap_append,
      List.flatMap_singleton]
  · refine twins_fields fun key hkey => twins_inField h ?_
    rw [hnode, Node.get_replace_of_ne]
    rintro rfl
    exact hbody hkey

end LexicalScopes
