import LexicalScopes.Proofs.Encapsulation.Readings
import LexicalScopes.Proofs.Missing.Paths

/-!
# Another body

A part of a tree is found at an address, and another part can be put there. A tree in which one
function has another body looks the same when hollow, unless the function stands in a value that is
handed on as it stands.
-/

namespace LexicalScopes

/-! ## Addresses -/

namespace Json

/-- A step from a value to a part of it. -/
inductive Step where
  | field (key : String)
  | item (i : Nat)
deriving DecidableEq

/-- The part of the value at an address. -/
def part? : Json → List Step → Option Json
  | j, [] => some j
  | .object n, .field key :: rest => (n.lookup key).bind fun value => value.part? rest
  | .array items, .item i :: rest => items[i]?.bind fun item => item.part? rest
  | _, _ :: _ => none

/-- The value with another part at an address where it has one. -/
def withPart : Json → List Step → Json → Json
  | _, [], part => part
  | .object n, .field key :: rest, part =>
    .object (Node.replace n key ((Node.get n key).withPart rest part))
  | .array items, .item i :: rest, part =>
    .array (items.set i ((items.getD i .null).withPart rest part))
  | j, _ :: _, _ => j

/-- What stands at the address is handed on as it stands, or it is inside a value that is. -/
def handsOn : Json → Bool → List Step → Bool
  | .object n, accessed, .field key :: rest =>
    Node.keeps n accessed key ||
      (Node.get n key).handsOn (Node.holdsAccessed n key) rest
  | .array items, _, .item i :: rest => (items.getD i .null).handsOn false rest
  | _, _, _ => false

end Json

/-- The way from the root to the node. -/
def Path.address : Path → List Json.Step
  | .root _ => []
  | .child parent key index _ => parent.address ++ .field key :: (index.map Json.Step.item).toList

/-- No object of the tree has two fields of one name. -/
abbrev Node.DistinctFields (root : Node) : Prop := Json.Prunes.Distinct (.object root)

variable {n m : Node} {j old new item value : Json} {items : List Json} {key other : String}
  {a : Bool} {i : Nat} {rest : List Json.Step}

namespace Json

@[simp] theorem part?_nil : j.part? [] = some j := by
  rw [part?]

theorem part?_field : (Json.object n).part? (.field key :: rest) = some old ↔
    ∃ value, n.lookup key = some value ∧ value.part? rest = some old := by
  rw [part?, Option.bind_eq_some_iff]

theorem part?_item : (Json.array items).part? (.item i :: rest) = some old ↔
    ∃ item, items[i]? = some item ∧ item.part? rest = some old := by
  rw [part?, Option.bind_eq_some_iff]

@[simp] theorem withPart_nil : j.withPart [] new = new := by
  rw [withPart]

theorem withPart_field (h : n.lookup key = some value) :
    (Json.object n).withPart (.field key :: rest) new =
      .object (n.replace key (value.withPart rest new)) := by
  rw [withPart, Node.get, h, Option.getD_some]

theorem withPart_item (h : items[i]? = some item) :
    (Json.array items).withPart (.item i :: rest) new =
      .array (items.set i (item.withPart rest new)) := by
  rw [withPart, List.getD_eq_getElem?_getD, h, Option.getD_some]

theorem handsOn_field (h : n.lookup key = some value)
    (htext : (Json.object n).handsOn a (.field key :: rest) = false) :
    n.keeps a key = false ∧ value.handsOn (n.holdsAccessed key) rest = false := by
  rwa [handsOn, Node.get, h, Option.getD_some, Bool.or_eq_false_iff] at htext

theorem handsOn_item (h : items[i]? = some item)
    (htext : (Json.array items).handsOn a (.item i :: rest) = false) :
    item.handsOn false rest = false := by
  rwa [handsOn, List.getD_eq_getElem?_getD, h, Option.getD_some] at htext

/-- Less is handed on of a node that is not accessed. -/
theorem handsOn_false (h : j.handsOn a rest = false) : j.handsOn false rest = false := by
  cases a with
  | false => exact h
  | true =>
    unfold handsOn at h ⊢
    split
    · rename_i n key rest
      simp_all [Node.keeps]
    · exact h
    · rfl

end Json

/-! ## Replaced fields -/

namespace Node

theorem get_replace_of_ne (h : other ≠ key) : (n.replace key value).get other = n.get other := by
  rw [get, replace_eq, lookup_map fun k v => if k == key then value else v, get]
  cases n.lookup other <;> simp [h]

theorem get_replace (h : n.has key = true) : (n.replace key value).get key = value := by
  rw [get, replace_eq, lookup_map fun k v => if k == key then value else v]
  rw [has] at h
  cases hlookup : n.lookup key with
  | none =>
    rw [hlookup] at h
    cases h
  | some v => simp

/-- A field of which there is only one is the one that is found. -/
theorem get_of_mem (hkeys : (n.map (·.1)).Nodup) (h : (key, value) ∈ n) : n.get key = value := by
  obtain ⟨before, after, rfl⟩ := List.append_of_mem h
  rw [List.map_append, List.nodup_append'] at hkeys
  have hlookup : List.lookup key (before ++ (key, value) :: after) = some value := by
    refine List.lookup_eq_some_iff.2 ⟨before, after, rfl, fun field hfield => ?_⟩
    rw [bne_iff_ne]
    rintro rfl
    exact hkeys.2.2 (List.mem_map_of_mem hfield) (by simp)
  rw [get, hlookup, Option.getD_some]

/-- A node looks the same when hollow if its new field does. -/
theorem hollow_replace (htype : key ≠ "type")
    (h : ∀ v, (key, v) ∈ n → n.hollowValue a key value = n.hollowValue a key v) :
    (n.replace key value).hollow a = n.hollow a := by
  have hvalue : ∀ k v, (n.replace key value).hollowValue a k v = n.hollowValue a k v := by
    intro k v
    have hsame (types : List String) : (n.replace key value).isAny types = n.isAny types := by
      rw [isAny, type, get_replace_of_ne htype.symm, isAny, type]
    rw [hollowValue, keeps, holdsBody, holdsAccessed, hsame, hsame, hsame, hsame]
    rfl
  rw [hollow_eq, hollow_eq]
  simp only [hvalue]
  rw [replace_eq, List.map_map]
  refine List.map_congr_left fun field hfield => ?_
  obtain ⟨k, v⟩ := field
  simp only [Function.comp_apply]
  split
  · rename_i hk
    obtain rfl := eq_of_beq hk
    rw [h v hfield]
  · rfl

/-- A function with another body looks the same when hollow. -/
theorem hollow_replace_body (h : n.isAny NodeType.functions = true) :
    (n.replace "body" value).hollow a = n.hollow a := by
  refine hollow_replace (by decide) fun v _ => ?_
  simp [hollowValue, keeps, holdsBody, h]

end Node

/-! ## Other parts -/

namespace Json

theorem Prunes.Distinct.of_lookup (h : Prunes.Distinct (.object n))
    (hvalue : n.lookup key = some value) : Prunes.Distinct value := by
  intro o ho
  refine h o (mem_objects_iff.2 (.inr (mem_inside_object.2 ⟨(key, value), ?_, ho⟩)))
  exact Node.mem_of_lookup_eq_some hvalue

theorem Prunes.Distinct.of_getElem? (h : Prunes.Distinct (.array items))
    (hitem : items[i]? = some item) : Prunes.Distinct item := fun o ho =>
  h o (mem_objects_iff.2 (.inr (mem_inside_of_item (List.mem_of_getElem? hitem) ho)))

/-- A tree looks the same when hollow if its new part does. -/
theorem hollow_withPart (hdistinct : Prunes.Distinct j) (hpart : j.part? rest = some old)
    (hnew : ∀ a, new.hollow a = old.hollow a) (htext : j.handsOn a rest = false) :
    (j.withPart rest new).hollow a = j.hollow a := by
  induction rest generalizing j a with
  | nil =>
    cases hpart
    rw [withPart_nil, hnew]
  | cons step rest ih =>
    cases j with
    | scalar s => simp [part?] at hpart
    | array items =>
      cases step with
      | field key => simp [part?] at hpart
      | item i =>
        obtain ⟨item, hitem, hpart⟩ := part?_item.1 hpart
        have hitem' : (items.map (hollow false))[i]? = some (item.hollow false) := by simp [hitem]
        obtain ⟨hi, hitem'⟩ := List.getElem?_eq_some_iff.1 hitem'
        rw [withPart_item hitem, hollow_array, hollow_array, List.map_set,
          ih (hdistinct.of_getElem? hitem) hpart (handsOn_item hitem htext), ← hitem',
          List.set_getElem_self]
    | object n =>
      cases step with
      | item i => simp [part?] at hpart
      | field key =>
        obtain ⟨value, hvalue, hpart⟩ := part?_field.1 hpart
        obtain ⟨hkeeps, htext⟩ := handsOn_field hvalue htext
        have htype : key ≠ "type" := by
          rintro rfl
          cases hkeeps
        rw [withPart_field hvalue, hollow_object, hollow_object,
          Node.hollow_replace htype fun v hv => ?_]
        -- There is only one field of this name.
        have hv : v = value := by
          rw [← Node.get_of_mem (hdistinct n mem_objects_self) hv, Node.get, hvalue,
            Option.getD_some]
        have hsame := ih (hdistinct.of_lookup hvalue) hpart htext
        rw [hv, Node.hollowValue, Node.hollowValue, hkeeps, hsame]
        rfl

end Json

end LexicalScopes
