import LexicalScopes.Proofs.Missing.Paths
import LexicalScopes.Proofs.Wrapping
import LexicalScopes.Scope.Written

/-!
# Written chains

The chain of the wrappers of a path is copied into the tree from its outermost wrapper on, and
written from its innermost one on, each with the next one outwards under `parent`. Following
`parent` through what is written leads through the same wrappers as following the chain of the path,
in their order, and ends at null.
-/

namespace LexicalScopes

variable {p : Path} {raw : Linked Wrapper} {w : Wrapper} {ws : List Wrapper} {wrapping : Wrapping}
  {wrappings : List Wrapping} {place : Json} {l : Location} {form : WrapperForm}

/-! ## What is written -/

/-- Following `parent` from the value leads through the objects and ends at null. -/
inductive Json.Chained : Json → List Node → Prop where
  | nil : Chained .null []
  | cons {n : Node} {rest : List Node} (h : Chained (n.get "parent") rest) :
      Chained (.object n) (n :: rest)

/-- An object of nothing but the line and the column of a place of the tree. -/
def Json.IsPlaceOf (written place : Json) : Prop :=
  ∃ n : Node, place = .object n ∧
    written = .object [("line", n.get "line"), ("column", n.get "column")]

/-- The object says in one word what the form is. It names a property for a member, and has no such
field for the other forms. -/
inductive WrapperForm.WrittenAs : WrapperForm → Node → Prop where
  | inherit {n : Node} (htype : n.get "type" = .string "inherit")
      (hproperty : n.lookup "property" = none) : WrittenAs .inherit n
  | call {n : Node} (htype : n.get "type" = .string "call")
      (hproperty : n.lookup "property" = none) : WrittenAs .call n
  | member {n : Node} {property : Json} (htype : n.get "type" = .string "member")
      (hproperty : n.lookup "property" = some property) : WrittenAs (.member property) n

/-- The object has the form and the ends of the wrapper. -/
structure Wrapper.WrittenAs (w : Wrapper) (n : Node) : Prop where
  form : w.form.WrittenAs n
  start : (n.get "start").IsPlaceOf w.start
  stop : (n.get "end").IsPlaceOf w.stop

/-! ## One wrapper -/

theorem isPlaceOf_toJson (h : Location.ofPlace place = .ok l) : l.toJson.IsPlaceOf place := by
  obtain ⟨n, rfl, -, -, rfl⟩ := Location.ofPlace_eq_ok.1 h
  exact ⟨n, rfl, rfl⟩

namespace Wrapping

/-- What comes after the property is the rest of the chain, whether or not there is a property. -/
theorem get_parent_payload (w : Wrapping) (outer : Json) :
    (w.payload ++ [("parent", outer)]).get "parent" = outer := by
  obtain ⟨form, range⟩ := w
  cases form <;> rfl

theorem form_writtenAs (w : Wrapping) (outer : Json) :
    w.form.WrittenAs (w.payload ++ [("parent", outer)]) := by
  obtain ⟨form, range⟩ := w
  cases form with
  | inherit => exact .inherit rfl rfl
  | call => exact .call rfl rfl
  | member property => exact .member rfl rfl

end Wrapping

/-- The copy of a wrapper is written, before any rest of a chain, with all that the wrapper says. -/
theorem Wrapper.writtenAs_of_toWrapping (h : w.toWrapping = .ok wrapping) (outer : Json) :
    w.WrittenAs (wrapping.payload ++ [("parent", outer)]) := by
  obtain ⟨range, hrange, h⟩ := bind_eq_ok.1 h
  obtain ⟨start, hstart, hrange⟩ := bind_eq_ok.1 hrange
  obtain ⟨stop, hstop, hrange⟩ := bind_eq_ok.1 hrange
  cases pure_eq_ok.1 hrange
  cases pure_eq_ok.1 h
  exact ⟨Wrapping.form_writtenAs ⟨w.form, _⟩ outer, isPlaceOf_toJson hstart, isPlaceOf_toJson hstop⟩

theorem Wrapper.IsSpan.exists_toWrapping (h : w.IsSpan) :
    ∃ wrapping, w.toWrapping = .ok wrapping := by
  obtain ⟨range, hrange⟩ := exists_ofPlaces h.1 h.2
  exact ⟨⟨w.form, range⟩, by rw [Wrapper.toWrapping, hrange]; rfl⟩

/-! ## The whole chain -/

theorem Wrapper.exists_exportChain (h : ∀ w ∈ ws, Wrapper.IsSpan w) :
    ∃ wrappings, Wrapper.exportChain ws = .ok wrappings := by
  induction ws with
  | nil => exact ⟨[], rfl⟩
  | cons w ws ih =>
    obtain ⟨wrapping, hwrapping⟩ := (h w List.mem_cons_self).exists_toWrapping
    obtain ⟨wrappings, hwrappings⟩ := ih fun w hw => h w (List.mem_cons_of_mem _ hw)
    exact ⟨wrapping :: wrappings, by rw [exportChain_cons, hwrappings, hwrapping]; rfl⟩

namespace Wrapping

/-- By induction on the wrappers: each is the head of what is written for it and those around
it. -/
theorem exists_chained
    (h : List.Forall₂ (fun w wrapping => Wrapper.toWrapping w = .ok wrapping) ws wrappings) :
    ∃ nodes, (chainToJson wrappings).Chained nodes ∧ List.Forall₂ Wrapper.WrittenAs ws nodes := by
  induction h with
  | nil => exact ⟨[], .nil, .nil⟩
  | @cons w wrapping ws wrappings hw _ ih =>
    obtain ⟨nodes, hchained, hwritten⟩ := ih
    rw [chainToJson_cons]
    refine ⟨_, .cons ?_, .cons (Wrapper.writtenAs_of_toWrapping hw _) hwritten⟩
    rwa [get_parent_payload]

theorem chainToJson_eq_null_iff : chainToJson wrappings = .null ↔ wrappings = [] := by
  cases wrappings with
  | nil => simp
  | cons wrapping wrappings => simp [chainToJson_cons]

end Wrapping

/-- Following the chain that a path starts leads through its wrappers. Where they start and end at
places with a line and a column, they are copied into the tree, and any reference that has them is
written with a chain of exactly these wrappers, from the innermost on. What is written is null only
if the chain of the path has no first wrapper. -/
theorem Path.chain_survives (h : p.chain = .ok raw) :
    ∃ ws, raw.Leads raw.head ws ∧ p.wrappers = .ok ws ∧ ((∀ w ∈ ws, w.IsSpan) →
      ∃ wrappings, Wrapper.exportChain ws = .ok wrappings ∧
        ∀ range, ∃ written nodes,
          (Reference.toJson ⟨range, wrappings⟩).field? "meta" = some written ∧
          written.Chained nodes ∧ List.Forall₂ Wrapper.WrittenAs ws nodes ∧
          (written = .null ↔ raw.head = none)) := by
  have horder : raw.InOrder := inOrder_of_chain h
  refine ⟨raw.toList, horder.leads_toList, by rw [wrappers, h]; rfl, fun hspan => ?_⟩
  obtain ⟨wrappings, hwrappings⟩ := Wrapper.exists_exportChain hspan
  have hcopied := Wrapper.exportChain_eq_ok.1 hwrappings
  obtain ⟨nodes, hchained, hwritten⟩ := Wrapping.exists_chained hcopied
  refine ⟨wrappings, hwrappings, fun range => ⟨_, nodes, rfl, hchained, hwritten, ?_⟩⟩
  change Wrapping.chainToJson wrappings = .null ↔ _
  rw [Wrapping.chainToJson_eq_null_iff, horder.head_eq_none_iff, ← List.length_eq_zero_iff,
    ← List.length_eq_zero_iff, hcopied.length_eq]

/-- The words and the properties that are written along the chain of `Object((0, a.b)()).c`. -/
theorem Path.chain_survives_wrappedRead :
    ∃ raw ws wrappings, Sample.wrappedRead.chain = .ok raw ∧ raw.Leads raw.head ws ∧
      (∀ w ∈ ws, w.IsSpan) ∧ Wrapper.exportChain ws = .ok wrappings ∧
      ∀ range, ∃ written nodes,
        (Reference.toJson ⟨range, wrappings⟩).field? "meta" = some written ∧
        written.Chained nodes ∧ nodes.map (fun n => (n.get "type", n.lookup "property")) =
          [(.string "member", some (.string "b")), (.string "inherit", none),
            (.string "call", none), (.string "inherit", none),
            (.string "member", some (.string "c"))] := by
  obtain ⟨raw, hraw⟩ := exists_eq_ok (e := Sample.wrappedRead.chain) (by decide +kernel)
  obtain ⟨ws, hleads, hws, hchain⟩ := Path.chain_survives hraw
  have hpoints : Sample.wrappedRead.wrappers.toOption.any (fun ws =>
      ws.all fun w => w.start.isPoint && w.stop.isPoint) = true := by decide +kernel
  have hspan (w) (hw : w ∈ ws) : w.IsSpan := by
    rw [hws] at hpoints
    exact Bool.and_eq_true_iff.1 (List.all_eq_true.1 hpoints w hw)
  obtain ⟨wrappings, hwrappings, hchain⟩ := hchain hspan
  refine ⟨raw, ws, wrappings, hraw, hleads, hspan, hwrappings, fun range => ?_⟩
  obtain ⟨written, nodes, hmeta, hchained, hwritten, -⟩ := hchain range
  refine ⟨written, nodes, hmeta, hchained, ?_⟩
  cases hws.symm.trans Sample.wrappers_wrappedRead
  obtain _ | ⟨⟨h₁, -, -⟩, _ | ⟨⟨h₂, -, -⟩, _ | ⟨⟨h₃, -, -⟩, _ | ⟨⟨h₄, -, -⟩,
    _ | ⟨⟨h₅, -, -⟩, _ | _⟩⟩⟩⟩⟩ := hwritten
  cases h₁
  cases h₂
  cases h₃
  cases h₄
  cases h₅
  simp only [List.map_cons, List.map_nil, *]

end LexicalScopes
