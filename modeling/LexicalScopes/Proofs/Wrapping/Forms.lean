import LexicalScopes.Proofs.Run.Contribution

/-!
# Idioms around a value

An ancestor holds a value in one of four idioms, or in none. Each idiom is recognised by the type of
the ancestor, by the field that holds the value and by what else stands in the ancestor; they
exclude one another. The wrappers of a path are the longest run of ancestors that hold the value in
an idiom, each shown with its idiom and its location.
-/

namespace LexicalScopes

variable {n : Node} {p : Path} {j : Json} {w : Wrapper} {ws : List Wrapper}

/-! ## Idioms -/

/-- The forms of expression that leave the value they hold recognisable. -/
inductive Idiom where
  /-- `(0, value)` -/
  | pair
  /-- `Object(value)` -/
  | boxing
  /-- `value.property` -/
  | access (property : Json)
  /-- `value()` -/
  | emptyCall

namespace Idiom

/-- The types of the nodes that have this form. -/
def types : Idiom → List String
  | pair => ["SequenceExpression"]
  | boxing => NodeType.calls
  | access _ => NodeType.members
  | emptyCall => NodeType.calls

/-- The field that holds the value. -/
def key : Idiom → String
  | pair => "expressions"
  | boxing => "arguments"
  | access _ => "object"
  | emptyCall => "callee"

/-- What the idiom makes of the value. -/
def form : Idiom → WrapperForm
  | pair => .inherit
  | boxing => .inherit
  | access property => .member property
  | emptyCall => .call

end Idiom

/-- The property that an access names: with a dot the name that follows it, in brackets the text of
a string literal. -/
inductive Node.Accesses (n : Node) : Json → Prop where
  | dot {name : Node} (hplain : (n.get "computed").isPresent = false)
      (h : n.get "property" = .object name) : Accesses n (name.get "name")
  | brackets {literal : Node} (hcomputed : (n.get "computed").isPresent = true)
      (h : n.get "property" = .object literal)
      (hliteral : (Json.object literal).isStringLiteral = true) :
      Accesses n (literal.get "value")

/-- What else stands in a node that holds a value at `index` in an idiom. -/
inductive Idiom.Fits (n : Node) (index : Option Nat) : Idiom → Prop where
  | pair {first second : Json} (h : n.get "expressions" = .array [first, second])
      (hfirst : first.isNumericLiteral = true) (hindex : index = some 1) : Fits n index .pair
  | boxing {callee : Node} {argument : Json} (hcallee : n.get "callee" = .object callee)
      (htype : callee.isAny ["Identifier"] = true) (hname : callee.get "name" = .string "Object")
      (hargument : (n.get "arguments").entries? = some [argument]) : Fits n index .boxing
  | access {property : Json} (h : n.Accesses property) : Fits n index (.access property)
  | emptyCall (h : (n.get "arguments").entries? = some []) : Fits n index .emptyCall

/-! ## Holds -/

/-- A node and the place at which it holds another one. -/
structure Hold where
  holder : Path
  key : String
  index : Option Nat

/-- How the ancestors of a path hold each the next one inwards, from the parent outwards. -/
def Path.holds : Path → List Hold
  | .root _ => []
  | .child parent key index _ => ⟨parent, key, index⟩ :: parent.holds

/-- The value is held in the idiom. -/
structure Hold.Has (s : Hold) (f : Idiom) : Prop where
  type : s.holder.node.isAny f.types = true
  key : s.key = f.key
  fits : f.Fits s.holder.node s.index

/-- How the node at `holder` is shown by its idiom: from its start to its end, except that a pair
that is called lasts from the start of the call to one column past its own end. -/
inductive Idiom.Shows : Idiom → Path → Wrapper → Prop where
  | whole {f : Idiom} {holder : Path} {loc : Node}
      (huncalled : f = .pair → holder.isChildOf NodeType.calls "callee" = false)
      (hloc : holder.node.loc = .ok loc) :
      Shows f holder ⟨f.form, loc.get "start", loc.get "end"⟩
  | called {call : Path} {key : String} {index : Option Nat} {n loc callLoc : Node} {stop : Json}
      (hcalled : (Path.child call key index n).isChildOf NodeType.calls "callee" = true)
      (hloc : n.loc = .ok loc) (hcall : call.node.loc = .ok callLoc)
      (hstop : (loc.get "end").nextPlace = .ok stop) :
      Shows .pair (.child call key index n) ⟨.inherit, callLoc.get "start", stop⟩

theorem Idiom.Shows.isOk_loc {f : Idiom} (h : f.Shows p w) : p.node.loc.isOk = true := by
  cases h with
  | whole _ hloc =>
    rw [hloc]
    rfl
  | called _ hloc _ _ =>
    rw [Path.node_child, hloc]
    rfl

/-! ## One idiom at most -/

theorem Node.Accesses.unique {a b : Json} (ha : n.Accesses a) (hb : n.Accesses b) : a = b := by
  cases ha with
  | dot hplain h =>
    cases hb with
    | dot _ h' => cases h.symm.trans h'; rfl
    | brackets hcomputed _ _ => cases hplain.symm.trans hcomputed
  | brackets hcomputed h _ =>
    cases hb with
    | dot hplain _ => cases hplain.symm.trans hcomputed
    | brackets _ h' _ => cases h.symm.trans h'; rfl

/-- The fields of different idioms differ, so a value is held in one idiom at most. -/
theorem Hold.Has.unique {s : Hold} {f g : Idiom} (hf : s.Has f) (hg : s.Has g) : f = g := by
  have hkey : f.key = g.key := hf.key.symm.trans hg.key
  cases f with
  | access a =>
    cases g with
    | access b =>
      cases hf.fits with
      | access ha =>
        cases hg.fits with
        | access hb => rw [ha.unique hb]
    | _ => simp [Idiom.key] at hkey
  | _ => cases g <;> simp [Idiom.key] at hkey ⊢

theorem Hold.not_has_of_isAny {s : Hold} {f : Idiom} {types : List String}
    (h : s.holder.node.isAny types = true) (hdisjoint : ∀ t ∈ types, t ∉ f.types) :
    ¬ s.Has f := fun hf => by
  cases hf.type.symm.trans (Node.isAny_eq_false h hdisjoint)

/-! ## Recognising an idiom -/

/-- A pair is a list of two whose first entry is a number literal. -/
theorem Json.isBoxingPair_eq_ok {b : Bool} (h : j.isBoxingPair = .ok b) :
    b = true ↔
      ∃ first second, j = .array [first, second] ∧ first.isNumericLiteral = true := by
  obtain ⟨entries, hentries, h⟩ := bind_eq_ok.1 h
  rw [Json.counted, readable_eq_ok] at hentries
  split at h
  · cases h
  · rename_i first second hobject
    cases pure_eq_ok.1 h
    constructor
    · intro hfirst
      refine ⟨first, second, ?_, hfirst⟩
      cases j with
      | array items =>
        cases hentries
        rfl
      | object fields => exact (hobject fields rfl).elim
      | scalar s =>
        -- The entries of a text are texts.
        have hmem : first ∈ [first, second] := List.mem_cons_self
        unfold entries? at hentries
        split at hentries
        · rename_i heq
          cases heq
        · rename_i heq
          cases heq
        · rw [← Option.some.inj hentries] at hmem
          obtain ⟨t, -, rfl⟩ := List.mem_map.1 hmem
          cases hfirst
        · split at hentries <;> cases hentries
    · rintro ⟨_, _, rfl, hfirst⟩
      cases hentries
      exact hfirst
  · rename_i hnot _
    cases pure_eq_ok.1 h
    refine ⟨nofun, ?_⟩
    rintro ⟨first, second, rfl, -⟩
    cases hentries
    exact (hnot first second rfl).elim

theorem Node.accessedProperty?_eq_ok {o : Option Json} {property : Json}
    (h : n.accessedProperty? = .ok o) :
    n.Accesses property ↔ o = some property := by
  unfold accessedProperty? at h
  dsimp only at h
  split at h
  · rename_i hcomputed
    cases pure_eq_ok.1 h
    constructor
    · rintro (⟨hplain, -⟩ | ⟨-, hobject, hliteral⟩)
      · cases hplain.symm.trans hcomputed
      · rw [hobject, if_pos hliteral, Json.field?_object]
    · intro h
      split at h
      · rename_i hliteral
        obtain ⟨literal, hobject, rfl⟩ := Option.map_eq_some_iff.1 h
        rw [Json.node?_eq_some_iff] at hobject
        exact .brackets hcomputed hobject (hobject ▸ hliteral)
      · cases h
  · rename_i hplain
    obtain ⟨name, hname, h⟩ := bind_eq_ok.1 h
    cases pure_eq_ok.1 h
    obtain ⟨m, hobject, rfl⟩ := Option.map_eq_some_iff.1 (readable_eq_ok.1 hname)
    rw [Json.node?_eq_some_iff] at hobject
    rw [Bool.not_eq_true] at hplain
    constructor
    · rintro (⟨-, hobject'⟩ | ⟨hcomputed, -, -⟩)
      · cases hobject.symm.trans hobject'
        rfl
      · cases hplain.symm.trans hcomputed
    · rintro ⟨⟩
      exact .dot hplain hobject

theorem Node.argumentCount_eq_ok {count : Nat} (h : n.argumentCount = .ok count) :
    ∃ entries, (n.get "arguments").entries? = some entries ∧ entries.length = count := by
  obtain ⟨entries, hentries, h⟩ := bind_eq_ok.1 h
  exact ⟨entries, readable_eq_ok.1 hentries, pure_eq_ok.1 h⟩

theorem Idiom.shows_of_covering {f : Idiom} (hf : f ≠ .pair)
    (h : Wrapper.covering f.form p.node = .ok w) : f.Shows p w := by
  obtain ⟨loc, hloc, h⟩ := bind_eq_ok.1 h
  cases h
  exact .whole (fun heq => (hf heq).elim) hloc

theorem Idiom.shows_of_pairWrapper (h : pairWrapper p = .ok w) : Idiom.pair.Shows p w := by
  obtain ⟨loc, hloc, h⟩ := bind_eq_ok.1 h
  cases p with
  | root n =>
    cases h
    exact .whole (f := .pair) (fun _ => rfl) hloc
  | child call key index n =>
    dsimp only at h
    split at h
    · rename_i hcalled
      obtain ⟨start, hstart, h⟩ := bind_eq_ok.1 h
      obtain ⟨stop, hstop, h⟩ := bind_eq_ok.1 h
      obtain ⟨callLoc, hcall, hstart⟩ := bind_eq_ok.1 hstart
      cases h
      cases hstart
      exact .called hcalled hloc hcall hstop
    · rename_i huncalled
      cases h
      exact .whole (f := .pair) (fun _ => Bool.eq_false_iff.2 huncalled) hloc

/-! ## What is found at one ancestor -/

/-- The answer that fits the idiom of a hold. -/
inductive Hold.Answered (s : Hold) : Option Wrapper → Prop where
  | shown {f : Idiom} {w : Wrapper} (h : s.Has f) (hw : f.Shows s.holder w) : Answered s (some w)
  | bare (h : ∀ f, ¬ s.Has f) : Answered s none

namespace Hold.Answered

variable {s : Hold} {o : Option Wrapper}

/-- A shown idiom is an answer. -/
theorem of_bind {x : Except Cause Wrapper} {f : Idiom} (hf : s.Has f)
    (hx : ∀ w, x = .ok w → f.Shows s.holder w)
    (h : (x >>= fun w => pure (some w)) = .ok o) : s.Answered o := by
  obtain ⟨w, hw, h⟩ := bind_eq_ok.1 h
  cases pure_eq_ok.1 h
  exact .shown hf (hx w hw)

/-- A sequence has no idiom but that of a pair. -/
theorem of_sequence (htype : s.holder.node.isAny ["SequenceExpression"] = true)
    (h : wrapperAt? s.holder s.key s.index = .ok o) : s.Answered o := by
  simp only [wrapperAt?, htype, if_true] at h
  obtain ⟨boxing, hboxing, h⟩ := bind_eq_ok.1 h
  have hpair := Json.isBoxingPair_eq_ok hboxing
  have hnone (hnot : ¬ s.Has .pair) (f : Idiom) : ¬ s.Has f := by
    cases f with
    | pair => exact hnot
    | _ => exact not_has_of_isAny htype (by simp [Idiom.types, NodeType.calls, NodeType.members])
  split at h
  · rename_i htrue
    obtain ⟨first, second, hexpressions, hfirst⟩ := hpair.1 htrue
    split at h
    · rename_i hplace
      obtain ⟨hkey, hindex⟩ := Bool.and_eq_true_iff.1 hplace
      have hfits := Idiom.Fits.pair hexpressions hfirst (eq_of_beq hindex)
      exact of_bind (f := .pair) ⟨htype, eq_of_beq hkey, hfits⟩
        (fun _ => Idiom.shows_of_pairWrapper) h
    · rename_i hplace
      cases pure_eq_ok.1 h
      refine .bare (hnone fun hhas => hplace ?_)
      cases hhas.fits with
      | pair _ _ hindex => simp [hhas.key, hindex, Idiom.key]
  · rename_i hfalse
    cases pure_eq_ok.1 h
    refine .bare (hnone fun hhas => hfalse ?_)
    cases hhas.fits with
    | pair hexpressions hfirst _ => exact hpair.2 ⟨_, _, hexpressions, hfirst⟩

/-- A call has two idioms, one for an argument and one for the callee. -/
theorem of_call (htype : s.holder.node.isAny NodeType.calls = true)
    (h : wrapperAt? s.holder s.key s.index = .ok o) : s.Answered o := by
  have hsequence : s.holder.node.isAny ["SequenceExpression"] = false :=
    Node.isAny_eq_false htype (by decide)
  simp only [wrapperAt?, hsequence, htype, Bool.false_eq_true, if_true, if_false] at h
  have hnone (hboxing : ¬ s.Has .boxing) (hempty : ¬ s.Has .emptyCall) (f : Idiom) :
      ¬ s.Has f := by
    cases f with
    | boxing => exact hboxing
    | emptyCall => exact hempty
    | _ => exact not_has_of_isAny htype (by simp [Idiom.types, NodeType.calls, NodeType.members])
  split at h
  · rename_i hobject
    obtain ⟨count, hcount, h⟩ := bind_eq_ok.1 h
    obtain ⟨entries, hentries, hlength⟩ := Node.argumentCount_eq_ok hcount
    simp only [Bool.and_eq_true, beq_iff_eq] at hobject
    obtain ⟨⟨hkey, hidentifier⟩, hname⟩ := hobject
    split at h
    · rename_i hone
      obtain ⟨argument, rfl⟩ := List.length_eq_one_iff.1 (hlength.trans hone)
      obtain ⟨callee, hcallee, hname⟩ := Option.map_eq_some_iff.1 hname
      rw [Json.node?_eq_some_iff] at hcallee
      rw [hcallee] at hidentifier
      exact of_bind (f := .boxing) ⟨htype, hkey, .boxing hcallee hidentifier hname hentries⟩
        (fun _ => Idiom.shows_of_covering (f := .boxing) nofun) h
    · rename_i hnot
      cases pure_eq_ok.1 h
      refine .bare (hnone (fun hhas => hnot ?_) fun hhas => ?_)
      · cases hhas.fits with
        | boxing _ _ _ hargument =>
          cases hentries.symm.trans hargument
          exact hlength.symm
      · simpa [Idiom.key] using hkey.symm.trans hhas.key
  · rename_i hobject
    have hboxing (hhas : s.Has .boxing) : False := by
      cases hhas.fits with
      | boxing hcallee hidentifier hname _ =>
        exact hobject (by simp [hhas.key, Idiom.key, hcallee, hidentifier, hname])
    split at h
    · rename_i hkey
      obtain ⟨count, hcount, h⟩ := bind_eq_ok.1 h
      obtain ⟨entries, hentries, hlength⟩ := Node.argumentCount_eq_ok hcount
      split at h
      · rename_i hzero
        cases List.length_eq_zero_iff.1 (hlength.trans hzero)
        exact of_bind (f := .emptyCall) ⟨htype, eq_of_beq hkey, .emptyCall hentries⟩
          (fun _ => Idiom.shows_of_covering (f := .emptyCall) nofun) h
      · rename_i hnot
        cases pure_eq_ok.1 h
        refine .bare (hnone hboxing fun hhas => hnot ?_)
        cases hhas.fits with
        | emptyCall hempty =>
          cases hentries.symm.trans hempty
          exact hlength.symm
    · rename_i hkey
      cases pure_eq_ok.1 h
      exact .bare (hnone hboxing fun hhas => hkey (beq_iff_eq.2 hhas.key))

/-- Any other node has no idiom but that of an access. -/
theorem of_other (hsequence : s.holder.node.isAny ["SequenceExpression"] = false)
    (hcall : s.holder.node.isAny NodeType.calls = false)
    (h : wrapperAt? s.holder s.key s.index = .ok o) : s.Answered o := by
  simp only [wrapperAt?, hsequence, hcall, Bool.false_eq_true, if_false] at h
  have hnone (hnot : ∀ property, ¬ s.Has (.access property)) (f : Idiom) : ¬ s.Has f := by
    intro hhas
    cases f with
    | access property => exact hnot property hhas
    | pair => cases hhas.type.symm.trans hsequence
    | _ => cases hhas.type.symm.trans hcall
  split at h
  · rename_i hmember
    obtain ⟨htype, hkey⟩ := Bool.and_eq_true_iff.1 hmember
    obtain ⟨loc, hloc, h⟩ := bind_eq_ok.1 h
    obtain ⟨found, hfound, h⟩ := bind_eq_ok.1 h
    cases pure_eq_ok.1 h
    cases found with
    | some property =>
      have haccesses := (Node.accessedProperty?_eq_ok hfound).2 rfl
      exact .shown (f := .access property) ⟨htype, eq_of_beq hkey, .access haccesses⟩
        (.whole (f := .access property) nofun hloc)
    | none =>
      refine .bare (hnone fun property hhas => ?_)
      cases hhas.fits with
      | access haccesses => cases (Node.accessedProperty?_eq_ok hfound).1 haccesses
  · rename_i hmember
    cases pure_eq_ok.1 h
    refine .bare (hnone fun property hhas => hmember ?_)
    exact Bool.and_eq_true_iff.2 ⟨hhas.type, beq_iff_eq.2 hhas.key⟩

end Hold.Answered

/-- What is looked up at an ancestor is the idiom in which it holds the value. -/
theorem Hold.answered_of_wrapperAt? {s : Hold} {o : Option Wrapper}
    (h : wrapperAt? s.holder s.key s.index = .ok o) : s.Answered o := by
  cases hsequence : s.holder.node.isAny ["SequenceExpression"] with
  | true => exact .of_sequence hsequence h
  | false =>
    cases hcall : s.holder.node.isAny NodeType.calls with
    | true => exact .of_call hcall h
    | false => exact .of_other hsequence hcall h

/-! ## The longest run -/

/-- Some ancestors are held in idioms, one after the other, and shown by the wrappers; the next one
has no idiom. -/
inductive Hold.Run : List Hold → List Wrapper → Prop where
  | done {holds : List Hold} (h : ∀ s ∈ holds.head?, ∀ f, ¬ s.Has f) : Run holds []
  | step {s : Hold} {holds : List Hold} {f : Idiom} {w : Wrapper} {ws : List Wrapper} (h : s.Has f)
      (hw : f.Shows s.holder w) (hrest : Run holds ws) : Run (s :: holds) (w :: ws)

/-- The wrappers of a path show the run of idioms that begins at its parent. -/
theorem Path.run_of_wrappers (h : p.wrappers = .ok ws) : Hold.Run p.holds ws := by
  induction p generalizing ws with
  | root n =>
    rw [wrappers_root] at h
    cases h
    exact .done nofun
  | child parent key index n ih =>
    rw [wrappers_child] at h
    obtain ⟨found, hfound, h⟩ := bind_eq_ok.1 h
    cases Hold.answered_of_wrapperAt? (s := ⟨parent, key, index⟩) hfound with
    | shown hhas hw =>
      obtain ⟨rest, hrest, h⟩ := bind_eq_ok.1 h
      cases pure_eq_ok.1 h
      exact .step hhas hw (ih hrest)
    | bare hnone =>
      cases pure_eq_ok.1 h
      refine .done fun s hs => ?_
      cases hs
      exact hnone

end LexicalScopes
