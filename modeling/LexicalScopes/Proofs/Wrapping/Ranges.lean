import LexicalScopes.Proofs.Encapsulation.Bodies
import LexicalScopes.Proofs.Order
import LexicalScopes.Proofs.Ranges.Located
import LexicalScopes.Proofs.Traversal.Occurrences
import LexicalScopes.Proofs.Wrapping.Forms

/-!
# Ranges of idioms

In a tree whose nodes lie inside the nodes above them, an ancestor that holds a value in an idiom
covers all that the idioms further in cover. A called pair is shown with a range that is not its
own: it begins with the call and ends one column past the pair. What comes next is the call, so it
is enough that the call begins and ends around this range.
-/

namespace LexicalScopes

/-! ## One column further right -/

/-- An integer that is not passed is passed by no number that the next one does not pass. -/
theorem Number.compare_succ {x : Number} {c : Int}
    (h : x.compare (.finite c 0) = .before ∨ x.compare (.finite c 0) = .equal) :
    x.compare (.finite (c + 1) 0) = .before := by
  cases x with
  | finite m q =>
    have hpos : (0 : Int) < Int.pow 2 (0 - q).toNat := Int.pow_pos (by decide)
    have hle : m * Int.pow 2 (q - 0).toNat ≤ c * Int.pow 2 (0 - q).toNat := by
      simp only [compare] at h
      cases hcompare : Ord.compare (m * Int.pow 2 (q - 0).toNat) (c * Int.pow 2 (0 - q).toNat) with
      | lt => exact (compare_lt_iff_lt.1 hcompare).le
      | eq => exact (compare_eq_iff_eq.1 hcompare).le
      | gt =>
        rw [hcompare] at h
        exact absurd h (by decide)
    have hlt : m * Int.pow 2 (q - 0).toNat < (c + 1) * Int.pow 2 (0 - q).toNat := by
      rw [Int.add_mul, Int.one_mul]
      omega
    rw [compare, compare_lt_iff_lt.2 hlt]
    rfl
  | infinite negative =>
    cases negative with
    | true => rfl
    | false => simp [compare] at h
  | undefined => simp [compare] at h

/-- How a value stands to another one. -/
def Json.standing? (a b : Json) : Option Comparison :=
  if a.same b then some .equal else a.compare? b

theorem Json.standing?_int {s : Scalar} {c : Int} :
    (Json.scalar s).standing? (.int c) = s.number?.map (·.compare (.finite c 0)) := by
  have hnumber : (Scalar.int c).number? = some (.finite c 0) := rfl
  have hsame : (Json.scalar s).same (.int c) = s.same (.int c) := by rw [same]
  have hcompare : (Json.scalar s).compare? (.int c) = s.compare? (.int c) := by rw [compare?]
  rw [standing?, hsame, hcompare, Scalar.same, Scalar.compare?, hnumber]
  · cases s.number? with
    | none => rfl
    | some x =>
      dsimp only
      split
      · rename_i hequal
        rw [Option.map_some, eq_of_beq hequal]
      · rfl
  · intro b b' hs hc
    cases hc

theorem Json.standing?_succ {a : Json} {k : Comparison} {c : Int}
    (h : a.standing? (.int c) = some k) (hk : k = .before ∨ k = .equal) :
    a.standing? (.int (c + 1)) = some .before := by
  cases a with
  | scalar s =>
    rw [standing?_int] at h ⊢
    obtain ⟨x, hx, rfl⟩ := Option.map_eq_some_iff.1 h
    rw [hx, Option.map_some, Number.compare_succ hk]
  | array items => simp [standing?, same, compare?] at h
  | object fields => simp [standing?, same, compare?] at h

namespace Location

variable {a b : Location}

/-- The lines decide which place comes first, on one line the columns. -/
theorem le_eq_ok : a.le b = .ok true ↔
    ∃ k, (if a.line.same b.line then a.column.standing? b.column
      else a.line.compare? b.line) = some k ∧ (k = .before ∨ k = .equal) := by
  rw [le, compare, bind_eq_ok]
  refine exists_congr fun k => ?_
  rw [readable_eq_ok, pure_eq_ok]
  simp [Json.compareItems?, Json.standing?]

/-- One column further right, if columns are counted in integers. -/
def right? (l : Location) : Option Location :=
  match l.column with
  | .int column => some ⟨l.line, .int (column + 1)⟩
  | _ => none

/-- What is not after a place is not after the next one. -/
theorem le_right {l r : Location} (hr : l.right? = some r) (h : a.le l = .ok true) :
    a.le r = .ok true := by
  unfold right? at hr
  split at hr
  · rename_i column hcolumn
    cases hr
    obtain ⟨k, hk, hle⟩ := le_eq_ok.1 h
    rw [le_eq_ok]
    split at hk
    · rename_i hline
      rw [hcolumn] at hk
      exact ⟨.before, by rw [if_pos hline, Json.standing?_succ hk hle], .inl rfl⟩
    · rename_i hline
      exact ⟨k, by rwa [if_neg hline], hle⟩
  · cases hr

end Location

/-- The next place of the tree is the next location. -/
theorem ofPlace_of_nextPlace {place stop : Json} {l r : Location}
    (hl : Location.ofPlace place = .ok l) (hr : l.right? = some r)
    (hstop : place.nextPlace = .ok stop) : Location.ofPlace stop = .ok r := by
  obtain ⟨n, rfl, hline, hcolumn, rfl⟩ := Location.ofPlace_eq_ok.1 hl
  rw [Json.nextPlace, Json.record_object, ok_bind, Node.required_of_has hcolumn, ok_bind] at hstop
  unfold Location.right? at hr
  split at hr
  · rename_i c hc
    cases hr
    rw [show n.get "column" = .int c from hc] at hstop
    cases hstop
    exact Location.ofPlace_eq_ok.2 ⟨_, rfl, by rwa [Node.has_replace], by rwa [Node.has_replace],
      by rw [Node.get_replace hcolumn, Node.get_replace_of_ne (by decide)]⟩
  · cases hr

/-! ## Nodes inside one another -/

/-- The range of a node. -/
def Node.range (n : Node) : Except Cause Range := do
  Range.ofLoc (.object (← n.loc))

/-- The node is a sequence of two expressions. -/
def Node.isPair (n : Node) : Bool :=
  n.isAny ["SequenceExpression"] && (n.get "expressions").items?.any (·.length == 2)

namespace Path

/-- The node is no called pair, or the call ends at least one column after it. -/
def clearsCall (p : Path) : Bool :=
  p.parent?.all fun call => !(p.isChildOf NodeType.calls "callee" && p.node.isPair) ||
    match p.node.range, call.node.range with
    | .ok inner, .ok outer =>
      inner.stop.right?.any fun next => (next.le outer.stop).toOption == some true
    | _, _ => false

/-- The node has a range, which encloses those of the nodes below it, and if it is a called pair,
there is room for a parenthesis behind it. -/
def isNested (p : Path) : Bool := p.node.range.isOk && p.encloses && p.clearsCall

end Path

/-- Every node lies inside the nodes above it, and there is room for a parenthesis behind every
called pair. -/
def Node.Nested (root : Node) : Prop :=
  ∀ p ∈ .root root :: (Path.root root).descendants, p.isNested = true

instance (root : Node) : Decidable root.Nested :=
  inferInstanceAs (Decidable (∀ p ∈ .root root :: (Path.root root).descendants,
    p.isNested = true))

variable {root : Node} {p q c parent : Path} {key : String} {index : Option Nat} {n : Node}
  {r s : Range} {w : Wrapper} {ws : List Wrapper} {f : Idiom}

namespace Path

/-- What stands on the way from a node below to the root is above the node, or between the two. -/
theorem mem_line (hp : p ∈ c :: c.descendants) (hq : q ∈ p.above) :
    q ∈ c.above ∨ q ∈ c :: c.descendants ∧ p ∈ q.descendants := by
  induction c using induction_on_kids with
  | step c ih =>
    rcases List.mem_cons.1 hp with rfl | hp
    · exact .inl hq
    · obtain ⟨d, hd, hp'⟩ := mem_descendants_iff.1 hp
      rcases ih d hd (List.mem_cons.2 hp') with hq | ⟨hq, hp'⟩
      · rw [above_of_mem_kids hd] at hq
        rcases List.mem_cons.1 hq with rfl | hq
        · exact .inr ⟨List.mem_cons_self, hp⟩
        · exact .inl hq
      · have hbelow := mem_descendants_iff.2 ⟨d, hd, List.mem_cons.1 hq⟩
        exact .inr ⟨List.mem_cons_of_mem _ hbelow, hp'⟩

/-- A path of a tree whose nodes lie inside one another. -/
structure NestedIn (p : Path) (root : Node) : Prop where
  nested : root.Nested
  mem : p ∈ .root root :: (Path.root root).descendants

namespace NestedIn

theorem of_mem_above (h : p.NestedIn root) (hq : q ∈ p.above) :
    q.NestedIn root ∧ p ∈ q.descendants := by
  rcases mem_line h.mem hq with hq | ⟨hq, hp⟩
  · cases hq
  · exact ⟨⟨h.nested, hq⟩, hp⟩

theorem exists_range (h : p.NestedIn root) : ∃ r, p.node.range = .ok r := by
  have hnested := h.nested p h.mem
  simp only [isNested, Bool.and_eq_true] at hnested
  exact exists_eq_ok hnested.1.1

/-- A node encloses itself and what is below it. -/
theorem encloses_of_mem (h : q.NestedIn root) (hp : p ∈ q :: q.descendants)
    (hs : q.node.range = .ok s) (hr : p.node.range = .ok r) : s.encloses r = .ok true := by
  have hnested := h.nested q h.mem
  simp only [isNested, Bool.and_eq_true] at hnested
  have hsurrounds := List.all_eq_true.1 hnested.1.2 p hp
  obtain ⟨loc, hloc, hs⟩ := bind_eq_ok.1 hs
  obtain ⟨loc', hloc', hr⟩ := bind_eq_ok.1 hr
  rw [Node.place_of_loc hloc, Node.place_of_loc hloc'] at hsurrounds
  exact Json.encloses_of_surrounds hsurrounds hs hr

/-- Behind a called pair the call has room for a parenthesis. -/
theorem exists_right (h : (child parent key index n).NestedIn root)
    (hcalled : (child parent key index n).isChildOf NodeType.calls "callee" = true)
    (hpair : n.isPair = true) (hr : n.range = .ok r) (hs : parent.node.range = .ok s) :
    ∃ next, r.stop.right? = some next ∧ next.le s.stop = .ok true := by
  have hnested := h.nested _ h.mem
  simp only [isNested, clearsCall, parent?, Option.all_some, node_child, hcalled, hpair, hr, hs,
    Bool.and_self, Bool.not_true, Bool.false_or, Bool.and_eq_true] at hnested
  obtain ⟨next, hnext, hle⟩ := (Option.any_eq_true _ _).1 hnested.2
  exact ⟨next, hnext, eq_ok_of_toOption (eq_of_beq hle)⟩

end NestedIn

/-! ## Ranges that are shown -/

/-- The range with which a node is shown: its own, or that of a called pair. -/
inductive Spans : Path → Range → Prop where
  | own {p : Path} {r : Range} (h : p.node.range = .ok r) : Spans p r
  | called {call : Path} {key : String} {index : Option Nat} {n : Node} {pair outer : Range}
      {next : Location}
      (hcalled : (child call key index n).isChildOf NodeType.calls "callee" = true)
      (hpair : n.isPair = true) (hown : n.range = .ok pair) (hcall : call.node.range = .ok outer)
      (hnext : pair.stop.right? = some next) :
      Spans (child call key index n) ⟨outer.start, next⟩

/-- The ranges with which a node and the node above it are shown enclose one another. -/
theorem Spans.encloses (hp : (child parent key index n).NestedIn root)
    (hr : (child parent key index n).Spans r) (hs : parent.Spans s) :
    s.encloses r = .ok true := by
  obtain ⟨hparent, hbelow⟩ := hp.of_mem_above (q := parent) List.mem_cons_self
  cases hs with
  | own hs =>
    cases hr with
    | own hr => exact hparent.encloses_of_mem (List.mem_cons_of_mem _ hbelow) hs hr
    | @called _ _ _ _ pair outer next hcalled hpair hown hcall hnext =>
      -- The call begins where the pair is shown to begin.
      cases hs.symm.trans hcall
      obtain ⟨next', hnext', hle⟩ := hp.exists_right hcalled hpair hown hs
      cases hnext.symm.trans hnext'
      have hself := Range.encloses_eq_ok.1 (hparent.encloses_of_mem List.mem_cons_self hs hs)
      exact Range.encloses_eq_ok.2 ⟨hself.1, hle⟩
  | @called call key' index' m pair outer next hcalled hpair hown hcall hnext =>
    cases hr with
    | own hr =>
      obtain ⟨hcallNested, hbelowCall⟩ :=
        hp.of_mem_above (q := call) (List.mem_cons_of_mem _ List.mem_cons_self)
      have hstart := Range.encloses_eq_ok.1
        (hcallNested.encloses_of_mem (List.mem_cons_of_mem _ hbelowCall) hcall hr)
      have hstop := Range.encloses_eq_ok.1
        (hparent.encloses_of_mem (List.mem_cons_of_mem _ hbelow) hown hr)
      exact Range.encloses_eq_ok.2 ⟨hstart.1, Location.le_right hnext hstop.2⟩
    | called hcalled' =>
      -- A pair is no call.
      have hsequence := (Bool.and_eq_true_iff.1 hpair).1
      rw [isChildOf, node_child, Node.isAny_eq_false hsequence (by decide), Bool.and_false]
        at hcalled'
      cases hcalled'

theorem Spans.exists_toWrapping (hp : p.NestedIn root) {key : String} {index : Option Nat}
    (hf : (Hold.mk p key index).Has f) (hw : f.Shows p w) :
    ∃ s, w.toWrapping = .ok ⟨f.form, s⟩ ∧ p.Spans s := by
  cases hw with
  | @whole _ _ loc _ hloc =>
    obtain ⟨s, hs⟩ := hp.exists_range
    refine ⟨s, ?_, .own hs⟩
    obtain ⟨loc', hloc', hrange⟩ := bind_eq_ok.1 hs
    cases hloc.symm.trans hloc'
    obtain ⟨hstart, hstop⟩ := Json.exists_of_ofLoc hrange
    simp only [Json.startPlace_object, Json.endPlace_object] at hstart hstop
    simp only [Wrapper.toWrapping, Range.ofPlaces, hstart, hstop, ok_bind]
    rfl
  | @called call key' index' n loc callLoc stop hcalled hloc hcall hstop =>
    obtain ⟨pair, hown⟩ := hp.exists_range
    obtain ⟨hcallNested, -⟩ := hp.of_mem_above (q := call) List.mem_cons_self
    obtain ⟨outer, houter⟩ := hcallNested.exists_range
    have hpair : n.isPair = true := by
      refine Bool.and_eq_true_iff.2 ⟨hf.type, ?_⟩
      cases hf.fits with
      | pair hexpressions _ _ =>
        rw [node_child] at hexpressions
        rw [hexpressions]
        rfl
    obtain ⟨next, hnext, -⟩ := hp.exists_right hcalled hpair hown houter
    refine ⟨⟨outer.start, next⟩, ?_, .called hcalled hpair hown houter hnext⟩
    obtain ⟨loc', hloc', hrange⟩ := bind_eq_ok.1 hown
    cases hloc.symm.trans hloc'
    obtain ⟨callLoc', hcall', hrange'⟩ := bind_eq_ok.1 houter
    cases hcall.symm.trans hcall'
    have hstop' := ofPlace_of_nextPlace (Json.exists_of_ofLoc hrange).2 hnext hstop
    have hstart := (Json.exists_of_ofLoc hrange').1
    rw [Json.startPlace_object] at hstart
    simp only [Wrapper.toWrapping, Range.ofPlaces, hstart, hstop', ok_bind]
    rfl

/-- The ranges of a run of idioms enclose one another, and the first one what is shown of the
node. -/
theorem Spans.isChain_of_run (hp : p.NestedIn root) (hr : p.Spans r)
    (hrun : Hold.Run p.holds ws) :
    ∃ wrappings, ws.mapM Wrapper.toWrapping = .ok wrappings ∧
      List.IsChain (fun inner outer => outer.encloses inner = .ok true)
        (r :: wrappings.map (·.range)) := by
  induction p generalizing r ws with
  | root n =>
    cases hrun
    exact ⟨[], rfl, .singleton _⟩
  | child parent key index n ih =>
    cases hrun with
    | done _ => exact ⟨[], rfl, .singleton _⟩
    | @step _ _ f w ws hf hw hrest =>
      obtain ⟨hparent, -⟩ := hp.of_mem_above (q := parent) List.mem_cons_self
      obtain ⟨s, hs, hspans⟩ := Spans.exists_toWrapping hparent hf hw
      obtain ⟨wrappings, hwrappings, hchain⟩ := ih hparent hspans hrest
      refine ⟨⟨f.form, s⟩ :: wrappings, ?_, .cons_cons (hr.encloses hp hspans) hchain⟩
      rw [List.mapM_cons, hs, ok_bind, hwrappings]
      rfl

end Path

end LexicalScopes
