import LexicalScopes.Proofs.Run.Induction
import LexicalScopes.Proofs.Run.Performs
import LexicalScopes.Proofs.Run.Program

/-!
# Homes

Some nodes are home to what stands inside them: a program, certain functions and the value of a
class field. At every moment of the run the scope of the nearest home is the innermost scope around
the builder that some predicate tells apart, because entering a home adds such a scope and nothing
else does.
-/

namespace LexicalScopes

variable {root : Node} {functions : List String} {past : List Event} {around : List ScopeId}
  {home : Option ScopeId} {p c : Path}

/-! ## Nodes that are homes -/

/-- The scope that makes a node a home: the innermost layer of a program, the scope of one of these
functions, and the scope around the value of a class field. -/
def Path.home? (functions : List String) (past : List Event) (p : Path) : Option ScopeId :=
  if p.isProgram || p.node.isAny functions then (p.ownScopes past).head?
  else if p.isChildOf NodeType.classFields "value" then (p.ownScopes past).getLast?
  else none

/-- Whether a node is a home. -/
def Path.isHome (functions : List String) (p : Path) : Bool :=
  (p.isProgram || p.node.isAny functions) || p.isChildOf NodeType.classFields "value"

/-- Below `root` the node `p` is entered after the events `past`, and `home` is the scope of the
nearest home, which is the node itself or one above it. -/
inductive Housed (root : Node) (functions : List String) :
    List Event → Option ScopeId → Path → Prop where
  | root : Housed root functions [] ((Path.root root).home? functions []) (.root root)
  | child {past : List Event} {home : Option ScopeId} {p c : Path} {earlier later : List Path}
      (h : Housed root functions past home p) (hkids : p.kids = earlier ++ c :: later) :
      Housed root functions (past ++ .enter p :: Path.allEvents earlier)
        ((c.home? functions (past ++ .enter p :: Path.allEvents earlier)).or home) c

theorem Housed.exists_visit (h : Housed root functions past home p) :
    ∃ around, Visit root past around p := by
  induction h with
  | root => exact ⟨_, .root⟩
  | child h hkids ih =>
    obtain ⟨around, hvisit⟩ := ih
    exact ⟨_, hvisit.child hkids⟩

theorem Visit.exists_housed (h : Visit root past around p) (functions : List String) :
    ∃ home, Housed root functions past home p := by
  induction h with
  | root => exact ⟨_, .root⟩
  | child h hkids ih =>
    obtain ⟨home, hhoused⟩ := ih
    exact ⟨_, hhoused.child hkids⟩

theorem mem_ownScopes_of_home? {s : ScopeId} (h : p.home? functions past = some s) :
    s ∈ p.ownScopes past := by
  rw [Path.home?] at h
  split at h
  · exact List.mem_of_head? h
  · split at h
    · exact List.mem_of_getLast? h
    · cases h

theorem scopesMade_child {rest : List Event} :
    scopesMade past + p.scopeCount ≤ scopesMade (past ++ .enter p :: rest) := by
  have henter : p.scopeCount = (Event.actions (.enter p)).countP Action.opens := rfl
  rw [scopesMade, scopesMade, henter, List.flatMap_append, List.flatMap_cons, List.countP_append,
    List.countP_append]
  omega

/-- The layers of the program are made before the scopes of the nodes below it. -/
theorem Visit.three_le_scopesMade {final : Builder} (h : Visit root past around p)
    (hfinal : collect (.object root) = .ok final) : 3 ≤ scopesMade past + p.scopeCount := by
  induction h with
  | root => exact Nat.le_of_eq (by rw [scopeCount_of_collect hfinal]; rfl)
  | child h hkids ih => exact Nat.le_trans (Nat.le_trans ih scopesMade_child) (Nat.le_add_right _ _)

/-- Every node of a program has a nearest home, inside the layers. -/
theorem Housed.exists_home {final : Builder} (h : Housed root functions past home p)
    (hfinal : collect (.object root) = .ok final) : ∃ s, home = some s ∧ 2 ≤ s := by
  induction h with
  | root =>
    have hcount := scopeCount_of_collect hfinal
    have hprogram : (Path.root root).isProgram = true := (ofTree_of_collect hfinal).1
    refine ⟨2, ?_, Nat.le_refl 2⟩
    rw [Path.home?, hprogram, Bool.true_or, if_pos rfl, Path.ownScopes, hcount]
    rfl
  | @child past home p c earlier later h hkids ih =>
    cases hhome : c.home? functions (past ++ .enter p :: Path.allEvents earlier) with
    | none => simpa using ih
    | some s =>
      obtain ⟨around, hvisit⟩ := h.exists_visit
      have hle := (Path.mem_ownScopes.1 (mem_ownScopes_of_home? hhome)).1
      have hmade : 3 ≤ scopesMade (past ++ .enter p :: Path.allEvents earlier) :=
        Nat.le_trans (hvisit.three_le_scopesMade hfinal) scopesMade_child
      exact ⟨s, rfl, Nat.le_of_succ_le (Nat.le_trans hmade hle)⟩

/-! ## The nearest scope of a kind -/

namespace Builder

variable {K : Graph → ScopeId → Bool} {makes keeps : Action → Prop} {b b' : Builder} {a : Action}
  {actions : List Action} {s : ScopeId}

/-- The innermost scope around the builder of which the predicate holds. -/
def nearest (K : Graph → ScopeId → Bool) (b : Builder) : Option ScopeId :=
  b.around.find? (K b.graph)

theorem mem_around_lt (hb : b.Sound) (hs : s ∈ b.around) : s < b.graph.nextScope := by
  rw [around] at hs
  split at hs
  · rename_i t ht
    exact Nat.lt_of_le_of_lt (Graph.le_of_mem_chain hb.valid.forest.ranked hs) (hb.current_lt t ht)
  · cases hs

/-- Where the predicate has not changed for the scopes around the builder, neither has the nearest
one. -/
theorem nearest_congr (haround : b'.around = b.around)
    (hsame : ∀ s ∈ b.around, K b'.graph s = K b.graph s) : b'.nearest K = b.nearest K := by
  rw [nearest, nearest, haround]
  exact List.find?_congr hsame

/-- A new scope is the nearest one if the predicate holds of it. -/
theorem nearest_openScope (hb : b.Sound) (type : ScopeType) (name loc : Json)
    (hsame : ∀ s ∈ b.around, K (b.openScope type name loc).graph s = K b.graph s) :
    (b.openScope type name loc).nearest K =
      if K (b.openScope type name loc).graph b.graph.nextScope then some b.graph.nextScope
      else b.nearest K := by
  have hrest := List.find?_congr hsame
  rw [nearest, around_openScope hb, List.find?_cons, hrest]
  cases K (b.openScope type name loc).graph b.graph.nextScope <;> rfl

/-- Some actions make the scope where the builder stands the nearest one, and some keep the nearest
one as it is. -/
structure Settles (K : Graph → ScopeId → Bool) (makes keeps : Action → Prop) : Prop where
  makes : ∀ {b a b'}, Sound b → Does b a b' → makes a → b'.nearest K = b'.current
  keeps : ∀ {b a b'}, Sound b → Does b a b' → keeps a → b'.nearest K = b.nearest K

/-- The actions make the scope that they open as the `k`-th the nearest one. -/
def Makes (makes keeps : Action → Prop) (actions : List Action) (k : Nat) : Prop :=
  ∃ first a rest, actions = first ++ a :: rest ∧ makes a ∧ (∀ x ∈ rest, keeps x) ∧
    (∀ x ∈ first ++ [a], x.isPlain = true) ∧ (first ++ [a]).countP Action.opens = k + 1

theorem Makes.append {k : Nat} (h : Makes makes keeps actions k) {more : List Action}
    (hmore : ∀ x ∈ more, keeps x) : Makes makes keeps (actions ++ more) k := by
  obtain ⟨first, a, rest, rfl, ha, hrest, hplain, hcount⟩ := h
  refine ⟨first, a, rest ++ more, by simp, ha, ?_, hplain, hcount⟩
  intro x hx
  exact (List.mem_append.1 hx).elim (hrest x) (hmore x)

theorem Makes.prepend {k : Nat} (h : Makes makes keeps actions k) {first : List Action}
    (hplain : ∀ a ∈ first, a.isPlain = true) :
    Makes makes keeps (first ++ actions) (first.countP Action.opens + k) := by
  obtain ⟨mid, a, rest, rfl, ha, hrest, hplain', hcount⟩ := h
  refine ⟨first ++ mid, a, rest, by simp, ha, hrest, ?_, ?_⟩
  · intro x hx
    rw [List.append_assoc] at hx
    exact (List.mem_append.1 hx).elim (hplain x) (hplain' x)
  · rw [List.append_assoc, List.countP_append, hcount, Nat.add_assoc]

theorem Makes.countP_ne_zero {k : Nat} (h : Makes makes keeps actions k) :
    actions.countP Action.opens ≠ 0 := by
  obtain ⟨first, a, rest, rfl, -, -, -, hcount⟩ := h
  rw [List.append_cons, List.countP_append, hcount]
  omega

theorem current_replay_opens {k : Nat} (h : b.replay actions = .ok b') (hb : b.Sound)
    (hplain : ∀ a ∈ actions, a.isPlain = true) (hcount : actions.countP Action.opens = k + 1) :
    b'.current = some (b.graph.nextScope + k) := by
  rw [current_eq_head?_around, around_replay h hplain hb, hcount, List.head?_append,
    List.head?_reverse, List.getLast?_range']
  rfl

namespace Settles

theorem keeps_replay (hK : Settles K makes keeps) (h : b.replay actions = .ok b') (hb : b.Sound)
    (hkeeps : ∀ a ∈ actions, keeps a) : b'.nearest K = b.nearest K := by
  induction actions generalizing b with
  | nil =>
    cases h
    rfl
  | cons a actions ih =>
    obtain ⟨b₁, hdoes, hrest⟩ := replay_cons_cases h
    rw [ih hrest (hdoes.sound hb).2 fun a' ha' => hkeeps a' (List.mem_cons_of_mem _ ha')]
    exact hK.keeps hb hdoes (hkeeps a List.mem_cons_self)

theorem makes_replay {k : Nat} (hK : Settles K makes keeps) (h : b.replay actions = .ok b')
    (hb : b.Sound) (hmakes : Makes makes keeps actions k) :
    b'.nearest K = some (b.graph.nextScope + k) := by
  obtain ⟨first, a, rest, rfl, ha, hrest, hplain, hcount⟩ := hmakes
  rw [List.append_cons, replay_append] at h
  obtain ⟨b₂, hmade, hlater⟩ := bind_eq_ok.1 h
  rw [hK.keeps_replay hlater (replay_sound hmade hb).2 hrest,
    ← current_replay_opens hmade hb hplain hcount]
  -- The last action that is left is the one that makes the scope the nearest.
  rw [replay_append] at hmade
  obtain ⟨b₁, hfirst, hmade⟩ := bind_eq_ok.1 hmade
  obtain ⟨b₂', hdoes, hdone⟩ := replay_cons_cases hmade
  cases hdone
  exact hK.makes (replay_sound hfirst hb).2 hdoes ha

end Settles

/-! ## Entering a node -/

/-- The handlers of a node make its innermost scope the nearest one if it is a program or one of
these functions, and the scope around it if it is the value of a class field. -/
structure Houses (functions : List String) (makes keeps : Action → Prop) (p : Path) : Prop where
  mark : keeps .mark
  program : ∀ actions, p.isProgram = true → p.node.programActions = .ok actions →
    ∃ k, actions.countP Action.opens = k + 1 ∧ Makes makes keeps actions k
  function : ∀ actions, p.node.isAny functions = true → p.roleActions = .ok actions →
    ∃ k, actions.countP Action.opens = k + 1 ∧ Makes makes keeps actions k
  field : ∀ actions, p.node.classFieldActions = .ok actions → Makes makes keeps actions 0
  other : ∀ actions, p.isProgram = false → p.node.isAny functions = false →
    p.roleActions = .ok actions → (∀ a ∈ actions, a ∈ p.enterActions) → ∀ a ∈ actions, keeps a

/-- The nearest scope changes as the actions of a node make it, and to a scope that they open. -/
structure Moves (makes keeps : Action → Prop) (functions : List String) (p : Path)
    (actions : List Action) : Prop where
  innermost : (p.isProgram || p.node.isAny functions) = true →
    ∃ k, actions.countP Action.opens = k + 1 ∧ Makes makes keeps actions k
  outermost : (p.isProgram || p.node.isAny functions) = false →
    p.isChildOf NodeType.classFields "value" = true → Makes makes keeps actions 0
  none : (p.isProgram || p.node.isAny functions) = false →
    p.isChildOf NodeType.classFields "value" = false → ∀ a ∈ actions, keeps a

theorem mem_enterActions (hprogram : p.isProgram = false) (h : p.ownActions = .ok actions)
    (ha : a ∈ actions) : a ∈ p.enterActions := by
  simp only [Path.enterActions, hprogram, h, Action.attempt, Bool.false_eq_true, if_false]
  split
  · exact List.mem_cons_of_mem _ ha
  · exact ha

theorem Houses.moves (hp : Houses functions makes keeps p) (hprogram : p.isProgram = false)
    (h : p.ownActions = .ok actions) : Moves makes keeps functions p actions := by
  obtain ⟨field, rest, hfield, hrest, rfl⟩ := exists_of_ownActions h
  have hother : (p.isProgram || p.node.isAny functions) = false → ∀ a ∈ rest, keeps a := by
    intro hnot
    rw [hprogram, Bool.false_or] at hnot
    refine hp.other rest hprogram hnot hrest fun a ha => ?_
    exact mem_enterActions hprogram h (List.mem_append_right _ ha)
  constructor
  · intro hfunction
    rw [hprogram, Bool.false_or] at hfunction
    obtain ⟨k, hcount, hmakes⟩ := hp.function rest hfunction hrest
    refine ⟨field.countP Action.opens + k, ?_, hmakes.prepend ?_⟩
    · rw [List.countP_append, hcount, Nat.add_assoc]
    · rcases hfield with ⟨-, rfl⟩ | ⟨-, hfield⟩
      · simp
      · obtain ⟨headings, -, hopens⟩ := opens_classFieldActions hfield
        exact hopens.plain
  · intro hnot hplace
    rcases hfield with ⟨hno, -⟩ | ⟨-, hfield⟩
    · rw [hplace] at hno
      cases hno
    · exact (hp.field field hfield).append (hother hnot)
  · intro hnot hplace
    rcases hfield with ⟨-, rfl⟩ | ⟨hvalue, -⟩
    · exact hother hnot
    · rw [hplace] at hvalue
      cases hvalue

theorem head?_ownScopes {k : Nat} (hcount : p.scopeCount = k + 1) :
    (p.ownScopes past).head? = some (scopesMade past + k) := by
  rw [Path.ownScopes, List.head?_reverse, hcount, List.getLast?_range']
  rfl

theorem getLast?_ownScopes (hcount : p.scopeCount ≠ 0) :
    (p.ownScopes past).getLast? = some (scopesMade past) := by
  obtain ⟨k, hk⟩ := Nat.exists_eq_succ_of_ne_zero hcount
  rw [Path.ownScopes, List.getLast?_reverse, hk, List.head?_range']
  rfl

/-- The scope of a home is one that its own actions open. -/
theorem Moves.exists_home? (hmoves : Moves makes keeps functions p actions)
    (hcount : p.scopeCount = actions.countP Action.opens) (hhome : p.isHome functions = true) :
    ∃ k, Makes makes keeps actions k ∧ p.home? functions past = some (scopesMade past + k) := by
  rw [Path.home?]
  cases hfunction : p.isProgram || p.node.isAny functions with
  | true =>
    obtain ⟨k, hk, hmakes⟩ := hmoves.innermost hfunction
    exact ⟨k, hmakes, by rw [if_pos rfl, head?_ownScopes (hcount.trans hk)]⟩
  | false =>
    rw [Path.isHome, hfunction, Bool.false_or] at hhome
    have hmakes := hmoves.outermost hfunction hhome
    refine ⟨0, hmakes, ?_⟩
    rw [if_neg Bool.false_ne_true, if_pos hhome,
      getLast?_ownScopes (hcount ▸ hmakes.countP_ne_zero), Nat.add_zero]

theorem Moves.nearest_eq (hmoves : Moves makes keeps functions p actions)
    (hK : Settles K makes keeps) (h : b.replay actions = .ok b') (hb : b.Sound)
    (hcount : p.scopeCount = actions.countP Action.opens)
    (hnext : b.graph.nextScope = scopesMade past) :
    b'.nearest K = (p.home? functions past).or (b.nearest K) := by
  cases hhome : p.isHome functions with
  | true =>
    obtain ⟨k, hmakes, hown⟩ := hmoves.exists_home? hcount hhome
    rw [hown, hK.makes_replay h hb hmakes, hnext]
    rfl
  | false =>
    obtain ⟨hfunction, hplace⟩ := Bool.or_eq_false_iff.1 hhome
    rw [Path.home?, hfunction, hplace]
    exact hK.keeps_replay h hb (hmoves.none hfunction hplace)

/-- Entering a node replays actions that move the nearest scope as its place says, after a mark that
keeps it. -/
theorem Houses.exists_moves {before after final : Builder} (hp : Houses functions makes keeps p)
    (hpasses : Passes past p before after final) :
    ∃ b actions, Moves makes keeps functions p actions ∧ b.replay actions = .ok after ∧ b.Sound ∧
      p.scopeCount = actions.countP Action.opens ∧ b.graph.nextScope = scopesMade past ∧
      (b = before ∨ Does before .mark b) := by
  have h := hpasses.run_enter
  have hb := hpasses.sound_before
  have hnext := hpasses.nextScope_before
  cases enters_of_replay h with
  | program hprogram hactions hopens henter hexit =>
    rw [henter] at h
    refine ⟨before, _, ⟨fun _ => hp.program _ hprogram hactions, ?_, ?_⟩, h, hb,
      by rw [Path.scopeCount, henter], hnext, .inl rfl⟩
    · intro hnot
      rw [hprogram] at hnot
      cases hnot
    · intro hnot
      rw [hprogram] at hnot
      cases hnot
  | through hprogram hactions hown henter hexit =>
    rw [henter] at h
    exact ⟨before, _, hp.moves hprogram hactions, h, hb, by rw [Path.scopeCount, henter], hnext,
      .inl rfl⟩
  | @inside actions heading headings hprogram hactions hown henter hexit =>
    rw [henter] at h
    obtain ⟨b, hmark, hrest⟩ := replay_cons_cases h
    have hcount : p.scopeCount = actions.countP Action.opens := by
      rw [Path.scopeCount, henter, List.countP_cons_of_neg (by simp [Action.opens])]
    have hsame : b.graph.nextScope = before.graph.nextScope := hmark.nextScope
    exact ⟨b, actions, hp.moves hprogram hactions, hrest, (hmark.sound hb).2, hcount,
      hsame.trans hnext, .inr hmark⟩

/-- A home that a run enters always has a scope of its own. -/
theorem Houses.exists_home? {before after final : Builder} (hp : Houses functions makes keeps p)
    (hpasses : Passes past p before after final) (hhome : p.isHome functions = true) :
    ∃ s, p.home? functions past = some s := by
  obtain ⟨b, actions, hmoves, -, -, hcount, -, -⟩ := hp.exists_moves hpasses
  obtain ⟨k, -, hown⟩ : ∃ k, Makes makes keeps actions k ∧
      p.home? functions past = some (scopesMade past + k) := hmoves.exists_home? hcount hhome
  exact ⟨_, hown⟩

/-- Entering a home makes its scope the nearest one, and entering any other node keeps the nearest
scope. -/
theorem Houses.nearest_after {before after final : Builder} (hp : Houses functions makes keeps p)
    (hK : Settles K makes keeps) (hpasses : Passes past p before after final) :
    after.nearest K = (p.home? functions past).or (before.nearest K) := by
  obtain ⟨b, actions, hmoves, hrun, hb, hcount, hnext, hbefore⟩ := hp.exists_moves hpasses
  rw [hmoves.nearest_eq hK hrun hb hcount hnext]
  rcases hbefore with rfl | hmark
  · rfl
  · rw [hK.keeps hpasses.sound_before hmark hp.mark]

end Builder

/-! ## The nearest home -/

/-- A home is its own nearest home. The home above it takes its place nowhere, since a home that a
run enters has a scope of its own. -/
theorem Housed.eq_own {makes keeps : Action → Prop} {before after final : Builder}
    (h : Housed root functions past home p) (hp : Builder.Houses functions makes keeps p)
    (hpasses : Passes past p before after final) (hhome : p.isHome functions = true) :
    home = p.home? functions past := by
  cases h with
  | root => rfl
  | child h hkids =>
    obtain ⟨s, hs⟩ := hp.exists_home? hpasses hhome
    rw [hs, Option.some_or]

/-- The scope of the nearest home is the nearest scope once a node is entered, if nothing that is
walked between a node and one below it changes the nearest scope. -/
theorem Housed.nearest_after {K : Graph → ScopeId → Bool} {makes keeps : Action → Prop}
    {before after final : Builder} (h : Housed root functions past home p)
    (hsole : root.SoleProgram) (hpasses : Passes past p before after final)
    (hK : Builder.Settles K makes keeps)
    (hhouses : ∀ q ∈ .root root :: (Path.root root).descendants,
      Builder.Houses functions makes keeps q)
    (hwalk : ∀ (events : List Event) (b b' : Builder),
      (∀ q, .enter q ∈ events → q ∈ (Path.root root).descendants) → b.Sound →
        b.run events = .ok b' → ∀ s < b.graph.nextScope, K b'.graph s = K b.graph s) :
    after.nearest K = home := by
  induction h generalizing before after final with
  | root =>
    have hafter := (hhouses _ List.mem_cons_self).nearest_after hK hpasses
    cases hpasses.run_past
    rw [hafter]
    exact Option.or_none
  | @child past home p c earlier later h hkids ih =>
    obtain ⟨around, hvisit⟩ := h.exists_visit
    obtain ⟨before', hpast, hrun⟩ := Builder.run_append_eq_ok.1 hpasses.run_past
    obtain ⟨inside, henter, hearlier⟩ := Builder.run_cons_eq_ok.1 hrun
    have hparent : Passes past p before' inside before :=
      ⟨hpast, henter, Path.allEvents earlier, hearlier⟩
    have hchild := hvisit.child hkids
    rw [(hhouses c hchild.mem_descendants).nearest_after hK hpasses, ← ih hparent]
    congr 1
    -- Before the child the builder stands where it stood when the node above was entered.
    refine Builder.nearest_congr ?_ fun s hs => ?_
    · rw [hchild.around_before hsole hpasses, hparent.around_after,
        hvisit.around_before hsole hparent]
    · refine hwalk _ _ _ ?_ hparent.sound_after hearlier s
        (Builder.mem_around_lt hparent.sound_after hs)
      intro q hq
      obtain ⟨d, hd, hq⟩ := List.mem_flatMap.1 hq
      obtain ⟨q', hq', heq⟩ := Path.exists_of_mem_events hq
      have hmem : d ∈ p.kids := by
        rw [hkids]
        exact List.mem_append_left _ hd
      have hbelow : q' ∈ p.descendants :=
        Path.mem_descendants_iff.2 ⟨d, hmem, List.mem_cons.1 hq'⟩
      rcases heq with heq | heq
      · cases heq
        rcases List.mem_cons.1 hvisit.mem_descendants with rfl | hp
        · exact hbelow
        · exact Path.mem_descendants_trans hp hbelow
      · cases heq

end LexicalScopes
