import LexicalScopes.Proofs.Run.Contribution

/-!
# Where the builder stands

A node that opens scopes marks the place where the builder stands, and leaving the node leads back
to it. A node that opens none leaves the builder where its children leave it. Only a `Program`
inside another node moves the builder for good, because leaving it leads to its own root.
-/

namespace LexicalScopes

/-! ## Entering a node -/

namespace Path

/-- The number of scopes that are made on entering a node. -/
def scopeCount (p : Path) : Nat := p.enterActions.countP Action.opens

/-- The ways of entering a node without a fault. -/
inductive Enters (p : Path) : Prop where
  /-- A `Program` is entered, and it is left for its root. -/
  | program {actions : List Action} {headings : List Heading} (hp : p.isProgram = true)
      (hactions : p.node.programActions = .ok actions) (hopens : Opens actions headings)
      (henter : p.enterActions = actions) (hexit : p.exitActions = [.returnToRoot])
  /-- The builder stays in the scope where it stands. -/
  | through {actions : List Action} (hp : p.isProgram = false)
      (hactions : p.ownActions = .ok actions) (hown : Contributes p actions p.contributed [])
      (henter : p.enterActions = actions) (hexit : p.exitActions = [])
  /-- The builder goes into scopes of the node, and it comes back later. -/
  | inside {actions : List Action} {heading : Heading} {headings : List Heading}
      (hp : p.isProgram = false) (hactions : p.ownActions = .ok actions)
      (hown : Contributes p actions p.contributed (heading :: headings))
      (henter : p.enterActions = .mark :: actions) (hexit : p.exitActions = [.restore])

end Path

theorem Opens.countP_eq {actions : List Action} {headings : List Heading}
    (h : Opens actions headings) : actions.countP Action.opens = headings.length := by
  rw [Action.countP_opens, h.headings_eq]

theorem Opens.any_eq {actions : List Action} {headings : List Heading}
    (h : Opens actions headings) :
    actions.any Action.opens = !headings.isEmpty := by
  rw [← h.headings_eq]
  have hcount := Action.countP_opens actions
  cases hany : actions.any Action.opens with
  | false =>
    have hzero : actions.countP Action.opens = 0 := by simpa [List.countP_eq_zero] using hany
    rw [hzero] at hcount
    simp [List.eq_nil_of_length_eq_zero hcount.symm]
  | true =>
    have hpos : 0 < actions.countP Action.opens := by simpa [List.countP_pos_iff] using hany
    rw [hcount] at hpos
    simp [List.ne_nil_of_length_pos hpos]

namespace Builder

variable {b b' : Builder} {p : Path}

/-- Replaying an attempt succeeds only if the attempt does. -/
theorem exists_of_replay_attempt {attempted : Except Cause (List Action)}
    (h : b.replay (Action.attempt attempted) = .ok b') : ∃ actions, attempted = .ok actions := by
  cases attempted with
  | ok actions => exact ⟨actions, rfl⟩
  | error fault => cases h

theorem enters_of_replay (h : b.replay p.enterActions = .ok b') : p.Enters := by
  cases hp : p.isProgram with
  | true =>
    have henter : p.enterActions = Action.attempt p.node.programActions := by
      rw [Path.enterActions, hp, if_pos rfl]
    have hexit : p.exitActions = [.returnToRoot] := by rw [Path.exitActions, hp, if_pos rfl]
    rw [henter] at h
    obtain ⟨actions, hactions⟩ := exists_of_replay_attempt h
    obtain ⟨loc, -, hopens⟩ := opens_programActions hactions
    exact .program hp hactions hopens (henter.trans (by rw [hactions]; rfl)) hexit
  | false =>
    have hexists : ∃ actions, p.ownActions = .ok actions := by
      cases hown : p.ownActions with
      | ok actions => exact ⟨actions, rfl⟩
      | error fault =>
        rw [Path.enterActions, hp, hown] at h
        cases h
    obtain ⟨actions, hactions⟩ := hexists
    obtain ⟨headings, hown⟩ := contributes_ownActions hactions
    have hany := hown.opens.any_eq
    cases headings with
    | nil =>
      refine .through hp hactions hown ?_ ?_
      · simp [Path.enterActions, hp, hactions, Action.attempt, hany]
      · simp [Path.exitActions, hp, hactions, Action.attempt, hany]
    | cons heading headings =>
      refine .inside hp hactions hown ?_ ?_
      · simp [Path.enterActions, hp, hactions, Action.attempt, hany]
      · simp [Path.exitActions, hp, hactions, Action.attempt, hany]

/-- A node other than a `Program` makes the scopes that it contributes. -/
theorem exists_contributed (hp : p.isProgram = false)
    (halias : p.node.isAny NodeType.aliases = false) (h : b.replay p.enterActions = .ok b') :
    ∃ headings, p.contributed = .ok headings ∧ p.scopeCount = headings.length := by
  rw [Path.scopeCount]
  cases enters_of_replay h with
  | program hp' hactions hopens henter hexit =>
    rw [hp] at hp'
    cases hp'
  | through hp' hactions hown henter hexit =>
    exact ⟨[], hown.scopes_eq halias, by rw [henter, hown.opens.countP_eq]⟩
  | inside hp' hactions hown henter hexit =>
    refine ⟨_, hown.scopes_eq halias, ?_⟩
    rw [henter, List.countP_cons_of_neg (by simp [Action.opens]), hown.opens.countP_eq]

/-- Entering a node puts its scopes inside the scopes around it. -/
theorem around_enter (h : b.replay p.enterActions = .ok b') (hb : b.Sound) :
    b'.around = (List.range' b.graph.nextScope p.scopeCount).reverse ++ b.around := by
  have henters := enters_of_replay h
  rw [Path.scopeCount]
  cases henters with
  | program hp hactions hopens henter hexit =>
    rw [henter] at h ⊢
    exact around_replay h hopens.plain hb
  | through hp hactions hown henter hexit =>
    rw [henter] at h ⊢
    exact around_replay h hown.opens.plain hb
  | inside hp hactions hown henter hexit =>
    rw [henter] at h ⊢
    obtain ⟨b₁, hmark, hrest⟩ := replay_cons_cases h
    have hb₁ := (hmark.sound hb).2
    have haround := around_replay hrest hown.opens.plain hb₁
    cases hmark
    -- Marking the place changes neither the graph nor the place.
    rw [List.countP_cons_of_neg (by simp [Action.opens])]
    exact haround

end Builder

/-! ## Nodes that move the builder -/

/-- A `Program` moves the builder, and so does a node that opens no scope around such a child. -/
inductive Path.Drifts : Path → Prop where
  | program {p : Path} (hp : p.isProgram = true) : Drifts p
  | child {p c : Path} (hcount : p.scopeCount = 0) (hc : c ∈ p.kids) (h : Drifts c) : Drifts p

namespace Path

variable {p : Path}

/-- A node without scopes lets through what moves the builder below it. -/
theorem drifts_iff_of_scopeCount (hp : p.isProgram = false) (hcount : p.scopeCount = 0) :
    p.Drifts ↔ ∃ c ∈ p.kids, c.Drifts := by
  constructor
  · intro hdrift
    cases hdrift with
    | program hp' =>
      rw [hp] at hp'
      cases hp'
    | child hcount hc hdrift => exact ⟨_, hc, hdrift⟩
  · rintro ⟨c, hc, hdrift⟩
    exact .child hcount hc hdrift

/-- A node with scopes brings the builder back. -/
theorem not_drifts_of_scopeCount (hp : p.isProgram = false) (hcount : p.scopeCount ≠ 0) :
    ¬ p.Drifts := by
  intro hdrift
  cases hdrift with
  | program hp' =>
    rw [hp] at hp'
    cases hp'
  | child hzero hc hdrift => exact hcount hzero

end Path

namespace Builder

variable {b b' b'' : Builder} {p : Path} {drift drift' : Prop}

/-- After a subtree the marks are what they were. The builder stands where it stood, or in a scope
made since if the subtree moves it. -/
structure Lands (b b' : Builder) (drift : Prop) : Prop where
  marks : b'.marks = b.marks
  back : ¬ drift → b'.current = b.current
  away : drift → ∃ r, b'.current = some r ∧ b.graph.nextScope ≤ r

theorem Lands.congr (h : Lands b b' drift) (hiff : drift ↔ drift') : Lands b b' drift' where
  marks := h.marks
  back hdrift := h.back (mt hiff.1 hdrift)
  away hdrift := h.away (hiff.2 hdrift)

theorem Lands.trans (h : Lands b b' drift) (h' : Lands b' b'' drift')
    (hnext : b.graph.nextScope ≤ b'.graph.nextScope) : Lands b b'' (drift ∨ drift') where
  marks := h'.marks.trans h.marks
  back hdrift := (h'.back fun hd => hdrift (.inr hd)).trans (h.back fun hd => hdrift (.inl hd))
  away hdrift := by
    by_cases hd : drift'
    · obtain ⟨r, hr, hle⟩ := h'.away hd
      exact ⟨r, hr, Nat.le_trans hnext hle⟩
    · obtain ⟨r, hr, hle⟩ := h.away (hdrift.resolve_right hd)
      exact ⟨r, (h'.back hd).trans hr, hle⟩

theorem nextScope_le_run {events : List Event} (h : b.run events = .ok b') :
    b.graph.nextScope ≤ b'.graph.nextScope := by
  rw [nextScope_replay h]
  exact Nat.le_add_right _ _

theorem lands_allEvents {ps : List Path}
    (hps : ∀ p ∈ ps, ∀ b b', b.run p.events = .ok b' → Lands b b' p.Drifts)
    (h : b.run (Path.allEvents ps) = .ok b') : Lands b b' (∃ p ∈ ps, p.Drifts) := by
  induction ps generalizing b with
  | nil =>
    cases h
    exact ⟨rfl, fun _ => rfl, by simp⟩
  | cons p ps ih =>
    rw [Path.allEvents_cons] at h
    obtain ⟨b₁, hfirst, hrest⟩ := run_append_eq_ok.1 h
    have hland := hps p List.mem_cons_self b b₁ hfirst
    have hland' := ih (fun q hq => hps q (List.mem_cons_of_mem _ hq)) hrest
    exact (hland.trans hland' (nextScope_le_run hfirst)).congr (by simp)

theorem root_enter_program {actions : List Action} (hactions : p.node.programActions = .ok actions)
    (h : b.replay actions = .ok b') : ∃ r, b'.root = some r ∧ b.graph.nextScope ≤ r := by
  obtain ⟨loc, -, hactions⟩ := bind_eq_ok.1 hactions
  cases hactions
  obtain ⟨b₁, hdoes, hrest⟩ := replay_cons_cases h
  have hnext := hdoes.nextScope
  cases hdoes with
  | openRoot loc =>
    rcases root_replay hrest with hroot | ⟨r, hr, hle⟩
    · exact ⟨_, hroot, Nat.le_refl _⟩
    · rw [hnext] at hle
      exact ⟨r, hr, Nat.le_trans (Nat.le_add_right _ _) hle⟩

/-- What walking a node and everything below it does to the place of the builder. -/
theorem lands_events (p : Path) : ∀ b b', b.run p.events = .ok b' → Lands b b' p.Drifts := by
  induction p using Path.induction_on_kids with
  | step p ih =>
    intro b b' h
    rw [Path.events_eq] at h
    obtain ⟨b₁, henter, h⟩ := run_cons_eq_ok.1 h
    obtain ⟨b₂, hkids, hexit⟩ := run_append_eq_ok.1 h
    rw [run_singleton] at hexit
    have hland := lands_allEvents ih hkids
    have hle : b.graph.nextScope ≤ b₁.graph.nextScope := by
      rw [nextScope_replay henter]
      exact Nat.le_add_right _ _
    cases enters_of_replay henter with
    | program hp hactions hopens henters hexits =>
      simp only [Event.actions, henters, hexits] at henter hexit
      cases hexit
      have hmarks := marks_replay henter hopens.plain
      refine ⟨hland.marks.trans hmarks, fun hdrift => absurd (.program hp) hdrift, fun _ => ?_⟩
      -- The root is the one made on entering, or that of a later program below.
      obtain ⟨r, hr, hler⟩ := root_enter_program hactions henter
      rcases root_replay hkids with hroot | ⟨r', hr', hler'⟩
      · exact ⟨r, hroot.trans hr, hler⟩
      · exact ⟨r', hr', Nat.le_trans hle hler'⟩
    | through hp hactions hown henters hexits =>
      have hcount : p.scopeCount = 0 := by
        rw [Path.scopeCount, henters, hown.opens.countP_eq]
        rfl
      simp only [Event.actions, henters, hexits] at henter hexit
      cases hexit
      have hmarks := marks_replay henter hown.opens.plain
      have hcurrent := current_replay henter hown.opens.plain hown.opens.any_eq
      have hstart : Lands b b₁ False := ⟨hmarks, fun _ => hcurrent, False.elim⟩
      refine (hstart.trans hland hle).congr ?_
      rw [false_or, Path.drifts_iff_of_scopeCount hp hcount]
    | inside hp hactions hown henters hexits =>
      have hcount : p.scopeCount ≠ 0 := by
        rw [Path.scopeCount, henters]
        simp [Action.opens, hown.opens.countP_eq]
      have hstays := Path.not_drifts_of_scopeCount hp hcount
      simp only [Event.actions, henters, hexits] at henter hexit
      obtain ⟨b₀, hmark, hopen⟩ := replay_cons_cases henter
      cases hmark
      -- The mark is on top again when the node is left.
      have hmarks : b₂.marks = b.current :: b.marks :=
        hland.marks.trans (marks_replay hopen hown.opens.plain)
      obtain ⟨b₃, hrestore, hdone⟩ := replay_cons_cases hexit
      cases hdone
      cases hrestore with
      | restore hsaved =>
        rw [hmarks] at hsaved
        cases hsaved
        exact ⟨rfl, fun _ => rfl, fun hdrift => absurd hdrift hstays⟩
      | restoreNothing hnone =>
        rw [hmarks] at hnone
        cases hnone

theorem lands_all {ps : List Path} (h : b.run (Path.allEvents ps) = .ok b') :
    Lands b b' (∃ p ∈ ps, p.Drifts) :=
  lands_allEvents (fun p _ => lands_events p) h

end Builder

end LexicalScopes
