import LexicalScopes.Proofs.Run.Visit
import LexicalScopes.Proofs.Shape.Outline

/-!
# Numbering

A run makes the scopes of an outline from the outside inwards and from left to right, and numbers
them in this order. The graph of a tree is its outline with such numbers.
-/

namespace LexicalScopes

variable {g g' : Graph} {parent : Option ScopeId} {n m k : Nat} {os rest below : List Outline}

/-! ## Numbered outlines -/

/-- In `g` the scopes from `n` on up to `m` are those of the outlines, which lie in `parent`. -/
inductive Numbered (g : Graph) : Option ScopeId → Nat → List Outline → Nat → Prop where
  | nil {parent : Option ScopeId} {n : Nat} : Numbered g parent n [] n
  | cons {parent : Option ScopeId} {n m k : Nat} {heading : Heading}
      {children rest : List Outline} (hn : n < g.nextScope)
      (hheader : (g.draft n).header = ⟨heading.type, heading.name, heading.loc, parent⟩)
      (hchildren : Numbered g (some n) (n + 1) children m) (hrest : Numbered g parent m rest k) :
      Numbered g parent n (.mk heading children :: rest) k

namespace Numbered

theorem le (h : Numbered g parent n os m) : n ≤ m := by
  induction h with
  | nil => exact Nat.le_refl _
  | cons hn hheader hchildren hrest ih ih' => exact Nat.le_trans (Nat.le_of_succ_le ih) ih'

theorem grow (h : Numbered g parent n os m) (hgrows : Graph.Grows g g') :
    Numbered g' parent n os m := by
  induction h with
  | nil => exact .nil
  | cons hn hheader hchildren hrest ih ih' =>
    exact .cons (Nat.lt_of_lt_of_le hn hgrows.nextScope_le) ((hgrows.header_eq hn).trans hheader)
      ih ih'

theorem append (h : Numbered g parent n os m) (h' : Numbered g parent m rest k) :
    Numbered g parent n (os ++ rest) k := by
  induction h with
  | nil => exact h'
  | cons hn hheader hchildren hrest ih ih' => exact .cons hn hheader hchildren (ih' h')

end Numbered

/-! ## Nodes without programs -/

namespace Path

variable {p c : Path}

/-- At and below the node there is no program. -/
def HoldsNoProgram (p : Path) : Prop := ∀ q ∈ p :: p.descendants, q.isProgram = false

/-- At and below the node there is no type that is only named like a role. -/
def HoldsNoAlias (p : Path) : Prop :=
  ∀ q ∈ p :: p.descendants, q.node.isAny NodeType.aliases = false

theorem mem_of_mem_kids {q : Path} (hc : c ∈ p.kids) (hq : q ∈ c :: c.descendants) :
    q ∈ p.descendants :=
  mem_descendants_iff.2 ⟨c, hc, List.mem_cons.1 hq⟩

theorem HoldsNoProgram.of_mem_kids (h : p.HoldsNoProgram) (hc : c ∈ p.kids) : c.HoldsNoProgram :=
  fun q hq => h q (List.mem_cons_of_mem _ (mem_of_mem_kids hc hq))

theorem HoldsNoAlias.of_mem_kids (h : p.HoldsNoAlias) (hc : c ∈ p.kids) : c.HoldsNoAlias :=
  fun q hq => h q (List.mem_cons_of_mem _ (mem_of_mem_kids hc hq))

theorem HoldsNoProgram.not_drifts (h : p.HoldsNoProgram) : ¬ p.Drifts := by
  intro hdrifts
  obtain ⟨q, hq, hprogram⟩ := hdrifts.exists_program
  rw [h q hq] at hprogram
  cases hprogram

end Path

/-! ## The scopes that a run numbers -/

namespace Builder

variable {b b' : Builder} {a : Action} {actions : List Action} {p : Path} {ps : List Path}
  {heading : Heading}

theorem Does.header (h : Does b a b') (ha : a.heading? = some heading) :
    (b'.graph.draft b.graph.nextScope).header =
      ⟨heading.type, heading.name, heading.loc, b.current⟩ := by
  cases h with
  | openRoot loc =>
    cases ha
    rw [Builder.openScope, Graph.draft_addScope, if_pos rfl]
    rfl
  | openScope type name loc =>
    cases ha
    rw [Builder.openScope, Graph.draft_addScope, if_pos rfl]
    rfl
  | _ => cases ha

/-- Opened scopes lie inside each other, and what is numbered afterwards lies in the last one. -/
theorem numbered_replay (h : b.replay actions = .ok b') (hplain : ∀ a ∈ actions, a.isPlain = true)
    (hb : b.Sound) (hgrows : Graph.Grows b'.graph g)
    (hbelow : Numbered g b'.current b'.graph.nextScope below m) :
    Numbered g b.current b.graph.nextScope
      (Outline.nest (actions.filterMap Action.heading?) below) m := by
  induction actions generalizing b with
  | nil =>
    cases h
    exact hbelow
  | cons a actions ih =>
    obtain ⟨b₁, hdoes, hrest⟩ := replay_cons_cases h
    -- An action either opens a scope around all that follows, or leaves the numbers alone.
    have hb₁ := (hdoes.sound hb).2
    have hinner := ih hrest (fun a' ha' => hplain a' (List.mem_cons_of_mem _ ha')) hb₁
    have hcurrent := hdoes.current_of_isPlain (hplain a List.mem_cons_self)
    have hnext := hdoes.nextScope
    rw [Action.opens_eq_isSome_heading?] at hcurrent hnext
    rw [List.filterMap_cons]
    cases hheading : a.heading? with
    | none =>
      rw [hheading] at hcurrent hnext
      rw [hcurrent, hnext] at hinner
      exact hinner
    | some heading =>
      rw [hheading] at hcurrent hnext
      rw [hcurrent, hnext] at hinner
      have hlater := (replay_grows hrest hb₁).trans hgrows
      have hlt : b.graph.nextScope < b₁.graph.nextScope := by
        rw [hnext]
        exact Nat.lt_succ_self _
      refine .cons (Nat.lt_of_lt_of_le hlt hlater.nextScope_le) ?_ hinner .nil
      rw [hlater.header_eq hlt]
      exact hdoes.header hheading

/-- The walk from `b` to `b'` has numbered outlines inside the scope where the builder stands. They
are those of the syntax tree if it has no aliases. -/
def Numbers (b b' : Builder) (outlines : Except Cause (List Outline)) (aliasFree : Prop) : Prop :=
  ∃ os, (aliasFree → outlines = .ok os) ∧
    Numbered b'.graph b.current b.graph.nextScope os b'.graph.nextScope

/-- One after the other, nodes number their outlines if each of them does and none moves the
builder. -/
theorem numbers_allEvents
    (hps : ∀ p ∈ ps, ∀ b b' : Builder, b.Sound → b.run p.events = .ok b' →
      b.Numbers b' p.outlines p.HoldsNoAlias)
    (hstays : ∀ p ∈ ps, ¬ p.Drifts) (hb : b.Sound) (h : b.run (Path.allEvents ps) = .ok b') :
    b.Numbers b' (Path.allOutlines ps) (∀ p ∈ ps, p.HoldsNoAlias) := by
  induction ps generalizing b with
  | nil =>
    cases h
    exact ⟨[], fun _ => rfl, .nil⟩
  | cons p ps ih =>
    rw [Path.allEvents_cons] at h
    obtain ⟨b₁, hfirst, hrest⟩ := run_append_eq_ok.1 h
    have hb₁ := (replay_sound hfirst hb).2
    obtain ⟨os, hos, hnumbered⟩ := hps p List.mem_cons_self b b₁ hb hfirst
    obtain ⟨rest, hrests, hnumbered'⟩ := ih (fun q hq => hps q (List.mem_cons_of_mem _ hq))
      (fun q hq => hstays q (List.mem_cons_of_mem _ hq)) hb₁ hrest
    -- The first node brings the builder back, so the others are numbered in the same scope.
    rw [(lands_events p b b₁ hfirst).back (hstays p List.mem_cons_self)] at hnumbered'
    refine ⟨os ++ rest, ?_, (hnumbered.grow (replay_grows hrest hb₁)).append hnumbered'⟩
    intro halias
    rw [Path.allOutlines_cons, hos (halias p List.mem_cons_self), ok_bind,
      hrests fun q hq => halias q (List.mem_cons_of_mem _ hq)]
    rfl

/-- Walking a node without programs numbers its outlines. -/
theorem numbers_events (p : Path) (hp : p.HoldsNoProgram) :
    ∀ b b' : Builder, b.Sound → b.run p.events = .ok b' →
      b.Numbers b' p.outlines p.HoldsNoAlias := by
  induction p using Path.induction_on_kids with
  | step p ih =>
    intro b b' hb h
    rw [Path.events_eq] at h
    obtain ⟨b₁, henter, h⟩ := run_cons_eq_ok.1 h
    obtain ⟨b₂, hkids, hexit⟩ := run_append_eq_ok.1 h
    rw [run_singleton] at hexit
    have hb₁ := (replay_sound henter hb).2
    have hgrows := replay_grows hkids hb₁
    obtain ⟨below, hbelow, hnumbered⟩ := numbers_allEvents
      (fun c hc => ih c hc (hp.of_mem_kids hc)) (fun c hc => (hp.of_mem_kids hc).not_drifts) hb₁
      hkids
    have houtlines : ∀ headings, p.HoldsNoAlias → p.contributed = .ok headings →
        p.outlines = .ok (Outline.nest headings below) := by
      intro headings halias hcontributed
      rw [Path.outlines_eq, hcontributed, ok_bind, hbelow fun c hc => halias.of_mem_kids hc]
      rfl
    cases enters_of_replay henter with
    | program hprogram hactions hopens henters hexits =>
      rw [hp p List.mem_cons_self] at hprogram
      cases hprogram
    | through hprogram hactions hown henters hexits =>
      simp only [Event.actions, henters, hexits] at henter hexit
      cases hexit
      have hnest := numbered_replay henter hown.opens.plain hb hgrows hnumbered
      rw [hown.opens.headings_eq] at hnest
      exact ⟨_, fun halias => houtlines _ halias (hown.scopes_eq (halias p List.mem_cons_self)),
        hnest⟩
    | inside hprogram hactions hown henters hexits =>
      simp only [Event.actions, henters, hexits] at henter hexit
      obtain ⟨b₀, hmark, hopen⟩ := replay_cons_cases henter
      have hb₀ := (hmark.sound hb).2
      have hnest := numbered_replay hopen hown.opens.plain hb₀ hgrows hnumbered
      rw [hown.opens.headings_eq] at hnest
      cases hmark
      -- Leaving the node does not change the graph.
      have hgraph : b'.graph = b₂.graph := by
        obtain ⟨b₃, hrestore, hdone⟩ := replay_cons_cases hexit
        cases hdone
        cases hrestore <;> rfl
      rw [Numbers, hgraph]
      exact ⟨_, fun halias => houtlines _ halias (hown.scopes_eq (halias p List.mem_cons_self)),
        hnest⟩

end Builder

end LexicalScopes
