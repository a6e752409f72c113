import LexicalScopes.Proofs.Run.Performs
import LexicalScopes.Proofs.Run.Visit
import LexicalScopes.Proofs.Samples

/-!
# Resolution of reads

A read is recorded while the tree is still walked, at the innermost scope around it that binds the
name by then. Names that the walk meets later are not known yet. A read therefore belongs to the
innermost scope that ever binds its name exactly if that scope binds the name by the time of the
read.
-/

namespace LexicalScopes

/-! ## New reads -/

namespace Graph

variable {g g' final : Graph} {e e' : EntryId} {o o' : Occurrence} {name : Scalar}

/-- `g'` has one read more than `g`, the last one of the binding `e`. -/
def AddsRead (g g' : Graph) (e : EntryId) (o : Occurrence) : Prop :=
  ∀ e', (g'.entry e').refs = (g.entry e').refs ++ if e' = e then [o] else []

/-- `g'` has the reads of `g`. -/
def SameReads (g g' : Graph) : Prop := ∀ e, (g'.entry e).refs = (g.entry e).refs

/-- From `g` to `g'` a read of the name is recorded in the scope `target` of the final graph, and
it stays there. Without a scope the read is dropped. -/
def Resolves (g g' final : Graph) (name : Scalar) (occurrence : Except Cause Occurrence) :
    Option ScopeId → Prop
  | some t => ∃ e o, final.find? t name = some e ∧ occurrence = .ok o ∧ AddsRead g g' e o ∧
      (g'.entry e).refs <+: (final.entry e).refs
  | none => SameReads g g'

theorem addsRead_addReference (he : e < g.entries.size) : AddsRead g (g.addReference e o) e o := by
  intro e'
  rw [entry_addReference he]
  split
  · rename_i h
    rw [h]
  · rw [List.append_nil]

theorem AddsRead.unique (h : AddsRead g g' e o) (h' : AddsRead g g' e' o') : e = e' := by
  have hadded := (h e).symm.trans (h' e)
  rw [if_pos rfl, List.append_cancel_left_eq] at hadded
  split at hadded
  · assumption
  · cases hadded

theorem AddsRead.not_sameReads (h : AddsRead g g' e o) : ¬ SameReads g g' := by
  intro hsame
  have hadded := (h e).symm.trans (hsame e)
  rw [if_pos rfl] at hadded
  simp at hadded

theorem SameReads.addsRead (hsame : SameReads g final) (h : AddsRead final g' e o) :
    AddsRead g g' e o := by
  intro e'
  rw [← hsame e']
  exact h e'

end Graph

namespace Builder

variable {b b' : Builder} {a : Action} {actions : List Action}

theorem refs_declareImplicit {g : Graph} {s : ScopeId} {names : List String} {e : EntryId} :
    ((g.declareImplicit s names).entry e).refs = (g.entry e).refs := by
  induction names generalizing g with
  | nil => rfl
  | cons name names ih => rw [Graph.declareImplicit_cons, ih, Graph.refs_declare]

theorem Does.sameReads (h : Does b a b') (ha : a.reads = false) :
    Graph.SameReads b.graph b'.graph := by
  intro e
  cases h with
  | declare hs bound kind => exact Graph.refs_declare
  | hoist hs bound => exact Graph.refs_declare
  | declareFunction hs bound => exact Graph.refs_declare
  | introduce hs names => exact refs_declareImplicit
  | refer hs hres he o => cases ha
  | _ => rfl

theorem sameReads_replay (h : b.replay actions = .ok b') (hreads : ∀ a ∈ actions, a.reads = false) :
    Graph.SameReads b.graph b'.graph := by
  refine replay_rel (R := fun b b' => Graph.SameReads b.graph b'.graph) (fun _ _ => rfl)
    (fun _ _ _ hfirst hlater e => (hlater e).trans (hfirst e)) ?_ h
  intro a ha b b' hdoes
  exact hdoes.sameReads (hreads a ha)

end Builder

/-! ## The moment of a read -/

section Identifiers

variable {p : Path} {name : Scalar} {b b' : Builder}

/-- Until a node reads its name nothing else is read, and the read adds no names. -/
theorem exists_refer_of_readName? (hname : p.readName? = some name) (hb : b.Sound)
    (h : b.replay p.enterActions = .ok b') :
    ∃ b₁ : Builder, b₁.Sound ∧ Graph.SameReads b.graph b₁.graph ∧ b₁.around = b'.around ∧
      b₁.Does (.refer name p.occurrence) b' := by
  obtain ⟨first, hfirst, hreads⟩ := enterActions_of_readName? hname h
  rw [hfirst, Builder.replay_append] at h
  obtain ⟨b₁, hreplay, hread⟩ := bind_eq_ok.1 h
  obtain ⟨b₂, hdoes, hdone⟩ := Builder.replay_cons_cases hread
  cases hdone
  have hb₁ := (Builder.replay_sound hreplay hb).2
  have haround := hdoes.around_of_isPlain rfl hb₁
  exact ⟨b₁, hb₁, Builder.sameReads_replay hreplay hreads, haround.symm, hdoes⟩

theorem exists_refer_of_enter (hid : p.node.isAny ["Identifier"] = true)
    (href : p.isReferenced = true) (hname : p.node.scalarName = .ok name) (hb : b.Sound)
    (h : b.replay p.enterActions = .ok b') :
    ∃ b₁ : Builder, b₁.Sound ∧ Graph.SameReads b.graph b₁.graph ∧ b₁.around = b'.around ∧
      b₁.Does (.refer name p.occurrence) b' :=
  exists_refer_of_readName? (readName?_of_isReferenced hid href hname) hb h

end Identifiers

/-- A read leaves what every scope binds. -/
theorem Builder.Does.binds_of_refer {b b' : Builder} {name n : Scalar} {t : ScopeId}
    {occurrence : Except Cause Occurrence} (h : b.Does (.refer name occurrence) b') :
    b'.graph.binds t n = b.graph.binds t n := by
  cases h with
  | drop hs hres occurrence => rfl
  | refer hs hres he o => rfl

/-! ## Early and late names -/

/-- If the later predicate holds of more, the first place where it holds is the first one where
the earlier one does, provided the earlier one holds there. -/
theorem find?_of_weaker {α : Type} {early late : α → Bool} {xs : List α} {x : α}
    (hweaker : ∀ y, early y = true → late y = true) (h : xs.find? late = some x)
    (hearly : early x = true) : xs.find? early = some x := by
  rw [List.find?_eq_some_iff_append] at h ⊢
  obtain ⟨-, before, after, hxs, hbefore⟩ := h
  refine ⟨hearly, before, after, hxs, ?_⟩
  intro y hy
  have hlate := hbefore y hy
  cases hy' : early y with
  | false => rfl
  | true =>
    rw [hweaker y hy'] at hlate
    cases hlate

/-- A read is recorded at a target among the scopes around it exactly if the target binds the name
by the time of the read. -/
theorem Builder.Does.resolves_iff {b before after final : Builder} {name : Scalar}
    {occurrence : Except Cause Occurrence} {target : Option ScopeId}
    (h : b.Does (.refer name occurrence) after) (hb : b.Sound)
    (hsame : Graph.SameReads before.graph b.graph) (hfinal : final.graph.Valid)
    (hgrows : Graph.Grows after.graph final.graph) (hread : Graph.Grows b.graph after.graph)
    (htarget : (b.around.find? fun t => final.graph.binds t name) = target) :
    Graph.Resolves before.graph after.graph final.graph name occurrence target ↔
      ∀ t, target = some t → b.graph.binds t name = true := by
  have hweaker : ∀ t, b.graph.binds t name = true → final.graph.binds t name = true := by
    intro t ht
    exact hgrows.binds (hread.binds ht)
  cases h with
  | drop hs hres occurrence =>
    -- No scope around binds the name yet, so the target cannot.
    have hnone : b.around.find? (fun t => b.graph.binds t name) = none := by
      rw [around, hs]
      exact hres
    constructor
    · intro hresolves t ht
      subst ht
      obtain ⟨e, o, -, -, hadds, -⟩ := hresolves
      exact absurd hsame hadds.not_sameReads
    · intro hbinds
      cases target with
      | none => exact hsame
      | some t =>
        have hfound := find?_of_weaker hweaker htarget (hbinds t rfl)
        rw [hnone] at hfound
        cases hfound
  | @refer s u name e hs hres he o =>
    -- The innermost scope that binds the name by now is `u`.
    have hfound : b.around.find? (fun t => b.graph.binds t name) = some u := by
      rw [around, hs]
      exact hres
    have hsize := hb.valid.owns.lt_of_find? u name e he
    have hadds := hsame.addsRead (Graph.addsRead_addReference (o := o) hsize)
    have hlast := hgrows.find? u name e he
    constructor
    · intro hresolves t ht
      subst ht
      -- Only one binding has a new read, and it belongs to one scope.
      obtain ⟨e', o', he', -, hadds', -⟩ := hresolves
      have heq := hadds'.unique hadds
      subst heq
      obtain ⟨rfl, -⟩ := hfinal.owns.find?_inj t u name name e' he' hlast
      exact Graph.binds_iff.2 ⟨e', he⟩
    · -- If the target binds the name by now, it is `u`.
      intro hbinds
      cases target with
      | none =>
        have hlate := List.find?_eq_none.1 htarget u (List.mem_of_find?_eq_some hfound)
        exact absurd (Graph.binds_iff.2 ⟨e, hlast⟩) hlate
      | some t =>
        have hearly := find?_of_weaker hweaker htarget (hbinds t rfl)
        rw [hfound] at hearly
        cases hearly
        exact ⟨e, o, hlast, rfl, hadds, hgrows.refs e⟩

/-! ## Resolution by nesting -/

/-- A read is recorded at the innermost scope around it that ever binds its name, or dropped if
there is none, exactly if that scope binds the name once the read is reached. -/
theorem resolves_to_innermost_iff {root : Node} {final : Builder} {past : List Event}
    {around : List ScopeId} {p : Path} {name : Scalar}
    (hfinal : collect (.object root) = .ok final) (hsole : root.SoleProgram)
    (hvisit : Visit root past around p) (hid : p.node.isAny ["Identifier"] = true)
    (href : p.isReferenced = true) (hname : p.node.scalarName = .ok name) :
    ∃ before after, Passes past p before after final ∧
      (Graph.Resolves before.graph after.graph final.graph name p.occurrence
          ((p.ownScopes past ++ around).find? fun t => final.graph.binds t name) ↔
        ∀ t, ((p.ownScopes past ++ around).find? fun t => final.graph.binds t name) = some t →
          after.graph.binds t name = true) := by
  obtain ⟨before, after, hpasses⟩ := hvisit.passes (ofTree_of_collect hfinal).2
  refine ⟨before, after, hpasses, ?_⟩
  -- At the moment of the read the builder stands inside the scopes of the nodes around it.
  obtain ⟨b, hb, hsame, haround, hdoes⟩ :=
    exists_refer_of_enter hid href hname hpasses.sound_before hpasses.run_enter
  rw [hpasses.around_after, hvisit.around_before hsole hpasses] at haround
  have hread : Graph.Grows b.graph after.graph := Graph.Steps.grows (hdoes.sound hb).1 hb.valid
  have hiff := hdoes.resolves_iff hb hsame hpasses.sound_final.valid hpasses.grows_rest hread rfl
  rw [haround] at hiff
  simpa only [hdoes.binds_of_refer] using hiff

section EarlyRead

open Sample

/-- A name is read before the `var` that declares it. -/
def earlyProgram : Node := program 9 [reading "x" 0, declaration "var" "x" 3]

/-- The statement that reads the name. -/
def earlyStatement : Path := .child (.root earlyProgram) "body" (some 0) (reading "x" 0)

/-- The identifier that reads the name. -/
def earlyRead : Path := .child earlyStatement "expression" none (identifier "x" 0)

theorem visit_earlyRead :
    Visit earlyProgram [.enter (.root earlyProgram), .enter earlyStatement]
      (earlyStatement.ownScopes [.enter (.root earlyProgram)] ++
        ((Path.root earlyProgram).ownScopes [] ++ [])) earlyRead := by
  have hstatement : (Path.root earlyProgram).kids =
      [] ++ earlyStatement :: [.child (.root earlyProgram) "body" (some 1)
        (declaration "var" "x" 3)] := rfl
  have hread : earlyStatement.kids = [] ++ earlyRead :: [] := rfl
  exact (Visit.root.child hstatement).child hread

theorem resolves_to_innermost_iff_earlyRead :
    ∃ final before after, collect (.object earlyProgram) = .ok final ∧
      Passes [.enter (.root earlyProgram), .enter earlyStatement] earlyRead before after final ∧
      (Graph.Resolves before.graph after.graph final.graph (.string "x") earlyRead.occurrence
          ((earlyRead.ownScopes [.enter (.root earlyProgram), .enter earlyStatement] ++
            (earlyStatement.ownScopes [.enter (.root earlyProgram)] ++
              ((Path.root earlyProgram).ownScopes [] ++ []))).find?
                fun t => final.graph.binds t (.string "x")) ↔
        ∀ t, ((earlyRead.ownScopes [.enter (.root earlyProgram), .enter earlyStatement] ++
            (earlyStatement.ownScopes [.enter (.root earlyProgram)] ++
              ((Path.root earlyProgram).ownScopes [] ++ []))).find?
                fun t => final.graph.binds t (.string "x")) = some t →
          after.graph.binds t (.string "x") = true) := by
  obtain ⟨final, hfinal⟩ := exists_eq_ok (e := collect (.object earlyProgram)) (by decide +kernel)
  obtain ⟨before, after, hpasses, hiff⟩ :=
    resolves_to_innermost_iff hfinal (by decide +kernel) visit_earlyRead rfl (by decide +kernel) rfl
  exact ⟨final, before, after, hfinal, hpasses, hiff⟩

/-- In the end the module layer binds the name, but no binding has a read. -/
theorem earlyRead_is_lost :
    (collect (.object earlyProgram)).toOption.map
        (fun b => (b.graph.binds 2 (.string "x"), b.graph.entries.any (!·.refs.isEmpty))) =
      some (true, false) := by
  decide +kernel

end EarlyRead

end LexicalScopes
