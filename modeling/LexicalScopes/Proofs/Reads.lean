import LexicalScopes.Proofs.Resolution
import LexicalScopes.Proofs.Run.Induction
import Mathlib.Data.List.ReduceOption

/-!
# The order of reads

Visiting an identifier that reads a name, or a `this`, records at most one read, and visiting any
other node records none. The reads of a binding therefore stand in the order of the visits.
-/

namespace LexicalScopes

/-- A read that is recorded at a binding. -/
abbrev Read : Type := EntryId × Occurrence

/-- The reads that are recorded at one binding. -/
def readsOf (e : EntryId) (reads : List Read) : List Occurrence :=
  (reads.filter fun r => r.1 = e).map (·.2)

@[simp] theorem readsOf_nil {e : EntryId} : readsOf e [] = [] := rfl

@[simp] theorem readsOf_append {e : EntryId} {reads more : List Read} :
    readsOf e (reads ++ more) = readsOf e reads ++ readsOf e more := by
  simp [readsOf]

/-! ## One visit -/

/-- The read stands where the node stands. -/
def Occurrence.StandsAt (o : Occurrence) (n : Node) : Prop :=
  ∃ loc, n.loc = .ok loc ∧ o.start = loc.get "start" ∧ o.stop = loc.get "end"

/-- What a node inside `scopes` reads once `g` is built: the binding of the innermost of these
scopes that binds its name, which is still the binding of this scope in the final graph. Without
such a scope, or without a name, it reads nothing. -/
def Path.Reads (p : Path) (g final : Graph) (scopes : List ScopeId) : Option Read → Prop
  | some (e, o) => ∃ name t, p.readName? = some name ∧ scopes.find? (g.binds · name) = some t ∧
      g.find? t name = some e ∧ final.find? t name = some e ∧ p.occurrence = .ok o ∧
      o.StandsAt p.node
  | none => ∀ name, p.readName? = some name → ∀ t ∈ scopes, g.binds t name = false

/-- From `g` to `g'` exactly this read is added, as the last one of its binding. -/
def Graph.Gains (g g' : Graph) (r : Option Read) : Prop :=
  ∀ e, (g'.entry e).refs = (g.entry e).refs ++ readsOf e r.toList

section Visits

variable {root : Node} {past : List Event} {around : List ScopeId} {p : Path}
  {b b' before after final : Builder} {g g' : Graph} {e : EntryId} {o : Occurrence} {name : Scalar}

theorem standsAt_of_occurrence (h : p.occurrence = .ok o) : o.StandsAt p.node := by
  obtain ⟨loc, hloc, h⟩ := bind_eq_ok.1 h
  obtain ⟨wrappers, -, h⟩ := bind_eq_ok.1 h
  cases h
  exact ⟨loc, hloc, rfl, rfl⟩

theorem Graph.SameReads.gains (h : Graph.SameReads g g') : Graph.Gains g g' none := by
  simpa [Graph.Gains, Graph.SameReads] using h

theorem Graph.AddsRead.gains (h : Graph.AddsRead g g' e o) : Graph.Gains g g' (some (e, o)) := by
  intro e'
  rw [h e']
  by_cases he : e' = e
  · simp [readsOf, he]
  · simp [readsOf, he, Ne.symm he]

/-- A node without a name to read performs no reads. -/
theorem reads_eq_false_of_readName? (hname : p.readName? = none)
    (h : b.replay p.enterActions = .ok b') : ∀ a ∈ p.enterActions, a.reads = false := by
  intro a ha
  cases performs_enterActions h a ha with
  | refer hread =>
    rw [hname] at hread
    cases hread
  | _ => rfl

/-- Every visit adds the read of its node, if it has one. -/
theorem Visit.exists_reads (h : Visit root past around p) (hsole : root.SoleProgram)
    (hpasses : Passes past p before after final) :
    ∃ r, p.Reads after.graph final.graph (p.ownScopes past ++ around) r ∧
      Graph.Gains before.graph after.graph r := by
  cases hname : p.readName? with
  | none =>
    have hquiet := reads_eq_false_of_readName? hname hpasses.run_enter
    refine ⟨none, ?_, (Builder.sameReads_replay hpasses.run_enter hquiet).gains⟩
    intro name hread
    rw [hname] at hread
    cases hread
  | some name =>
    -- At the moment of the read the builder stands inside the scopes of the nodes around it.
    obtain ⟨b, hb, hsame, haround, hdoes⟩ :=
      exists_refer_of_readName? hname hpasses.sound_before hpasses.run_enter
    rw [hpasses.around_after, h.around_before hsole hpasses] at haround
    generalize hocc : p.occurrence = occurrence at hdoes
    cases hdoes with
    | @drop s _ hs hres =>
      refine ⟨none, ?_, hsame.gains⟩
      intro n hread t ht
      rw [hname] at hread
      cases hread
      rw [← haround, Builder.around, hs] at ht
      exact Bool.eq_false_iff.2 (List.find?_eq_none.1 hres t ht)
    | @refer s t _ e hs hres he o =>
      have hfound : (p.ownScopes past ++ around).find? (b.graph.binds · name) = some t := by
        rw [← haround, Builder.around, hs]
        exact hres
      have hsize := hb.valid.owns.lt_of_find? t name e he
      have hlast := hpasses.grows_rest.find? t name e he
      exact ⟨some (e, o), ⟨name, t, hname, hfound, he, hlast, hocc, standsAt_of_occurrence hocc⟩,
        (hsame.addsRead (Graph.addsRead_addReference hsize)).gains⟩

end Visits

/-! ## All visits -/

/-- Visiting a node of the tree adds the read that the node has at that moment. -/
def Node.VisitReads (root : Node) (final : Builder) (v : List Event × Path) (r : Option Read) :
    Prop :=
  ∃ around before after, Visit root v.1 around v.2 ∧ Passes v.1 v.2 before after final ∧
    v.2.Reads after.graph final.graph (v.2.ownScopes v.1 ++ around) r ∧
    Graph.Gains before.graph after.graph r

/-- Visits record at most one read each, at the innermost scope around the node that binds the name
by then. The reads of every binding stand in the order of the visits, and there are no others. -/
theorem refs_in_order_of_visits {root : Node} {final : Builder}
    (hfinal : collect (.object root) = .ok final) (hsole : root.SoleProgram) :
    ∃ reads : List (Option Read), List.Forall₂ (root.VisitReads final) root.visited reads ∧
      ∀ e, (final.graph.entry e).refs = readsOf e reads.reduceOption := by
  refine Builder.run_induction (P := fun past b => ∃ reads : List (Option Read),
    List.Forall₂ (root.VisitReads final) (enteredFrom [] past) reads ∧
    ∀ e, (b.graph.entry e).refs = readsOf e reads.reduceOption)
    (ofTree_of_collect hfinal).2 ?_ ?_ ?_
  · exact ⟨[], .nil, fun e => congrArg Entry.refs (Graph.entry_of_le (Nat.zero_le e))⟩
  · intro past around p before after hvisit hpasses ⟨reads, hreads, hrefs⟩
    obtain ⟨r, hread, hgains⟩ := hvisit.exists_reads hsole hpasses
    have hlast : root.VisitReads final (past, p) r :=
      ⟨around, before, after, hvisit, hpasses, hread, hgains⟩
    refine ⟨reads ++ [r], ?_, ?_⟩
    · rw [enteredFrom_append]
      exact List.rel_append hreads (.cons hlast .nil)
    · intro e
      rw [hgains e, hrefs e, List.reduceOption_append, readsOf_append]
      cases r <;> rfl
  · -- Leaving a node enters nothing and reads nothing.
    intro past p b b' hgraph ⟨reads, hreads, hrefs⟩
    refine ⟨reads, ?_, ?_⟩
    · rw [enteredFrom_append]
      simpa using hreads
    · intro e
      rw [hgraph, hrefs e]

section Repeated

open Sample

/-- A name is declared, read, and read again in a block. -/
def repeatedProgram : Node :=
  program 15 [declaration "var" "x" 0, reading "x" 7, block 10 15 [reading "x" 12]]

theorem refs_in_order_of_visits_repeated :
    ∃ final, collect (.object repeatedProgram) = .ok final ∧
      ∃ reads : List (Option Read),
        List.Forall₂ (repeatedProgram.VisitReads final) repeatedProgram.visited reads ∧
        ∀ e, (final.graph.entry e).refs = readsOf e reads.reduceOption := by
  obtain ⟨final, hfinal⟩ :=
    exists_eq_ok (e := collect (.object repeatedProgram)) (by decide +kernel)
  exact ⟨final, hfinal, refs_in_order_of_visits hfinal (by decide +kernel)⟩

end Repeated

end LexicalScopes
