import LexicalScopes.Proofs.Answers
import LexicalScopes.Proofs.Sharing.Runs

/-!
# Runs that end in a report

A run whose source can be parsed ends in a report if the analysis of the tree answers: the report
holds the scope tree or the fault. With a cache it can hold a scope tree that was remembered.
-/

namespace LexicalScopes

/-! ## Steps that succeed -/

/-- The step succeeds, and its value and the world after it have the property. -/
def Yields {α : Type} (x : Task α) (w : World) (Q : α → World → Prop) : Prop :=
  ∃ a w', x w = .ok a w' ∧ Q a w'

namespace Yields

variable {α β : Type} {x : Task α} {f : α → Task β} {w : World} {Q : α → World → Prop}
  {R : β → World → Prop}

theorem bind (h : Yields x w Q) (hf : ∀ a w', Q a w' → Yields (f a) w' R) :
    Yields (x >>= f) w R := by
  obtain ⟨a, w₁, hx, hq⟩ := h
  obtain ⟨b, w₂, hfa, hr⟩ := hf a w₁ hq
  exact ⟨b, w₂, (bind_of_ok hx).trans hfa, hr⟩

theorem pure {a : α} (h : Q a w) : Yields (pure a) w Q := ⟨a, w, rfl, h⟩

theorem modify {Q : Unit → World → Prop} {f : World → World} (h : Q () (f w)) :
    Yields (modify f) w Q := ⟨(), f w, rfl, h⟩

theorem orFail {o : Option α} {a : α} (ho : o = some a) (h : Q a w) : Yields (orFail o) w Q := by
  rw [ho]
  exact pure h

/-- The value that a step yields is the one that it gives. -/
theorem read (h : Yields x w Q) : Yields x w fun a w' => Q a w' ∧ x w = .ok a w' := by
  obtain ⟨a, w', hx, hq⟩ := h
  exact ⟨a, w', hx, hq, hx⟩

/-- The step succeeds, with whatever outcome. -/
abbrev Done {α : Type} (_ : α) (_ : World) : Prop := True

end Yields

/-! ## Steps of a run -/

/-- The parser answers the job with the tree, and the steps around the analysis can be taken: the
source has a hash, its name is a key, and what is to be stored is plain text that the storage
takes. -/
structure Job.Submits (job : Job) (parser : Parser) (ast : Json) : Prop where
  analyze : job.analyze = true
  answer : parser job.call = .tree ast
  source : ∃ hash, job.source.string?.bind Digest.ofText? = some hash
  name : ∃ key, job.name.key? = some key
  text : job.storeIn ≠ none → ∀ parsed w w', job.parse parser w = .ok parsed w' →
    ∃ text, Text.plain? parsed.toJson.print = some text
  storage : ∀ directory, job.storeIn = some directory →
    job.storage.makes directory = true ∧ ∀ name, job.storage.writes name = true

/-- The report holds the scope tree that the analysis gives, or the fault that it reports. -/
def Report.Holds (report : Report) (result : Except Cause Scope) : Prop :=
  (∃ a, report.scopes = some a ∧ report.error = none ∧ result = .ok a.tree) ∨
    ∃ e, report.scopes = none ∧ report.error = some e ∧ result = .error (.reported e)

section Steps

variable {job : Job} {parser : Parser} {ast : Json} {w : World} {parsed : Parsed}

theorem Job.Submits.yields_parse (h : job.Submits parser ast)
    (hissues : job.tolerant.isPresent = true → ∃ issues, recoveredIssues ast = .ok issues) :
    Yields (job.parse parser) w fun parsed _ => parsed.ast = ast := by
  obtain ⟨hash, hhash⟩ := h.source
  have hrecovered : ∃ issues, (if job.tolerant.isPresent then (recoveredIssues ast).toOption
      else some []) = some issues := by
    split
    · obtain ⟨issues, hissues⟩ := hissues ‹_›
      exact ⟨issues, by rw [hissues]; rfl⟩
    · exact ⟨[], rfl⟩
  obtain ⟨issues, hissues⟩ := hrecovered
  unfold Job.parse
  refine Yields.bind (Q := fun answer _ => answer = .tree ast) ?_ ?_
  · exact Yields.bind (Q := Yields.Done) (.modify trivial) fun _ _ _ => .pure h.answer
  · rintro _ w' rfl
    refine (Yields.orFail (Q := Yields.Done) hissues trivial).bind fun issues w' _ => ?_
    exact (Yields.orFail (Q := Yields.Done) hhash trivial).bind fun hash w' _ => .pure rfl

theorem yields_demand {b : Bool} (h : b = true) : Yields (demand b) w Yields.Done := by
  subst h
  exact .pure trivial

theorem yields_store {storage : Storage} {directory : String}
    (htext : ∃ text, Text.plain? parsed.toJson.print = some text)
    (hmakes : storage.makes directory = true) (hwrites : ∀ name, storage.writes name = true) :
    Yields (parsed.store storage directory) w Yields.Done := by
  obtain ⟨text, htext⟩ := htext
  unfold Parsed.store
  refine (yields_demand hmakes).bind fun _ w' _ => ?_
  split
  · refine (Yields.orFail (Q := Yields.Done) htext trivial).bind fun text w' _ => ?_
    exact (yields_demand (hwrites _)).bind fun _ w' _ => .modify trivial
  · exact .modify trivial

/-- The source is parsed to the tree. -/
theorem Job.Submits.exists_prepared (h : job.Submits parser ast)
    (hissues : job.tolerant.isPresent = true → ∃ issues, recoveredIssues ast = .ok issues) :
    ∃ parsed, job.prepared parser = .ok parsed ∧ parsed.ast = ast := by
  have hprepare : Yields (job.prepare parser) {} fun parsed _ => parsed.ast = ast := by
    refine (h.yields_parse hissues).read.bind ?_
    rintro parsed w' ⟨hast, hparse⟩
    split
    · rename_i directory hstore
      obtain ⟨hmakes, hwrites⟩ := h.storage directory hstore
      exact (yields_store (h.text (by simp [hstore]) parsed {} w' hparse) hmakes hwrites).bind
        fun _ _ _ => .pure hast
    · exact .pure hast
  obtain ⟨parsed, w', hprepare, hast⟩ := hprepare
  exact ⟨parsed, by rw [prepared, hprepare], hast⟩

/-- The report holds what the analysis gives, or a scope tree that the cache remembers. -/
def Report.Settles (report : Report) (cache : Cache Analysed) (result : Except Cause Scope) :
    Prop :=
  report.Holds result ∨ ∃ key fingerprint a,
    cache.lookup key fingerprint = .hit a ∧ report.scopes = some a ∧ report.error = none

/-- A run ends in a report if its source can be parsed and the analysis of the tree answers. -/
theorem Job.Submits.yields_run (hsubmits : job.Submits parser ast) (htree : ast.isNull = false)
    (hissues : job.tolerant.isPresent = true → ∃ issues, recoveredIssues ast = .ok issues)
    (h : Answers Answers.Any (LexicalScopes.analyze ast job.generated.isPresent)) :
    Yields (job.run parser) w fun report _ =>
      report.Settles w.cache (LexicalScopes.analyze ast job.generated.isPresent) := by
  obtain ⟨parsed, hprepared, rfl⟩ := hsubmits.exists_prepared hissues
  obtain ⟨key, hkey⟩ := hsubmits.name
  have hobtains : job.Obtains parser parsed := ⟨hprepared, hsubmits.analyze, htree⟩
  unfold Yields
  cases huse : job.useCache with
  | false =>
    obtain ⟨t, hrun⟩ := Job.exists_run_eq_ending parser huse w
    rw [hrun, hprepared, ok_bind, hobtains.concluded_eq, Job.reportOn]
    rcases h.ok_or_reported with ⟨tree, hanalyze⟩ | ⟨e, hanalyze⟩
    · rw [show job.analysis parsed = _ from reportable_eq_ok_ok.2 hanalyze]
      exact ⟨_, _, rfl, .inl (.inl ⟨_, rfl, rfl, hanalyze⟩)⟩
    · rw [show job.analysis parsed = _ from reportable_eq_ok_error.2 hanalyze]
      exact ⟨_, _, rfl, .inl (.inr ⟨_, rfl, rfl, hanalyze⟩)⟩
  | true =>
    have hreached := Job.Reaches.reached ⟨hobtains, huse⟩ hkey w
    generalize job.run parser w = r at hreached
    cases hreached with
    | hit hfind =>
      exact ⟨_, _, rfl, .inr ⟨key, _, _, Cache.lookup_eq_hit.2 hfind, rfl, rfl⟩⟩
    | built _ hanalysis =>
      exact ⟨_, _, rfl, .inl (.inl ⟨_, rfl, rfl, reportable_eq_ok_ok.1 hanalysis⟩)⟩
    | reported _ hanalysis =>
      exact ⟨_, _, rfl, .inl (.inr ⟨_, rfl, rfl, reportable_eq_ok_error.1 hanalysis⟩)⟩
    | failed _ hanalysis =>
      obtain ⟨m, hm⟩ := (reportable_eq_error.1 hanalysis).1
      rw [hm] at h
      cases h

end Steps

end LexicalScopes
