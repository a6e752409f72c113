import LexicalScopes.Frontend
import LexicalScopes.Proofs.Reading

/-!
# Steps of a run away from the cache

Parsing a source, storing the answer and analysing the tree ask for nothing that runs share. Such a
step comes to the same result in every world, and what it adds to the world is the same as well.
-/

namespace LexicalScopes

/-! ## Steps that ask for nothing -/

/-- What a step adds to the world. -/
structure Trace where
  calls : List ParserCall := []
  log : List Notice := []
  stored : List (String × String) := []

namespace World

/-- The world with a trace in it. -/
def add (w : World) (t : Trace) : World :=
  { w with calls := w.calls ++ t.calls, log := w.log ++ t.log, stored := w.stored ++ t.stored }

/-- The end of a step in this world. -/
def ending {α : Type} (w : World) : Except Failure α → EStateM.Result Failure World α
  | .ok a => .ok a w
  | .error failure => .error failure w

section Add

variable (w : World) (s t : Trace)

@[simp] theorem cache_add : (w.add t).cache = w.cache := rfl
@[simp] theorem add_empty : w.add {} = w := by simp [add]

theorem add_notice (n : Notice) : w.add { log := [n] } = { w with log := w.log ++ [n] } := by
  simp [add]

theorem add_call (call : ParserCall) :
    w.add { calls := [call] } = { w with calls := w.calls ++ [call] } := by
  simp [add]

theorem add_stored (name text : String) :
    w.add { stored := [(name, text)] } = { w with stored := w.stored ++ [(name, text)] } := by
  simp [add]

theorem add_add :
    (w.add s).add t = w.add ⟨s.calls ++ t.calls, s.log ++ t.log, s.stored ++ t.stored⟩ := by
  simp [add]

end Add

end World

/-- In every world the step has the same result and adds the same trace. All notices in it have the
property. -/
def ComesTo {α : Type} (P : Notice → Prop) (x : Task α) (r : Except Failure α) : Prop :=
  ∃ t : Trace, (∀ n ∈ t.log, P n) ∧ ∀ w, x w = (w.add t).ending r

namespace ComesTo

variable {α β : Type} {P : Notice → Prop} {x : Task α} {f : α → Task β} {a : α}
  {r : Except Failure β} {failure : Failure}

theorem pure : ComesTo P (pure a) (.ok a) :=
  ⟨{}, by simp, fun w => by rw [World.add_empty]; rfl⟩

theorem throw : ComesTo P (throw failure : Task α) (.error failure) :=
  ⟨{}, by simp, fun w => by rw [World.add_empty]; rfl⟩

theorem note {n : Notice} (h : P n) : ComesTo P (note n) (.ok ()) :=
  ⟨{ log := [n] }, by simpa using h, fun w => by rw [World.add_notice]; rfl⟩

theorem bind (hx : ComesTo P x (.ok a)) (hf : ComesTo P (f a) r) : ComesTo P (x >>= f) r := by
  obtain ⟨s, hs, hx⟩ := hx
  obtain ⟨t, ht, hf⟩ := hf
  refine ⟨⟨s.calls ++ t.calls, s.log ++ t.log, s.stored ++ t.stored⟩,
    List.forall_mem_append.2 ⟨hs, ht⟩, fun w => ?_⟩
  rw [bind_of_ok (hx w), hf, World.add_add]

theorem bind_error (hx : ComesTo P x (.error failure)) : ComesTo P (x >>= f) (.error failure) := by
  obtain ⟨t, ht, hx⟩ := hx
  exact ⟨t, ht, fun w => bind_of_error (hx w)⟩

theorem orFail_some : ComesTo P (orFail (some a)) (.ok a) := pure

theorem orFail_none : ComesTo P (orFail (none : Option α)) (.error .unreadable) := throw

theorem demand (b : Bool) :
    ComesTo P (LexicalScopes.demand b) (.ok ()) ∨
      ComesTo P (LexicalScopes.demand b) (.error .unreadable) := by
  cases b with
  | true => exact .inl pure
  | false => exact .inr throw

end ComesTo

/-! ## Parsing -/

/-- The notice tells of the analysis of a tree. -/
def Notice.isAnalysis : Notice → Bool
  | collected _ => true
  | keptModule _ => true
  | dissolvedModule _ => true
  | notAnalysed _ _ => true
  | _ => false

namespace Job

/-- The hash of the source, if it is a text that has one. -/
def hash? (job : Job) : Option String := job.source.string?.bind Digest.ofText?

/-- Parse the source and store the answer. -/
def prepare (parser : Parser) (job : Job) : Task Parsed := do
  let parsed ← job.parse parser
  if let some directory := job.storeIn then parsed.store job.storage directory
  return parsed

/-- What a run can make of the parser's answer. -/
inductive Reads (parser : Parser) (job : Job) : Except Failure Parsed → Prop
  | refused {e : ParserError} : parser job.call = .error e → job.tolerant.isPresent = false →
      Reads parser job (.error (.parser e.message))
  | tolerated {e : ParserError} {hash : String} : parser job.call = .error e →
      job.hash? = some hash → Reads parser job (.ok ⟨.null, [e.issue], hash, job.name⟩)
  | tree {ast : Json} {issues : List ParseIssue} {hash : String} : parser job.call = .tree ast →
      (job.tolerant.isPresent = false → issues = []) → job.hash? = some hash →
      Reads parser job (.ok ⟨ast, issues, hash, job.name⟩)
  | unreadable : (∃ ast, parser job.call = .tree ast) ∨ job.hash? = none ∨ job.storeIn ≠ none →
      Reads parser job (.error .unreadable)

section Prepare

variable {parser : Parser} {job : Job} {parsed : Parsed} {P : Notice → Prop}

theorem comesTo_askParser : ComesTo P (job.askParser parser) (.ok (parser job.call)) :=
  ⟨{ calls := [job.call] }, by simp, fun w => by rw [World.add_call]; rfl⟩

theorem exists_comesTo_hash (P : Notice → Prop) (job : Job) :
    (∃ hash, job.hash? = some hash ∧ ComesTo P job.hash (.ok hash)) ∨
      job.hash? = none ∧ ComesTo P job.hash (.error .unreadable) := by
  change (∃ hash, job.hash? = some hash ∧ ComesTo P (orFail job.hash?) (.ok hash)) ∨
    job.hash? = none ∧ ComesTo P (orFail job.hash?) (.error .unreadable)
  cases job.hash? with
  | none => exact .inr ⟨rfl, .orFail_none⟩
  | some hash => exact .inl ⟨hash, rfl, .orFail_some⟩

theorem exists_comesTo_parse (parser : Parser) (job : Job)
    (hP : ∀ name message, P (.notParsed name message)) :
    ∃ r, job.Reads parser r ∧ ComesTo P (job.parse parser) r := by
  have hask : ComesTo P (job.askParser parser) (.ok (parser job.call)) := comesTo_askParser
  unfold parse
  cases hanswer : parser job.call with
  | error e =>
    rw [hanswer] at hask
    cases htolerant : job.tolerant.isPresent with
    | false =>
      exact ⟨_, .refused hanswer htolerant, hask.bind .throw⟩
    | true =>
      rcases exists_comesTo_hash P job with ⟨hash, hhash, hcomes⟩ | ⟨hhash, hcomes⟩
      · exact ⟨_, .tolerated hanswer hhash,
          hask.bind ((ComesTo.note (hP _ _)).bind (hcomes.bind .pure))⟩
      · exact ⟨_, .unreadable (.inr (.inl hhash)),
          hask.bind ((ComesTo.note (hP _ _)).bind hcomes.bind_error)⟩
  | tree ast =>
    rw [hanswer] at hask
    cases hissues : (if job.tolerant.isPresent then (recoveredIssues ast).toOption
        else some []) with
    | none =>
      refine ⟨_, .unreadable (.inl ⟨ast, hanswer⟩), hask.bind ?_⟩
      dsimp only
      rw [hissues]
      exact ComesTo.orFail_none.bind_error
    | some issues =>
      have hstrict : job.tolerant.isPresent = false → issues = [] := by
        intro htolerant
        rw [htolerant] at hissues
        exact (Option.some.inj hissues).symm
      rcases exists_comesTo_hash P job with ⟨hash, hhash, hcomes⟩ | ⟨-, hcomes⟩
      · refine ⟨_, .tree hanswer hstrict hhash, hask.bind ?_⟩
        dsimp only
        rw [hissues]
        exact ComesTo.orFail_some.bind (hcomes.bind .pure)
      · refine ⟨_, .unreadable (.inl ⟨ast, hanswer⟩), hask.bind ?_⟩
        dsimp only
        rw [hissues]
        exact ComesTo.orFail_some.bind hcomes.bind_error

end Prepare

end Job

theorem Parsed.comesTo_store {P : Notice → Prop} (hP : ∀ name, P (.notStored name))
    (parsed : Parsed) (storage : Storage) (directory : String) :
    ComesTo P (parsed.store storage directory) (.ok ()) ∨
      ComesTo P (parsed.store storage directory) (.error .unreadable) := by
  unfold store
  rcases ComesTo.demand (P := P) (storage.makes directory) with hmakes | hmakes
  · split
    · cases htext : Text.plain? parsed.toJson.print with
      | none => exact .inr (hmakes.bind ComesTo.orFail_none.bind_error)
      | some text =>
        let name := directory ++ "/" ++ parsed.hash ++ ".json"
        rcases ComesTo.demand (P := P) (storage.writes name) with hwrites | hwrites
        · refine .inl (hmakes.bind (ComesTo.orFail_some.bind (hwrites.bind
            ⟨{ stored := [(name, text)] }, by simp, fun w => ?_⟩)))
          rw [World.add_stored]
          rfl
        · exact .inr (hmakes.bind (ComesTo.orFail_some.bind hwrites.bind_error))
    · exact .inl (hmakes.bind (.note (hP _)))
  · exact .inr hmakes.bind_error

namespace Job

variable {parser : Parser} {job : Job}

theorem exists_comesTo_prepare (parser : Parser) (job : Job) :
    ∃ r, job.Reads parser r ∧
      ComesTo (fun n => n.isAnalysis = false) (job.prepare parser) r := by
  obtain ⟨r, hreads, hparse⟩ := exists_comesTo_parse (P := fun n => n.isAnalysis = false) parser job
    fun _ _ => rfl
  unfold prepare
  cases r with
  | error failure => exact ⟨_, hreads, hparse.bind_error⟩
  | ok parsed =>
    cases hstore : job.storeIn with
    | none => exact ⟨_, hreads, hparse.bind (ComesTo.pure.bind .pure)⟩
    | some directory =>
      rcases parsed.comesTo_store (P := fun n => n.isAnalysis = false) (fun _ => rfl) job.storage
        directory with h | h
      · exact ⟨_, hreads, hparse.bind (h.bind .pure)⟩
      · exact ⟨_, .unreadable (.inr (.inr (by simp [hstore]))), hparse.bind h.bind_error⟩

/-- What parsing and storing come to. -/
def prepared (parser : Parser) (job : Job) : Except Failure Parsed :=
  match job.prepare parser {} with
  | .ok parsed _ => .ok parsed
  | .error failure _ => .error failure

theorem prepared_eq {P : Notice → Prop} {r : Except Failure Parsed}
    (h : ComesTo P (job.prepare parser) r) : job.prepared parser = r := by
  obtain ⟨t, -, h⟩ := h
  rw [prepared, h {}]
  cases r <;> rfl

theorem comesTo_prepare (parser : Parser) (job : Job) :
    ComesTo (fun n => n.isAnalysis = false) (job.prepare parser) (job.prepared parser) := by
  obtain ⟨r, -, h⟩ := exists_comesTo_prepare parser job
  rwa [prepared_eq h]

theorem reads_prepared (parser : Parser) (job : Job) : job.Reads parser (job.prepared parser) := by
  obtain ⟨r, hreads, h⟩ := exists_comesTo_prepare parser job
  rwa [prepared_eq h]

end Job

/-! ## Analysing -/

/-- A reading of a tree as a run takes it: a reported fault is a result. -/
def reportable {α : Type} : Except Cause α → Except Failure (Except ScopeError α)
  | .ok a => .ok (.ok a)
  | .error (.reported e) => .ok (.error e)
  | .error (.misread _) => .error .unreadable

section Reportable

variable {α : Type} {x : Except Cause α} {a : α} {e : ScopeError}

theorem reportable_eq_ok_ok : reportable x = .ok (.ok a) ↔ x = .ok a := by
  rcases x with (e | _) | b <;> simp [reportable]

theorem reportable_eq_ok_error : reportable x = .ok (.error e) ↔ x = .error (.reported e) := by
  rcases x with (e' | _) | b <;> simp [reportable]

theorem reportable_eq_error {failure : Failure} :
    reportable x = .error failure ↔ (∃ m, x = .error (.misread m)) ∧ failure = .unreadable := by
  rcases x with (e | _) | b <;> simp [reportable, eq_comm]

end Reportable

theorem comesTo_orReport {α β : Type} {P : Notice → Prop} {x : Except Cause α}
    {f : α → Except Cause β} {go : α → Task (Except ScopeError β)}
    (h : ∀ a, x = .ok a → ComesTo P (go a) (reportable (f a))) :
    ComesTo P (orReport x go) (reportable (x >>= f)) := by
  cases x with
  | ok a => exact h a rfl
  | error fault =>
    cases fault with
    | reported e => exact .pure
    | misread m => exact .throw

/-- The last reading of the root fails if the first does. -/
theorem Builder.finish_eq_bind (b : Builder) (generated : Bool) :
    b.finish generated = b.rootScope >>= fun _ => b.finish generated := by
  cases h : b.rootScope with
  | ok root => rfl
  | error fault => rw [Builder.finish, h, error_bind, error_bind]

theorem Job.comesTo_analysed (job : Job) (ast : Json) :
    ComesTo (fun _ => True) (job.analysed ast)
      (reportable (LexicalScopes.analyze ast job.generated.isPresent)) := by
  have hfinish (b : Builder) : ComesTo (fun _ => True)
      (orReport (b.finish job.generated.isPresent) fun tree => return .ok tree)
      (reportable (b.finish job.generated.isPresent)) := by
    rcases b.finish job.generated.isPresent with fault | tree
    · cases fault with
      | reported e => exact .pure
      | misread m => exact .throw
    · exact .pure
  unfold Job.analysed LexicalScopes.analyze
  refine comesTo_orReport fun b _ => (ComesTo.note trivial).bind ?_
  rw [b.finish_eq_bind]
  exact comesTo_orReport fun root _ => (ComesTo.note trivial).bind (hfinish b)

end LexicalScopes
