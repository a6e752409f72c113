import LexicalScopes.Proofs.Sharing.Runs

/-!
# Runs side by side

Runs that share a world take turns. Each of them goes through stages, and between two of its stages
it asks the cache or changes it at most once; a run that is not interrupted goes through them as
`Job.run` does. What runs side by side find in the cache is what some run of theirs comes to.
-/

namespace LexicalScopes

/-! ## Stages of a run -/

/-- How far a run has come. -/
inductive Stage where
  | waiting
  /-- The source is parsed, and the cache has not been asked. -/
  | asking (number : Nat) (parsed : Parsed)
  /-- The cache had no result. -/
  | analysing (number : Nat) (parsed : Parsed)
  /-- The tree is analysed, and the cache does not have it from this run. -/
  | remembering (parsed : Parsed) (a : Analysed)
  | ended (report : Report)
  | failed (failure : Failure)

/-- The stage of a run whose source is parsed. -/
def Job.stageOf (job : Job) (number : Nat) (parsed : Parsed) : Stage :=
  if !job.analyze || parsed.ast.isNull then .ended ⟨parsed, none, none⟩
  else .asking number parsed

/-- The stage of a run that the cache has answered. -/
def Stage.ofFound (number : Nat) (parsed : Parsed) : Option Analysed → Stage
  | some a => .ended ⟨parsed, some a, none⟩
  | none => .analysing number parsed

/-- Go on to the next stage. -/
def Job.advance (parser : Parser) (job : Job) : Stage → Task Stage
  | .waiting => do
    let number := (← get).runs
    modify World.begun
    return job.stageOf number (← job.prepare parser)
  | .asking number parsed => return .ofFound number parsed (← job.sought parsed)
  | .analysing number parsed => do
    match ← job.analysed parsed.ast with
    | .error e =>
      note (.notAnalysed job.label e)
      return .ended ⟨parsed, none, some e⟩
    | .ok tree => return .remembering parsed ⟨number, tree⟩
  | .remembering parsed a => do
    if job.useCache then job.remember parsed a
    return .ended ⟨parsed, some a, none⟩
  | .ended report => return .ended report
  | .failed failure => throw failure

section Uninterrupted

variable {parser : Parser} {job : Job} {number : Nat} {parsed : Parsed}

@[simp] theorem Job.advance_ended (report : Report) :
    job.advance parser (.ended report) = pure (.ended report) := rfl

theorem Job.advance_analysing :
    job.advance parser (.analysing number parsed) >>= job.advance parser =
      Stage.ended <$> job.analyseParsed number parsed := by
  simp only [advance, analyseParsed, bind_assoc, map_bind]
  congr 1
  funext result
  cases result with
  | error e => simp
  | ok tree => cases h : job.useCache <;> simp [advance, h]

theorem Job.advance_stageOf :
    (do
      let analysing ← job.advance parser (job.stageOf number parsed)
      let remembering ← job.advance parser analysing
      job.advance parser remembering) = Stage.ended <$> job.conclude number parsed := by
  unfold stageOf conclude
  split
  · simp
  · simp only [advance, bind_assoc, pure_bind, map_bind]
    congr 1
    funext found
    cases found with
    | some a => simp [Stage.ofFound]
    | none => exact advance_analysing

/-- A run that is not interrupted goes through its stages. -/
theorem Job.advance_waiting :
    (do
      let asking ← job.advance parser .waiting
      let analysing ← job.advance parser asking
      let remembering ← job.advance parser analysing
      job.advance parser remembering) = Stage.ended <$> job.run parser := by
  rw [run_eq]
  simp only [advance.eq_1, bind_assoc, pure_bind, map_bind, advance_stageOf]

end Uninterrupted

/-! ## Taking turns -/

/-- Runs side by side: the stage of each, and the world that they share. -/
structure Session (ι : Type) where
  stage : ι → Stage := fun _ => .waiting
  world : World := {}

/-- What can happen next: one of the runs goes on, or something is forgotten. -/
inductive Move (ι : Type) where
  | advance (i : ι)
  | invalidate (name : Json)
  | clear
deriving DecidableEq

/-- The stage that a run has come to; a failure is the end of it. -/
def Stage.reached : EStateM.Result Failure World Stage → Stage × World
  | .ok stage w => (stage, w)
  | .error failure w => (.failed failure, w)

section Session

variable {ι : Type} [DecidableEq ι] (parser : ι → Parser) (job : ι → Job)

/-- The session after a move. -/
def Session.step (s : Session ι) : Move ι → Session ι
  | .advance i =>
    let (stage, w) := Stage.reached ((job i).advance (parser i) (s.stage i) s.world)
    ⟨Function.update s.stage i stage, w⟩
  | .invalidate name => { s with world := s.world.forget name }
  | .clear => { s with world := s.world.forgetAll }

/-- The session after some moves, from its start. -/
def Session.after (moves : List (Move ι)) : Session ι :=
  moves.foldl (Session.step parser job) {}

end Session

/-! ## What is seen of a run -/

/-- What a report shows: the result of parsing, the scopes as a tree, and the error. -/
structure Shown where
  parsed : Parsed
  scopes : Option Scope
  error : Option ScopeError

def Report.shown (report : Report) : Shown :=
  ⟨report.parsed, report.scopes.map Analysed.tree, report.error⟩

/-- What a run shows or raises. -/
def shownEnd : EStateM.Result Failure World Report → Except Failure Shown
  | .ok report _ => .ok report.shown
  | .error failure _ => .error failure

/-- What a run that is over shows or raises. -/
def Stage.shownEnd? : Stage → Option (Except Failure Shown)
  | .ended report => some (.ok report.shown)
  | .failed failure => some (.error failure)
  | _ => none

namespace Job

/-- What the job comes to by itself. -/
def outcome (parser : Parser) (job : Job) : Except Failure Shown :=
  Report.shown <$> (job.prepared parser >>= job.concluded 0)

variable {parser : Parser} {job : Job} {parsed : Parsed}

/-- The number of a run is not shown. -/
theorem shown_concluded (number : Nat) :
    Report.shown <$> job.concluded number parsed = Report.shown <$> job.concluded 0 parsed := by
  unfold concluded
  split
  · rfl
  · unfold reportOn
    split <;> rfl

theorem shownEnd_ending (w : World) (r : Except Failure Report) :
    shownEnd (w.ending r) = Report.shown <$> r := by
  cases r <;> rfl

theorem shownEnd_run_uncached (w : World) :
    shownEnd (job.uncached.run parser w) = job.outcome parser := by
  obtain ⟨t, hrun⟩ := exists_run_eq_ending parser (show job.uncached.useCache = false from rfl) w
  rw [hrun, shownEnd_ending, outcome, map_bind, map_bind]
  change job.prepared parser >>= (fun parsed => Report.shown <$> job.concluded w.runs parsed) = _
  simp only [shown_concluded w.runs]

end Job

end LexicalScopes
