import LexicalScopes.Proofs.Sharing.Steps

/-!
# Runs and the cache

A run parses its source, and then concludes: it asks the cache, analyses the tree if it has no
result, and puts the result there. Without a cache the end of a run depends on the number of the run
only; with one, the cache is asked and changed under the name of the source alone.
-/

namespace LexicalScopes

/-! ## Results in a cache -/

namespace Cache

variable {α : Type} {c : Cache α} {key : Key} {fingerprint : Fingerprint} {a : α}

theorem lookup_eq_hit : c.lookup key fingerprint = .hit a ↔
    c.find? key = some (fingerprint, a) := by
  unfold lookup
  cases c.find? key with
  | none => simp
  | some found =>
    obtain ⟨other, b⟩ := found
    by_cases h : other = fingerprint <;> simp [h]

theorem lookup_eq_absent : c.lookup key fingerprint = .absent ↔ c.find? key = none := by
  unfold lookup
  cases c.find? key with
  | none => simp
  | some found =>
    obtain ⟨other, b⟩ := found
    by_cases h : other = fingerprint <;> simp [h]

/-- A cache forgets nothing under a name that it does not have. -/
theorem invalidate_of_find?_eq_none (h : c.find? key = none) : c.invalidate key = c := by
  have hne : ∀ e ∈ c.entries, (e.1 != key) = true := fun e he => by
    rw [bne_comm]
    exact List.lookup_eq_none_iff.1 h e he
  rw [invalidate, List.filter_eq_self.2 hne]

@[simp] theorem invalidate_invalidate : (c.invalidate key).invalidate key = c.invalidate key := by
  simp [invalidate]

@[simp] theorem put_invalidate :
    (c.invalidate key).put key fingerprint a = c.put key fingerprint a := by
  rw [put, put, invalidate_invalidate]

end Cache

/-! ## Asking and filling -/

namespace World

/-- The world with another cache. -/
def withCache (w : World) (c : Cache Analysed) : World := { w with cache := c }

/-- The world in which one more run has begun. -/
def begun (w : World) : World := { w with runs := w.runs + 1 }

/-- Forget what is remembered under a value. Under a value that cannot be a name, nothing is. -/
def forget (w : World) (name : Json) : World :=
  w.withCache ((w.cache.forget? name).getD w.cache)

/-- Forget everything that is remembered. -/
def forgetAll (w : World) : World := w.withCache w.cache.clear

section Fields

variable (w : World) (c : Cache Analysed)

@[simp] theorem cache_withCache : (w.withCache c).cache = c := rfl
@[simp] theorem withCache_withCache (c' : Cache Analysed) :
    (w.withCache c).withCache c' = w.withCache c' := rfl
@[simp] theorem cache_begun : w.begun.cache = w.cache := rfl

theorem withCache_add (t : Trace) : (w.add t).withCache c = (w.withCache c).add t := rfl

end Fields

section Forget

variable {w : World} {name : Json} {key : Key}

theorem cache_forget (hkey : name.key? = some key) :
    (w.forget name).cache = w.cache.invalidate key := by
  rw [forget, cache_withCache, Cache.forget?]
  split
  · rename_i hempty
    rw [Cache.invalidate_of_find?_eq_none]
    · rfl
    · rw [Cache.find?, List.isEmpty_iff.1 hempty]
      rfl
  · rw [hkey]
    rfl

theorem cache_forget_of_no_key (hkey : name.key? = none) : (w.forget name).cache = w.cache := by
  rw [forget, cache_withCache, Cache.forget?, hkey]
  split <;> rfl

end Forget

end World

namespace Job

section Cache

variable {job : Job} {parsed : Parsed} {w : World} {key : Key} {a : Analysed}

/-- The cache is asked at once, and the answer is noted. -/
theorem cached?_eq (hkey : job.name.key? = some key) :
    job.cached? parsed w = (do
      match w.cache.lookup key (job.fingerprint parsed) with
      | .absent => pure ()
      | .stale => note (.cacheStale job.label)
      | .hit _ => note (.cacheHit job.label)
      pure (w.cache.lookup key (job.fingerprint parsed)).result? : Task (Option Analysed))
      (w.withCache (w.cache.afterLookup key (job.fingerprint parsed))) := by
  unfold cached?
  rw [hkey]
  rfl

theorem cached?_of_hit (hkey : job.name.key? = some key)
    (h : w.cache.find? key = some (job.fingerprint parsed, a)) :
    job.cached? parsed w = .ok (some a) (w.add { log := [.cacheHit job.label] }) := by
  rw [cached?_eq hkey, Cache.afterLookup, Cache.lookup_eq_hit.2 h, World.add_notice]
  rfl

/-- A result that is not handed out is not kept. -/
theorem cached?_of_not_hit (hkey : job.name.key? = some key)
    (h : ∀ a, w.cache.find? key ≠ some (job.fingerprint parsed, a)) :
    ∃ t, job.cached? parsed w = .ok none ((w.withCache (w.cache.invalidate key)).add t) := by
  rw [cached?_eq hkey, Cache.afterLookup]
  cases hlookup : w.cache.lookup key (job.fingerprint parsed) with
  | hit a => exact absurd (Cache.lookup_eq_hit.1 hlookup) (h a)
  | absent =>
    refine ⟨{}, ?_⟩
    rw [Cache.invalidate_of_find?_eq_none (Cache.lookup_eq_absent.1 hlookup), World.add_empty]
    rfl
  | stale =>
    refine ⟨{ log := [.cacheStale job.label] }, ?_⟩
    rw [World.add_notice]
    rfl

theorem fingerprint_eq_iff {other : Job} {parsed' : Parsed} :
    job.fingerprint parsed = other.fingerprint parsed' ↔ parsed.hash = parsed'.hash ∧
      job.sourceType.normal = other.sourceType.normal ∧
      job.generated.normal = other.generated.normal := by
  simp [fingerprint, Fingerprint.of, Json.string]

theorem remember_eq (hkey : job.name.key? = some key) :
    job.remember parsed a w =
      .ok () (w.withCache (w.cache.put key (job.fingerprint parsed) a)) := by
  unfold remember
  rw [hkey, bind_of_ok (show orFail (some key) w = .ok key w from rfl)]
  rfl

end Cache

/-! ## Whole runs -/

/-- The job without a cache. -/
def uncached (job : Job) : Job := { job with useCache := false }

/-- What a run finds in the cache, if it uses one. -/
def sought (job : Job) (parsed : Parsed) : Task (Option Analysed) :=
  if job.useCache then job.cached? parsed else pure none

/-- What is left of a run whose source is parsed. -/
def conclude (job : Job) (number : Nat) (parsed : Parsed) : Task Report :=
  if !job.analyze || parsed.ast.isNull then pure ⟨parsed, none, none⟩
  else do
    match ← job.sought parsed with
    | some a => return ⟨parsed, some a, none⟩
    | none => job.analyseParsed number parsed

/-- The analysis of a parsed source as a run takes it. -/
def analysis (job : Job) (parsed : Parsed) : Except Failure (Except ScopeError Scope) :=
  reportable (LexicalScopes.analyze parsed.ast job.generated.isPresent)

/-- The report on the analysis of a parsed source. -/
def reportOn (job : Job) (number : Nat) (parsed : Parsed) : Except Failure Report :=
  match job.analysis parsed with
  | .error failure => .error failure
  | .ok (.error e) => .ok ⟨parsed, none, some e⟩
  | .ok (.ok tree) => .ok ⟨parsed, some ⟨number, tree⟩, none⟩

/-- What is left of a run comes to this without a cache. -/
def concluded (job : Job) (number : Nat) (parsed : Parsed) : Except Failure Report :=
  if !job.analyze || parsed.ast.isNull then .ok ⟨parsed, none, none⟩
  else job.reportOn number parsed

section Run

variable {parser : Parser} {job : Job} {parsed : Parsed} {number : Nat}

theorem run_eq : job.run parser = (do
    let number := (← get).runs
    modify World.begun
    let parsed ← job.prepare parser
    job.conclude number parsed) := by
  unfold run prepare conclude sought
  cases job.storeIn <;> cases job.useCache <;> simp only [bind_assoc, pure_bind] <;> rfl

theorem run_apply (w : World) :
    job.run parser w = (job.prepare parser >>= job.conclude w.runs) w.begun := by
  rw [run_eq]
  rfl

/-- A run whose source cannot be parsed or stored fails, and asks no cache. -/
theorem exists_run_eq_error {failure : Failure} (h : job.prepared parser = .error failure) :
    ∃ t : Trace, ∀ w : World, job.run parser w = .error failure (w.begun.add t) := by
  obtain ⟨t, -, hprepare⟩ := comesTo_prepare parser job
  rw [h] at hprepare
  exact ⟨t, fun w => by rw [run_apply, bind_of_error (hprepare w.begun)]⟩

/-- A run whose source is parsed concludes. -/
theorem exists_run_eq_conclude (h : job.prepared parser = .ok parsed) :
    ∃ t : Trace, (∀ n ∈ t.log, n.isAnalysis = false) ∧
      ∀ w : World, job.run parser w = job.conclude w.runs parsed (w.begun.add t) := by
  obtain ⟨t, hquiet, hprepare⟩ := comesTo_prepare parser job
  rw [h] at hprepare
  exact ⟨t, hquiet, fun w => by rw [run_apply, bind_of_ok (hprepare w.begun)]⟩

theorem comesTo_analyseParsed_of_failure (number : Nat) {failure : Failure}
    (h : job.analysis parsed = .error failure) :
    ComesTo (fun _ => True) (job.analyseParsed number parsed) (.error failure) := by
  have hanalysed := job.comesTo_analysed parsed.ast
  rw [← analysis, h] at hanalysed
  exact hanalysed.bind_error

theorem comesTo_analyseParsed_of_reported (number : Nat) {e : ScopeError}
    (h : job.analysis parsed = .ok (.error e)) :
    ComesTo (fun _ => True) (job.analyseParsed number parsed) (.ok ⟨parsed, none, some e⟩) := by
  have hanalysed := job.comesTo_analysed parsed.ast
  rw [← analysis, h] at hanalysed
  exact hanalysed.bind ((ComesTo.note trivial).bind .pure)

theorem comesTo_analyseParsed (huse : job.useCache = false) (number : Nat) (parsed : Parsed) :
    ComesTo (fun _ => True) (job.analyseParsed number parsed) (job.reportOn number parsed) := by
  unfold reportOn
  cases hanalysis : job.analysis parsed with
  | error failure => exact comesTo_analyseParsed_of_failure number hanalysis
  | ok result =>
    cases result with
    | error e => exact comesTo_analyseParsed_of_reported number hanalysis
    | ok tree =>
      have hanalysed := job.comesTo_analysed parsed.ast
      rw [← analysis, hanalysis] at hanalysed
      refine hanalysed.bind ?_
      simp only [huse, Bool.false_eq_true, if_false]
      exact ComesTo.pure.bind .pure

/-- A run that uses the cache remembers the tree that it found. -/
theorem exists_analyseParsed_eq_remembered (number : Nat) {tree : Scope} {key : Key}
    (h : job.analysis parsed = .ok (.ok tree)) (huse : job.useCache = true)
    (hkey : job.name.key? = some key) (w : World) :
    ∃ t, job.analyseParsed number parsed w = .ok ⟨parsed, some ⟨number, tree⟩, none⟩
      ((w.withCache (w.cache.put key (job.fingerprint parsed) ⟨number, tree⟩)).add t) := by
  obtain ⟨t, -, hanalysed⟩ := job.comesTo_analysed parsed.ast
  rw [← analysis, h] at hanalysed
  refine ⟨t, ?_⟩
  unfold analyseParsed
  rw [bind_of_ok (hanalysed w)]
  simp only [huse, if_true]
  rw [bind_of_ok (remember_eq hkey)]
  rfl

theorem comesTo_conclude (h : job.useCache = false) (number : Nat) (parsed : Parsed) :
    ComesTo (fun _ => True) (job.conclude number parsed) (job.concluded number parsed) := by
  unfold conclude concluded
  split
  · exact .pure
  · have hsought : ComesTo (fun _ => True) (job.sought parsed) (.ok none) := by
      rw [sought, h]
      exact .pure
    exact hsought.bind (comesTo_analyseParsed h number parsed)

/-- Without a cache, a run depends on the number of the run only. -/
theorem exists_run_eq_ending (parser : Parser) (h : job.useCache = false) (w : World) :
    ∃ t : Trace, job.run parser w =
      (w.begun.add t).ending (job.prepared parser >>= job.concluded w.runs) := by
  cases hprepared : job.prepared parser with
  | error failure =>
    obtain ⟨t, hrun⟩ := exists_run_eq_error hprepared
    exact ⟨t, hrun w⟩
  | ok parsed =>
    obtain ⟨s, -, hrun⟩ := exists_run_eq_conclude hprepared
    obtain ⟨t, -, hconclude⟩ := comesTo_conclude h w.runs parsed
    exact ⟨_, by rw [hrun, hconclude, World.add_add, ok_bind]⟩

end Run

/-! ### Trees to analyse -/

/-- The source is parsed and stored, and there is a tree, which is to be analysed. -/
structure Obtains (parser : Parser) (job : Job) (parsed : Parsed) : Prop where
  prepared : job.prepared parser = .ok parsed
  analyze : job.analyze = true
  tree : parsed.ast.isNull = false

namespace Obtains

variable {parser : Parser} {job : Job} {parsed : Parsed} {number : Nat}

theorem answer_and_hash (h : job.Obtains parser parsed) :
    parser job.call = .tree parsed.ast ∧ job.hash? = some parsed.hash := by
  have hreads := reads_prepared parser job
  rw [h.prepared] at hreads
  cases hreads with
  | tolerated => exact absurd h.tree nofun
  | tree hanswer _ hhash => exact ⟨hanswer, hhash⟩

theorem concluded_eq (h : job.Obtains parser parsed) :
    job.concluded number parsed = job.reportOn number parsed := by
  rw [concluded, h.analyze, h.tree]
  rfl

theorem conclude_eq (h : job.Obtains parser parsed) :
    job.conclude number parsed = (do
      match ← job.sought parsed with
      | some a => return ⟨parsed, some a, none⟩
      | none => job.analyseParsed number parsed) := by
  rw [conclude, h.analyze, h.tree]
  rfl

end Obtains

theorem not_analysed_of_not_obtains {parser : Parser} {job : Job} {parsed : Parsed}
    (hprepared : job.prepared parser = .ok parsed) (h : ¬ job.Obtains parser parsed) :
    (!job.analyze || parsed.ast.isNull) = true := by
  cases hanalyze : job.analyze with
  | false => rfl
  | true =>
    cases htree : parsed.ast.isNull with
    | false => exact absurd ⟨hprepared, hanalyze, htree⟩ h
    | true => rfl

/-! ### Runs that reach the cache -/

/-- The run gets as far as asking the cache: it uses one, and has a tree to analyse. -/
structure Reaches (parser : Parser) (job : Job) (parsed : Parsed) : Prop
    extends job.Obtains parser parsed where
  useCache : job.useCache = true

/-- The end of a run that asks the cache for its name: it takes over what is remembered under its
fingerprint, or analyses the tree after the name is forgotten. -/
inductive Reached (job : Job) (parsed : Parsed) (key : Key) (w : World) :
    EStateM.Result Failure World Report → Prop
  | hit {a : Analysed} {t : Trace} :
    w.cache.find? key = some (job.fingerprint parsed, a) → (∀ n ∈ t.log, n.isAnalysis = false) →
    Reached job parsed key w (.ok ⟨parsed, some a, none⟩ (w.begun.add t))
  | built {tree : Scope} {t : Trace} :
    (∀ a, w.cache.find? key ≠ some (job.fingerprint parsed, a)) →
    job.analysis parsed = .ok (.ok tree) →
    Reached job parsed key w (.ok ⟨parsed, some ⟨w.runs, tree⟩, none⟩
      ((w.begun.withCache
        (w.cache.put key (job.fingerprint parsed) ⟨w.runs, tree⟩)).add t))
  | reported {e : ScopeError} {t : Trace} :
    (∀ a, w.cache.find? key ≠ some (job.fingerprint parsed, a)) →
    job.analysis parsed = .ok (.error e) →
    Reached job parsed key w (.ok ⟨parsed, none, some e⟩
      ((w.begun.withCache (w.cache.invalidate key)).add t))
  | failed {failure : Failure} {t : Trace} :
    (∀ a, w.cache.find? key ≠ some (job.fingerprint parsed, a)) →
    job.analysis parsed = .error failure →
    Reached job parsed key w (.error failure
      ((w.begun.withCache (w.cache.invalidate key)).add t))

theorem Reaches.reached {parser : Parser} {job : Job} {parsed : Parsed} {key : Key}
    (h : job.Reaches parser parsed) (hkey : job.name.key? = some key) (w : World) :
    job.Reached parsed key w (job.run parser w) := by
  obtain ⟨s, hquiet, hrun⟩ := exists_run_eq_conclude h.prepared
  have hsought : job.sought parsed = job.cached? parsed := by
    rw [sought, h.useCache]
    rfl
  rw [hrun, h.conclude_eq, hsought]
  by_cases hhit : ∃ a, w.cache.find? key = some (job.fingerprint parsed, a)
  · obtain ⟨a, hfind⟩ := hhit
    rw [bind_of_ok (cached?_of_hit (w := w.begun.add s) hkey hfind)]
    dsimp only
    rw [World.add_add]
    refine .hit hfind (List.forall_mem_append.2 ⟨hquiet, ?_⟩)
    simp [Notice.isAnalysis]
  · have hmiss := not_exists.1 hhit
    obtain ⟨t, hcached⟩ := cached?_of_not_hit (w := w.begun.add s) hkey hmiss
    rw [bind_of_ok hcached, World.withCache_add, World.add_add]
    dsimp only
    cases hanalysis : job.analysis parsed with
    | error failure =>
      obtain ⟨u, -, hfails⟩ := comesTo_analyseParsed_of_failure w.runs hanalysis
      rw [hfails, World.add_add]
      exact .failed hmiss hanalysis
    | ok result =>
      cases result with
      | error e =>
        obtain ⟨u, -, hreports⟩ := comesTo_analyseParsed_of_reported w.runs hanalysis
        rw [hreports, World.add_add]
        exact .reported hmiss hanalysis
      | ok tree =>
        obtain ⟨u, hbuilds⟩ := exists_analyseParsed_eq_remembered w.runs hanalysis h.useCache
          hkey _
        rw [hbuilds, World.withCache_add, World.withCache_withCache, World.add_add]
        simp only [World.cache_add, World.cache_withCache, Cache.put_invalidate]
        exact .built hmiss hanalysis

end Job

end LexicalScopes
