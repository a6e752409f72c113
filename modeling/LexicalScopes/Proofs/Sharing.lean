import LexicalScopes.Proofs.Samples
import LexicalScopes.Proofs.Sharing.Interleaving
import Mathlib.Data.List.Induction

/-!
# A shared cache shows in no result

Runs that share a cache take turns in any order, while names are forgotten. Everything in the cache
is what some run comes to by itself, and a result is handed out only to a run that would come to the
same. So each run shows what it shows without a cache.
-/

namespace LexicalScopes

variable {ι : Type} {parser : ι → Parser} {job : ι → Job}

/-! ## What is remembered -/

/-- The runs can share a cache. Where their parsers answer with a tree, it is the same for the same
source and the same kind of source, no two sources have the same hash, and a run that uses the cache
has a source with a name, which any string can be. -/
structure Compatible (parser : ι → Parser) (job : ι → Job) : Prop where
  tree : ∀ {i j ast ast'}, parser i (job i).call = .tree ast → parser j (job j).call = .tree ast' →
    ast.isNull = false → ast'.isNull = false → (job i).source = (job j).source →
    (job i).call.asModule = (job j).call.asModule → ast = ast'
  hash : ∀ {i j hash}, (job i).hash? = some hash → (job j).hash? = some hash →
    (job i).source = (job j).source
  name : ∀ {i}, (job i).useCache = true → ∃ key, (job i).name.key? = some key

/-- Only a string is equal to a string. -/
theorem Json.normal_eq_string {j : Json} {s : String} : j.normal = .string s ↔ j = .string s := by
  cases j with
  | scalar a =>
    cases a with
    | float x =>
      rw [normal, Scalar.normal]
      split <;> simp [Json.string]
    | _ => simp [normal, Scalar.normal, Json.string]
  | array items => simp [normal, Json.string]
  | object fields => simp [normal, Json.string]

/-- Sources of equal types are parsed as the same kind of source. -/
theorem Job.asModule_eq_of_normal_eq {a b : Job} (h : a.sourceType.normal = b.sourceType.normal) :
    a.call.asModule = b.call.asModule := by
  have hiff : a.sourceType = .string "module" ↔ b.sourceType = .string "module" := by
    rw [← Json.normal_eq_string, h, Json.normal_eq_string]
  exact Bool.eq_iff_iff.2 (by simpa [call] using hiff)

/-- Runs under the same fingerprint come to the same analysis. -/
theorem Compatible.analysis_eq (h : Compatible parser job) {i j : ι} {p q : Parsed}
    (hi : (job i).Obtains (parser i) p) (hj : (job j).Obtains (parser j) q)
    (hfingerprint : (job i).fingerprint p = (job j).fingerprint q) :
    (job i).analysis p = (job j).analysis q := by
  obtain ⟨hanswer, hhash⟩ := hi.answer_and_hash
  obtain ⟨hanswer', hhash'⟩ := hj.answer_and_hash
  obtain ⟨hsame, htype, hgenerated⟩ := Job.fingerprint_eq_iff.1 hfingerprint
  have hsource : (job i).source = (job j).source := h.hash hhash (hsame ▸ hhash')
  have hast : p.ast = q.ast := h.tree hanswer hanswer' hi.tree hj.tree hsource
    (Job.asModule_eq_of_normal_eq htype)
  rw [Job.analysis, Job.analysis, hast, ← Json.isPresent_normal, hgenerated,
    Json.isPresent_normal]

/-- Every result in the cache is what some run comes to by itself. -/
def Truthful (parser : ι → Parser) (job : ι → Job) (c : Cache Analysed) : Prop :=
  ∀ key fingerprint a, c.find? key = some (fingerprint, a) → ∃ i parsed,
    (job i).Obtains (parser i) parsed ∧ fingerprint = (job i).fingerprint parsed ∧
      (job i).analysis parsed = .ok (.ok a.tree)

namespace Truthful

variable {c : Cache Analysed} {key : Key}

theorem clear : Truthful parser job c.clear := fun _ _ _ h => nomatch h

theorem invalidate (h : Truthful parser job c) : Truthful parser job (c.invalidate key) := by
  intro other fingerprint a hfind
  rw [Cache.find?_invalidate] at hfind
  split at hfind
  · cases hfind
  · exact h other fingerprint a hfind

theorem forget {w : World} (h : Truthful parser job w.cache) (name : Json) :
    Truthful parser job (w.forget name).cache := by
  cases hkey : name.key? with
  | none => rwa [World.cache_forget_of_no_key hkey]
  | some key =>
    rw [World.cache_forget hkey]
    exact h.invalidate

theorem put (h : Truthful parser job c) {i : ι} {parsed : Parsed} {a : Analysed}
    (hobtains : (job i).Obtains (parser i) parsed)
    (hanalysis : (job i).analysis parsed = .ok (.ok a.tree)) :
    Truthful parser job (c.put key ((job i).fingerprint parsed) a) := by
  intro other fingerprint b hfind
  rw [Cache.find?_put] at hfind
  split at hfind
  · cases hfind
    exact ⟨i, parsed, hobtains, rfl, hanalysis⟩
  · exact h other fingerprint b hfind

end Truthful

/-! ## Stages that a run comes to by itself -/

/-- The run would come to this stage by itself, or show the same at its end. -/
inductive Stage.Sound (parser : Parser) (job : Job) : Stage → Prop
  | waiting : Sound parser job .waiting
  | asking {number : Nat} {parsed : Parsed} : job.Obtains parser parsed →
      Sound parser job (.asking number parsed)
  | analysing {number : Nat} {parsed : Parsed} : job.Obtains parser parsed →
      Sound parser job (.analysing number parsed)
  | remembering {parsed : Parsed} {a : Analysed} : job.Obtains parser parsed →
      job.analysis parsed = .ok (.ok a.tree) → Sound parser job (.remembering parsed a)
  | ended {report : Report} : job.outcome parser = .ok report.shown →
      Sound parser job (.ended report)
  | failed {failure : Failure} : job.outcome parser = .error failure →
      Sound parser job (.failed failure)

/-- The most moves that a run needs to its end. -/
def Stage.left : Stage → Nat
  | .waiting => 4
  | .asking _ _ => 3
  | .analysing _ _ => 2
  | .remembering _ _ => 1
  | .ended _ => 0
  | .failed _ => 0

/-- A turn of a run leads to a sound stage and a truthful cache, and the run comes nearer to its
end. -/
structure Progress (parser : ι → Parser) (job : ι → Job) (i : ι) (stage : Stage)
    (reached : Stage × World) : Prop where
  sound : reached.1.Sound (parser i) (job i)
  truthful : Truthful parser job reached.2.cache
  left_le : reached.1.left ≤ stage.left - 1

section Turns

variable {i : ι} {w : World} {number : Nat} {parsed : Parsed} {a : Analysed}

theorem Job.Obtains.outcome_eq {parser : Parser} {job : Job} (h : job.Obtains parser parsed) :
    job.outcome parser = Report.shown <$> job.reportOn 0 parsed := by
  rw [Job.outcome, h.prepared, ok_bind, h.concluded_eq]

theorem Job.Obtains.outcome_of_tree {parser : Parser} {job : Job} (h : job.Obtains parser parsed)
    (hanalysis : job.analysis parsed = .ok (.ok a.tree)) :
    job.outcome parser = .ok (Report.shown ⟨parsed, some a, none⟩) := by
  rw [h.outcome_eq, Job.reportOn, hanalysis]
  rfl

theorem progress_waiting (hcache : Truthful parser job w.cache) :
    Progress parser job i .waiting
      (Stage.reached ((job i).advance (parser i) .waiting w)) := by
  obtain ⟨t, -, hprepare⟩ := (job i).comesTo_prepare (parser i)
  have hwaiting : (job i).advance (parser i) .waiting w =
      (do return (job i).stageOf w.runs (← (job i).prepare (parser i))) w.begun := rfl
  cases hprepared : (job i).prepared (parser i) with
  | error failure =>
    rw [hprepared] at hprepare
    rw [hwaiting, bind_of_error (hprepare w.begun)]
    exact ⟨.failed (by rw [Job.outcome, hprepared]; rfl), hcache, Nat.zero_le _⟩
  | ok parsed =>
    rw [hprepared] at hprepare
    rw [hwaiting, bind_of_ok (hprepare w.begun)]
    change Progress parser job i .waiting ((job i).stageOf w.runs parsed, w.begun.add t)
    by_cases hobtains : (job i).Obtains (parser i) parsed
    · have hstage : (job i).stageOf w.runs parsed = .asking w.runs parsed := by
        rw [Job.stageOf, hobtains.analyze, hobtains.tree]
        rfl
      rw [hstage]
      exact ⟨.asking hobtains, hcache, Nat.le_refl _⟩
    · have hnone := Job.not_analysed_of_not_obtains hprepared hobtains
      have hstage : (job i).stageOf w.runs parsed = .ended ⟨parsed, none, none⟩ := if_pos hnone
      have hconcluded : (job i).concluded 0 parsed = .ok ⟨parsed, none, none⟩ := if_pos hnone
      rw [hstage]
      refine ⟨.ended ?_, hcache, Nat.zero_le _⟩
      rw [Job.outcome, hprepared, ok_bind, hconcluded]
      rfl

theorem progress_asking (h : Compatible parser job) (hcache : Truthful parser job w.cache)
    (hobtains : (job i).Obtains (parser i) parsed) :
    Progress parser job i (.asking number parsed)
      (Stage.reached ((job i).advance (parser i) (.asking number parsed) w)) := by
  have hadvance {found : Option Analysed} {w' : World}
      (hsought : (job i).sought parsed w = .ok found w') :
      (job i).advance (parser i) (.asking number parsed) w =
        .ok (.ofFound number parsed found) w' := bind_of_ok hsought
  cases huse : (job i).useCache with
  | false =>
    rw [hadvance (show (job i).sought parsed w = .ok none w by rw [Job.sought, huse]; rfl)]
    exact ⟨.analysing hobtains, hcache, Nat.le_refl _⟩
  | true =>
    obtain ⟨key, hkey⟩ := h.name huse
    have hsought : (job i).sought parsed w = (job i).cached? parsed w := by
      rw [Job.sought, huse]
      rfl
    by_cases hhit : ∃ a, w.cache.find? key = some ((job i).fingerprint parsed, a)
    · obtain ⟨a, hfind⟩ := hhit
      rw [hadvance (hsought.trans (Job.cached?_of_hit hkey hfind))]
      -- The run whose result this is has the same fingerprint, and so the same analysis.
      obtain ⟨j, q, hother, hfingerprint, hanalysis⟩ := hcache _ _ _ hfind
      rw [← h.analysis_eq hobtains hother hfingerprint] at hanalysis
      exact ⟨.ended (hobtains.outcome_of_tree hanalysis), hcache, Nat.zero_le _⟩
    · obtain ⟨t, hcached⟩ := Job.cached?_of_not_hit hkey (not_exists.1 hhit)
      rw [hadvance (hsought.trans hcached)]
      exact ⟨.analysing hobtains, hcache.invalidate, Nat.le_refl _⟩

theorem progress_analysing (hcache : Truthful parser job w.cache)
    (hobtains : (job i).Obtains (parser i) parsed) :
    Progress parser job i (.analysing number parsed)
      (Stage.reached ((job i).advance (parser i) (.analysing number parsed) w)) := by
  obtain ⟨t, -, hanalysed⟩ := (job i).comesTo_analysed parsed.ast
  rw [← Job.analysis] at hanalysed
  have houtcome := hobtains.outcome_eq
  rw [Job.reportOn] at houtcome
  cases hanalysis : (job i).analysis parsed with
  | error failure =>
    rw [hanalysis] at hanalysed houtcome
    have hadvance : (job i).advance (parser i) (.analysing number parsed) w =
        .error failure (w.add t) := bind_of_error (hanalysed w)
    rw [hadvance]
    exact ⟨.failed houtcome, hcache, Nat.zero_le _⟩
  | ok result =>
    rw [hanalysis] at hanalysed houtcome
    cases result with
    | error e =>
      have hadvance : (job i).advance (parser i) (.analysing number parsed) w =
          .ok (.ended ⟨parsed, none, some e⟩) _ := bind_of_ok (hanalysed w)
      rw [hadvance]
      exact ⟨.ended houtcome, hcache, Nat.zero_le _⟩
    | ok tree =>
      have hadvance : (job i).advance (parser i) (.analysing number parsed) w =
          .ok (.remembering parsed ⟨number, tree⟩) (w.add t) := bind_of_ok (hanalysed w)
      rw [hadvance]
      exact ⟨.remembering hobtains hanalysis, hcache, Nat.le_refl _⟩

theorem progress_remembering (h : Compatible parser job) (hcache : Truthful parser job w.cache)
    (hobtains : (job i).Obtains (parser i) parsed)
    (hanalysis : (job i).analysis parsed = .ok (.ok a.tree)) :
    Progress parser job i (.remembering parsed a)
      (Stage.reached ((job i).advance (parser i) (.remembering parsed a) w)) := by
  have hended : Stage.Sound (parser i) (job i) (.ended ⟨parsed, some a, none⟩) :=
    .ended (hobtains.outcome_of_tree hanalysis)
  cases huse : (job i).useCache with
  | false =>
    have hadvance : (job i).advance (parser i) (.remembering parsed a) w =
        .ok (.ended ⟨parsed, some a, none⟩) w := by
      rw [Job.advance, huse]
      rfl
    rw [hadvance]
    exact ⟨hended, hcache, Nat.le_refl _⟩
  | true =>
    obtain ⟨key, hkey⟩ := h.name huse
    have hadvance : (job i).advance (parser i) (.remembering parsed a) w =
        .ok (.ended ⟨parsed, some a, none⟩)
          (w.withCache (w.cache.put key ((job i).fingerprint parsed) a)) := by
      rw [Job.advance, huse]
      exact bind_of_ok (Job.remember_eq hkey)
    rw [hadvance]
    exact ⟨hended, hcache.put hobtains hanalysis, Nat.le_refl _⟩

theorem Compatible.progress (h : Compatible parser job) (hcache : Truthful parser job w.cache)
    {stage : Stage} (hstage : stage.Sound (parser i) (job i)) :
    Progress parser job i stage (Stage.reached ((job i).advance (parser i) stage w)) := by
  cases hstage with
  | waiting => exact progress_waiting hcache
  | asking hobtains => exact progress_asking h hcache hobtains
  | analysing hobtains => exact progress_analysing hcache hobtains
  | remembering hobtains hanalysis => exact progress_remembering h hcache hobtains hanalysis
  | ended houtcome => exact ⟨.ended houtcome, hcache, Nat.le_refl _⟩
  | failed houtcome => exact ⟨.failed houtcome, hcache, Nat.le_refl _⟩

end Turns

/-! ## Sessions -/

section Session

variable [DecidableEq ι]

/-- The session comes about by the moves, every stage in it is sound, and each run has gone on with
each of its turns. -/
structure Session.Sound (parser : ι → Parser) (job : ι → Job) (moves : List (Move ι))
    (s : Session ι) : Prop where
  stage : ∀ i, (s.stage i).Sound (parser i) (job i)
  cache : Truthful parser job s.world.cache
  left_le : ∀ i, (s.stage i).left ≤ 4 - moves.count (.advance i)

theorem Session.Sound.start : Session.Sound parser job [] {} where
  stage _ := .waiting
  cache := Truthful.clear (c := {})
  left_le _ := Nat.le_refl _

theorem Session.Sound.step (h : Compatible parser job) {moves : List (Move ι)} {s : Session ι}
    (hs : s.Sound parser job moves) (move : Move ι) :
    (s.step parser job move).Sound parser job (moves ++ [move]) := by
  have hothers {i : ι} (hne : move ≠ .advance i) :
      (s.stage i).left ≤ 4 - (moves ++ [move]).count (.advance i) := by
    rw [List.count_append, List.count_singleton, if_neg (by simpa using hne)]
    exact hs.left_le i
  cases move with
  | advance i =>
    have hprogress := h.progress (i := i) hs.cache (hs.stage i)
    refine ⟨fun j => ?_, hprogress.truthful, fun j => ?_⟩
    · by_cases hij : j = i
      · subst hij
        simpa [Session.step] using hprogress.sound
      · simpa [Session.step, Function.update_of_ne hij] using hs.stage j
    · by_cases hij : j = i
      · subst hij
        have hleft : ((s.step parser job (.advance j)).stage j).left ≤ (s.stage j).left - 1 := by
          simpa [Session.step] using hprogress.left_le
        have := hs.left_le j
        rw [List.count_append, List.count_singleton_self]
        omega
      · have := hothers (i := j) fun he => hij (Move.advance.inj he).symm
        simpa [Session.step, Function.update_of_ne hij] using this
  | invalidate name =>
    exact ⟨hs.stage, hs.cache.forget name, fun j => hothers nofun⟩
  | clear =>
    exact ⟨hs.stage, .clear (c := s.world.cache), fun j => hothers nofun⟩

theorem Session.sound_after (h : Compatible parser job) (moves : List (Move ι)) :
    (Session.after parser job moves).Sound parser job moves := by
  induction moves using List.reverseRecOn with
  | nil => exact .start
  | append_singleton moves move ih =>
    rw [Session.after, List.foldl_append]
    exact ih.step h move

theorem Stage.Sound.shownEnd?_eq {parser : Parser} {job : Job} {stage : Stage}
    (h : stage.Sound parser job) {r : Except Failure Shown} (hr : stage.shownEnd? = some r) :
    r = job.outcome parser := by
  cases h with
  | ended houtcome => exact (Option.some.inj hr).symm.trans houtcome.symm
  | failed houtcome => exact (Option.some.inj hr).symm.trans houtcome.symm
  | _ => cases hr

theorem Stage.isSome_shownEnd? {stage : Stage} (h : stage.left = 0) :
    stage.shownEnd?.isSome = true := by
  cases stage with
  | ended | failed => rfl
  | _ => cases h

/-- Runs that share a cache show what they show without one, however they take turns and whatever is
forgotten in between: the same result of parsing, the same scopes and the same error, or the same
failure. A run is over after four turns. A run whose turns come in a row is the whole run. -/
theorem shownEnd_eq_uncached (h : Compatible parser job) (moves : List (Move ι)) (i : ι) :
    (∀ r ∈ ((Session.after parser job moves).stage i).shownEnd?, ∀ w,
        r = shownEnd ((job i).uncached.run (parser i) w)) ∧
      (4 ≤ moves.count (.advance i) →
        ((Session.after parser job moves).stage i).shownEnd?.isSome = true) ∧
      (do
        let asking ← (job i).advance (parser i) .waiting
        let analysing ← (job i).advance (parser i) asking
        let remembering ← (job i).advance (parser i) analysing
        (job i).advance (parser i) remembering) = Stage.ended <$> (job i).run (parser i) := by
  have hsound := Session.sound_after h moves
  refine ⟨fun r hr w => ?_, fun hturns => ?_, Job.advance_waiting⟩
  · rw [Job.shownEnd_run_uncached]
    exact (hsound.stage i).shownEnd?_eq hr
  · have := hsound.left_le i
    exact Stage.isSome_shownEnd? (by omega)

end Session

/-- Three runs over sources of the same name, the first and the last over the same text. -/
def editedJob (i : Fin 3) : Job where
  source := .string (if i = 1 then "let b" else "a")
  name := .string "page.js"
  tolerant := .bool (i != 2)
  useCache := true

/-- The first two runs ask before either of them remembers its scopes. The last one takes the scopes
that the first one remembered, before the second one overwrites them. -/
def overlapping : List (Move (Fin 3)) :=
  [.advance 0, .advance 1, .advance 0, .advance 1, .advance 0, .advance 1, .advance 0,
    .advance 2, .advance 2, .advance 1, .advance 2, .advance 2, .invalidate (.string "page.js")]

theorem compatible_editedJob : Compatible (fun _ => Sample.nameParser) editedJob where
  tree hast hast' _ _ hsource _ := by
    have hcall {i : Fin 3} : (editedJob i).call.source = (editedJob i).source := rfl
    simp only [Sample.nameParser, hcall, hsource, ParserAnswer.tree.injEq] at hast hast'
    exact hast.symm.trans hast'
  hash {i j hash} hi hj := by
    have hne : Digest.ofText? "a" ≠ Digest.ofText? "let b" := by decide +kernel
    have heq : Digest.ofText? (if i = 1 then "let b" else "a") =
        Digest.ofText? (if j = 1 then "let b" else "a") := hi.trans hj.symm
    unfold editedJob
    split_ifs at heq ⊢
    · rfl
    · exact absurd heq.symm hne
    · exact absurd heq hne
    · rfl
  name _ := ⟨.string "page.js", rfl⟩

/-- The last run shows the scopes of the first. -/
theorem shownEnd_eq_uncached_overlapping :
    ∃ report,
      (Session.after (fun _ => Sample.nameParser) editedJob overlapping).stage 2 = .ended report ∧
      report.scopes.map Analysed.run = some 0 ∧
      ∀ w, .ok report.shown = shownEnd ((editedJob 2).uncached.run Sample.nameParser w) := by
  obtain ⟨hsame, -, -⟩ := shownEnd_eq_uncached compatible_editedJob overlapping 2
  have hfirst : (match
        (Session.after (fun _ => Sample.nameParser) editedJob overlapping).stage 2 with
      | .ended report => report.scopes.map Analysed.run
      | _ => none) = some 0 := by decide +kernel
  split at hfirst
  · rename_i report hstage
    exact ⟨report, hstage, hfirst, hsame _ (by rw [hstage]; rfl)⟩
  · cases hfirst

end LexicalScopes
