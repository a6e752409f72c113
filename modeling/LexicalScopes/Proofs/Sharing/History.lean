import LexicalScopes.Proofs.Samples
import LexicalScopes.Proofs.Sharing.Runs
import Mathlib.Data.List.Induction
import Mathlib.Data.Set.Card

/-!
# What a cache remembers of its history

Runs over sources follow each other, and names are forgotten in between. A cache has the scopes of a
name exactly if the latest call that concerns the name is a run that returned them; only a run under
the same fingerprint takes them over.
-/

namespace LexicalScopes

/-! ## Calls -/

/-- What is asked of a world. -/
inductive Call where
  | run (parser : Parser) (job : Job)
  | invalidate (name : Json)
  | clear

/-- The world that the end of a run leaves. -/
def World.left {α : Type} : EStateM.Result Failure World α → World
  | .ok _ w => w
  | .error _ w => w

@[simp] theorem World.left_ending {α : Type} (w : World) (r : Except Failure α) :
    World.left (w.ending r) = w := by
  cases r <;> rfl

/-- The world after a call. -/
def World.perform (w : World) : Call → World
  | .run parser job => .left (job.run parser w)
  | .invalidate name => w.forget name
  | .clear => w.forgetAll

/-- The world after some calls, from its start. -/
def World.after (calls : List Call) : World := calls.foldl World.perform {}

theorem World.after_concat (calls : List Call) (call : Call) :
    World.after (calls ++ [call]) = (World.after calls).perform call := List.foldl_append

/-- The call may change what is remembered under the name. -/
def Call.Concerns (key : Key) : Call → Prop
  | .run parser job => (∃ parsed, job.Reaches parser parsed) ∧ job.name.key? = some key
  | .invalidate name => name.key? = some key
  | .clear => True

/-- The call is a run over a source of the name that gets as far as the cache and returns scopes. -/
def Call.Returns (call : Call) (w : World) (key : Key) (job : Job) (parsed : Parsed)
    (a : Analysed) : Prop :=
  ∃ parser report w', call = .run parser job ∧ job.Reaches parser parsed ∧
    job.name.key? = some key ∧ job.run parser w = .ok report w' ∧ report.scopes = some a

/-- The latest of the calls that concern the name is a run that returned these scopes. -/
def Latest (calls : List Call) (key : Key) (job : Job) (parsed : Parsed) (a : Analysed) : Prop :=
  ∃ before call between, calls = before ++ call :: between ∧
    call.Returns (World.after before) key job parsed a ∧ ∀ c ∈ between, ¬ c.Concerns key

/-! ## Runs that do not reach the cache -/

section Reaches

variable {parser : Parser} {job : Job}

/-- A run that does not reach the cache, or that reaches it without a name, leaves it as it is. -/
theorem Job.exists_run_eq_ending_of_not_reaches (h : ¬ ((∃ parsed, job.Reaches parser parsed) ∧
      ∃ key, job.name.key? = some key)) (w : World) :
    ∃ (t : Trace) (r : Except Failure Report), job.run parser w = (w.begun.add t).ending r := by
  cases huse : job.useCache with
  | false =>
    obtain ⟨t, hrun⟩ := exists_run_eq_ending parser huse w
    exact ⟨t, _, hrun⟩
  | true =>
    cases hprepared : job.prepared parser with
    | error failure =>
      obtain ⟨t, hrun⟩ := exists_run_eq_error hprepared
      exact ⟨t, .error failure, hrun w⟩
    | ok parsed =>
      obtain ⟨t, -, hrun⟩ := exists_run_eq_conclude hprepared
      by_cases hobtains : job.Obtains parser parsed
      · have hkey : job.name.key? = none := Option.eq_none_iff_forall_ne_some.2 fun key hkey =>
          h ⟨⟨parsed, hobtains, huse⟩, key, hkey⟩
        have hsought : job.sought parsed (w.begun.add t) = .error .unreadable (w.begun.add t) := by
          rw [sought, huse, if_pos rfl, cached?, hkey]
          rfl
        refine ⟨t, .error .unreadable, ?_⟩
        rw [hrun, hobtains.conclude_eq, bind_of_error hsought]
        rfl
      · refine ⟨t, .ok ⟨parsed, none, none⟩, ?_⟩
        rw [hrun, conclude, if_pos (not_analysed_of_not_obtains hprepared hobtains)]
        rfl

end Reaches

/-! ## Calls and what is remembered -/

section Perform

variable {w : World} {call : Call} {key : Key}

/-- What is remembered under a name stays until a call concerns the name. -/
theorem find?_perform_of_not_concerns (h : ¬ call.Concerns key) :
    (w.perform call).cache.find? key = w.cache.find? key := by
  cases call with
  | run parser job =>
    by_cases hreaches : (∃ parsed, job.Reaches parser parsed) ∧ ∃ key, job.name.key? = some key
    · obtain ⟨⟨parsed, hreaches⟩, other, hother⟩ := hreaches
      have hne : key ≠ other := by
        rintro rfl
        exact h ⟨⟨parsed, hreaches⟩, hother⟩
      have hreached := hreaches.reached hother w
      rw [World.perform]
      generalize job.run parser w = r at hreached
      cases hreached with
      | hit => rfl
      | built => simp [World.left, Cache.find?_put, hne]
      | reported => simp [World.left, Cache.find?_invalidate, hne]
      | failed => simp [World.left, Cache.find?_invalidate, hne]
    · obtain ⟨t, r, hrun⟩ := Job.exists_run_eq_ending_of_not_reaches hreaches w
      rw [World.perform, hrun, World.left_ending]
      rfl
  | invalidate name =>
    cases hname : name.key? with
    | none => rw [World.perform, World.cache_forget_of_no_key hname]
    | some other =>
      have hne : key ≠ other := by
        rintro rfl
        exact h hname
      rw [World.perform, World.cache_forget hname, Cache.find?_invalidate, if_neg hne]
  | clear => exact absurd trivial h

theorem Call.returns_run {parser : Parser} {job : Job} {parsed : Parsed}
    (h : job.Reaches parser parsed) (hkey : job.name.key? = some key)
    {fingerprint : Fingerprint} {a : Analysed} :
    (∃ job' parsed', (Call.run parser job).Returns w key job' parsed' a ∧
        job'.fingerprint parsed' = fingerprint) ↔
      (∃ report w', job.run parser w = .ok report w' ∧ report.scopes = some a) ∧
        job.fingerprint parsed = fingerprint := by
  constructor
  · rintro ⟨_, parsed', ⟨_, report, w', hcall, hreaches', -, hrun, hscopes⟩, rfl⟩
    cases hcall
    have hsame : parsed = parsed' := Except.ok.inj (h.prepared.symm.trans hreaches'.prepared)
    exact ⟨⟨report, w', hrun, hscopes⟩, by rw [hsame]⟩
  · rintro ⟨⟨report, w', hrun, hscopes⟩, hfingerprint⟩
    exact ⟨job, parsed, ⟨parser, report, w', rfl, h, hkey, hrun, hscopes⟩, hfingerprint⟩

/-- After a call that concerns the name, it is remembered what the call returned, if anything. -/
theorem find?_perform_of_concerns (h : call.Concerns key) {fingerprint : Fingerprint}
    {a : Analysed} : (w.perform call).cache.find? key = some (fingerprint, a) ↔
      ∃ job parsed, call.Returns w key job parsed a ∧ job.fingerprint parsed = fingerprint := by
  cases call with
  | run parser job =>
    obtain ⟨⟨parsed, hreaches⟩, hkey⟩ := h
    rw [Call.returns_run hreaches hkey, World.perform]
    have hreached := hreaches.reached hkey w
    generalize job.run parser w = r at hreached
    cases hreached with
    | hit hfind => simp [World.left, hfind, and_comm]
    | built => simp [World.left, Cache.find?_put, and_comm]
    | reported => simp [World.left, Cache.find?_invalidate]
    | failed => simp [World.left, Cache.find?_invalidate]
  | invalidate name =>
    rw [World.perform, World.cache_forget h, Cache.find?_invalidate, if_pos rfl]
    exact ⟨nofun, fun ⟨_, _, ⟨_, _, _, hcall, _⟩, _⟩ => nomatch hcall⟩
  | clear => exact ⟨nofun, fun ⟨_, _, ⟨_, _, _, hcall, _⟩, _⟩ => nomatch hcall⟩

end Perform

/-! ## The latest call -/

section Latest

variable {calls : List Call} {call : Call} {key : Key} {job : Job} {parsed : Parsed} {a : Analysed}

theorem Call.Returns.concerns {w : World} (h : call.Returns w key job parsed a) :
    call.Concerns key := by
  obtain ⟨parser, report, w', rfl, hreaches, hkey, -⟩ := h
  exact ⟨⟨parsed, hreaches⟩, hkey⟩

theorem not_latest_nil : ¬ Latest [] key job parsed a := by
  rintro ⟨before, call, between, hcalls, -⟩
  simp at hcalls

/-- The latest of some calls is the last of them, or the latest of the others if the last one does
not concern the name. -/
theorem latest_concat : Latest (calls ++ [call]) key job parsed a ↔
    call.Returns (World.after calls) key job parsed a ∨
      ¬ call.Concerns key ∧ Latest calls key job parsed a := by
  constructor
  · rintro ⟨before, call', between, hcalls, hreturns, hbetween⟩
    rcases List.eq_nil_or_concat between with rfl | ⟨between, last, rfl⟩
    · obtain ⟨rfl, rfl⟩ := List.concat_inj.1 (by simpa using hcalls)
      exact .inl hreturns
    · obtain ⟨rfl, rfl⟩ : calls = before ++ call' :: between ∧ call = last :=
        List.concat_inj.1 (by simpa using hcalls)
      rw [List.concat_eq_append] at hbetween
      obtain ⟨hbetween, hlast⟩ := List.forall_mem_append.1 hbetween
      exact .inr ⟨hlast _ List.mem_cons_self, before, call', between, rfl, hreturns, hbetween⟩
  · rintro (hreturns | ⟨h, before, call', between, rfl, hreturns, hbetween⟩)
    · exact ⟨calls, call, [], rfl, hreturns, nofun⟩
    · refine ⟨before, call', between ++ [call], by simp, hreturns, ?_⟩
      exact List.forall_mem_append.2 ⟨hbetween, by simpa using h⟩

/-- What is remembered under a name is what the latest call that concerns it returned. -/
theorem find?_after (calls : List Call) {fingerprint : Fingerprint} :
    (World.after calls).cache.find? key = some (fingerprint, a) ↔
      ∃ job parsed, Latest calls key job parsed a ∧ job.fingerprint parsed = fingerprint := by
  induction calls using List.reverseRecOn with
  | nil => exact ⟨nofun, fun ⟨_, _, hlatest, _⟩ => absurd hlatest not_latest_nil⟩
  | append_singleton calls call ih =>
    rw [World.after_concat]
    by_cases h : call.Concerns key
    · simp only [find?_perform_of_concerns h, latest_concat, h, not_true, false_and, or_false]
    · have hnone (job : Job) (parsed : Parsed) :
          ¬ call.Returns (World.after calls) key job parsed a := fun hreturns => h hreturns.concerns
      simp only [find?_perform_of_not_concerns h, ih, latest_concat, h, hnone, not_false_iff,
        true_and, false_or]

end Latest

/-! ## The number of names -/

namespace Cache

variable {α : Type} {c : Cache α} {key other : Key} {fingerprint : Fingerprint} {a : α}

/-- The names that something is remembered under. -/
def names (c : Cache α) : List Key := c.entries.map Prod.fst

theorem names_invalidate : (c.invalidate key).names = c.names.filter (· != key) := by
  rw [names, names, invalidate, List.filter_map]
  rfl

theorem names_put :
    (c.put key fingerprint a).names = c.names.filter (· != key) ++ [key] := by
  rw [← names_invalidate, names, put, List.map_append]
  rfl

theorem mem_names : key ∈ c.names ↔ (c.find? key).isSome = true := by
  rw [names, find?, List.mem_map, Option.isSome_iff_ne_none, Ne, List.lookup_eq_none_iff]
  constructor
  · rintro ⟨e, he, rfl⟩ hnone
    exact absurd rfl (bne_iff_ne.1 (hnone e he))
  · intro h
    by_contra hne
    exact h fun e he => bne_iff_ne.2 fun hkey => hne ⟨e, he, hkey.symm⟩

/-- The size of a cache that has no name twice is the number of its names. -/
theorem size_eq_ncard (h : c.names.Nodup) :
    c.size = {key | (c.find? key).isSome = true}.ncard := by
  have hset : {key | (c.find? key).isSome = true} = ↑c.names.toFinset := by
    ext key
    rw [List.coe_toFinset, Set.mem_ofPred_eq, Set.mem_ofPred_eq, mem_names]
  rw [hset, Set.ncard_coe_finset, List.toFinset_card_of_nodup h, names, List.length_map, size]

end Cache

/-- The cache has no name twice, and the scopes in it are those of runs that have begun. -/
structure World.Orderly (w : World) : Prop where
  nodup : w.cache.names.Nodup
  run_lt : ∀ key fingerprint a, w.cache.find? key = some (fingerprint, a) → a.run < w.runs

namespace World.Orderly

variable {w w' : World} {key : Key}

theorem of_cache_eq (h : w.Orderly) (hcache : w'.cache = w.cache) (hruns : w.runs ≤ w'.runs) :
    w'.Orderly where
  nodup := hcache ▸ h.nodup
  run_lt key fingerprint a hfind :=
    Nat.lt_of_lt_of_le (h.run_lt key fingerprint a (hcache ▸ hfind)) hruns

theorem of_cache_eq_invalidate (h : w.Orderly) (hcache : w'.cache = w.cache.invalidate key)
    (hruns : w.runs ≤ w'.runs) : w'.Orderly where
  nodup := by
    rw [hcache, Cache.names_invalidate]
    exact h.nodup.filter _
  run_lt other fingerprint a hfind := by
    rw [hcache, Cache.find?_invalidate] at hfind
    split at hfind
    · cases hfind
    · exact Nat.lt_of_lt_of_le (h.run_lt other fingerprint a hfind) hruns

theorem of_cache_eq_put (h : w.Orderly) {fingerprint : Fingerprint} {tree : Scope}
    (hcache : w'.cache = w.cache.put key fingerprint ⟨w.runs, tree⟩)
    (hruns : w.runs < w'.runs) : w'.Orderly where
  nodup := by
    rw [hcache, Cache.names_put, ← List.concat_eq_append]
    exact (h.nodup.filter _).concat (by simp)
  run_lt other fingerprint' a hfind := by
    rw [hcache, Cache.find?_put] at hfind
    split at hfind
    · cases hfind
      exact hruns
    · exact Nat.lt_trans (h.run_lt other fingerprint' a hfind) hruns

theorem perform (h : w.Orderly) (call : Call) : (w.perform call).Orderly := by
  cases call with
  | run parser job =>
    by_cases hreaches : (∃ parsed, job.Reaches parser parsed) ∧ ∃ key, job.name.key? = some key
    · obtain ⟨⟨parsed, hreaches⟩, key, hkey⟩ := hreaches
      have hreached := hreaches.reached hkey w
      rw [World.perform]
      generalize job.run parser w = r at hreached
      cases hreached with
      | hit => exact h.of_cache_eq rfl (Nat.le_succ _)
      | built => exact h.of_cache_eq_put rfl (Nat.lt_succ_self _)
      | reported => exact h.of_cache_eq_invalidate rfl (Nat.le_succ _)
      | failed => exact h.of_cache_eq_invalidate rfl (Nat.le_succ _)
    · obtain ⟨t, r, hrun⟩ := Job.exists_run_eq_ending_of_not_reaches hreaches w
      rw [World.perform, hrun, World.left_ending]
      exact h.of_cache_eq rfl (Nat.le_succ _)
  | invalidate name =>
    cases hname : name.key? with
    | none => exact h.of_cache_eq (World.cache_forget_of_no_key hname) (Nat.le_refl _)
    | some key => exact h.of_cache_eq_invalidate (World.cache_forget hname) (Nat.le_refl _)
  | clear => exact ⟨.nil, nofun⟩

theorem after (calls : List Call) : (World.after calls).Orderly := by
  induction calls using List.reverseRecOn with
  | nil => exact ⟨.nil, nofun⟩
  | append_singleton calls call ih =>
    rw [World.after_concat]
    exact ih.perform call

end World.Orderly

/-! ## Runs that take scopes over -/

/-- The run returns scopes that are remembered under its name, and analyses nothing. -/
def Job.TakesOver (parser : Parser) (job : Job) (w : World) (a : Analysed) : Prop :=
  ∃ parsed w' key fingerprint notices, job.run parser w = .ok ⟨parsed, some a, none⟩ w' ∧
    job.name.key? = some key ∧ w.cache.find? key = some (fingerprint, a) ∧
    w'.log = w.log ++ notices ∧ ∀ n ∈ notices, n.isAnalysis = false

/-- A run that reaches the cache takes scopes over if and only if the latest call that concerns the
name of its source is a run that returned them for the same source, the same type of source and the
same flag. The size of the cache is the number of names whose latest call is a run that returned
scopes. -/
theorem takesOver_iff_latest (calls : List Call) :
    (∀ parser (job : Job) parsed key a, job.Reaches parser parsed → job.name.key? = some key →
      (job.TakesOver parser (World.after calls) a ↔
        ∃ job' parsed', Latest calls key job' parsed' a ∧ parsed'.hash = parsed.hash ∧
          job'.sourceType.normal = job.sourceType.normal ∧
          job'.generated.normal = job.generated.normal)) ∧
      (World.after calls).cache.size =
        {key | ∃ job parsed a, Latest calls key job parsed a}.ncard := by
  have horderly := World.Orderly.after calls
  constructor
  · intro parser job parsed key a h hkey
    have hreached := h.reached hkey (World.after calls)
    simp only [← Job.fingerprint_eq_iff, ← find?_after]
    constructor
    · rintro ⟨parsed', w', key', fingerprint, notices, hrun, hkey', hfind, -, -⟩
      obtain rfl : key = key' := Option.some.inj (hkey.symm.trans hkey')
      rw [hrun] at hreached
      cases hreached with
      | hit hfind' => exact hfind'
      | built =>
        -- Scopes that are analysed now are not yet remembered.
        exact absurd (horderly.run_lt _ _ _ hfind) (Nat.lt_irrefl _)
    · intro hfind
      generalize hrun : job.run parser (World.after calls) = r at hreached
      cases hreached with
      | hit hfind' hquiet =>
        obtain ⟨-, rfl⟩ := Prod.mk.inj (Option.some.inj (hfind.symm.trans hfind'))
        exact ⟨parsed, _, key, _, _, hrun, hkey, hfind, rfl, hquiet⟩
      | built hmiss => exact absurd hfind (hmiss a)
      | reported hmiss => exact absurd hfind (hmiss a)
      | failed hmiss => exact absurd hfind (hmiss a)
  · rw [Cache.size_eq_ncard horderly.nodup]
    congr 1
    ext key
    simp only [Set.mem_ofPred_eq, Option.isSome_iff_exists, Prod.exists, find?_after]
    constructor
    · rintro ⟨_, a, job, parsed, hlatest, rfl⟩
      exact ⟨job, parsed, a, hlatest⟩
    · rintro ⟨job, parsed, a, hlatest⟩
      exact ⟨_, a, job, parsed, hlatest, rfl⟩

/-- A run over a page, which may be strict. -/
def pageJob (strict : Bool) : Job where
  source := .string "a"
  name := .string "page.js"
  tolerant := .bool !strict
  useCache := true

/-- A run over the page, a run over it without the cache, and another name forgotten. -/
def pageCalls : List Call :=
  [.run Sample.nameParser (pageJob false), .run Sample.nameParser (pageJob false).uncached,
    .invalidate (.string "other.js")]

theorem takesOver_iff_latest_pageCalls :
    (∃ a, (pageJob true).TakesOver Sample.nameParser (World.after pageCalls) a ∧ a.run = 0) ∧
      {key | ∃ job parsed a, Latest pageCalls key job parsed a}.ncard = 1 := by
  obtain ⟨htakes, hsize⟩ := takesOver_iff_latest pageCalls
  refine ⟨?_, by rw [← hsize]; decide +kernel⟩
  have hreaches (strict : Bool) : (pageJob strict).Reaches Sample.nameParser
      ⟨.object (Sample.program 1 [Sample.reading "a" 0]), [],
        "ca978112ca1bbdcafac231b39a23dc4da786eff8147c4e72b9807785afee48bb", .string "page.js"⟩ := by
    refine ⟨⟨?_, rfl, rfl⟩, rfl⟩
    cases strict <;> decide +kernel
  have hfirst : (match (pageJob false).run Sample.nameParser {} with
      | .ok report _ => report.scopes.map Analysed.run
      | .error _ _ => none) = some 0 := by decide +kernel
  split at hfirst
  · rename_i report w' hrun
    obtain ⟨a, hscopes, hnumber⟩ := Option.map_eq_some_iff.1 hfirst
    refine ⟨a, (htakes _ _ _ _ a (hreaches true) rfl).2 ?_, hnumber⟩
    refine ⟨pageJob false, _, ?_, rfl, rfl, rfl⟩
    refine ⟨[], _, _, rfl, ⟨_, report, w', rfl, hreaches false, rfl, hrun, hscopes⟩, ?_⟩
    -- Neither of the later calls concerns the page.
    simp only [List.forall_mem_cons, List.not_mem_nil, IsEmpty.forall_iff, implies_true, and_true]
    refine ⟨fun ⟨⟨_, h⟩, _⟩ => (nomatch h.useCache), ?_⟩
    rw [Call.Concerns]
    decide
  · cases hfirst

end LexicalScopes
