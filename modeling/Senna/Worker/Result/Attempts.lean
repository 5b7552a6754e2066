import Senna.Worker.Result.Guarantee

/-!
# One attempt at a job that fails

What `processJob` leaves behind when a handler fails, with the stored job as a whole. `Settle`
and `Guarantee` say where a job ends up; here it is followed from one attempt to the next, so
that every field of the next payload counts.

A job is marked before it is stored elsewhere, and `durableJobPayload` takes the arguments of an
encrypted job from the marked payload again. **What is stored is the job that was fetched**, with
the handler's `ProcessedAt`, a higher retry count or an error, and nothing else changed
(`durableJobPayload_marked`).

All commands succeed here: the context is never done.
-/

namespace Senna

open Redis Proc

/-! ### A handler that fails -/

/-- A handler that fails on every execution, with an error the worker reads nothing else from,
and that leaves the job as it is: only the time of processing is written into it, and an
encrypted job may have its arguments decrypted. -/
structure Failing (handler : Handler) (opts : Option JobOptions) : Prop where
  fails : ∀ job, ∃ err, (handler.run job).error = some err ∧ err.interrupted = false ∧
    err.retryIn = none ∧ err.maxRetries = none
  options : ∀ job, (handler.run job).opts = opts
  /-- The delays are those of `DefaultBackoff`. -/
  backoff : ∀ o ∈ opts, o.retryBackoff.getD defaultBackoff = defaultBackoff
  leaves : ∀ job, ∃ processedAt args encrypted,
    (handler.run job).job =
      { job with processedAt := processedAt, args := args, encrypted := encrypted } ∧
    (job.encrypted = false → args = job.args ∧ encrypted = false)

/-- How often a job may be retried: its own limit, or the handler's if that is smaller. -/
def retryLimit (job : Job) : Option JobOptions → ℤ
  | none => job.retry
  | some o => min job.retry o.maxRetries

variable {opts : Option JobOptions}

theorem calculateRetryBackoff_eq (job : Job)
    (hbackoff : ∀ o ∈ opts, o.retryBackoff.getD defaultBackoff = defaultBackoff) :
    (calculateRetryBackoff job opts).1 = defaultBackoff job.retryCount ∧
      ((calculateRetryBackoff job opts).2 = true ↔ job.retryCount < retryLimit job opts) := by
  cases opts with
  | none => simp [calculateRetryBackoff, retryLimit]
  | some o =>
    have hmin : (if o.maxRetries < job.retry then o.maxRetries else job.retry) =
        min job.retry o.maxRetries := by
      split <;> omega
    simp [calculateRetryBackoff, retryLimit, hbackoff o rfl, hmin]

theorem retryLimit_iterableRetryOptions (job : Job) (opts : Option JobOptions) :
    retryLimit job (some (iterableRetryOptions job opts)) = retryLimit job opts := by
  cases opts with
  | none => simp [retryLimit, iterableRetryOptions]
  | some o =>
    simp only [retryLimit, iterableRetryOptions]
    split <;> omega

theorem calculateRetryBackoff_judgedBy {handler : Handler} (h : Failing handler opts) (job : Job) :
    (calculateRetryBackoff (handler.run job).job (handler.run job).judgedBy).1 =
        defaultBackoff job.retryCount ∧
      ((calculateRetryBackoff (handler.run job).job (handler.run job).judgedBy).2 = true ↔
        job.retryCount < retryLimit job opts) := by
  obtain ⟨processedAt, args, encrypted, hjob, -⟩ := h.leaves job
  unfold Handling.judgedBy
  rw [h.options job]
  split
  · have hbackoff : ∀ o ∈ some (iterableRetryOptions (handler.run job).job opts),
        o.retryBackoff.getD defaultBackoff = defaultBackoff := by
      intro o ho
      obtain rfl := Option.some.inj ho
      cases hset : opts with
      | none => rfl
      | some o => exact h.backoff o hset
    have hown := calculateRetryBackoff_eq (handler.run job).job hbackoff
    rw [retryLimit_iterableRetryOptions] at hown
    rw [hjob] at hown ⊢
    exact hown
  · have hown := calculateRetryBackoff_eq (handler.run job).job h.backoff
    rw [hjob] at hown ⊢
    exact hown

theorem verdict_of_failing {handler : Handler} (h : Failing handler opts)
    (job : Job) :
    (job.retryCount < retryLimit job opts ∧
      verdict (handler.run job).job (handler.run job).error (handler.run job).judgedBy
        (handler.run job).iterable = .retry (defaultBackoff job.retryCount)) ∨
    (retryLimit job opts ≤ job.retryCount ∧ ∃ error,
      verdict (handler.run job).job (handler.run job).error (handler.run job).judgedBy
        (handler.run job).iterable = .kill error) := by
  obtain ⟨err, herr, hint, hretry, hmax⟩ := h.fails job
  obtain ⟨hdelay, hagain⟩ := calculateRetryBackoff_judgedBy h job
  by_cases hlt : job.retryCount < retryLimit job opts
  · refine Or.inl ⟨hlt, ?_⟩
    simp [verdict, herr, hint, hretry, hmax, hdelay, hagain.mpr hlt]
  · refine Or.inr ⟨Int.not_lt.mp hlt, err.message, ?_⟩
    have hstop := (Bool.not_eq_true _).mp (mt hagain.mp hlt)
    simp [verdict, herr, hint, hretry, hmax, hstop]

/-! ### The job in hand -/

section Hand

variable (w : Setting) (st : Stock) (p : String) (job : Job)

/-- The worker has the job in memory, and its payload `p` is in flight on top of the rest. -/
structure Hand (env : Env) : Prop where
  typed : WellTyped env.db
  stored : ∀ k, (stock env.db).stored k = (st.put (.inFlight w.worker) p).stored k
  job_eq : env.job = job
  payload : jobPayload job = p

/-- A payload is stored in a sorted set, and the rest is as it was. -/
structure Shelved (k : Key) (q : String) (env : Env) : Prop where
  typed : WellTyped env.db
  remains : Remains ((st.drop k q).put k q) env

variable {w st p job} {env : Env}

theorem Hand.holding (h : Hand w st p job env) (hread : ∃ j, unmarshalJob p = some j) :
    Holding w st job env where
  typed := h.typed
  stored := by rw [h.job_eq, h.payload]; exact h.stored
  readable := by rw [h.job_eq, h.payload]; exact hread
  same := by rw [h.job_eq]

theorem Hand.congr {env' : Env} (h : Hand w st p job env) (hdb : env'.db = env.db)
    (hjob : env'.job = env.job) : Hand w st p job env' where
  typed := hdb ▸ h.typed
  stored := hdb ▸ h.stored
  job_eq := hjob.trans h.job_eq
  payload := h.payload

def markedPayload (j : Job) (f : JobFinalization) : String :=
  ({ j with finalization := some f } : Job).marshal

theorem markedPayload_readable {j : Job} (hread : unmarshalJob p = some j) (f : JobFinalization) :
    ∃ j', unmarshalJob (markedPayload j f) = some j' :=
  ⟨_, unmarshalJob_mark hread (some f)⟩

def markedJob (job j : Job) (f : JobFinalization) : Job :=
  { job with finalization := some f, raw := markedPayload j f }

theorem markFinalization_hand {j : Job} (hread : unmarshalJob p = some j) (f : JobFinalization) :
    Spends (markFinalization w f) 1 (Hand w st p job)
      (fun _ => Hand w st (markedPayload j f) (markedJob job j f)) fun _ => True := by
  refine Spends.reads_bind_of_eq (fun env h => h.job_eq) ?_
  by_cases hp : jobPayload job = p
  · have hmarked : payloadWithFinalization (jobPayload job) f = some (markedPayload j f) := by
      rw [payloadWithFinalization, hp, hread]
      rfl
    simp only [hmarked]
    refine runScript_spends (fun env h => ?_) fun _ _ => trivial
    have hhold := h.holding ⟨j, hread⟩
    obtain ⟨db, hrun, htyped, hstock⟩ := stock_mark_inFlight h.typed
      (Multiset.mem_coe.mp hhold.mem) env.job.queue env.job.id (markedPayload j f)
    refine ⟨1, db, hrun, htyped, fun k => ?_, ?_, if_pos (marshal_ne_empty _)⟩
    · change (stock db).stored k = _
      rw [hstock, Stock.stored_trust, Stock.stored_put, Stock.stored_put, hhold.take, hhold.take]
    · exact congrArg (fun job : Job => markedJob job j f) h.job_eq
  · exact Spends.of_false fun env h => hp h.payload

theorem updateBatchProgress_hand (result : Batch.Result) :
    Spends (updateBatchProgress w result) (batchCost job) (Hand w st p job)
      (fun _ => Hand w st p job) fun _ => True := by
  refine Spends.reads_bind_of_eq (fun env h => h.job_eq) ?_
  unfold batchCost
  split
  · exact Spends.pure fun env h => h
  · refine Spends.issue (fun env h => ⟨(), _, rfl, ?_⟩) fun _ _ => trivial
    obtain ⟨hdb, hjob⟩ := env.record_db w job.id job.batchID result w.levels
    exact h.congr hdb hjob

theorem handleBatchCallbackComplete_hand :
    Spends (handleBatchCallbackComplete w) (callbackCost job) (Hand w st p job)
      (fun _ => Hand w st p job) fun _ => True := by
  refine Spends.reads_bind_of_eq (fun env h => h.job_eq) ?_
  unfold callbackCost
  split
  · exact Spends.pure fun env h => h
  · refine Spends.issue (fun env h => ⟨(), _, rfl, ?_⟩) fun _ _ => trivial
    obtain ⟨hdb, hjob⟩ := env.recordCallback_db w job.id job.callbackBatchID
    exact h.congr hdb hjob

theorem nackAt_hand (hread : ∃ j, unmarshalJob p = some j) {next : Job}
    (hnext : nextJob job = some next) (t : Time) :
    Spends (nackAt w t) 1 (Hand w st p job) (fun _ => Shelved st .retry next.marshal)
      fun _ => True := by
  refine Spends.reads_bind_of_eq (fun env h => h.job_eq) ?_
  simp only [hnext]
  refine runScript_spends (fun env h => ?_) fun _ _ => trivial
  have hhold := h.holding hread
  obtain ⟨db, hretry, htyped, hstock⟩ := (stock_retryJob h.typed w.worker env.job.id
    (jobPayload env.job) t.unix next.marshal).of_mem hhold.mem
  exact ⟨1, db, hretry, htyped, hhold.remains_filed hstock _⟩

theorem moveToDead_hand (hread : ∃ j, unmarshalJob p = some j) {dead : Job}
    (hdead : deadJob job w.now = some dead) :
    Spends (moveToDead w) 1 (Hand w st p job) (fun _ => Shelved st .dead dead.marshal)
      fun _ => True := by
  refine Spends.reads_bind_of_eq (fun env h => h.job_eq) ?_
  simp only [hdead]
  refine runScript_spends (fun env h => ?_) fun _ _ => trivial
  have hhold := h.holding hread
  obtain ⟨db, hmove, htyped, hstock⟩ := (stock_moveToDeadJob h.typed w.worker env.job.id
    env.job.unique (jobPayload env.job) w.now.unix dead.marshal).of_mem hhold.mem
  exact ⟨1, db, hmove, htyped, hhold.remains_filed hstock _⟩

/-! ### What is stored -/

/-- A marked job as it is stored elsewhere: the arguments are those of its payload. -/
def storedJob (job j : Job) (f : JobFinalization) : Job :=
  { markedJob job j f with finalization := none, args := j.args, encrypted := j.encrypted }

theorem durableJobPayload_marked {j : Job} (hread : unmarshalJob p = some j) (f : JobFinalization)
    (hplain : j.encrypted = false → job.args = j.args ∧ job.encrypted = false) :
    durableJobPayload (markedJob job j f) = some (storedJob job j f) := by
  have hraw : (markedJob job j f).raw ≠ "" := marshal_ne_empty _
  have hmarked : unmarshalJob (markedJob job j f).raw =
      some { j with finalization := some f, raw := "" } := unmarshalJob_mark hread (some f)
  rw [durableJobPayload, if_neg hraw, hmarked, storedJob]
  cases hencrypted : j.encrypted with
  | true => simp
  | false =>
    obtain ⟨hargs, hplain'⟩ := hplain hencrypted
    simp [markedJob, ← hargs, ← hplain']

theorem nextJob_marked (job : Job) {j : Job} (hread : unmarshalJob p = some j) (f : JobFinalization)
    (hplain : j.encrypted = false → job.args = j.args ∧ job.encrypted = false) :
    nextJob (markedJob job j f) =
      some { storedJob job j f with retryCount := job.retryCount + 1 } := by
  rw [nextJob, durableJobPayload_marked hread f hplain]
  rfl

theorem deadJob_marked (job : Job) {j : Job} (hread : unmarshalJob p = some j) (f : JobFinalization)
    (hplain : j.encrypted = false → job.args = j.args ∧ job.encrypted = false) (now : Time) :
    deadJob (markedJob job j f) now = some { storedJob job j f with failedAt := some now } := by
  rw [deadJob, durableJobPayload_marked hread f hplain]
  rfl

theorem retry_closure (hread : ∃ j, unmarshalJob p = some j) {next : Job}
    (hnext : nextJob job = some next) {t : Time} (ht : t.isZero = false) :
    Spends (closure w (.retry t)) (batchCost job + 1) (Hand w st p job)
      (fun _ => Shelved st .retry next.marshal) fun _ => True := by
  refine (updateBatchProgress_hand .failure).bind fun _ => ?_
  rw [if_neg (by rw [ht]; exact Bool.false_ne_true)]
  exact nackAt_hand hread hnext t

theorem kill_closure (hread : ∃ j, unmarshalJob p = some j) {dead : Job}
    (hdead : deadJob job w.now = some dead) (error : String) :
    Spends (closure w (.kill error)) (batchCost job + (callbackCost job + 1)) (Hand w st p job)
      (fun _ => Shelved st .dead dead.marshal) fun _ => True :=
  (updateBatchProgress_hand .death).bind fun _ =>
    handleBatchCallbackComplete_hand.bind fun _ => moveToDead_hand hread hdead

theorem finalizeRound_hand {op : Operation} {j : Job} {n : ℕ} {Q : Env → Prop}
    (hread : unmarshalJob p = some j) (hunmarked : job.finalization = none)
    (hclosure : Spends (closure w op) n
      (Hand w st (markedPayload j op.finalization) (markedJob job j op.finalization))
      (fun _ => Q) fun _ => True) :
    Spends (finalizeRound w op) (1 + n) (Hand w st p job) (fun _ => Q) fun _ => True := by
  refine Spends.reads_bind_of_eq (fun env h => h.job_eq) ?_
  rw [if_pos hunmarked]
  exact (markFinalization_hand hread op.finalization).bind fun _ => hclosure

end Hand

/-! ### From the verdict to the sorted set -/

/-- What the next attempt has of the one before: everything but the count. -/
structure Job.Continues (j next : Job) : Prop where
  id : next.id = j.id
  queue : next.queue = j.queue
  retry : next.retry = j.retry
  uniqueTTL : next.uniqueTTL = j.uniqueTTL
  args : next.args = j.args
  unmarked : next.finalization = none

section Outcome

variable {w : Setting} {st : Stock} {p : String} {j : Job} {env : Env}

theorem finalizeJob_of_round {op : Operation} {n : ℕ} {P Q : Env → Prop}
    (h : Spends (finalizeRound w op) n P (fun _ => Q) fun _ => True) (hP : P env) (rounds : ℕ) :
    ∃ env' live, finalizeJob w (rounds + 1) ⟨env, none⟩ op = (.finished (), ⟨env', live⟩) ∧
      Q env' := by
  obtain ⟨-, a, env', hrun, hQ⟩ | ⟨hshort, -⟩ := h.persist ⟨env, none⟩ hP rounds
  · exact ⟨env', _, hrun, hQ⟩
  · exact absurd (Scope.affords_of_none rfl) hshort

/-- **A failing job that is to be retried** is stored in the retry set, as it was fetched, with a
higher count. -/
theorem retryJobAfter_shelves {job : Job} (h : Hand w st p job env)
    (hread : unmarshalJob p = some j)
    (hunmarked : job.finalization = none)
    (hplain : j.encrypted = false → job.args = j.args ∧ job.encrypted = false)
    {delay : ℤ} (hdelay : 0 < delay) (rounds : ℕ) :
    ∃ env' live f, retryJobAfter w (rounds + 1) ⟨env, none⟩ delay = (.finished (), ⟨env', live⟩) ∧
      Shelved st .retry
        ({ storedJob job j f with retryCount := job.retryCount + 1 } : Job).marshal env' := by
  obtain ⟨env', live, hrun, hshelved⟩ := finalizeJob_of_round
    (finalizeRound_hand hread hunmarked (retry_closure
      (markedPayload_readable hread (Operation.retry (w.later delay)).finalization)
      (nextJob_marked job hread _ hplain) (w.later_isZero delay hdelay))) h rounds
  refine ⟨env', live, _, ?_, hshelved⟩
  rw [retryJobAfter, if_pos hdelay]
  exact hrun

/-- **A failing job that is not to be retried** is stored in the dead set, with its error. -/
theorem kill_shelves {job : Job} (h : Hand w st p job env) (hread : unmarshalJob p = some j)
    (hunmarked : job.finalization = none)
    (hplain : j.encrypted = false → job.args = j.args ∧ job.encrypted = false)
    (error : String) (rounds : ℕ) :
    ∃ env' live f, finalizeJob w (rounds + 1) ⟨env, none⟩ (.kill error) =
        (.finished (), ⟨env', live⟩) ∧
      Shelved st .dead ({ storedJob job j f with failedAt := some w.now } : Job).marshal env' := by
  obtain ⟨env', live, hrun, hshelved⟩ := finalizeJob_of_round
    (finalizeRound_hand hread hunmarked (kill_closure
      (markedPayload_readable hread (Operation.kill error).finalization)
      (deadJob_marked job hread _ hplain w.now) error)) h rounds
  exact ⟨env', live, _, hrun, hshelved⟩

theorem Shelved.release {k : Key} {q : String} (h : Shelved st k q env) (queue : String) :
    Shelved st k q (env.release w queue) where
  typed := by
    unfold Env.release
    split
    · change WellTyped ((releaseSequentialLock queue w.worker).run env.db).db
      rw [run_releaseSequentialLock h.typed]
      split
      · exact h.typed.del _
      · exact h.typed
    · exact h.typed
  remains k' := by
    rw [(stock_release env queue).1]
    exact h.remains k'

theorem processFetched_of_unmarked (w : Setting) (handler : Handler) (rounds : ℕ)
    (hnone : env.job.finalization = none) :
    processFetched w rounds ⟨env, none⟩ handler =
      carryOut w rounds ⟨{ env with job := (handler.run env.job).job }, none⟩
        (verdict (handler.run env.job).job (handler.run env.job).error
          (handler.run env.job).judgedBy (handler.run env.job).iterable) := by
  obtain ⟨member, env', hverify, rfl⟩ :=
    (verifyBatch_spends env).enough ⟨env, none⟩ rfl (Scope.affords_of_none rfl)
  simp only [processFetched, hnone, hverify, handleJobResult_eq]
  rfl

def Job.readFrom (j : Job) (p : String) : Job := { j with raw := p }

/-- **One attempt.** A job that was fetched and fails is in the retry set as long as its limit is
not reached, and in the dead set after that. -/
theorem processJob_failing {handler : Handler} (hfail : Failing handler opts)
    (hread : unmarshalJob p = some j) (hunmarked : j.finalization = none)
    (h : Hand w st p (j.readFrom p) env) (rounds : ℕ) :
    (j.retryCount < retryLimit j opts ∧ ∃ next, j.Continues next ∧
      next.retryCount = j.retryCount + 1 ∧
      Shelved st .retry next.marshal (processJob w (rounds + 1) ⟨env, none⟩ handler).2.state) ∨
    (retryLimit j opts ≤ j.retryCount ∧ ∃ dead : Job, dead.id = j.id ∧
      Shelved st .dead dead.marshal (processJob w (rounds + 1) ⟨env, none⟩ handler).2.state) := by
  obtain ⟨processedAt, args, encrypted, hjob, hplain⟩ := hfail.leaves (j.readFrom p)
  have hraw : p ≠ "" := @raw_ne_empty (j.readFrom p) ⟨j, hread⟩
  have hfin : (handler.run (j.readFrom p)).job.finalization = none :=
    (handler.finalization_run _).trans hunmarked
  have hrun : (handler.run (j.readFrom p)).job.raw = p := handler.raw_run _
  have hargs : j.encrypted = false → (handler.run (j.readFrom p)).job.args = j.args ∧
      (handler.run (j.readFrom p)).job.encrypted = false := by
    rw [hjob]
    exact hplain
  have hnone : env.job.finalization = none := by rw [h.job_eq]; exact hunmarked
  have hprocess := processFetched_of_unmarked w handler (rounds + 1) hnone
  rw [h.job_eq] at hprocess
  -- whatever the handler and a kill write into the job, its payload is the one in flight
  have hhand : ∀ job : Job, job.raw = p → Hand w st p job { env with job := job } := by
    intro job hsame
    refine ⟨h.typed, h.stored, rfl, ?_⟩
    rw [jobPayload, hsame, if_pos hraw]
  rcases verdict_of_failing hfail (j.readFrom p) with ⟨hlt, hv⟩ | ⟨hle, error, hv⟩
  · obtain ⟨env', live, f, hout, hshelved⟩ := retryJobAfter_shelves (hhand _ hrun) hread hfin hargs
      (defaultBackoff_pos (j.readFrom p).retryCount) rounds
    have hstate : (processJob w (rounds + 1) ⟨env, none⟩ handler).2.state =
        env'.release w env.job.queue := by
      rw [processJob, hprocess, hv, carryOut, hout]
    rw [hstate]
    refine Or.inl ⟨hlt, _, ?_, ?_, hshelved.release env.job.queue⟩
    · rw [hjob]
      exact ⟨rfl, rfl, rfl, rfl, rfl, rfl⟩
    · rw [hjob]
      rfl
  · obtain ⟨env', live, f, hout, hshelved⟩ := kill_shelves
      (hhand { (handler.run (j.readFrom p)).job with error := error } hrun) hread hfin hargs error
      rounds
    have hstate : (processJob w (rounds + 1) ⟨env, none⟩ handler).2.state =
        env'.release w env.job.queue := by
      rw [processJob, hprocess, hv, carryOut, killJob, hout]
    rw [hstate]
    refine Or.inr ⟨hle, _, ?_, hshelved.release env.job.queue⟩
    change (handler.run (j.readFrom p)).job.id = j.id
    rw [hjob]
    rfl

end Outcome

end Senna
