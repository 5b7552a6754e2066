import Senna.Backoff
import Senna.Worker.Result.Settle

/-!
# Which jobs are kept, and which are finished at shutdown

Two guarantees of `processJob` and `handleJobResult`, with exactly the condition each holds
under.

**A failing job is kept**, in the retry set, the dead set or a queue, if and only if it is not
retried without a delay. `retryJob` sends a delay that is not positive to `Nack`, which runs
`ack_job`: the job is taken out of flight and stored nowhere, and its batch, which was told of a
failure and not of a death, waits for it for ever. The default backoff never is such a delay
(`defaultBackoff_pos`), but a `RetryableError` or a registered backoff function can be.

**A job is finished at shutdown** if and only if the context is not done before the last command.
The commands after the handler are issued under the worker's own context, so a worker that is
stopped while a handler runs leaves the job in flight, although the handler has returned.

Both conditions are for one job and one outcome, and for all states of Redis in which the job
is in flight.
-/

namespace Senna

open Redis Proc

/-! ### Backoff -/

theorem defaultBackoff_pos (attempt : ℤ) : 0 < defaultBackoff attempt :=
  lt_of_lt_of_le (by decide) (le_defaultBackoff attempt)

/-! ### A job that was fetched -/

/-- The job of a worker is in flight: its payload stands in the worker's list, and was read. -/
structure Fetched (w : Setting) (env : Env) : Prop where
  typed : WellTyped env.db
  inFlight : env.job.raw ∈ env.db.list (.inFlight w.worker)
  readable : ∃ j, unmarshalJob env.job.raw = some j

section Fetched

variable {w : Setting} {env : Env}

theorem raw_ne_empty {job : Job} (h : ∃ j, unmarshalJob job.raw = some j) : job.raw ≠ "" := by
  intro hraw
  obtain ⟨j, hj⟩ := h
  have hparse : Json.parse "" = none := by decide
  rw [hraw, unmarshalJob, hparse] at hj
  cases hj

theorem Fetched.holding (h : Fetched w env) :
    Holding w ((stock env.db).take (.inFlight w.worker) env.job.raw) env.job env := by
  have hpayload : jobPayload env.job = env.job.raw := if_pos (raw_ne_empty h.readable)
  refine ⟨h.typed, fun k => ?_, hpayload.symm ▸ h.readable, rfl⟩
  rw [hpayload, Stock.stored_put, Stock.stored_take, Stock.stored_take]
  by_cases hk : k = .inFlight w.worker
  · rw [if_pos hk, if_pos rfl, hk]
    exact (Multiset.cons_erase (Multiset.mem_coe.mpr h.inFlight)).symm
  · rw [if_neg hk, if_neg hk]

def alone (worker : String) (job : Job) : Env where
  db := Db.putList (fun _ => none) (.inFlight worker) [job.raw]
  batches := fun _ => none
  callbackJobs := []
  job := job

theorem fetched_alone (w : Setting) {job : Job} (h : ∃ j, unmarshalJob job.raw = some j) :
    Fetched w (alone w.worker job) where
  typed := by
    have hempty : WellTyped (fun _ : Key => none) := fun _ => Or.inl rfl
    exact hempty.putList rfl _
  inFlight := by simp [alone]
  readable := h

theorem stored_take_alone (worker : String) (job : Job) (k : Key) :
    ((stock (alone worker job).db).take (.inFlight worker) job.raw).stored k = 0 := by
  have hnone : ∀ k, (stock (fun _ : Key => none)).stored k = 0 := by
    intro k
    change payloadsOf k none = 0
    unfold payloadsOf
    split <;> rfl
  have hstock : stock (alone worker job).db =
      (stock fun _ : Key => none).fill (.inFlight worker) [job.raw] := stock_putList _ rfl _
  rw [hstock, Stock.stored_take, Stock.stored_fill, Stock.stored_fill, if_pos rfl, hnone]
  split
  · simp
  · rfl

end Fetched

/-! ### What a verdict leaves -/

namespace Verdict

def Stored (job : Job) (env : Env) : Verdict → Prop
  | .complete => True
  | .interrupted => ∃ j : Job, j.id = job.id ∧ j.finalization = none ∧
      j.marshal ∈ (stock env.db).stored (.queue job.queue)
  | .retry _ | .retryAt _ => ∃ next : Job, next.id = job.id ∧
      next.retryCount = job.retryCount + 1 ∧ next.finalization = none ∧
      next.marshal ∈ (stock env.db).stored .retry
  | .kill error => ∃ dead : Job, dead.id = job.id ∧ dead.error = error ∧
      dead.finalization = none ∧ dead.marshal ∈ (stock env.db).stored .dead

variable {w : Setting} {st : Stock} {job : Job} {env : Env} {v : Verdict}

theorem left_of_remains {st' : Stock} {worker : String} (h : Remains st' env)
    (hst : st'.stored (.inFlight worker) = st.stored (.inFlight worker)) :
    (stock env.db).stored (.inFlight worker) = st.stored (.inFlight worker) :=
  (h _).trans hst

section

variable (h : v.Filed w st job env)

include h

theorem Filed.left (worker : String) :
    (stock env.db).stored (.inFlight worker) = st.stored (.inFlight worker) := by
  unfold Filed at h
  split at h
  · next op _ =>
    cases op with
    | complete => exact h _
    | retry t =>
      simp only [FiledAs] at h
      split at h
      · exact h _
      · obtain ⟨next, -, -, -, h⟩ := h
        exact left_of_remains h (by simp)
    | kill error =>
      obtain ⟨dead, -, -, -, h⟩ := h
      exact left_of_remains h (by simp)
  · obtain ⟨durable, -, -, h⟩ := h
    exact left_of_remains h (by simp)

theorem Filed.congr {env' : Env} (hstock : stock env'.db = stock env.db) :
    v.Filed w st job env' := by
  unfold Filed FiledAs Requeued Remains at h ⊢
  rw [hstock]
  exact h

theorem Filed.next {t : Time} (hop : v.operation w = some (.retry t))
    (ht : t.isZero = false) :
    ∃ next : Job, next.id = job.id ∧ next.retryCount = job.retryCount + 1 ∧
      next.finalization = none ∧ next.marshal ∈ (stock env.db).stored .retry := by
  simp only [Filed, hop, FiledAs, ht] at h
  obtain ⟨next, hid, hcount, hfin, h⟩ := h
  exact ⟨next, hid, hcount, hfin, by rw [h]; simp⟩

theorem Filed.stored (hv : v.Stores) : v.Stored job env := by
  cases v with
  | complete => trivial
  | interrupted =>
    obtain ⟨durable, hid, hfin, h⟩ := h
    exact ⟨durable, hid, hfin, by rw [h]; simp⟩
  | retry retryIn =>
    have hpos : 0 < retryIn := hv
    exact h.next (by rw [operation, if_pos hpos]) (w.later_isZero retryIn hpos)
  | retryAt t => exact h.next rfl hv
  | kill error =>
    obtain ⟨dead, hid, herror, hfin, h⟩ := h
    exact ⟨dead, hid, herror, hfin, by rw [h]; simp⟩

theorem Filed.remains (hv : ¬ v.Stores) : Remains st env := by
  cases v with
  | retry retryIn =>
    have hpos : ¬ 0 < retryIn := hv
    simp only [Filed, operation, if_neg hpos, FiledAs, Time.isZero_zero, if_true] at h
    exact h
  | retryAt t =>
    have hzero : t.isZero = true := (Bool.not_eq_false _).mp hv
    simp only [Filed, operation, FiledAs, hzero, if_true] at h
    exact h
  | complete | interrupted | kill error => exact absurd trivial hv

end

theorem not_stored_of_empty (hv : ¬ v.Stores) (h : ∀ k, (stock env.db).stored k = 0) :
    ¬ v.Stored job env := by
  have hretry : ∀ p, p ∉ (stock env.db).stored .retry := fun p hp => by rw [h] at hp; cases hp
  cases v with
  | retry retryIn | retryAt t => exact fun ⟨_, _, _, _, hmem⟩ => hretry _ hmem
  | complete | interrupted | kill error => exact absurd trivial hv

end Verdict

/-! ### Failing jobs -/

def HasCopy (job : Job) (env : Env) : Prop :=
  ∃ k p, (k = .retry ∨ k = .dead ∨ ∃ q, k = .queue q) ∧ p ∈ (stock env.db).stored k ∧
    payloadID p = some job.id

/-- A failing job is not lost, and nobody waits for a lost one. -/
structure KeptSomewhere (job : Job) (env : Env) : Prop where
  stored : HasCopy job env
  /-- A batch that waits for the job waits for something that exists. -/
  awaited : ∀ b ∈ env.batches job.batchID, job.id ∈ b.jobs → HasCopy job env

theorem Verdict.Stored.hasCopy {job : Job} {env : Env} {v : Verdict} (h : v.Stored job env)
    (hv : v ≠ .complete) : HasCopy job env := by
  have hid : ∀ j : Job, j.id = job.id → payloadID j.marshal = some job.id := by
    intro j hj
    rw [payloadID_marshal, hj]
  cases v with
  | complete => exact absurd rfl hv
  | interrupted =>
    obtain ⟨j, hj, -, hmem⟩ := h
    exact ⟨.queue job.queue, _, Or.inr (Or.inr ⟨_, rfl⟩), hmem, hid j hj⟩
  | retry retryIn | retryAt t =>
    obtain ⟨next, hnext, -, -, hmem⟩ := h
    exact ⟨.retry, _, Or.inl rfl, hmem, hid next hnext⟩
  | kill error =>
    obtain ⟨dead, hdead, -, -, hmem⟩ := h
    exact ⟨.dead, _, Or.inr (Or.inl rfl), hmem, hid dead hdead⟩

theorem verdict_of_error (job : Job) (err : HandlerError) (opts : Option JobOptions)
    (iterable : Bool) :
    verdict job (some err) opts iterable = .interrupted ∨
      (∃ delay, verdict job (some err) opts iterable = .retry delay) ∨
      ∃ error, verdict job (some err) opts iterable = .kill error := by
  unfold verdict
  dsimp only
  split
  · exact Or.inl rfl
  split
  · exact Or.inr (Or.inl ⟨_, rfl⟩)
  split
  · exact Or.inr (Or.inr ⟨_, rfl⟩)
  split
  · exact Or.inr (Or.inl ⟨_, rfl⟩)
  · exact Or.inr (Or.inr ⟨_, rfl⟩)

theorem stores_verdict_iff (job : Job) (err : HandlerError) (opts : Option JobOptions)
    (iterable : Bool) :
    (verdict job (some err) opts iterable).Stores ↔
      ∀ delay, verdict job (some err) opts iterable = .retry delay → 0 < delay := by
  obtain h | ⟨delay, h⟩ | ⟨error, h⟩ := verdict_of_error job err opts iterable
  · rw [h]
    exact ⟨fun _ _ => Verdict.noConfusion, fun _ => trivial⟩
  · rw [h]
    exact ⟨fun hpos _ hd => Verdict.retry.inj hd ▸ hpos, fun hall => hall delay rfl⟩
  · rw [h]
    exact ⟨fun _ _ => Verdict.noConfusion, fun _ => trivial⟩

theorem handleJobResult_finishes {w : Setting} {env : Env} (h : Fetched w env) (rounds : ℕ)
    (err : Option HandlerError) (opts : Option JobOptions) (iterable : Bool) :
    ∃ env' live,
      handleJobResult w (rounds + 1) ⟨env, none⟩ err opts iterable = (.finished (), ⟨env', live⟩) ∧
      (verdict env.job err opts iterable).Filed w
        ((stock env.db).take (.inFlight w.worker) env.job.raw) env.job env' := by
  rw [handleJobResult_eq]
  obtain ⟨-, env', live, hout, hfiled, -⟩ | ⟨hshort, -⟩ :=
    carryOut_ends (c := ⟨env, none⟩) h.holding (raw_ne_empty h.readable) rounds
      (verdict env.job err opts iterable)
  · exact ⟨env', live, hout, hfiled⟩
  · exact absurd (Scope.affords_of_none rfl) hshort

/-- **A failing job is kept exactly if it is not retried without a delay**, in every state of Redis
in which it is in flight, with all commands succeeding. -/
theorem failing_job_kept_iff (w : Setting) (rounds : ℕ) (job : Job)
    (hread : ∃ j, unmarshalJob job.raw = some j) (err : HandlerError) (opts : Option JobOptions)
    (iterable : Bool) :
    (∀ env, env.job = job → Fetched w env → ∃ env' live,
      handleJobResult w (rounds + 1) ⟨env, none⟩ (some err) opts iterable =
        (.finished (), ⟨env', live⟩) ∧ KeptSomewhere job env') ↔
      ∀ delay, verdict job (some err) opts iterable = .retry delay → 0 < delay := by
  have hcomplete : verdict job (some err) opts iterable ≠ .complete := by
    obtain h | ⟨_, h⟩ | ⟨_, h⟩ := verdict_of_error job err opts iterable <;> rw [h] <;>
      exact Verdict.noConfusion
  rw [← stores_verdict_iff]
  constructor
  · -- if the job is alone in Redis, a verdict that does not store it leaves nothing at all
    intro hkept
    by_contra hv
    obtain ⟨env', live, hout, hcopy⟩ := hkept _ rfl (fetched_alone w hread)
    obtain ⟨env'', live', hout', hfiled⟩ :=
      handleJobResult_finishes (fetched_alone w hread) rounds (some err) opts iterable
    obtain ⟨rfl, -⟩ := Scope.mk.inj (Prod.mk.inj (hout.symm.trans hout')).2
    obtain ⟨k, p, -, hp, -⟩ := hcopy.stored
    rw [hfiled.remains hv k] at hp
    exact Multiset.notMem_zero p ((stored_take_alone w.worker job k).subst hp)
  · rintro hv env rfl hfetched
    obtain ⟨env', live, hout, hfiled⟩ :=
      handleJobResult_finishes hfetched rounds (some err) opts iterable
    have hcopy := (hfiled.stored hv).hasCopy hcomplete
    exact ⟨env', live, hout, hcopy, fun _ _ _ => hcopy⟩

/-! ### An immediate retry -/

def Waits (jobID batchID : String) (env : Env) : Prop :=
  ∃ b ∈ env.batches batchID, jobID ∈ b.jobs

section Waits

variable {w : Setting} {jobID batchID : String}

theorem keeps_runScript {α : Type} {script : Job → Script Key α} {after : α → Job → Job} :
    (runScript script after).Keeps (Waits jobID batchID) := by
  refine Keeps.issue fun env h => ?_
  split <;> exact h

theorem keeps_markFinalization (f : JobFinalization) :
    (markFinalization w f).Keeps (Waits jobID batchID) := by
  refine Keeps.reads_bind fun job => ?_
  split
  · exact Keeps.fail
  · exact keeps_runScript

theorem keeps_recordFailure (hlevels : w.levels = 0) :
    (updateBatchProgress w .failure).Keeps (Waits jobID batchID) := by
  refine Keeps.reads_bind fun job => ?_
  split
  · exact Keeps.pure ()
  · refine Keeps.issue fun env ⟨b, hb, hmem⟩ => ?_
    rw [hlevels]
    change Waits jobID batchID (env.completeIn w job.id job.batchID .failure).1
    unfold Env.completeIn
    split
    · exact ⟨b, hb, hmem⟩
    · next b₀ hb₀ =>
      by_cases hid : batchID = job.batchID
      · subst hid
        obtain rfl := Option.some.inj (hb₀.symm.trans hb)
        refine ⟨_, Function.update_self _ _ _, ?_⟩
        by_cases hacc : Batch.Accepts job.id .failure b₀
        · rw [Batch.batchComplete_of_accepts _ hacc]
          exact hmem
        · obtain ⟨reply, heq, -⟩ := Batch.batchComplete_of_not_accepts w.now.text hacc
          rw [heq]
          exact hmem
      · exact ⟨b, (Function.update_of_ne hid _ _).trans hb, hmem⟩

theorem keeps_immediateRetry (hlevels : w.levels = 0) :
    (finalizeRound w (.retry .zero)).Keeps (Waits jobID batchID) := by
  have hclosure : (closure w (.retry .zero)).Keeps (Waits jobID batchID) := by
    refine (keeps_recordFailure hlevels).bind fun _ => ?_
    rw [if_pos Time.isZero_zero]
    exact keeps_runScript
  refine Keeps.reads_bind fun job => ?_
  split
  · exact (keeps_markFinalization _).bind fun _ => hclosure
  · exact hclosure

end Waits

def Setting.fixed (worker : String) : Setting where
  worker := worker
  sequential := fun _ => false
  now := ⟨"2024-01-01T00:00:00Z", by decide⟩
  redisNow := ⟨"2024-01-01T00:00:00Z", by decide⟩
  later := fun _ => ⟨"2024-01-01T00:00:00Z", by decide⟩
  later_isZero := fun _ _ => by decide
  levels := 0

def memberJob : Job :=
  let job : Job := { Job.plain "j" "default" with batchID := "b" }
  { job with raw := job.marshal }

theorem memberJob_readable : ∃ j, unmarshalJob memberJob.raw = some j := by
  have hzero : InInt64 0 := by decide
  exact ⟨_, @unmarshalJob_of_args_eq_none { Job.plain "j" "default" with batchID := "b" }
    rfl hzero hzero hzero⟩

def memberBatch : Batch :=
  Batch.batchEnqueueJobs ["j"] (Batch.storeBatchState
    (Batch.buildBatchState ⟨"b", "", ["j"], List.nodup_singleton "j", none, none, none⟩ "default"))

def memberEnv : Env :=
  { alone "w" memberJob with batches := fun id => if id = "b" then some memberBatch else none }

theorem memberEnv_fetched : Fetched (Setting.fixed "w") memberEnv :=
  { fetched_alone (Setting.fixed "w") memberJob_readable with }

def retryableError (delay : ℤ) : HandlerError where
  message := "retryable error"
  interrupted := false
  retryIn := some delay
  maxRetries := none

theorem failing_job_kept_iff_delayed : ∃ env' live,
    handleJobResult (Setting.fixed "w") 1 ⟨memberEnv, none⟩ (some (retryableError 1)) none false =
      (.finished (), ⟨env', live⟩) ∧ KeptSomewhere memberJob env' :=
  (failing_job_kept_iff (Setting.fixed "w") 0 memberJob memberJob_readable (retryableError 1) none
    false).mpr (fun _ hdelay => Verdict.retry.inj hdelay ▸ Int.one_pos) memberEnv rfl
    memberEnv_fetched

theorem handleJobResult_immediate (w : Setting) (rounds : ℕ) (c : Scope Env)
    (opts : Option JobOptions) :
    handleJobResult w rounds c (some (retryableError 0)) opts false =
      (finalizeRound w (.retry .zero)).persist rounds c := rfl

/-- **A job whose handler asks for a retry without a delay is gone**: nothing is stored anywhere,
and its batch waits for it. -/
theorem immediate_retry_vanishes : ∃ env' live,
    handleJobResult (Setting.fixed "w") 1 ⟨memberEnv, none⟩ (some (retryableError 0)) none false =
        (.finished (), ⟨env', live⟩) ∧
      (∀ k, (stock env'.db).stored k = 0) ∧ Waits "j" "b" env' := by
  rw [handleJobResult_immediate]
  have hmatch : (Operation.retry .zero).Matched memberEnv.job := fun _ => Operation.noConfusion
  have hwaits : Waits "j" "b" memberEnv := ⟨memberBatch, rfl, by decide⟩
  obtain ⟨-, a, env', hout, ⟨hfiled, -⟩, hstill⟩ | ⟨hshort, -⟩ :=
    ((finalizeRound_spends hmatch).and_keeps (keeps_immediateRetry rfl)).persist
      (⟨memberEnv, none⟩ : Scope Env) ⟨⟨memberEnv_fetched.holding, rfl⟩, hwaits⟩ 0
  · refine ⟨env', _, hout, fun k => ?_, hstill⟩
    have hremains : Remains _ env' := hfiled
    exact (hremains k).trans (stored_take_alone "w" memberJob k)
  · exact absurd (Scope.affords_of_none rfl) hshort

/-! ### Processing a job under a context -/

/-- What `processJob` is to do with a job that was fetched: the job as it is then, and the
verdict. -/
def plan (handler : Handler) (job : Job) : Job × Verdict :=
  match job.finalization with
  | some f => resumed job f
  | none =>
    let h := handler.run job
    (h.job, verdict h.job h.error h.judgedBy h.iterable)

/-- The commands `processJob` issues under the worker's context. A job with a marker is not
checked against its batch. -/
def planCommands (handler : Handler) (job : Job) : ℕ :=
  match job.finalization with
  | some _ => (plan handler job).2.commands (plan handler job).1
  | none => batchCost job + (plan handler job).2.commands (plan handler job).1

section Process

variable {w : Setting} {env : Env}

theorem verifyBatch_spends (env : Env) :
    Spends verifyBatch (batchCost env.job) (· = env) (fun _ env' => env' = env) (· = env) := by
  refine Spends.reads_bind fun job => ?_
  by_cases hjob : env.job = job
  · subst hjob
    unfold batchCost
    split
    · exact Spends.pure fun _ h => h.1
    · exact Spends.issue (fun env' h => ⟨_, env', rfl, h.1⟩) fun _ h => h.1
  · exact Spends.of_false fun env' ⟨henv, hjob'⟩ => hjob (henv ▸ hjob')

theorem closureCost_pos (job : Job) (op : Operation) : 0 < closureCost job op := by
  cases op <;> exact Nat.succ_pos _

theorem roundCost_pos (job : Job) (op : Operation) : 0 < roundCost job op := by
  unfold roundCost
  split
  · exact Nat.add_pos_left Nat.one_pos _
  · exact closureCost_pos job op

theorem Verdict.commands_pos {v : Verdict} (hv : v ≠ .interrupted) (job : Job) :
    0 < v.commands job := by
  cases v with
  | interrupted => exact absurd rfl hv
  | retry retryIn =>
    simp only [Verdict.commands]
    split
    · exact Nat.add_pos_left Nat.one_pos _
    · exact roundCost_pos _ _
  | complete | retryAt t | kill error => exact roundCost_pos _ _

theorem verdict_ne_interrupted (job : Job) (err : HandlerError) (opts : Option JobOptions) :
    verdict job (some err) opts false ≠ .interrupted := by
  unfold verdict
  simp only [Bool.false_eq_true, false_and, if_false]
  split
  · exact Verdict.noConfusion
  split
  · exact Verdict.noConfusion
  split <;> exact Verdict.noConfusion

theorem raw_resumed (job : Job) (f : JobFinalization) : (resumed job f).1.raw = job.raw := by
  unfold resumed
  split
  · rfl
  split
  · rfl
  split <;> rfl

/-- **Processing a job.** With as many commands as the plan takes, the job ends as planned; with
fewer, it is left in flight. -/
theorem processFetched_ends (h : Fetched w env) (live : Option ℕ) (rounds : ℕ)
    (handler : Handler) :
    Ends w ((stock env.db).take (.inFlight w.worker) env.job.raw) ⟨env, live⟩
      (planCommands handler env.job) (processFetched w (rounds + 1) ⟨env, live⟩ handler)
      (fun env' => (plan handler env.job).2.Filed w
          ((stock env.db).take (.inFlight w.worker) env.job.raw) (plan handler env.job).1 env' ∧
        (plan handler env.job).2.Recorded w (plan handler env.job).1 env') := by
  have hraw : env.job.raw ≠ "" := raw_ne_empty h.readable
  cases hfin : env.job.finalization with
  | some f =>
    simp only [processFetched, planCommands, plan, hfin, resumeFinalizedJob_eq]
    have hends := carryOut_ends (c := ⟨{ env with job := (resumed env.job f).1 }, live⟩)
      (h.holding.change hraw (raw_resumed _ _)) ((raw_resumed _ _).symm ▸ hraw) rounds
      (resumed env.job f).2
    exact hends
  | none =>
    by_cases hverify : (⟨env, live⟩ : Scope Env).Affords (batchCost env.job)
    · -- the check goes through, and the rest is up to the verdict on the handler's result
      obtain ⟨member, env', hrun, henv'⟩ := (verifyBatch_spends env).enough ⟨env, live⟩ rfl hverify
      subst henv'
      simp only [processFetched, planCommands, plan, hfin, hrun, Scope.spend, handleJobResult_eq]
      have hends := carryOut_ends
        (c := ⟨{ env' with job := (handler.run env'.job).job }, live.map (· - batchCost env'.job)⟩)
        (h.holding.change hraw (handler.raw_run _)) ((handler.raw_run _).symm ▸ hraw) rounds
        (verdict (handler.run env'.job).job (handler.run env'.job).error
          (handler.run env'.job).judgedBy (handler.run env'.job).iterable)
      obtain ⟨hrest, out⟩ | ⟨hrest, out⟩ := hends
      · exact Or.inl ⟨Scope.affords_add (s := env').mpr ⟨hverify, hrest⟩, out⟩
      · exact Or.inr ⟨fun hall => hrest (Scope.affords_add (s := env').mp hall).2, out⟩
    · -- the check fails, and the error it makes cannot be dealt with either
      obtain ⟨env', hrun, henv'⟩ := (verifyBatch_spends env).short ⟨env, live⟩ rfl hverify
      subst henv'
      obtain ⟨n, hn⟩ : ∃ n, planCommands handler env'.job = batchCost env'.job + n :=
        ⟨_, by rw [planCommands, hfin]⟩
      simp only [processFetched, hfin, hrun, handleJobResult_eq, hn]
      refine Or.inr ⟨fun hall => hverify (Scope.affords_add (s := env').mp hall).1, ?_⟩
      have hnot := verdict_ne_interrupted env'.job (verifyError env'.job) none
      obtain ⟨hall, -⟩ | ⟨-, out⟩ := carryOut_ends (c := ⟨env', some 0⟩) h.holding hraw rounds
        (verdict env'.job (some (verifyError env'.job)) none false)
      · exact absurd (hall 0 rfl) (Nat.not_le_of_lt (Verdict.commands_pos hnot _))
      · exact out

theorem stock_release (env : Env) (queue : String) :
    stock (env.release w queue).db = stock env.db ∧ (env.release w queue).batches = env.batches := by
  unfold Env.release
  split
  · refine ⟨?_, rfl⟩
    change stock ((releaseSequentialLock queue w.worker).run env.db).db = _
    -- whatever stands at the key of the lock, no other key is written
    have hget : ∀ holder : Option String,
        stock ((if holder = some w.worker then do
          del (.sequentialLock queue)
          pure 1
        else pure 0 : Script Key ℕ).run env.db).db = stock env.db := by
      intro holder
      split
      · exact stock_lock env.db queue none
      · rfl
    unfold releaseSequentialLock
    rw [Script.run_bind]
    rcases hk : env.db (.sequentialLock queue) with _ | (s | _ | _ | _ | _) <;>
      simp only [Redis.get, Script.run, Script.onString, hk]
    · exact hget none
    · exact hget (some s)
    all_goals rfl
  · exact ⟨rfl, rfl⟩

variable (w) in
/-- A job is finished: its payload has left the in-flight list, its batch knows the result, and it
is stored unless it is complete. What its handler has left goes by the same names. -/
structure Settled (before after : Env) (job : Job) (v : Verdict) : Prop where
  names : job.id = before.job.id ∧ job.batchID = before.job.batchID
  left : (after.db.list (.inFlight w.worker)).Perm
    ((before.db.list (.inFlight w.worker)).erase before.job.raw)
  recorded : v.Recorded w job after
  stored : v.Stored job after

theorem processJob_cases (h : Fetched w env) (live : Option ℕ) (rounds : ℕ) (handler : Handler) :
    ((∀ k ∈ live, planCommands handler env.job ≤ k) ∧
      (processJob w (rounds + 1) ⟨env, live⟩ handler).1 = .finished () ∧
      (plan handler env.job).2.Filed w ((stock env.db).take (.inFlight w.worker) env.job.raw)
        (plan handler env.job).1 (processJob w (rounds + 1) ⟨env, live⟩ handler).2.state ∧
      (plan handler env.job).2.Recorded w (plan handler env.job).1
        (processJob w (rounds + 1) ⟨env, live⟩ handler).2.state) ∨
    ((¬ ∀ k ∈ live, planCommands handler env.job ≤ k) ∧
      (processJob w (rounds + 1) ⟨env, live⟩ handler).1 = .abandoned ∧
      Anchored w ((stock env.db).take (.inFlight w.worker) env.job.raw)
        (processJob w (rounds + 1) ⟨env, live⟩ handler).2.state) := by
  have hends := processFetched_ends h live rounds handler
  obtain ⟨haffords, env', live', hout, hfiled, hrecorded⟩ | ⟨hshort, env', hout, hanchored⟩ := hends
  · obtain ⟨hstock, hbatches⟩ := stock_release (w := w) env' env.job.queue
    refine Or.inl ⟨haffords, ?_, ?_, ?_⟩ <;> simp only [processJob, hout]
    · exact hfiled.congr hstock
    · exact fun op hop hne => hbatches ▸ hrecorded op hop hne
  · obtain ⟨hstock, -⟩ := stock_release (w := w) env' env.job.queue
    refine Or.inr ⟨hshort, ?_, ?_⟩ <;> simp only [processJob, hout]
    obtain ⟨p, hp⟩ := hanchored
    exact ⟨p, hstock ▸ hp⟩

theorem abandoned_of_short (h : Fetched w env) {handler : Handler} {k : ℕ}
    (hshort : k < planCommands handler env.job) (rounds : ℕ) :
    (processJob w (rounds + 1) ⟨env, some k⟩ handler).1 = .abandoned ∧
      (processJob w (rounds + 1) ⟨env, some k⟩ handler).2.state.db.list
        (.inFlight w.worker) ≠ [] := by
  obtain ⟨hlive, -⟩ | ⟨-, hexit, p, hp⟩ := processJob_cases h (some k) rounds handler
  · exact absurd (hlive k rfl) (Nat.not_le_of_lt hshort)
  · refine ⟨hexit, fun hnil => ?_⟩
    rw [stored_inFlight, hnil] at hp
    exact Multiset.cons_ne_zero hp.symm

/-- **A job is finished exactly if the context is not done before the last command**, and if the
verdict stores it and the handler does not give it another ID or batch: in every state of Redis in
which the job is in flight, whenever the context is cancelled. -/
theorem processJob_settles_iff (w : Setting) (rounds : ℕ) (handler : Handler) (job : Job)
    (hread : ∃ j, unmarshalJob job.raw = some j) (live : Option ℕ) :
    (∀ env, env.job = job → Fetched w env →
      (processJob w (rounds + 1) ⟨env, live⟩ handler).1 ≠ .spinning ∧
        Settled w env (processJob w (rounds + 1) ⟨env, live⟩ handler).2.state
          (plan handler job).1 (plan handler job).2) ↔
      ((plan handler job).1.id = job.id ∧ (plan handler job).1.batchID = job.batchID) ∧
        (plan handler job).2.Stores ∧ ∀ k ∈ live, planCommands handler job ≤ k := by
  constructor
  · intro hall
    have hfetched := fetched_alone w hread
    obtain ⟨-, hsettled⟩ := hall _ rfl hfetched
    obtain ⟨haffords, -, hfiled, -⟩ | ⟨-, -, p, hp⟩ := processJob_cases hfetched live rounds handler
    · refine ⟨hsettled.names, ?_, haffords⟩
      by_contra hv
      refine Verdict.not_stored_of_empty hv (fun k => ?_) hsettled.stored
      exact (hfiled.remains hv k).trans (stored_take_alone w.worker job k)
    · -- something is still in flight, but the job was alone
      have hleft := Multiset.coe_eq_coe.mpr hsettled.left
      rw [Stock.stored_take, if_pos rfl, stored_inFlight, stored_inFlight, Multiset.coe_erase] at hp
      exact absurd (congrArg Multiset.card (hp.symm.trans hleft)) (by simp)
  · rintro ⟨hnames, hv, hlive⟩ env rfl hfetched
    obtain ⟨-, hexit, hfiled, hrecorded⟩ | ⟨hshort, -⟩ :=
      processJob_cases hfetched live rounds handler
    · refine ⟨hexit ▸ nofun, hnames, ?_, hrecorded, hfiled.stored hv⟩
      have hleft := hfiled.left w.worker
      rw [Stock.stored_take, if_pos rfl, stored_inFlight, stored_inFlight,
        Multiset.coe_erase] at hleft
      exact Multiset.coe_eq_coe.mp hleft
    · exact absurd hlive hshort

end Process

def Handler.succeeding : Handler where
  run job := ⟨job, none, none, false⟩
  raw_run _ := rfl
  finalization_run _ := rfl

theorem planCommands_memberJob : planCommands .succeeding memberJob = 4 := rfl

theorem processJob_settles_iff_fourCommands :
    Settled (Setting.fixed "w") memberEnv
      (processJob (Setting.fixed "w") 1 ⟨memberEnv, some 4⟩ .succeeding).2.state
      (plan .succeeding memberJob).1 (plan .succeeding memberJob).2 := by
  have hlive : ∀ k ∈ some 4, planCommands .succeeding memberJob ≤ k := by
    intro k hk
    rw [planCommands_memberJob]
    exact Nat.le_of_eq (Option.some.inj hk)
  have hstores : (plan .succeeding memberJob).2.Stores := trivial
  have hjob : memberEnv.job = memberJob := rfl
  have hsettles := (processJob_settles_iff (Setting.fixed "w") 0 .succeeding memberJob
    memberJob_readable (some 4)).mpr ⟨⟨rfl, rfl⟩, hstores, hlive⟩
  have hsettled := (hsettles memberEnv hjob memberEnv_fetched).2
  rw [Nat.zero_add] at hsettled
  exact hsettled

/-- **A worker that is stopped while a handler runs leaves the job in flight**: after the check of
the batch the context is done, the handler succeeds, and `processJob` returns. -/
theorem stopped_worker_abandons :
    (processJob (Setting.fixed "w") 1 ⟨memberEnv, some 1⟩ .succeeding).1 = .abandoned ∧
      (processJob (Setting.fixed "w") 1 ⟨memberEnv, some 1⟩ .succeeding).2.state.db.list
        (.inFlight "w") ≠ [] := by
  have hshort : 1 < planCommands .succeeding memberEnv.job := by
    have hcommands : planCommands .succeeding memberEnv.job = 4 := planCommands_memberJob
    rw [hcommands]
    decide
  have habandoned := abandoned_of_short memberEnv_fetched hshort 0
  rw [Nat.zero_add] at habandoned
  exact habandoned

end Senna
