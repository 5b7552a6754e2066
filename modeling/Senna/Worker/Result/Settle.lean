import Senna.Job.Normal
import Senna.Worker.Result

/-!
# What each command of a worker leaves

The specifications of the commands of `Worker.Result`, in the terms of `Proc.Spends`: how many
Redis commands each part of `processJob` takes, what it leaves when they all go through, and what
it leaves when the context is done before the last of them.

**One view.** `Holding` is the situation from the fetch to the last script: the job's payload is in
flight, on top of a view `st` of everything else. Every part but the last keeps it. The last one
takes the payload away and files the job where it belongs (`FiledAs`), so that what remains is
again said in terms of `st`.

**Failure.** When a command fails, what is left is weaker but still the point: something is in
flight on top of the rest (`Anchored`), so the in-flight list has not lost the job.

**Verdicts.** What `handleJobResult` and `resumeFinalizedJob` decide is a `Verdict`, and
`carryOut` acts on it. `carryOut_spec` is the result that everything about `processJob` follows
from.
-/

namespace Senna

open Redis Proc

/-! ### Recording progress -/

namespace Batch

/-- The batch knows of the result of a job: it does not wait for it any more, or has counted
its failure. -/
def Knows (result : Result) (jobID : String) (b : Batch) : Prop :=
  if result.removes then jobID ∉ b.jobs else jobID ∈ b.jobs → jobID ∈ b.failed

theorem batchComplete_shrinks (jobID : String) (result : Result) (b : Batch) (now : String) :
    (batchComplete jobID result b now).batch.jobs ⊆ b.jobs ∧
      b.failed ⊆ (batchComplete jobID result b now).batch.failed := by
  by_cases hacc : Accepts jobID result b
  · rw [batchComplete_of_accepts now hacc]
    simp only [record, batchAfter]
    constructor
    · split
      · exact Finset.erase_subset _ _
      · exact Finset.Subset.refl _
    · split
      · exact Finset.subset_insert _ _
      · exact Finset.Subset.refl _
  · obtain ⟨reply, heq, -⟩ := batchComplete_of_not_accepts now hacc
    rw [heq]
    exact ⟨Finset.Subset.refl _, Finset.Subset.refl _⟩

theorem Knows.mono {result : Result} {jobID : String} {b b' : Batch} (h : Knows result jobID b)
    (hjobs : b'.jobs ⊆ b.jobs) (hfailed : b.failed ⊆ b'.failed) : Knows result jobID b' := by
  unfold Knows at h ⊢
  split at h
  · next hr => rw [if_pos hr]; exact fun hm => h (hjobs hm)
  · next hr => rw [if_neg hr]; exact fun hm => hfailed (h (hjobs hm))

theorem knows_batchComplete {result : Result} (hresult : result ≠ .emptySuccess)
    (hfails : result.removes = false → result.fails = true) (jobID : String) (b : Batch)
    (now : String) : Knows result jobID (batchComplete jobID result b now).batch := by
  unfold Knows
  by_cases hm : jobID ∈ b.jobs
  · rw [batchComplete_of_accepts now ((accepts_member hresult).mpr hm)]
    simp only [record, batchAfter]
    split
    · exact Finset.notMem_erase _ _
    · next hr =>
      intro _
      have hf : result.fails = true := hfails (Bool.eq_false_iff.mpr hr)
      by_cases hmem : jobID ∈ b.failed
      · simp [addFailedJob, hmem]
      · simp [addFailedJob, hmem, hf]
  · have hnot : ¬ Accepts jobID result b := fun h => hm ((accepts_member hresult).mp h)
    obtain ⟨reply, heq, -⟩ := batchComplete_of_not_accepts now hnot
    rw [heq]
    split
    · exact hm
    · exact fun h => absurd h hm

end Batch

namespace Env

variable (w : Setting) (env : Env)

theorem completeIn_db (jobID batchID : String) (result : Batch.Result) :
    (env.completeIn w jobID batchID result).1.db = env.db ∧
      (env.completeIn w jobID batchID result).1.job = env.job := by
  unfold completeIn
  split <;> exact ⟨rfl, rfl⟩

theorem record_db (jobID batchID : String) (result : Batch.Result) (levels : ℕ) :
    (env.record w jobID batchID result levels).db = env.db ∧
      (env.record w jobID batchID result levels).job = env.job := by
  induction levels generalizing env jobID batchID result with
  | zero => exact env.completeIn_db w jobID batchID result
  | succ levels ih =>
    have hcall := env.completeIn_db w jobID batchID result
    unfold record
    split
    · next heq => rw [heq] at hcall; exact hcall
    · next env' sig heq =>
      rw [heq] at hcall
      obtain ⟨hdb, hjob⟩ := ih env' sig.child sig.parent sig.result
      exact ⟨hdb.trans hcall.1, hjob.trans hcall.2⟩

theorem knows_completeIn {id : String} {known : Batch.Result} {jobID₀ : String}
    (h : ∀ b ∈ env.batches id, Batch.Knows known jobID₀ b) (jobID batchID : String)
    (result : Batch.Result) :
    ∀ b ∈ (env.completeIn w jobID batchID result).1.batches id, Batch.Knows known jobID₀ b := by
  unfold completeIn
  split
  · exact h
  · next b hb =>
    intro b' hb'
    by_cases hid : id = batchID
    · subst hid
      obtain rfl := Option.some.inj ((Function.update_self id _ env.batches).symm.trans hb')
      obtain ⟨hjobs, hfailed⟩ := Batch.batchComplete_shrinks jobID result b w.now.text
      exact (h b hb).mono hjobs hfailed
    · exact h b' ((Function.update_of_ne hid _ env.batches).symm.trans hb')

theorem knows_record {id : String} {known : Batch.Result} {jobID₀ : String}
    (h : ∀ b ∈ env.batches id, Batch.Knows known jobID₀ b) (jobID batchID : String)
    (result : Batch.Result) (levels : ℕ) :
    ∀ b ∈ (env.record w jobID batchID result levels).batches id, Batch.Knows known jobID₀ b := by
  induction levels generalizing env jobID batchID result with
  | zero => exact env.knows_completeIn w h jobID batchID result
  | succ levels ih =>
    have hcall := env.knows_completeIn w h jobID batchID result
    unfold record
    split
    · next heq => rw [heq] at hcall; exact hcall
    · next env' sig heq => rw [heq] at hcall; exact ih env' hcall sig.child sig.parent sig.result

theorem record_knows {result : Batch.Result} (hresult : result ≠ .emptySuccess)
    (hfails : result.removes = false → result.fails = true) (jobID batchID : String) (levels : ℕ) :
    ∀ b ∈ (env.record w jobID batchID result levels).batches batchID,
      Batch.Knows result jobID b := by
  have hcall : ∀ b ∈ (env.completeIn w jobID batchID result).1.batches batchID,
      Batch.Knows result jobID b := by
    unfold completeIn
    split
    · next hnone => intro b hb; rw [Option.mem_def, hnone] at hb; cases hb
    · next b hb =>
      intro b' hb'
      obtain rfl := Option.some.inj ((Function.update_self batchID _ env.batches).symm.trans hb')
      exact Batch.knows_batchComplete hresult hfails jobID b w.now.text
  cases levels with
  | zero => exact hcall
  | succ levels =>
    unfold record
    split
    · next heq => rw [heq] at hcall; exact hcall
    · next env' sig heq =>
      rw [heq] at hcall
      exact env'.knows_record w hcall sig.child sig.parent sig.result levels

theorem recordCallback_db (jobID batchID : String) :
    (env.recordCallback w jobID batchID).db = env.db ∧
      (env.recordCallback w jobID batchID).job = env.job := by
  unfold recordCallback
  split
  · exact ⟨rfl, rfl⟩
  · dsimp only
    split
    · exact record_db w _ _ _ _ _
    · exact ⟨rfl, rfl⟩

theorem knows_recordCallback {id : String} {known : Batch.Result} {jobID₀ : String}
    (h : ∀ b ∈ env.batches id, Batch.Knows known jobID₀ b) (jobID batchID : String) :
    ∀ b ∈ (env.recordCallback w jobID batchID).batches id, Batch.Knows known jobID₀ b := by
  unfold recordCallback
  split
  · exact h
  · next b hb =>
    have hsame : (Batch.batchCallbackComplete jobID b).2.jobs = b.jobs ∧
        (Batch.batchCallbackComplete jobID b).2.failed = b.failed := by
      unfold Batch.batchCallbackComplete
      split <;> exact ⟨rfl, rfl⟩
    have hupdate : ∀ b' ∈ Function.update env.batches batchID
        (some (Batch.batchCallbackComplete jobID b).2) id, Batch.Knows known jobID₀ b' := by
      intro b' hb'
      by_cases hid : id = batchID
      · subst hid
        obtain rfl := Option.some.inj ((Function.update_self id _ env.batches).symm.trans hb')
        exact (h b hb).mono (hsame.1 ▸ Finset.Subset.refl _) (hsame.2 ▸ Finset.Subset.refl _)
      · exact h b' ((Function.update_of_ne hid _ env.batches).symm.trans hb')
    dsimp only
    split
    · exact knows_record w _ hupdate _ _ _ _
    · exact hupdate

end Env

/-! ### Holding a job -/

section Holding

variable (w : Setting) (st : Stock) (job : Job)

/-- The job is in flight, on top of the view `st` of everything else. In memory it has gained
at most a marker. -/
structure Holding (env : Env) : Prop where
  typed : WellTyped env.db
  stored : ∀ k, (stock env.db).stored k =
    (st.put (.inFlight w.worker) (jobPayload env.job)).stored k
  readable : ∃ j, unmarshalJob (jobPayload env.job) = some j
  same : env.job = { job with raw := env.job.raw, finalization := env.job.finalization }

def Anchored (env : Env) : Prop :=
  ∃ p, (stock env.db).stored (.inFlight w.worker) = p ::ₘ st.stored (.inFlight w.worker)

def Recorded (result : Batch.Result) (env : Env) : Prop :=
  job.batchID ≠ "" → ∀ b ∈ env.batches job.batchID, Batch.Knows result job.id b

/-- Nothing but `st` is left. -/
def Remains (env : Env) : Prop := ∀ k, (stock env.db).stored k = st.stored k

variable {w st job} {env : Env}

section

variable (h : Holding w st job env)

include h

theorem Holding.anchored : Anchored w st env :=
  ⟨jobPayload env.job, by rw [h.stored, Stock.stored_put, if_pos rfl]⟩

theorem Holding.mem : jobPayload env.job ∈ (stock env.db).stored (.inFlight w.worker) := by
  rw [h.stored, Stock.stored_put, if_pos rfl]
  exact Multiset.mem_cons_self _ _

theorem Holding.take (k : Key) :
    ((stock env.db).take (.inFlight w.worker) (jobPayload env.job)).stored k = st.stored k := by
  rw [Stock.stored_take, h.stored, h.stored]
  by_cases hk : k = .inFlight w.worker
  · subst hk
    simp
  · simp [hk]

theorem Holding.congr {env' : Env} (hdb : env'.db = env.db)
    (hjob : env'.job = env.job) : Holding w st job env' where
  typed := hdb ▸ h.typed
  stored := by rw [hdb, hjob]; exact h.stored
  readable := by rw [hjob]; exact h.readable
  same := by rw [hjob]; exact h.same

theorem Holding.field {α : Type} (f : Job → α)
    (hf : ∀ (j : Job) raw finalization,
      f { j with raw := raw, finalization := finalization } = f j) : f env.job = f job := by
  rw [h.same]
  exact hf job _ _

theorem Holding.id_eq : env.job.id = job.id :=
  h.field Job.id fun _ _ _ => rfl

theorem Holding.batchID_eq : env.job.batchID = job.batchID :=
  h.field Job.batchID fun _ _ _ => rfl

theorem Holding.callbackBatchID_eq : env.job.callbackBatchID = job.callbackBatchID :=
  h.field Job.callbackBatchID fun _ _ _ => rfl

theorem Holding.change {job' : Job} (hraw : env.job.raw ≠ "")
    (hsame : job'.raw = env.job.raw) : Holding w st job' { env with job := job' } := by
  have hpayload : jobPayload job' = jobPayload env.job := by
    rw [jobPayload, jobPayload, hsame, if_pos hraw, if_pos hraw]
  exact
    { typed := h.typed
      stored := hpayload.symm ▸ h.stored
      readable := hpayload.symm ▸ h.readable
      same := rfl }

end

theorem exists_durableJobPayload (h : ∃ j, unmarshalJob (jobPayload job) = some j) :
    ∃ durable, durableJobPayload job = some durable := by
  unfold durableJobPayload
  by_cases hraw : job.raw = ""
  · exact ⟨_, if_pos hraw⟩
  · obtain ⟨j, hj⟩ := h
    rw [jobPayload, if_pos hraw] at hj
    rw [if_neg hraw, hj]
    exact ⟨_, rfl⟩

theorem runScript_spends {α : Type} {script : Job → Script Key α} {after : α → Job → Job}
    {P Q K : Env → Prop}
    (h : ∀ env, P env → ∃ a db, (script env.job).run env.db = .ok a db ∧
      Q { env with db := db, job := after a env.job })
    (hK : ∀ env, P env → K env) :
    Spends (runScript script after) 1 P (fun _ => Q) K := by
  refine Spends.issue (fun env hP => ?_) hK
  obtain ⟨a, db, hrun, hQ⟩ := h env hP
  exact ⟨(), _, by rw [hrun], hQ⟩

/-! ### Marking and recording -/

theorem markFinalization_spends (f : JobFinalization) :
    Spends (markFinalization w f) 1 (Holding w st job) (fun _ => Holding w st job)
      (Anchored w st) := by
  refine Spends.reads_bind fun job' => ?_
  cases hmarked : payloadWithFinalization (jobPayload job') f with
  | none =>
    -- the payload was read once, so it can be read again
    refine Spends.of_false fun env ⟨h, hjob⟩ => ?_
    obtain ⟨j, hj⟩ := h.readable
    rw [payloadWithFinalization, ← hjob, hj] at hmarked
    cases hmarked
  | some finalized =>
    refine runScript_spends (fun env ⟨h, hjob⟩ => ?_) fun env h => h.1.anchored
    subst hjob
    obtain ⟨j, hj⟩ := h.readable
    obtain rfl : ({ j with finalization := some f } : Job).marshal = finalized := by
      rw [payloadWithFinalization, hj] at hmarked
      exact Option.some.inj hmarked
    obtain ⟨db, hrun, htyped, hstock⟩ :=
      stock_mark_inFlight h.typed (Multiset.mem_coe.mp h.mem) env.job.queue env.job.id
        ({ j with finalization := some f } : Job).marshal
    refine ⟨1, db, hrun, ?_⟩
    have hpayload : jobPayload { env.job with
        finalization := some f, raw := ({ j with finalization := some f } : Job).marshal } =
        ({ j with finalization := some f } : Job).marshal := if_pos (marshal_ne_empty _)
    constructor
    · exact htyped
    · intro k
      change (stock db).stored k = (st.put (.inFlight w.worker) (jobPayload { env.job with
        finalization := some f, raw := ({ j with finalization := some f } : Job).marshal })).stored k
      rw [hpayload, hstock, Stock.stored_trust, Stock.stored_put, Stock.stored_put, h.take, h.take]
    · exact ⟨_, (congrArg unmarshalJob hpayload).trans (unmarshalJob_mark hj (some f))⟩
    · have hsame := congrArg (fun job : Job => ({ job with
        finalization := some f, raw := ({ j with finalization := some f } : Job).marshal } : Job))
        h.same
      exact hsame

/-- The commands of `updateBatchProgress`. -/
def batchCost (job : Job) : ℕ := if job.batchID = "" then 0 else 1

/-- The commands of `handleBatchCallbackComplete`. -/
def callbackCost (job : Job) : ℕ := if job.callbackBatchID = "" then 0 else 1

theorem updateBatchProgress_spends {result : Batch.Result} (hresult : result ≠ .emptySuccess)
    (hfails : result.removes = false → result.fails = true) :
    Spends (updateBatchProgress w result) (batchCost job) (Holding w st job)
      (fun _ env => Holding w st job env ∧ Recorded job result env) (Anchored w st) := by
  refine Spends.reads_bind fun job' => ?_
  refine Spends.ite_of_iff (fun env ⟨h, hjob⟩ => by rw [← hjob, h.batchID_eq]) (fun hbatch => ?_)
    fun hbatch => ?_
  · exact Spends.pure fun env h => ⟨h.1, fun hne => absurd hbatch hne⟩
  · refine Spends.issue (fun env ⟨h, hjob⟩ => ⟨(), _, rfl, ?_, ?_⟩) fun env h => h.1.anchored
    · obtain ⟨hdb, hjob'⟩ := env.record_db w job'.id job'.batchID result w.levels
      exact h.congr hdb hjob'
    · subst hjob
      rw [h.batchID_eq, h.id_eq]
      exact fun _ => env.record_knows w hresult hfails job.id job.batchID w.levels

theorem handleBatchCallbackComplete_spends {result : Batch.Result} :
    Spends (handleBatchCallbackComplete w) (callbackCost job)
      (fun env => Holding w st job env ∧ Recorded job result env)
      (fun _ env => Holding w st job env ∧ Recorded job result env) (Anchored w st) := by
  refine Spends.reads_bind fun job' => ?_
  refine Spends.ite_of_iff (fun env ⟨h, hjob⟩ => by rw [← hjob, h.1.callbackBatchID_eq])
    (fun _ => ?_) fun _ => ?_
  · exact Spends.pure fun env h => h.1
  · refine Spends.issue (fun env ⟨⟨h, hrec⟩, _⟩ => ⟨(), _, rfl, ?_, fun hne => ?_⟩)
      fun env h => h.1.1.anchored
    · obtain ⟨hdb, hjob'⟩ := env.recordCallback_db w job'.id job'.callbackBatchID
      exact h.congr hdb hjob'
    · exact env.knows_recordCallback w (hrec hne) job'.id job'.callbackBatchID

/-! ### Taking the job out of flight -/

variable (w st job) in
def FiledAs (op : Operation) (env : Env) : Prop :=
  match op with
  | .complete => Remains st env
  | .retry retryAt =>
    if retryAt.isZero then Remains st env
    else ∃ next : Job, next.id = job.id ∧ next.retryCount = job.retryCount + 1 ∧
      next.finalization = none ∧
      Remains ((st.drop .retry next.marshal).put .retry next.marshal) env
  | .kill error => ∃ dead : Job, dead.id = job.id ∧ dead.error = error ∧ dead.finalization = none ∧
      Remains ((st.drop .dead dead.marshal).put .dead dead.marshal) env

theorem Holding.remains_filed (h : Holding w st job env) {db : Db Key} {k₀ : Key} {p : String}
    (hstock : stock db = ((((stock env.db).take (.inFlight w.worker) (jobPayload env.job)).trust
      env.job.id none).drop k₀ p).put k₀ p) (job' : Job) :
    Remains ((st.drop k₀ p).put k₀ p) { env with db := db, job := job' } := by
  intro k
  change (stock db).stored k = _
  rw [hstock]
  simp only [Stock.stored_put, Stock.stored_drop, Stock.stored_trust, h.take]

theorem ackJob_spends (unique : Job → Option String) {result : Batch.Result} :
    Spends (runScript (fun job => ackJob w.worker job.id (unique job) (jobPayload job))
        fun _ job => job.clearFinalization) 1
      (fun env => Holding w st job env ∧ Recorded job result env)
      (fun _ env => Remains st env ∧ Recorded job result env) (Anchored w st) := by
  refine runScript_spends (fun env ⟨h, hrec⟩ => ?_) fun env h => h.1.anchored
  obtain ⟨db, hack, -, hstock⟩ := (stock_ackJob h.typed w.worker env.job.id (unique env.job)
    (jobPayload env.job)).of_mem h.mem
  refine ⟨1, db, hack, fun k => ?_, hrec⟩
  change (stock db).stored k = st.stored k
  rw [hstock, Stock.stored_trust, h.take]

theorem nackAt_spends {retryAt : Time} {result : Batch.Result} (hset : retryAt.isZero = false) :
    Spends (nackAt w retryAt) 1
      (fun env => Holding w st job env ∧ Recorded job result env)
      (fun _ env => FiledAs st job (.retry retryAt) env ∧ Recorded job result env)
      (Anchored w st) := by
  refine Spends.reads_bind fun job' => ?_
  cases hnext : nextJob job' with
  | none =>
    refine Spends.of_false fun env ⟨⟨h, _⟩, hjob⟩ => ?_
    obtain ⟨durable, hdurable⟩ := exists_durableJobPayload h.readable
    rw [nextJob, ← hjob, hdurable] at hnext
    cases hnext
  | some next =>
    refine runScript_spends (fun env ⟨⟨h, hrec⟩, hjob⟩ => ?_) fun env h => h.1.1.anchored
    subst hjob
    obtain ⟨db, hretry, -, hstock⟩ := (stock_retryJob h.typed w.worker env.job.id
      (jobPayload env.job) retryAt.unix next.marshal).of_mem h.mem
    refine ⟨1, db, hretry, ?_, hrec⟩
    have hfields : next.id = job.id ∧ next.retryCount = job.retryCount + 1 ∧
        next.finalization = none := by
      obtain ⟨durable, hdurable, rfl⟩ := Option.map_eq_some_iff.mp hnext
      obtain ⟨args, encrypted, rfl⟩ := durableJobPayload_eq hdurable
      exact ⟨h.id_eq, congrArg (· + 1) (h.field Job.retryCount fun _ _ _ => rfl), rfl⟩
    rw [FiledAs, hset]
    exact ⟨next, hfields.1, hfields.2.1, hfields.2.2, h.remains_filed hstock _⟩

theorem moveToDead_spends {error : String} {result : Batch.Result} (herror : job.error = error) :
    Spends (moveToDead w) 1
      (fun env => Holding w st job env ∧ Recorded job result env)
      (fun _ env => FiledAs st job (.kill error) env ∧ Recorded job result env)
      (Anchored w st) := by
  refine Spends.reads_bind fun job' => ?_
  cases hdead : deadJob job' w.now with
  | none =>
    refine Spends.of_false fun env ⟨⟨h, _⟩, hjob⟩ => ?_
    obtain ⟨durable, hdurable⟩ := exists_durableJobPayload h.readable
    rw [deadJob, ← hjob, hdurable] at hdead
    cases hdead
  | some dead =>
    refine runScript_spends (fun env ⟨⟨h, hrec⟩, hjob⟩ => ?_) fun env h => h.1.1.anchored
    subst hjob
    obtain ⟨db, hmove, -, hstock⟩ := (stock_moveToDeadJob h.typed w.worker env.job.id
      env.job.unique (jobPayload env.job) w.now.unix dead.marshal).of_mem h.mem
    refine ⟨1, db, hmove, ?_, hrec⟩
    have hfields : dead.id = job.id ∧ dead.error = error ∧ dead.finalization = none := by
      obtain ⟨durable, hdurable, rfl⟩ := Option.map_eq_some_iff.mp hdead
      obtain ⟨args, encrypted, rfl⟩ := durableJobPayload_eq hdurable
      exact ⟨h.id_eq, (h.field Job.error fun _ _ _ => rfl).trans herror, rfl⟩
    exact ⟨dead, hfields.1, hfields.2.1, hfields.2.2, h.remains_filed hstock _⟩

/-! ### Finalizing -/

def Operation.result : Operation → Batch.Result
  | .complete => .success
  | .retry _ => .failure
  | .kill _ => .death

/-- The commands of a closure of `finalizeJob`. -/
def closureCost (job : Job) : Operation → ℕ
  | .retry _ => batchCost job + 1
  | .complete | .kill _ => batchCost job + (callbackCost job + 1)

def Operation.Matched (op : Operation) (job : Job) : Prop :=
  ∀ error, op = .kill error → job.error = error

theorem closure_spends {op : Operation} (hmatch : op.Matched job) :
    Spends (closure w op) (closureCost job op) (Holding w st job)
      (fun _ env => FiledAs st job op env ∧ Recorded job op.result env) (Anchored w st) := by
  cases op with
  | complete =>
    exact (updateBatchProgress_spends (by decide) fun h => absurd h (by decide)).bind fun _ =>
      handleBatchCallbackComplete_spends.bind fun _ => ackJob_spends Job.unique
  | retry retryAt =>
    refine (updateBatchProgress_spends (by decide) fun _ => rfl).bind fun _ => ?_
    cases hzero : retryAt.isZero with
    | true =>
      rw [if_pos rfl]
      refine (ackJob_spends fun _ => none).conseq (fun _ h => h) (fun _ env h => ⟨?_, h.2⟩)
        fun _ h => h
      rw [FiledAs, if_pos hzero]
      exact h.1
    | false =>
      rw [if_neg Bool.false_ne_true]
      exact nackAt_spends hzero
  | kill error =>
    exact (updateBatchProgress_spends (by decide) fun h => absurd h (by decide)).bind fun _ =>
      handleBatchCallbackComplete_spends.bind fun _ => moveToDead_spends (hmatch error rfl)

/-- The commands of a round of `finalizeJob`. -/
def roundCost (job : Job) (op : Operation) : ℕ :=
  if job.finalization = none then 1 + closureCost job op else closureCost job op

theorem finalizeRound_spends {op : Operation} (hmatch : op.Matched job) :
    Spends (finalizeRound w op) (roundCost job op)
      (fun env => Holding w st job env ∧ env.job.finalization = job.finalization)
      (fun _ env => FiledAs st job op env ∧ Recorded job op.result env) (Anchored w st) := by
  refine Spends.reads_bind fun job' => ?_
  refine Spends.ite_of_iff (fun env ⟨⟨_, hfin⟩, hjob⟩ => by rw [← hjob, hfin]) (fun _ => ?_)
    fun _ => ?_
  · exact ((markFinalization_spends op.finalization).bind fun _ => closure_spends hmatch).conseq
      (fun _ h => h.1.1) (fun _ _ h => h) fun _ h => h
  · exact (closure_spends hmatch).conseq (fun _ h => h.1.1) (fun _ _ h => h) fun _ h => h

/-- How a loop under a context ends: with enough commands it finishes, with fewer it is abandoned
and the job is still in flight. -/
def Ends (w : Setting) (st : Stock) (c : Scope Env) (n : ℕ) (out : Exit Unit × Scope Env)
    (Q : Env → Prop) : Prop :=
  (c.Affords n ∧ ∃ env live, out = (.finished (), ⟨env, live⟩) ∧ Q env) ∨
    (¬ c.Affords n ∧ ∃ env, out = (.abandoned, ⟨env, some 0⟩) ∧ Anchored w st env)

theorem finalizeJob_ends {c : Scope Env} {op : Operation} (h : Holding w st c.state.job c.state)
    (hmatch : op.Matched c.state.job) (rounds : ℕ) :
    Ends w st c (roundCost c.state.job op) (finalizeJob w (rounds + 1) c op)
      (fun env => FiledAs st c.state.job op env ∧ Recorded c.state.job op.result env) := by
  obtain ⟨haffords, a, env, hrun, hQ⟩ | ⟨hshort, env, hrun, hK⟩ :=
    (finalizeRound_spends hmatch).persist c ⟨h, rfl⟩ rounds
  · exact Or.inl ⟨haffords, env, _, hrun, hQ⟩
  · exact Or.inr ⟨hshort, env, hrun, hK⟩

variable (w st job) in
def Requeued (env : Env) : Prop :=
  ∃ durable : Job, durable.id = job.id ∧ durable.finalization = none ∧
    Remains (st.put (.queue job.queue) durable.marshal) env

theorem requeue_spends :
    Spends (requeue w) 1 (Holding w st job) (fun _ => Requeued st job) (Anchored w st) := by
  refine Spends.reads_bind fun job' => ?_
  cases hdurable : durableJobPayload job' with
  | none =>
    refine Spends.of_false fun env ⟨h, hjob⟩ => ?_
    obtain ⟨durable, hsome⟩ := exists_durableJobPayload h.readable
    rw [← hjob, hsome] at hdurable
    cases hdurable
  | some durable =>
    refine runScript_spends (fun env ⟨h, hjob⟩ => ?_) fun env h => h.1.anchored
    subst hjob
    obtain ⟨db, hrun, -, hstock⟩ := (stock_requeueJob h.typed w.worker env.job.queue
      (jobPayload env.job) durable.marshal).of_mem h.mem
    have hfields : durable.id = job.id ∧ durable.finalization = none := by
      obtain ⟨args, encrypted, rfl⟩ := durableJobPayload_eq hdurable
      exact ⟨h.id_eq, rfl⟩
    refine ⟨1, db, hrun, durable, hfields.1, hfields.2, fun k => ?_⟩
    change (stock db).stored k = _
    rw [hstock, h.field Job.queue fun _ _ _ => rfl]
    simp only [Stock.stored_put, h.take]

end Holding

/-! ### Verdicts -/

/-- What is to become of a job. -/
inductive Verdict where
  | complete
  | interrupted
  | retry (retryIn : ℤ)
  | retryAt (retryAt : Time)
  | kill (error : String)

/-- What `handleJobResult` decides. -/
def verdict (job : Job) (err : Option HandlerError) (opts : Option JobOptions) (iterable : Bool) :
    Verdict :=
  match err with
  | none => .complete
  | some err =>
    if iterable = true ∧ err.interrupted = true then .interrupted
    else
      match err.retryIn with
      | some retryIn => .retry retryIn
      | none =>
        match err.maxRetries with
        | some text => .kill text
        | none =>
          if (calculateRetryBackoff job opts).2 then .retry (calculateRetryBackoff job opts).1
          else .kill err.message

/-- What `resumeFinalizedJob` decides, and the job it decides it about. -/
def resumed (job : Job) (f : JobFinalization) : Job × Verdict :=
  if f.operation = "complete" then (job, .complete)
  else if f.operation = "retry" then
    (job, if f.retryAt.isZero = false then .retryAt f.retryAt else .retry 0)
  else if f.operation = "kill" then (job, .kill f.error)
  else (job.clearFinalization,
    .kill ("unknown job finalization operation " ++ f.operation.quote))

def carryOut (w : Setting) (rounds : ℕ) (c : Scope Env) : Verdict → Exit Unit × Scope Env
  | .complete => completeJob w rounds c
  | .interrupted => (.finished (), ((requeue w).detached c).2)
  | .retry retryIn => retryJobAfter w rounds c retryIn
  | .retryAt retryAt => retryJobAt w rounds c retryAt
  | .kill error => killJob w rounds c error

theorem handleJobResult_eq (w : Setting) (rounds : ℕ) (c : Scope Env) (err : Option HandlerError)
    (opts : Option JobOptions) (iterable : Bool) :
    handleJobResult w rounds c err opts iterable =
      carryOut w rounds c (verdict c.state.job err opts iterable) := by
  cases err with
  | none => rfl
  | some err =>
    simp only [handleJobResult, verdict]
    split
    · rfl
    · cases err.retryIn with
      | some retryIn => rfl
      | none =>
        cases err.maxRetries with
        | some text => rfl
        | none =>
          dsimp only
          split <;> rfl

theorem resumeFinalizedJob_eq (w : Setting) (rounds : ℕ) (c : Scope Env) (f : JobFinalization) :
    resumeFinalizedJob w rounds c f =
      carryOut w rounds ⟨{ c.state with job := (resumed c.state.job f).1 }, c.live⟩
        (resumed c.state.job f).2 := by
  unfold resumeFinalizedJob resumed
  split
  · rfl
  split
  · dsimp only
    split <;> rfl
  split <;> rfl

namespace Verdict

def commands (job : Job) : Verdict → ℕ
  | .complete => roundCost job .complete
  | .interrupted => 0
  | .retry retryIn =>
    if 0 < retryIn then 1 + roundCost job (.retry .zero) else roundCost job (.retry .zero)
  | .retryAt t => roundCost job (.retry t)
  | .kill error => roundCost job (.kill error)

def Stores : Verdict → Prop
  | .retry retryIn => 0 < retryIn
  | .retryAt t => t.isZero = false
  | _ => True

/-- The operation a verdict is carried out by; an interrupted job is not finalized. -/
def operation (w : Setting) : Verdict → Option Operation
  | .complete => some .complete
  | .interrupted => none
  | .retry retryIn => some (.retry (if 0 < retryIn then w.later retryIn else .zero))
  | .retryAt t => some (.retry t)
  | .kill error => some (.kill error)

def Filed (w : Setting) (st : Stock) (job : Job) (v : Verdict) (env : Env) : Prop :=
  match v.operation w with
  | some op => FiledAs st job op env
  | none => Requeued st job env

def Recorded (w : Setting) (job : Job) (v : Verdict) (env : Env) : Prop :=
  ∀ op ∈ v.operation w, Senna.Recorded job op.result env

end Verdict

section CarryOut

variable {w : Setting} {st : Stock} {c : Scope Env}

theorem Ends.mono {n : ℕ} {out : Exit Unit × Scope Env} {Q Q' : Env → Prop}
    (h : Ends w st c n out Q) (hQ : ∀ env, Q env → Q' env) : Ends w st c n out Q' := by
  obtain ⟨haffords, env, live, hout, hQ₀⟩ | hshort := h
  · exact Or.inl ⟨haffords, env, live, hout, hQ env hQ₀⟩
  · exact Or.inr hshort

theorem filed_of_operation {job : Job} {v : Verdict} {op : Operation} {env : Env}
    (hv : v.operation w = some op) (h : FiledAs st job op env ∧ Recorded job op.result env) :
    v.Filed w st job env ∧ v.Recorded w job env := by
  constructor
  · rw [Verdict.Filed, hv]
    exact h.1
  · intro op' hop'
    rw [Option.mem_def, hv] at hop'
    exact Option.some.inj hop' ▸ h.2

theorem retryJobIn_ends (h : Holding w st c.state.job c.state) (rounds : ℕ) (retryIn : ℤ) :
    Ends w st c (1 + roundCost c.state.job (.retry .zero)) (retryJobIn w (rounds + 1) c retryIn)
      (fun env => FiledAs st c.state.job (.retry (w.later retryIn)) env ∧
        Recorded c.state.job .failure env) := by
  have hnow : Spends (redisNow w) 1 (· = c.state) (fun _ env => env = c.state) (· = c.state) :=
    Spends.issue (fun env henv => ⟨w.redisNow, env, rfl, henv⟩) fun _ henv => henv
  obtain ⟨haffords, a, env, hrun, henv⟩ | ⟨hshort, env, hrun, henv⟩ := hnow.persist c rfl rounds
  · subst henv
    have hmatch : (Operation.retry (w.later retryIn)).Matched c.state.job :=
      fun _ => Operation.noConfusion
    have hends := finalizeJob_ends (c := c.spend 1 c.state) h hmatch rounds
    have heq : retryJobIn w (rounds + 1) c retryIn =
        finalizeJob w (rounds + 1) (c.spend 1 c.state) (.retry (w.later retryIn)) := by
      rw [retryJobIn, hrun]
      rfl
    rw [heq]
    obtain ⟨hrest, env, live, hout, hQ⟩ | ⟨hrest, hout⟩ := hends
    · exact Or.inl ⟨Scope.affords_add.mpr ⟨haffords, hrest⟩, env, live, hout, hQ⟩
    · exact Or.inr ⟨fun hall => hrest (Scope.affords_add.mp hall).2, hout⟩
  · subst henv
    refine Or.inr ⟨fun hall => hshort (Scope.affords_add (s := c.state).mp hall).1, c.state, ?_,
      h.anchored⟩
    rw [retryJobIn, hrun]

/-- **Acting on a verdict.** With as many commands as it takes, the job is filed where the verdict
says and its batch knows; with fewer, the job is left in flight. -/
theorem carryOut_ends (h : Holding w st c.state.job c.state) (hraw : c.state.job.raw ≠ "")
    (rounds : ℕ) (v : Verdict) :
    Ends w st c (v.commands c.state.job) (carryOut w (rounds + 1) c v)
      (fun env => v.Filed w st c.state.job env ∧ v.Recorded w c.state.job env) := by
  cases v with
  | complete =>
    have hmatch : Operation.complete.Matched c.state.job := fun _ => Operation.noConfusion
    exact (finalizeJob_ends h hmatch rounds).mono fun env => filed_of_operation rfl
  | interrupted =>
    -- the requeue is detached, so that its command always goes through
    obtain ⟨a, env, hrun, hQ⟩ := requeue_spends.enough ⟨c.state, none⟩ h
      (Scope.affords_of_none rfl)
    refine Or.inl ⟨Scope.affords_zero, env, c.live, ?_, hQ, fun op hop => ?_⟩
    · simp only [carryOut, Proc.detached, hrun]
      rfl
    · exact absurd hop (Option.some_ne_none op).symm
  | retry retryIn =>
    simp only [carryOut, Verdict.commands, retryJobAfter, gt_iff_lt]
    by_cases hpos : 0 < retryIn
    · rw [if_pos hpos, if_pos hpos]
      have hop : (Verdict.retry retryIn).operation w = some (.retry (w.later retryIn)) := by
        rw [Verdict.operation, if_pos hpos]
      exact (retryJobIn_ends h rounds retryIn).mono fun env => filed_of_operation hop
    · rw [if_neg hpos, if_neg hpos]
      have hop : (Verdict.retry retryIn).operation w = some (.retry .zero) := by
        rw [Verdict.operation, if_neg hpos]
      have hmatch : (Operation.retry .zero).Matched c.state.job := fun _ => Operation.noConfusion
      exact (finalizeJob_ends h hmatch rounds).mono fun env => filed_of_operation hop
  | retryAt t =>
    have hmatch : (Operation.retry t).Matched c.state.job := fun _ => Operation.noConfusion
    exact (finalizeJob_ends h hmatch rounds).mono fun env => filed_of_operation rfl
  | kill error =>
    have hmatch : (Operation.kill error).Matched { c.state.job with error := error } :=
      fun _ heq => Operation.kill.inj heq
    have hends := finalizeJob_ends
      (c := ⟨{ c.state with job := { c.state.job with error := error } }, c.live⟩)
      (h.change hraw rfl) hmatch rounds
    exact hends.mono fun env hQ => filed_of_operation rfl hQ

end CarryOut

end Senna
