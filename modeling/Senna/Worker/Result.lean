import Senna.Batch.Forest
import Senna.System.Context
import Senna.Worker.Delivery

/-!
# From the result of a handler to Redis

`processJob` as a program: what the worker does with a job it has fetched, from the check of
its batch to the script that takes it out of flight. `Delivery` has the same steps as labels
of a system with many threads; here they are one thread's code, in order, so that the
decisions between them can be talked about: which error leads to which operation, and what
happens when the context of the worker is done in the middle.

**Commands.** Every Redis call of the worker is a command of `Proc`, issued under the
worker's context. It succeeds under a live context and fails without effect under one that
is done. `context.WithoutCancel` is `Proc.detached`.

**Errors.** `handleJobResult` looks at an error with `errors.As` and `Error` only, so an
error is what these find (`HandlerError`), however the errors wrap each other.

**Batches.** A batch is what `Batch.Script` says, and `Env.batches` finds it by its ID.
Passing a completion on to the parent batch is best effort, and how far up it gets before a
command fails is a parameter (`levels`).

**Loops.** `finalizeJob` and `retryJobIn` try again until they succeed or the context is
done. They are run for a number of rounds, and one round turns out to be enough.
-/

namespace Senna

open Redis Proc

/-! ### Backoff -/

def maxDuration : ℤ := 2 ^ 63 - 1

def maxDurationSeconds : ℤ := maxDuration / 10 ^ 9

def checkedMulDurationSeconds (a b : ℤ) : Option ℤ :=
  if a = 0 ∨ b = 0 then some 0
  else if a > maxDurationSeconds / b then none
  else some (a * b)

def checkedAddDurationSeconds (a b : ℤ) : Option ℤ :=
  if a > maxDurationSeconds - b then none else some (a + b)

def defaultBackoffSeconds (attempt : ℤ) : Option ℤ := do
  let squared ← checkedMulDurationSeconds attempt attempt
  let fourth ← checkedMulDurationSeconds squared squared
  let linear ← checkedMulDurationSeconds attempt 10
  let secs ← checkedAddDurationSeconds fourth linear
  checkedAddDurationSeconds secs 15

def defaultBackoff (attempt : ℤ) : ℤ :=
  match defaultBackoffSeconds (if attempt < 0 then 0 else attempt) with
  | none => maxDuration
  | some secs => secs * 10 ^ 9

/-! ### What a handler returns -/

/-- What the worker can tell about the error of a handler. -/
structure HandlerError where
  /-- `Error()`. -/
  message : String
  /-- It is or wraps an `InterruptedError`. -/
  interrupted : Bool
  /-- The `RetryIn` of the first `RetryableError` in it. -/
  retryIn : Option ℤ
  /-- The text of the first `MaxRetriesExceededError` in it. -/
  maxRetries : Option String

/-- The options a handler is registered with, as far as retries go. -/
structure JobOptions where
  maxRetries : ℤ
  retryBackoff : Option (ℤ → ℤ)

/-- What a handler has made of a job. -/
structure Handling where
  /-- The job as the handler leaves it. -/
  job : Job
  error : Option HandlerError
  opts : Option JobOptions
  /-- It is a handler for iterable jobs. -/
  iterable : Bool

/-- A registered handler. It may write to the job, but not to what the worker keeps in it. -/
structure Handler where
  run : Job → Handling
  raw_run : ∀ job, (run job).job.raw = job.raw
  finalization_run : ∀ job, (run job).job.finalization = job.finalization

def calculateRetryBackoff (job : Job) (opts : Option JobOptions) : ℤ × Bool :=
  let backoffFn := (opts.bind JobOptions.retryBackoff).getD defaultBackoff
  let maxRetries :=
    match opts with
    | none => job.retry
    | some o => if o.maxRetries < job.retry then o.maxRetries else job.retry
  (backoffFn job.retryCount, job.retryCount < maxRetries)

def iterableRetryOptions (job : Job) (opts : Option JobOptions) : JobOptions where
  maxRetries :=
    match opts with
    | none => job.retry
    | some o => if o.maxRetries < job.retry then o.maxRetries else job.retry
  retryBackoff := some ((opts.bind JobOptions.retryBackoff).getD defaultBackoff)

/-! ### The worker's surroundings -/

/-- What a worker has to do with: the keyspace, the batches, and the job in its memory. -/
structure Env where
  db : Db Key
  batches : String → Option Batch
  /-- The callback jobs that were pushed to their queues, in order. -/
  callbackJobs : List Batch.CallbackJob
  job : Job

/-- What is fixed while a job is processed. -/
structure Setting where
  worker : String
  /-- The queue is a sequential one of the worker's configuration. -/
  sequential : String → Bool
  /-- `time.Now()`. -/
  now : Time
  /-- The reply of `TIME`. -/
  redisNow : Time
  /-- `redisNow.Add`. -/
  later : ℤ → Time
  /-- Redis tells a time after 1970, so no delay leads to the zero time of year 1. -/
  later_isZero : ∀ delay, 0 < delay → (later delay).isZero = false
  /-- How many ancestors learn that a batch is complete. -/
  levels : ℕ

section Commands

variable (w : Setting)

/-- A call of a script for the job, and what the worker then writes into the job. -/
def runScript {α : Type} (script : Job → Script Key α) (after : α → Job → Job) : Proc Env Unit :=
  issue fun env =>
    match (script env.job).run env.db with
    | .ok a db => (some (), { env with db := db, job := after a env.job })
    | .error _ db => (none, { env with db := db })

def redisNow : Proc Env Time := issue fun env => (some w.redisNow, env)

/-- One call of `batch_complete.lua`, and what is to be passed on. A batch that does not exist
is only logged. -/
def Env.completeIn (env : Env) (jobID batchID : String) (result : Batch.Result) :
    Env × Option Batch.Signal :=
  match env.batches batchID with
  | none => (env, none)
  | some b =>
    let e := Batch.batchComplete jobID result b w.now.text
    ({ env with
        batches := Function.update env.batches batchID (some e.batch)
        callbackJobs := env.callbackJobs ++ e.callbackJobs },
      e.reply.signal batchID)

/-- The recursion of `updateBatchProgress`, so many levels up. -/
def Env.record (env : Env) (jobID batchID : String) (result : Batch.Result) : ℕ → Env
  | 0 => (env.completeIn w jobID batchID result).1
  | levels + 1 =>
    match env.completeIn w jobID batchID result with
    | (env', none) => env'
    | (env', some sig) => env'.record sig.child sig.parent sig.result levels

/-- One call of `batch_callback_complete.lua`, and what is passed on. -/
def Env.recordCallback (env : Env) (jobID batchID : String) : Env :=
  match env.batches batchID with
  | none => env
  | some b =>
    let r := Batch.batchCallbackComplete jobID b
    let env' := { env with batches := Function.update env.batches batchID (some r.2) }
    match w.levels, r.1.signal batchID with
    | levels + 1, some sig => env'.record w sig.child sig.parent sig.result levels
    | _, _ => env'

def updateBatchProgress (result : Batch.Result) : Proc Env Unit := do
  let job ← reads Env.job
  if job.batchID = "" then pure ()
  else issue fun env => (some (), env.record w job.id job.batchID result w.levels)

def handleBatchCallbackComplete : Proc Env Unit := do
  let job ← reads Env.job
  if job.callbackBatchID = "" then pure ()
  else issue fun env => (some (), env.recordCallback w job.id job.callbackBatchID)

def Job.clearFinalization (job : Job) : Job := { job with finalization := none }

def markFinalization (f : JobFinalization) : Proc Env Unit := do
  let job ← reads Env.job
  match payloadWithFinalization (jobPayload job) f with
  | none => fail
  | some finalized =>
    runScript
      (fun job => markJobFinalization w.worker job.queue job.id (jobPayload job) finalized)
      fun status job =>
        if status = 0 then job else { job with finalization := some f, raw := finalized }

def ack : Proc Env Unit :=
  runScript (fun job => ackJob w.worker job.id job.unique (jobPayload job))
    fun _ job => job.clearFinalization

def nack : Proc Env Unit :=
  runScript (fun job => ackJob w.worker job.id none (jobPayload job))
    fun _ job => job.clearFinalization

def nackAt (retryAt : Time) : Proc Env Unit := do
  let job ← reads Env.job
  match nextJob job with
  | none => fail
  | some next =>
    runScript
      (fun job => retryJob w.worker job.id (jobPayload job) retryAt.unix next.marshal)
      fun _ job => { job with retryCount := next.retryCount, finalization := none }

def moveToDead : Proc Env Unit := do
  let job ← reads Env.job
  match deadJob job w.now with
  | none => fail
  | some dead =>
    runScript
      (fun job => moveToDeadJob w.worker job.id job.unique (jobPayload job) w.now.unix dead.marshal)
      fun _ job => { job with failedAt := some w.now, finalization := none }

def requeue : Proc Env Unit := do
  let job ← reads Env.job
  match durableJobPayload job with
  | none => fail
  | some durable =>
    runScript (fun job => requeueJob w.worker job.queue (jobPayload job) durable.marshal)
      fun _ job => job

/-! ### Finalizing -/

/-- The closure that `finalizeJob` is given. -/
def closure : Operation → Proc Env Unit
  | .complete => do
    updateBatchProgress w .success
    handleBatchCallbackComplete w
    ack w
  | .retry retryAt => do
    updateBatchProgress w .failure
    if retryAt.isZero then nack w else nackAt w retryAt
  | .kill _ => do
    updateBatchProgress w .death
    handleBatchCallbackComplete w
    moveToDead w

/-- One round of `finalizeJob`. -/
def finalizeRound (op : Operation) : Proc Env Unit := do
  let job ← reads Env.job
  if job.finalization = none then do
    markFinalization w op.finalization
    closure w op
  else closure w op

variable (rounds : ℕ) (c : Scope Env)

def finalizeJob (op : Operation) : Exit Unit × Scope Env := (finalizeRound w op).persist rounds c

def completeJob : Exit Unit × Scope Env := finalizeJob w rounds c .complete

def retryJobAt (retryAt : Time) : Exit Unit × Scope Env := finalizeJob w rounds c (.retry retryAt)

def retryJobIn (retryIn : ℤ) : Exit Unit × Scope Env :=
  match (redisNow w).persist rounds c with
  | (.finished _, c') => retryJobAt w rounds c' (w.later retryIn)
  | (.abandoned, c') => (.abandoned, c')
  | (.spinning, c') => (.spinning, c')

/-- `retryJob`. -/
def retryJobAfter (retryIn : ℤ) : Exit Unit × Scope Env :=
  if retryIn > 0 then retryJobIn w rounds c retryIn else finalizeJob w rounds c (.retry .zero)

def killJob (error : String) : Exit Unit × Scope Env :=
  finalizeJob w rounds
    ⟨{ c.state with job := { c.state.job with error := error } }, c.live⟩ (.kill error)

def resumeFinalizedJob (f : JobFinalization) : Exit Unit × Scope Env :=
  if f.operation = "complete" then completeJob w rounds c
  else if f.operation = "retry" then
    if f.retryAt.isZero = false then retryJobAt w rounds c f.retryAt
    else retryJobAfter w rounds c 0
  else if f.operation = "kill" then killJob w rounds c f.error
  else
    killJob w rounds ⟨{ c.state with job := c.state.job.clearFinalization }, c.live⟩
      ("unknown job finalization operation " ++ f.operation.quote)

/-! ### Processing a job -/

/-- `handleJobResult`; an interrupted job is requeued if the handler is for iterable jobs. -/
def handleJobResult (err : Option HandlerError) (opts : Option JobOptions) (iterable : Bool) :
    Exit Unit × Scope Env :=
  match err with
  | none => completeJob w rounds c
  | some err =>
    if iterable = true ∧ err.interrupted = true then (.finished (), ((requeue w).detached c).2)
    else
      match err.retryIn with
      | some retryIn => retryJobAfter w rounds c retryIn
      | none =>
        match err.maxRetries with
        | some text => killJob w rounds c text
        | none =>
          let (backoff, shouldRetry) := calculateRetryBackoff c.state.job opts
          if shouldRetry then retryJobAfter w rounds c backoff
          else killJob w rounds c err.message

/-- `contextWithVerifiedBatchHandle`; whether the job is a member only decides what the handler
can see. -/
def verifyBatch : Proc Env Bool := do
  let job ← reads Env.job
  if job.batchID = "" then pure false
  else issue fun env =>
    (some ((env.batches job.batchID).any fun b => decide (job.id ∈ b.jobs)), env)

def verifyError (job : Job) : HandlerError where
  message := "verify batch membership for job " ++ job.id ++ " in batch " ++ job.batchID ++
    ": context canceled"
  interrupted := false
  retryIn := none
  maxRetries := none

def Handling.judgedBy (h : Handling) : Option JobOptions :=
  if h.iterable then some (iterableRetryOptions h.job h.opts) else h.opts

/-- `processJob`, up to the deferred release of the lock. -/
def processFetched (handler : Handler) : Exit Unit × Scope Env :=
  match c.state.job.finalization with
  | some f => resumeFinalizedJob w rounds c f
  | none =>
    match verifyBatch c with
    | (none, c') => handleJobResult w rounds c' (some (verifyError c.state.job)) none false
    | (some _, c') =>
      let h := handler.run c'.state.job
      handleJobResult w rounds ⟨{ c'.state with job := h.job }, c'.live⟩ h.error h.judgedBy
        h.iterable

/-- `ReleaseSequentialLock`. -/
def Env.release (env : Env) (queue : String) : Env :=
  if w.sequential queue then
    { env with db := ((releaseSequentialLock queue w.worker).run env.db).db }
  else env

/-- `processJob`. The lock of the job's queue is released under a context that is never done. -/
def processJob (handler : Handler) : Exit Unit × Scope Env :=
  let out := processFetched w rounds c handler
  (out.1, ⟨out.2.state.release w c.state.job.queue, out.2.live⟩)

end Commands

end Senna
