import Senna.System.Machine
import Senna.Worker.Stock

/-!
# Workers, producers and the reaper

The whole system around the scripts: producers that enqueue jobs, any number of worker
goroutines that fetch, run and finish them, the promotion of due jobs and the recovery
of jobs from workers that stopped. One label is one Redis command or script (or one
local decision of a worker), so a run is an interleaving of all of them.

**Workers.** A goroutine that has fetched a payload is a `Thread`: the worker it belongs
to, the payload it was given, the job as it stands in memory and how far it is (`Stage`).
The stages follow `fetchFromQueueInfo`, `prepareFetchedJob`, `processJob`,
`resumeFinalizedJob` and `finalizeJob` with its three closures. What a handler does to
the job in memory, and how it ends, is up to the label.

**Failures.** A thread is never removed from the pool, and a step adds the thread that
comes after it. A snapshot that nobody takes up again is a worker that crashed there. One
that is taken up a second time is a worker that sent its command again: the command had
failed, or it had taken effect and the reply was lost. So every run with failed commands,
lost replies and crashes is a run here.

**History.** `issued`, `acked` and `marked` record the jobs that were enqueued, those that
an `ack_job` call removed, and the payloads that `MarkFinalization` recorded. No step reads
them.
-/

namespace Senna

open Redis

/-! ### Threads -/

/-- What is to happen to a job, with the error or the time it is recorded with. -/
inductive Operation where
  | complete
  /-- Retry at a time; the zero time is an immediate negative acknowledgement. -/
  | retry (retryAt : Time)
  | kill (error : String)
  deriving DecidableEq

def Operation.finalization : Operation → JobFinalization
  | .complete => ⟨"complete", "", .zero⟩
  | .retry retryAt => ⟨"retry", "", retryAt⟩
  | .kill error => ⟨"kill", error, .zero⟩

/-- How far a thread is. -/
inductive Stage where
  /-- The payload could not be read; a sequential fetch then discards it. -/
  | undecodable
  /-- The payload carries a marker; `prepareFetchedJob` asks for the type of its trust key. -/
  | claimed
  /-- The trust key is a string; its content is asked for. -/
  | typed
  /-- The marker is not trusted and is to be removed. -/
  | distrusted
  /-- The handler runs. -/
  | running
  /-- At the top of `finalizeJob`, the marker not yet set. -/
  | finalizing (op : Operation)
  /-- Before `updateBatchProgress`. -/
  | recording (op : Operation)
  /-- Before `handleBatchCallbackComplete`, or before the retry is stored. -/
  | progressed (op : Operation)
  /-- Before `Ack` or `MoveToDead`. -/
  | calledBack (op : Operation)
  deriving DecidableEq

/-- A goroutine with the job it has fetched. -/
structure Thread where
  worker : String
  queue : String
  /-- What the fetch script replied. -/
  payload : String
  job : Job
  stage : Stage

/-- Enter `finalizeJob`: a job without a marker is marked first. -/
def Thread.finalize (t : Thread) (job : Job) (op : Operation) : Thread :=
  { t with
    job := job
    stage := if job.finalization = none then .finalizing op else .recording op }

/-- `killJob` writes the error into the job. -/
def withError (job : Job) : Operation → Job
  | .kill error => { job with error := error }
  | _ => job

theorem withError_raw (job : Job) (op : Operation) : (withError job op).raw = job.raw := by
  cases op <;> rfl

/-- `resumeFinalizedJob`. -/
def Thread.resume (t : Thread) (job : Job) (f : JobFinalization) : Thread :=
  if f.operation = "complete" then t.finalize job .complete
  else if f.operation = "retry" then
    t.finalize job (.retry (if f.retryAt.isZero then .zero else f.retryAt))
  else if f.operation = "kill" then t.finalize (withError job (.kill f.error)) (.kill f.error)
  else
    let error := "unknown job finalization operation " ++ f.operation.quote
    t.finalize (withError { job with finalization := none } (.kill error)) (.kill error)

/-- `processJob`: a job with a marker is not run again. -/
def Thread.process (t : Thread) (job : Job) : Thread :=
  match job.finalization with
  | none => { t with job := job, stage := .running }
  | some f => t.resume job f

/-! ### The system -/

/-- The keyspace, the threads so far, and what has happened. -/
structure World where
  db : Db Key
  threads : List Thread
  issued : List String
  acked : List String
  marked : List String

namespace World

def init : World := ⟨fun _ => none, [], [], [], []⟩

def spawn (s : World) (t : Thread) : World := { s with threads := t :: s.threads }

end World

/-- A step of the system. -/
inductive Event where
  /-- `Client.Enqueue`, by `enqueue_now`. -/
  | enqueue (job : Job)
  /-- `Client.EnqueueAt`: a `ZADD` to the scheduled set. -/
  | enqueueAt (job : Job) (score : ℤ)
  /-- Another producer pushes any text onto a queue. -/
  | push (queue payload : String)
  /-- Another producer adds any text to the scheduled or the retry set. -/
  | pushAt (k : Key) (payload : String) (score : ℤ)
  /-- Promote due jobs from the scheduled or the retry set, at a time. -/
  | promote (k : Key) (now : ℤ)
  | fetch (worker queue : String)
  | sequentialFetch (worker queue : String)
  /-- A sequential lock is released or expires. -/
  | unlock (queue : String)
  | discard (t : Thread)
  | readType (t : Thread)
  | readTrust (t : Thread)
  | sanitize (t : Thread)
  /-- The handler has returned and left the job like this; the operation is the worker's choice. -/
  | handled (t : Thread) (job : Job) (op : Operation)
  /-- An interrupted iterable job goes back to its queue. -/
  | interrupted (t : Thread) (job : Job)
  | mark (t : Thread)
  | progress (t : Thread)
  | callback (t : Thread)
  /-- `Ack`, `NackAt`, `Nack` or `MoveToDead`, at a time. -/
  | finish (t : Thread) (now : Time)
  /-- `requeue_orphaned` on the in-flight list of a worker, dead or not. -/
  | reap (worker : String)

section Steps

variable (cj : Cjson) (s : World)

/-- After a fetch script replied with a payload: it is read, and unless it carries a marker the
job is processed. -/
def World.claim (worker queue payload : String) (sequential : Bool) : World :=
  match unmarshalJob payload with
  | some job =>
    match job.finalization with
    | none => s.spawn ⟨worker, queue, payload, { job with raw := payload }, .running⟩
    | some _ => s.spawn ⟨worker, queue, payload, job, .claimed⟩
  | none =>
    if sequential then s.spawn ⟨worker, queue, payload, .zero, .undecodable⟩ else s

def World.fetched (out : Outcome Key FetchReply) (worker queue : String) (sequential : Bool) :
    World :=
  match out with
  | .ok (.job payload) db => ({ s with db := db } : World).claim worker queue payload sequential
  | out => { s with db := out.db }

def Thread.sanitized (t : Thread) : Job := { t.job with finalization := none }

/-- The last part of `prepareFetchedJob`. The script is skipped when there is nothing to
change, and the fetch fails when the payload is not in flight any more. -/
def World.sanitize (t : Thread) : World :=
  let job := { t.sanitized with raw := t.sanitized.marshal }
  if t.sanitized.marshal = t.payload then s.spawn (t.process job)
  else
    match (sanitizeJobFinalization t.worker t.payload t.sanitized.marshal).run s.db with
    | .ok 1 db => ({ s with db := db } : World).spawn (t.process job)
    | out => { s with db := out.db }

/-- `MarkFinalization`: the job is marked if the script found it; if not, the worker goes on
without a marker. -/
def World.mark (t : Thread) (op : Operation) : World :=
  match payloadWithFinalization (jobPayload t.job) op.finalization with
  | none => s
  | some finalized =>
    match (markJobFinalization t.worker t.job.queue t.job.id (jobPayload t.job) finalized).run
      s.db with
    | .ok 0 db => ({ s with db := db } : World).spawn { t with stage := .recording op }
    | .ok _ db =>
      ({ s with db := db, marked := finalized :: s.marked } : World).spawn
        { t with
          job := { t.job with finalization := some op.finalization, raw := finalized }
          stage := .recording op }
    | out => { s with db := out.db }

def Job.unique (job : Job) : Option String :=
  if job.uniqueKey = "" then none else some job.uniqueKey

/-- An `ack_job` call. -/
def World.acknowledge (t : Thread) (unique : Option String) : World :=
  match (ackJob t.worker t.job.id unique (jobPayload t.job)).run s.db with
  | .ok 0 db => { s with db := db }
  | .ok _ db => { s with db := db, acked := t.job.id :: s.acked }
  | out => { s with db := out.db }

/-- The job `NackAt` stores. -/
def nextJob (job : Job) : Option Job :=
  (durableJobPayload job).map fun next => { next with retryCount := next.retryCount + 1 }

/-- The job `MoveToDead` stores. -/
def deadJob (job : Job) (now : Time) : Option Job :=
  (durableJobPayload job).map fun dead => { dead with failedAt := some now }

/-- The last step of a closure of `finalizeJob`. -/
def World.finish (t : Thread) (now : Time) : World :=
  match t.stage with
  | .calledBack .complete => s.acknowledge t t.job.unique
  | .calledBack (.kill _) =>
    match deadJob t.job now with
    | none => s
    | some dead =>
      { s with
        db := ((moveToDeadJob t.worker t.job.id t.job.unique (jobPayload t.job) now.unix
          dead.marshal).run s.db).db }
  | .progressed (.retry retryAt) =>
    if retryAt.isZero then s.acknowledge t none
    else
      match nextJob t.job with
      | none => s
      | some next =>
        { s with
          db := ((retryJob t.worker t.job.id (jobPayload t.job) retryAt.unix next.marshal).run
            s.db).db }
  | _ => s

def World.requeue (t : Thread) (job : Job) : World :=
  match durableJobPayload job with
  | none => s
  | some durable =>
    { s with
      db := ((requeueJob t.worker job.queue (jobPayload job) durable.marshal).run s.db).db }

def World.step : Event → World
  | .enqueue job =>
    { s with db := ((enqueueNow job.queue job.marshal).run s.db).db, issued := job.id :: s.issued }
  | .enqueueAt job score =>
    { s with
      db := ((zadd Key.scheduled score job.marshal).run s.db).db, issued := job.id :: s.issued }
  | .push queue payload => { s with db := ((lpush (Key.queue queue) payload).run s.db).db }
  | .pushAt k payload score => { s with db := ((zadd k score payload).run s.db).db }
  | .promote k now => { s with db := ((enqueueScheduled cj k 100 now).run s.db).db }
  | .fetch worker queue => s.fetched ((fetchJob cj queue worker).run s.db) worker queue false
  | .sequentialFetch worker queue =>
    s.fetched ((sequentialFetch cj queue worker).run s.db) worker queue true
  | .unlock queue => { s with db := s.db.del (.sequentialLock queue) }
  | .discard t =>
    { s with db := ((discardSequentialFetch t.queue t.worker t.payload).run s.db).db }
  | .readType t =>
    let isString := Db.typeOf (s.db (.finalization t.job.id)) = .string
    s.spawn { t with stage := if t.job.id ≠ "" ∧ isString then .typed else .distrusted }
  | .readTrust t =>
    if s.db.str (.finalization t.job.id) = some t.payload then
      s.spawn (t.process { t.job with raw := t.payload })
    else s.spawn { t with stage := .distrusted }
  | .sanitize t => s.sanitize t
  | .handled t job op => s.spawn (t.finalize (withError job op) op)
  | .interrupted t job => s.requeue t job
  | .mark t =>
    match t.stage with
    | .finalizing op => s.mark t op
    | _ => s
  | .progress t =>
    match t.stage with
    | .recording op => s.spawn { t with stage := .progressed op }
    | _ => s
  | .callback t =>
    match t.stage with
    | .progressed op => s.spawn { t with stage := .calledBack op }
    | _ => s
  | .finish t now => s.finish t now
  | .reap worker => { s with db := ((requeueOrphaned cj worker).run s.db).db }

def Event.Ready : Event → Prop
  | .discard t => t.stage = .undecodable
  | .readType t => t.stage = .claimed
  | .readTrust t => t.stage = .typed
  | .sanitize t => t.stage = .distrusted
  | .handled t _ _ | .interrupted t _ => t.stage = .running
  | .mark t => ∃ op, t.stage = .finalizing op
  | .progress t => ∃ op, t.stage = .recording op
  | .callback t => ∃ op, t.stage = .progressed op ∧ ∀ retryAt, op ≠ .retry retryAt
  | .finish t _ =>
    (∃ op, t.stage = .calledBack op) ∨ ∃ retryAt, t.stage = .progressed (.retry retryAt)
  | _ => True

def Event.thread : Event → Option Thread
  | .discard t | .readType t | .readTrust t | .sanitize t | .handled t _ _ | .interrupted t _
  | .mark t | .progress t | .callback t | .finish t _ => some t
  | _ => none

/-- The data of a step: a job that is enqueued is new, the scheduled and the retry set are what
jobs are promoted from, and a handler does not touch what the worker keeps in the job. -/
def Event.Sensible : Event → Prop
  | .enqueue job | .enqueueAt job _ => job.finalization = none ∧ job.raw = ""
  | .promote k _ | .pushAt k _ _ => k = .scheduled ∨ k = .retry
  | .handled t job _ | .interrupted t job =>
    job.raw = t.job.raw ∧ job.finalization = t.job.finalization
  | _ => True

def World.Permits (e : Event) : Prop :=
  (∀ t ∈ e.thread, t ∈ s.threads) ∧ e.Ready ∧ e.Sensible

end Steps

def machine (cj : Cjson) : Machine World Event where
  permits := World.Permits
  step := World.step cj

@[simp] theorem machine_step (cj : Cjson) (s : World) (e : Event) :
    (machine cj).step s e = s.step cj e := rfl

end Senna
