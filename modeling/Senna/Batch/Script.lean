import Senna.Json.Tree
import Mathlib.Data.Finset.Card
import Mathlib.Data.Finset.Lattice.Basic

/-!
# The batch scripts

The seven Lua scripts that keep a batch's progress, as functions on what Redis
stores for one batch: the metadata written once by `storeBatchState`, the
progress hash, and the sets of unfinished members, failed members and
unfinished callback jobs.

Every script here is one atomic step. The keys have their expected types and
the progress hash exists (`storeBatchState` writes it together with the
metadata). Counters are unbounded integers, printed in decimal. Time to live is
left out.

`batchComplete` mirrors `batch_complete.lua`: the guards that leave everything
as it was come first, and what is recorded afterwards is `record`, computed
from values read before the first write.
-/

namespace Senna

namespace Batch

/-- `Result` of `internal/batch`: how a job or child batch completed. -/
inductive Result where
  | success
  | failure
  | death
  | invalidated
  | emptySuccess
  deriving DecidableEq, Repr

def defaultRetryCount : ℤ := 25

def defaultQueueName : String := "default"

/-- `CallbackInfo`: a configured callback. -/
structure CallbackInfo where
  jobType : String
  options : List (String × Json)

/-- `BatchState`, less the fields no script reads (description, creation time
and the copy of the failed IDs). -/
structure BatchState where
  id : String
  parentID : String
  total : ℤ
  pending : ℤ
  failures : ℤ
  successes : ℤ
  callbacksPending : ℤ
  callbackSeq : ℤ
  dead : Bool
  deathFired : Bool
  completeFired : Bool
  successFired : Bool
  onComplete : Option CallbackInfo
  onSuccess : Option CallbackInfo
  onDeath : Option CallbackInfo
  callbackQueue : String
  invalidated : Bool

/-- The fields of the progress hash. -/
structure Progress where
  id : String
  parentID : String
  callbackQueue : String
  total : ℤ
  pending : ℤ
  failures : ℤ
  successes : ℤ
  callbacksPending : ℤ
  callbackSeq : ℤ
  dead : Bool
  deathFired : Bool
  completeFired : Bool
  successFired : Bool
  invalidated : Bool
  deriving DecidableEq

end Batch

/-- What Redis stores for one batch. -/
structure Batch where
  /-- The metadata key; no script writes it. -/
  state : Batch.BatchState
  /-- The progress hash. -/
  progress : Batch.Progress
  /-- The jobs set: members not yet finished. -/
  jobs : Finset String
  /-- The failed set. -/
  failed : Finset String
  /-- The callbacks set: callback jobs not yet finished. -/
  callbacks : Finset String

namespace Batch

/-! ### Creating a batch -/

def batchProgressFields (s : BatchState) : Progress where
  id := s.id
  parentID := s.parentID
  callbackQueue := s.callbackQueue
  total := s.total
  pending := s.pending
  failures := s.failures
  successes := s.successes
  callbacksPending := s.callbacksPending
  callbackSeq := s.callbackSeq
  dead := s.dead
  deathFired := s.deathFired
  completeFired := s.completeFired
  successFired := s.successFired
  invalidated := s.invalidated

/-- What `EnqueueBatch` is asked to create: `client.Batch` with its jobs
reduced to their IDs. -/
structure Request where
  id : String
  parentID : String
  jobs : List String
  /-- Every job is built with an ID of its own. -/
  nodup : jobs.Nodup
  onComplete : Option CallbackInfo
  onSuccess : Option CallbackInfo
  onDeath : Option CallbackInfo

def buildBatchState (r : Request) (callbackQueue : String) : BatchState where
  id := r.id
  parentID := r.parentID
  total := r.jobs.length
  pending := r.jobs.length
  failures := 0
  successes := 0
  callbacksPending := 0
  callbackSeq := 0
  dead := false
  deathFired := false
  completeFired := false
  successFired := false
  onComplete := r.onComplete
  onSuccess := r.onSuccess
  onDeath := r.onDeath
  callbackQueue := callbackQueue
  invalidated := false

/-- `storeBatchState` for a fresh ID: metadata and progress are written, the
sets do not exist yet. -/
def storeBatchState (s : BatchState) : Batch where
  state := s
  progress := batchProgressFields s
  jobs := ∅
  failed := ∅
  callbacks := ∅

/-- `batch_enqueue_jobs.lua`: track the jobs of one chunk. The counters already
include them. -/
def batchEnqueueJobs (ids : List String) (b : Batch) : Batch :=
  { b with jobs := b.jobs ∪ ids.toFinset }

/-! ### Completing a member -/

/-- Which of the three configured callbacks a callback job runs. -/
inductive CallbackType where
  | death
  | complete
  | success
  deriving DecidableEq, Repr

/-- A callback job as `batch_complete.lua` builds it. -/
structure CallbackJob where
  callbackType : CallbackType
  jid : String
  jobClass : String
  queue : String
  args : List (String × Json)
  retry : ℤ
  retryCount : ℤ
  createdAt : String
  enqueuedAt : String
  callbackBID : String

/-- The fields of a recorded completion's reply. -/
structure CompleteResult where
  pending : ℤ
  successes : ℤ
  failures : ℤ
  dead : Bool
  invalidated : Bool
  parentID : Option String
  completedNow : Bool
  callbacksPending : ℤ
  deriving DecidableEq

/-- The replies of `batch_complete.lua` on an existing batch. -/
inductive CompleteReply where
  | batchNotEmpty
  | alreadyProcessed
  | recorded (r : CompleteResult)
  deriving DecidableEq

/-- What a call of `batch_complete.lua` leaves: the reply, the batch, the
callback jobs pushed to the callback queue, and whether the batch was added to
the dead batches. -/
structure CompleteEffect where
  reply : CompleteReply
  batch : Batch
  callbackJobs : List CallbackJob
  addDeadBatch : Bool

def progressString (s : String) : Option String := if s = "" then none else some s

def batchID (b : Batch) : String := (progressString b.progress.id).getD b.state.id

def parent (b : Batch) : Option String := progressString b.progress.parentID

/-- The queue callbacks go to: the progress hash's, else the metadata's, else
the default queue. -/
def callbackQueue (b : Batch) : String :=
  if b.progress.callbackQueue ≠ "" then b.progress.callbackQueue
  else if b.state.callbackQueue ≠ "" then b.state.callbackQueue
  else defaultQueueName

/-- The ID of the callback job with sequence number `seq`. -/
def callbackJobID (batchID : String) (seq : ℤ) : String :=
  batchID ++ ":callback:" ++ toString seq

/-- The arguments of a callback job: the configured options less the two names
Senna owns, then the batch's ID and its parent's. -/
def callbackArgs (batchID : String) (parent : Option String) (options : List (String × Json)) :
    List (String × Json) :=
  (options.filter fun o => o.1 ≠ "batch_id" ∧ o.1 ≠ "parent_id") ++
    [("batch_id", .str batchID)] ++
    (match parent with
      | none => []
      | some p => [("parent_id", .str p)])

/-- One callback job, with the sequence number `HINCRBY` returned for it. -/
def makeCallbackJob (b : Batch) (now : String) (seq : ℤ) (c : CallbackType × CallbackInfo) :
    CallbackJob where
  callbackType := c.1
  jid := callbackJobID b.batchID seq
  jobClass := c.2.jobType
  queue := b.callbackQueue
  args := callbackArgs b.batchID b.parent c.2.options
  retry := defaultRetryCount
  retryCount := 0
  createdAt := now
  enqueuedAt := now
  callbackBID := b.batchID

/-- The callback jobs for a list of callbacks, numbered from `seq + 1` on. -/
def makeCallbackJobs (b : Batch) (now : String) :
    ℤ → List (CallbackType × CallbackInfo) → List CallbackJob
  | _, [] => []
  | seq, c :: cs => makeCallbackJob b now (seq + 1) c :: makeCallbackJobs b now (seq + 1) cs

def Result.removes : Result → Bool
  | .success | .death | .invalidated => true
  | .failure | .emptySuccess => false

def Result.fails : Result → Bool
  | .failure | .death => true
  | .success | .invalidated | .emptySuccess => false

section Record

variable (jobID : String) (result : Result) (b : Batch)

/-- `pending_after`, before the clamp. -/
def pendingUnclamped : ℤ :=
  if result.removes then b.progress.pending - 1 else b.progress.pending

def pendingAfter : ℤ := if pendingUnclamped result b < 0 then 0 else pendingUnclamped result b

/-- `add_failed_job`: a failure or death of a member not yet in the failed set. -/
def addFailedJob : Bool := result.fails && decide (jobID ∉ b.failed)

def addDeadBatch : Bool := decide (result = .death) && !b.progress.invalidated

def deadAfter : Bool := b.progress.dead || addDeadBatch result b

def invalidatedAfter : Bool := b.progress.invalidated || decide (result = .invalidated)

/-- The death callback is due: the first recorded death with a callback for it. -/
def firesDeath : Bool :=
  addDeadBatch result b && !b.progress.deathFired && b.state.onDeath.isSome

def firesComplete : Bool := decide (pendingAfter result b = 0) && !b.progress.completeFired

def firesSuccess : Bool :=
  firesComplete result b && !deadAfter result b && !invalidatedAfter result b &&
    !b.progress.successFired && b.state.onSuccess.isSome

def callbackList : List (CallbackType × CallbackInfo) :=
  (if firesDeath result b then b.state.onDeath.toList.map (.death, ·) else []) ++
    (if firesComplete result b then b.state.onComplete.toList.map (.complete, ·) else []) ++
    (if firesSuccess result b then b.state.onSuccess.toList.map (.success, ·) else [])

def callbackJobs (now : String) : List CallbackJob :=
  makeCallbackJobs b now b.progress.callbackSeq (callbackList result b)

def progressAfter : Progress :=
  { b.progress with
    successes := b.progress.successes + (if result = .success then 1 else 0)
    failures := b.progress.failures + (if addFailedJob jobID result b then 1 else 0)
    pending := if result.removes then pendingAfter result b else b.progress.pending
    dead := deadAfter result b
    invalidated := invalidatedAfter result b
    deathFired := b.progress.deathFired || firesDeath result b
    completeFired := b.progress.completeFired || firesComplete result b
    successFired := b.progress.successFired || firesSuccess result b
    callbacksPending := b.progress.callbacksPending + (callbackList result b).length
    callbackSeq := b.progress.callbackSeq + (callbackList result b).length }

def completedNow : Bool :=
  decide (pendingAfter result b = 0) &&
    decide (b.progress.callbacksPending + (callbackList result b).length = 0) &&
    (b.progress.completeFired || firesComplete result b)

def batchAfter (now : String) : Batch :=
  { b with
    progress := progressAfter jobID result b
    jobs := if result.removes then b.jobs.erase jobID else b.jobs
    failed := if addFailedJob jobID result b then insert jobID b.failed else b.failed
    callbacks := b.callbacks ∪ ((callbackJobs result b now).map CallbackJob.jid).toFinset }

def completeResult : CompleteResult where
  pending := pendingAfter result b
  successes := b.progress.successes + (if result = .success then 1 else 0)
  failures := b.progress.failures + (if addFailedJob jobID result b then 1 else 0)
  dead := deadAfter result b
  invalidated := invalidatedAfter result b
  parentID := b.parent
  completedNow := completedNow result b
  callbacksPending := b.progress.callbacksPending + (callbackList result b).length

/-- The part of `batch_complete.lua` behind its guards. -/
def record (now : String) : CompleteEffect where
  reply := .recorded (completeResult jobID result b)
  batch := batchAfter jobID result b now
  callbackJobs := callbackJobs result b now
  addDeadBatch := addDeadBatch result b

/-- A guard of `batch_complete.lua` ends the call: nothing is written. -/
def refuse (reply : CompleteReply) : CompleteEffect where
  reply := reply
  batch := b
  callbackJobs := []
  addDeadBatch := false

def batchComplete (now : String) : CompleteEffect :=
  if result = .emptySuccess then
    if b.progress.pending ≠ 0 then refuse b .batchNotEmpty
    else if b.progress.completeFired then refuse b .alreadyProcessed
    else record jobID result b now
  else if jobID ∉ b.jobs then refuse b .alreadyProcessed
  else record jobID result b now

end Record

/-! ### Completing a callback job -/

/-- The reply of `batch_callback_complete.lua`. -/
structure CallbackReply where
  alreadyProcessed : Bool
  callbacksPending : ℤ
  pending : ℤ
  shouldPropagate : Bool
  parentID : Option String
  dead : Bool
  invalidated : Bool
  deriving DecidableEq

def batchCallbackComplete (jobID : String) (b : Batch) : CallbackReply × Batch :=
  if jobID ∉ b.callbacks then
    -- a duplicate: the reply reports the current state and nothing is decremented
    ({ alreadyProcessed := true
       callbacksPending := b.progress.callbacksPending
       pending := b.progress.pending
       shouldPropagate := false
       parentID := b.parent
       dead := b.progress.dead
       invalidated := b.progress.invalidated }, b)
  else
    let left := if b.progress.callbacksPending - 1 < 0 then 0 else b.progress.callbacksPending - 1
    ({ alreadyProcessed := false
       callbacksPending := left
       pending := b.progress.pending
       shouldPropagate :=
         decide (b.progress.pending = 0) && decide (left = 0) && b.progress.completeFired
       parentID := b.parent
       dead := b.progress.dead
       invalidated := b.progress.invalidated },
     { b with
       progress := { b.progress with callbacksPending := left }
       callbacks := b.callbacks.erase jobID })

/-! ### Adding, rolling back and invalidating -/

/-- The replies of `batch_add_jobs.lua` on an existing batch. -/
inductive AddJobsReply where
  | batchInvalidated
  | batchComplete
  | success (total pending : ℤ)
  deriving DecidableEq

def batchAddJobs (ids : List String) (b : Batch) : AddJobsReply × Batch :=
  if b.progress.invalidated then (.batchInvalidated, b)
  else if b.progress.completeFired then (.batchComplete, b)
  else
    let p := { b.progress with
      total := b.progress.total + ids.length
      pending := b.progress.pending + ids.length }
    (.success p.total p.pending, { b with progress := p, jobs := b.jobs ∪ ids.toFinset })

/-- The replies of `batch_add_child.lua` on an existing batch. -/
inductive AddChildReply where
  | batchInvalidated
  | alreadyExists
  | success
  deriving DecidableEq

def batchAddChild (childID : String) (b : Batch) : AddChildReply × Batch :=
  if b.progress.invalidated then (.batchInvalidated, b)
  else if childID ∈ b.jobs then (.alreadyExists, b)
  else
    (.success,
     { b with
       progress := { b.progress with
         total := b.progress.total + 1
         pending := b.progress.pending + 1
         completeFired := false
         successFired := b.progress.successFired && !b.progress.completeFired }
       jobs := insert childID b.jobs })

/-- The replies of `batch_remove_child.lua` on an existing batch. -/
inductive RemoveChildReply where
  | notFound
  | success
  deriving DecidableEq

/-- `batch_remove_child.lua`: with nothing pending afterwards the fired flags
are set, whatever they were before the child was linked. -/
def batchRemoveChild (childID : String) (b : Batch) : RemoveChildReply × Batch :=
  if childID ∉ b.jobs then (.notFound, b)
  else
    let total := if b.progress.total - 1 < 0 then 0 else b.progress.total - 1
    let pending := if b.progress.pending - 1 < 0 then 0 else b.progress.pending - 1
    (.success,
     { b with
       progress := { b.progress with
         total := total
         pending := pending
         completeFired := b.progress.completeFired || decide (pending = 0)
         successFired := b.progress.successFired ||
           (decide (pending = 0) && !b.progress.dead && !b.progress.invalidated) }
       jobs := b.jobs.erase childID })

def batchInvalidate (b : Batch) : ℤ × Batch :=
  (b.progress.pending, { b with progress := { b.progress with invalidated := true } })

end Batch

end Senna
