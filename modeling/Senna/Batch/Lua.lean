import Senna.Batch.Script
import Senna.Redis.Checked
import Senna.Worker.Payload

/-!
# The batch scripts, command by command

`Batch.Script` has the batch scripts as functions on what is stored for a batch. Here they are as
the sequences of Redis commands they consist of, on a keyspace in which any key can hold anything:
with the checks of the types, with batches whose progress hash does not exist yet, and with
metadata that is any JSON at all.

The scripts share three things. They look at the types of the keys before they go on (`guarded`).
A batch from the time before there were progress hashes gets one, from its metadata (`migrate`).
And they read the fields of the hash in the same way: a flag is the text of `0` or `1`, a counter
that is missing or not a number has a default, an empty text counts as missing.

A value of Lua is an `Option Json`, with `none` for `nil`. Only `nil` and `false` are false in a
condition. Commands take strings and numbers, and a script that passes anything else stops with a
runtime error, as one does that indexes a number. How a number of a document is printed for a
command is left open (`Runtime.pass`), but for integers that a double represents.

Time to live is left out, and the IDs and times of new callback jobs are arguments.
-/

namespace Senna

namespace BatchLua

open Redis Batch

/-! ### Keys -/

/-- The keys of the batch scripts. -/
inductive Key where
  /-- The metadata of a batch. -/
  | batch (id : String)
  | progress (id : String)
  | jobs (id : String)
  | failed (id : String)
  | callbacks (id : String)
  /-- The IDs of all batches. -/
  | batches
  | deadBatches
  | queues
  | queue (name : String)
  deriving DecidableEq

def Key.kind : Key → KeyType
  | .batch _ => .string
  | .progress _ => .hash
  | .jobs _ | .failed _ | .callbacks _ | .batches | .deadBatches | .queues => .set
  | .queue _ => .list

/-! ### Lua -/

/-- The libraries of the scripts. -/
structure Runtime extends Cjson where
  /-- A number as it is passed to a command. -/
  pass : Json.Number → Scalar
  pass_ofInt : ∀ n : ℤ, n.natAbs < 2 ^ 53 → pass (.ofInt n) = .int n

/-- A runtime that passes integers of any size on, and nothing for other numbers. -/
def Runtime.plain : Runtime where
  toCjson := .plain
  pass n := match n.toInt? with
    | some i => .int i
    | none => .text ""
  pass_ofInt n _ := by simp

def print : Scalar → String
  | .int n => toString n
  | .text s => s

/-- The value in a condition: `nil` and `false` are false. -/
def truthy : Option Json → Option Json
  | some (.bool false) => none
  | v => v

/-- `v[name]`, if `v` can be indexed. Strings can, and have no fields that the scripts use. -/
def index (name : String) : Json → Option (Option Json)
  | .obj ms => some (Json.lookup name ms)
  | .arr _ | .str _ => some none
  | _ => none

/-- `v[name]`. -/
def field (v : Json) (name : String) : Script Key (Option Json) :=
  match index name v with
  | some x => pure x
  | none => Script.fail (.raised "attempt to index a value that is no table")

section Runtime

variable (rt : Runtime)

def argument : Option Json → Script Key Scalar
  | some (.str s) => pure (.text s)
  | some (.num n) => pure (rt.pass n)
  | _ => Script.fail (.raised "Lua redis() command arguments must be strings or integers")

def loadBatch (id : String) : Script Key Json := do
  let data ← get (.batch id)
  match data.bind rt.decode with
  | some batch => pure batch
  | none => Script.fail (.raised "Expected value")

/-! ### Old batches -/

/-- `legacy[name] or default`, as an argument of a command. -/
def orDefault (legacy : Json) (name : String) (default : Script Key Scalar) :
    Script Key Scalar := do
  let v ← field legacy name
  match truthy v with
  | some v => argument rt (some v)
  | none => default

/-- `legacy[name] and "1" or "0"`. -/
def flag (legacy : Json) (name : String) : Script Key Scalar := do
  let v ← field legacy name
  pure (.int (if (truthy v).isSome then 1 else 0))

def legacyFields (legacy : Json) (pending : Script Key Scalar) :
    Script Key (List (String × Scalar)) := do
  let id ← orDefault rt legacy "id" (pure (.text ""))
  let parentID ← orDefault rt legacy "parent_id" (pure (.text ""))
  let callbackQueue ← orDefault rt legacy "callback_queue" (pure (.text ""))
  let total ← orDefault rt legacy "total" (pure (.int 0))
  let pending ← orDefault rt legacy "pending" pending
  let failures ← orDefault rt legacy "failures" (pure (.int 0))
  let successes ← orDefault rt legacy "successes" (pure (.int 0))
  let callbacksPending ← orDefault rt legacy "callbacks_pending" (pure (.int 0))
  let callbackSeq ← orDefault rt legacy "callback_seq" (pure (.int 0))
  let dead ← flag legacy "dead"
  let deathFired ← flag legacy "death_fired"
  let completeFired ← flag legacy "complete_fired"
  let successFired ← flag legacy "success_fired"
  let invalidated ← flag legacy "invalidated"
  pure [("id", id), ("parent_id", parentID), ("callback_queue", callbackQueue), ("total", total),
    ("pending", pending), ("failures", failures), ("successes", successes),
    ("callbacks_pending", callbacksPending), ("callback_seq", callbackSeq), ("dead", dead),
    ("death_fired", deathFired), ("complete_fired", completeFired),
    ("success_fired", successFired), ("invalidated", invalidated)]

/-- A batch without a progress hash gets one. The scripts differ in what they take for the pending
members if the metadata does not say. -/
def migrate (id : String) (pending : Script Key Scalar) : Script Key Unit := do
  let progressType ← type (.progress id)
  if progressType = .none then do
    let legacy ← loadBatch rt id
    let fields ← legacyFields rt legacy pending
    hsetAll (.progress id) fields
  else pure ()

/-- `SCARD` of the jobs set, for the pending members. -/
def membersLeft (id : String) : Script Key Scalar := do
  let n ← scard (.jobs id)
  pure (.int n)

def noneLeft : Script Key Scalar := pure (.int 0)

/-! ### Checks -/

def expectAll : List (String × Key) → Script Key Unit
  | [] => pure ()
  | (what, k) :: checks => do
    expect what k k.kind
    expectAll checks

/-- The beginning of the scripts on a batch: without metadata there is none, and then the keys
must have their types. -/
def guarded {α : Type} (id : String) (checks : List (String × Key)) (missing : α)
    (body : Script Key α) : Script Key α := do
  let batchType ← type (.batch id)
  if batchType = .none then pure missing
  else do
    expect "batch" (.batch id) .string
    expectAll checks
    body

/-! ### Reading the progress -/

def boolValue : Option Scalar → Bool
  | some (.int n) => n = 1
  | some (.text s) => s = "1" ∨ s = "true"
  | none => false

/-- `progress_number` and `number_field`. -/
def numberValue (default : ℤ) : Option Scalar → ℤ
  | some (.int n) => n
  | _ => default

/-- `progress_string`. -/
def stringValue : Option Scalar → Option String
  | some v => if print v = "" then none else some (print v)
  | none => none

def boolField (id field : String) : Script Key Bool := do
  let v ← hget (.progress id) field
  pure (boolValue v)

def numberField (id field : String) : Script Key ℤ := do
  let v ← hget (.progress id) field
  pure (numberValue 0 v)

/-! ### Completing a member -/

/-- What `batch_complete.lua` knows of the progress. -/
structure Before where
  pending : ℤ
  successes : ℤ
  failures : ℤ
  callbacksPending : ℤ
  dead : Bool
  invalidated : Bool
  deathFired : Bool
  completeFired : Bool
  successFired : Bool
  id : Option String
  parentID : Option String

def readProgress (members : ℕ) (h : String → Option Scalar) : Before where
  pending := numberValue members (h "pending")
  successes := numberValue 0 (h "successes")
  failures := numberValue 0 (h "failures")
  callbacksPending := numberValue 0 (h "callbacks_pending")
  dead := boolValue (h "dead")
  invalidated := boolValue (h "invalidated")
  deathFired := boolValue (h "death_fired")
  completeFired := boolValue (h "complete_fired")
  successFired := boolValue (h "success_fired")
  id := stringValue (h "id")
  parentID := stringValue (h "parent_id")

def refusal (id jobID : String) (result : Batch.Result) (before : Before) :
    Script Key (Option CompleteReply) :=
  if result = .emptySuccess then
    if before.pending ≠ 0 then pure (some .batchNotEmpty)
    else if before.completeFired then pure (some .alreadyProcessed)
    else pure none
  else do
    let member ← sismember (.jobs id) jobID
    pure (if member then none else some .alreadyProcessed)

/-- An element of `callback_list`. -/
structure Callback where
  callbackType : CallbackType
  jobType : String
  options : Option Json

/-- What `batch_complete.lua` is going to write. -/
structure Plan where
  pending : ℤ
  successesDelta : ℤ
  failuresDelta : ℤ
  addFailedJob : Bool
  addDeadBatch : Bool
  dead : Bool
  invalidated : Bool
  deathFired : Bool
  completeFired : Bool
  successFired : Bool
  callbacks : List Callback

def Plan.init (before : Before) : Plan where
  pending := before.pending
  successesDelta := 0
  failuresDelta := 0
  addFailedJob := false
  addDeadBatch := false
  dead := before.dead
  invalidated := before.invalidated
  deathFired := before.deathFired
  completeFired := before.completeFired
  successFired := before.successFired
  callbacks := []

def makeCallback (callbackType : CallbackType) (config : Json) (plan : Plan) : Script Key Plan := do
  let jobType ← field config "job_type"
  let options ← field config "options"
  let callback : Callback := ⟨callbackType, match jobType with | some (.str s) => s | _ => "", options⟩
  pure { plan with callbacks := plan.callbacks ++ [callback] }

def notFailed (id jobID : String) : Script Key Bool := do
  expect "batch failed" (.failed id) .set
  let member ← sismember (.failed id) jobID
  pure (!member)

def planResult (id jobID : String) (before : Before) : Batch.Result → Script Key Plan
  | .success => pure { Plan.init before with successesDelta := 1, pending := before.pending - 1 }
  | .failure => do
    let fresh ← notFailed id jobID
    pure { Plan.init before with failuresDelta := if fresh then 1 else 0, addFailedJob := fresh }
  | .death => do
    let fresh ← notFailed id jobID
    let plan := { Plan.init before with
      failuresDelta := if fresh then 1 else 0, addFailedJob := fresh,
      pending := before.pending - 1 }
    if before.invalidated then pure plan
    else do
      let plan := { plan with dead := true, addDeadBatch := true }
      if before.deathFired then pure plan
      else do
        let metadata ← loadBatch rt id
        let onDeath ← field metadata "on_death"
        match truthy onDeath with
        | some config => makeCallback .death config { plan with deathFired := true }
        | none => pure plan
  | .invalidated =>
    pure { Plan.init before with pending := before.pending - 1, invalidated := true }
  | .emptySuccess => pure (Plan.init before)

def planCompletion (id : String) (plan : Plan) : Script Key Plan := do
  let plan := { plan with pending := if plan.pending < 0 then 0 else plan.pending }
  if plan.pending = 0 ∧ plan.completeFired = false then do
    let plan := { plan with completeFired := true }
    let metadata ← loadBatch rt id
    let onComplete ← field metadata "on_complete"
    let plan ← match truthy onComplete with
      | some config => makeCallback .complete config plan
      | none => pure plan
    if plan.dead = false ∧ plan.invalidated = false ∧ plan.successFired = false then do
      let onSuccess ← field metadata "on_success"
      match truthy onSuccess with
      | some config => makeCallback .success config { plan with successFired := true }
      | none => pure plan
    else pure plan
  else pure plan

/-- The queue of the callback jobs: that of the progress hash, that of the metadata, or the default
queue. -/
def callbackQueue (id : String) : Script Key String := do
  let queue ← hget (.progress id) "callback_queue"
  match stringValue queue with
  | some queue => pure queue
  | none => do
    let metadata ← loadBatch rt id
    let queue ← field metadata "callback_queue"
    match queue with
    | some (.str s) => pure (if s ≠ "" then s else defaultQueueName)
    | _ => pure defaultQueueName

def callbackTarget (id : String) (plan : Plan) : Script Key String :=
  if plan.callbacks ≠ [] then do
    let queue ← callbackQueue rt id
    expect "batch callbacks" (.callbacks id) .set
    expect "queues" .queues .set
    expect "queue" (.queue queue) .list
    pure queue
  else pure ""

def progressUpdates (result : Batch.Result) (plan : Plan) : List (String × Scalar) :=
  (if result.removes then [("pending", .int plan.pending)] else []) ++
    (if plan.dead then [("dead", .int 1)] else []) ++
    (if plan.invalidated then [("invalidated", .int 1)] else []) ++
    (if plan.deathFired then [("death_fired", .int 1)] else []) ++
    (if plan.completeFired then [("complete_fired", .int 1)] else []) ++
    (if plan.successFired then [("success_fired", .int 1)] else [])

def pairs : Json → List (String × Json)
  | .obj ms => ms
  | .arr items => items.zipIdx.map fun e => (toString (e.2 + 1), e.1)
  | _ => []

def callbackArgs (batchID : Json) (parentID : Option String) (options : Option Json) :
    List (String × Json) :=
  (((options.map pairs).getD []).filter fun o => o.1 ≠ "batch_id" ∧ o.1 ≠ "parent_id") ++
    [("batch_id", batchID)] ++
    (match parentID with
      | none => []
      | some p => [("parent_id", .str p)])

def callbackJob (jid : String) (callback : Callback) (queue now : String) (batchID : Json)
    (parentID : Option String) : Json :=
  .obj [("jid", .str jid), ("class", .str callback.jobType), ("queue", .str queue),
    ("args", .obj (callbackArgs batchID parentID callback.options)),
    ("retry", .int defaultRetryCount), ("retry_count", .int 0), ("created_at", .str now),
    ("enqueued_at", .str now), ("callback_bid", batchID)]

def encodeCallbacks (id queue now : String) (batchID : Option Json) (parentID : Option String) :
    List Callback → Script Key (List (String × String))
  | [] => pure []
  | callback :: callbacks => do
    let seq ← hincrby (.progress id) "callback_seq" 1
    let name ← argument rt batchID
    let jid := print name ++ ":callback:" ++ toString seq
    match rt.encode (callbackJob jid callback queue now (batchID.getD .null) parentID) with
    | some data => do
      let rest ← encodeCallbacks id queue now batchID parentID callbacks
      pure ((jid, data) :: rest)
    | none => Script.fail (.raised "Cannot serialise")

def pushCallbacks (id queue : String) : List (String × String) → Script Key Unit
  | [] => pure ()
  | (jid, data) :: jobs => do
    let _ ← sadd (.callbacks id) jid
    lpush (.queue queue) data
    pushCallbacks id queue jobs

/-- `if c then ... end`. -/
def whenever {α : Type} (c : Bool) (x : Script Key α) : Script Key Unit :=
  if c then do
    let _ ← x
    pure ()
  else pure ()

/-- The writes. -/
def recordCompletion (id jobID : String) (result : Batch.Result) (now : String) (before : Before)
    (plan : Plan) (queue : String) : Script Key Unit := do
  whenever (plan.successesDelta ≠ 0) (hincrby (.progress id) "successes" plan.successesDelta)
  whenever (plan.failuresDelta ≠ 0) (hincrby (.progress id) "failures" plan.failuresDelta)
  whenever (progressUpdates result plan ≠ [])
    (hsetAll (.progress id) (progressUpdates result plan))
  whenever (!plan.callbacks.isEmpty)
    (hincrby (.progress id) "callbacks_pending" plan.callbacks.length)
  whenever result.removes (srem (.jobs id) jobID)
  whenever plan.addFailedJob (sadd (.failed id) jobID)
  let batchID ← match before.id with
    | some s => pure (some (.str s))
    | none => do
      let metadata ← loadBatch rt id
      field metadata "id"
  whenever plan.addDeadBatch (do
    let name ← argument rt batchID
    sadd .deadBatches (print name))
  let jobs ← encodeCallbacks rt id queue now batchID before.parentID plan.callbacks
  whenever (!plan.callbacks.isEmpty) (do
    let _ ← sadd .queues queue
    pushCallbacks id queue jobs)

def completeReply (before : Before) (plan : Plan) : CompleteResult where
  pending := plan.pending
  successes := before.successes + plan.successesDelta
  failures := before.failures + plan.failuresDelta
  dead := plan.dead
  invalidated := plan.invalidated
  parentID := before.parentID
  completedNow := plan.pending = 0 ∧ before.callbacksPending + plan.callbacks.length = 0 ∧
    plan.completeFired = true
  callbacksPending := before.callbacksPending + plan.callbacks.length

/-- `batch_complete.lua`, behind the migration. -/
def complete (id jobID : String) (result : Batch.Result) (now : String) :
    Script Key (Option CompleteReply) := do
  let progress ← hmget (.progress id)
  let members ← scard (.jobs id)
  let before := readProgress members progress
  let refused ← refusal id jobID result before
  match refused with
  | some reply => pure (some reply)
  | none => do
    let plan ← planResult rt id jobID before result
    let plan ← planCompletion rt id plan
    let queue ← callbackTarget rt id plan
    if plan.addDeadBatch then expect "dead batches" .deadBatches .set
    recordCompletion rt id jobID result now before plan queue
    pure (some (.recorded (completeReply before plan)))

def batchComplete (id jobID : String) (result : Batch.Result) (now : String) :
    Script Key (Option CompleteReply) :=
  guarded id [("batch jobs", .jobs id), ("batch progress", .progress id)] none do
    migrate rt id (membersLeft id)
    complete rt id jobID result now

/-! ### Completing a callback job -/

/-- `batch_callback_complete.lua`, behind the migration. -/
def callbackComplete (id jobID : String) : Script Key (Option CallbackReply) := do
  let parent ← hget (.progress id) "parent_id"
  let removed ← srem (.callbacks id) jobID
  if removed = 0 then do
    let callbacksPending ← numberField id "callbacks_pending"
    let pending ← numberField id "pending"
    let dead ← boolField id "dead"
    let invalidated ← boolField id "invalidated"
    pure (some ⟨true, callbacksPending, pending, false, stringValue parent, dead, invalidated⟩)
  else do
    let left ← hincrby (.progress id) "callbacks_pending" (-1)
    whenever (left < 0) (hset (.progress id) "callbacks_pending" (.int 0))
    let left := if left < 0 then 0 else left
    let pending ← numberField id "pending"
    let completeFired ← boolField id "complete_fired"
    let dead ← boolField id "dead"
    let invalidated ← boolField id "invalidated"
    pure (some ⟨false, left, pending, pending = 0 ∧ left = 0 ∧ completeFired = true,
      stringValue parent, dead, invalidated⟩)

def batchCallbackComplete (id jobID : String) : Script Key (Option CallbackReply) :=
  guarded id [("batch progress", .progress id), ("batch callbacks", .callbacks id)] none do
    migrate rt id noneLeft
    callbackComplete id jobID

/-! ### Adding, rolling back and invalidating -/

/-- A job of a call: its ID, its queue and its payload. -/
structure NewJob where
  id : String
  queue : String
  data : String

def expectQueues : List NewJob → Script Key Unit
  | [] => pure ()
  | job :: jobs => do
    expect "queue" (.queue job.queue) .list
    expectQueues jobs

def pushJobs (id : String) : List NewJob → Script Key Unit
  | [] => pure ()
  | job :: jobs => do
    let _ ← sadd (.jobs id) job.id
    lpush (.queue job.queue) job.data
    pushJobs id jobs

/-- `batch_add_jobs.lua`, behind the migration. -/
def addJobs (id : String) (jobs : List NewJob) : Script Key (Option AddJobsReply) := do
  let invalidated ← boolField id "invalidated"
  if invalidated then pure (some .batchInvalidated)
  else do
    let completeFired ← boolField id "complete_fired"
    if completeFired then pure (some .batchComplete)
    else do
      expectQueues jobs
      pushJobs id jobs
      let total ← hincrby (.progress id) "total" jobs.length
      let pending ← hincrby (.progress id) "pending" jobs.length
      pure (some (.success total pending))

def batchAddJobs (id : String) (jobs : List NewJob) : Script Key (Option AddJobsReply) :=
  guarded id [("batch progress", .progress id), ("batch jobs", .jobs id)] none do
    migrate rt id (membersLeft id)
    addJobs id jobs

/-- `batch_add_child.lua`, behind the migration. -/
def addChild (id childID : String) : Script Key (Option AddChildReply) := do
  let invalidated ← boolField id "invalidated"
  if invalidated then pure (some .batchInvalidated)
  else do
    let added ← sadd (.jobs id) childID
    if added = 0 then pure (some .alreadyExists)
    else do
      let _ ← hincrby (.progress id) "total" 1
      let _ ← hincrby (.progress id) "pending" 1
      let completeFired ← boolField id "complete_fired"
      whenever completeFired
        (hsetAll (.progress id) [("complete_fired", .int 0), ("success_fired", .int 0)])
      pure (some .success)

def batchAddChild (id childID : String) : Script Key (Option AddChildReply) :=
  guarded id [("batch progress", .progress id), ("batch jobs", .jobs id)] none do
    migrate rt id (membersLeft id)
    addChild id childID

def decrement (id field : String) : Script Key ℤ := do
  let n ← hincrby (.progress id) field (-1)
  whenever (n < 0) (hset (.progress id) field (.int 0))
  pure (if n < 0 then 0 else n)

/-- `batch_remove_child.lua`, behind the migration. -/
def removeChild (id childID : String) : Script Key (Option RemoveChildReply) := do
  let removed ← srem (.jobs id) childID
  if removed = 0 then pure (some .notFound)
  else do
    let _ ← decrement id "total"
    let pending ← decrement id "pending"
    if pending = 0 then do
      hset (.progress id) "complete_fired" (.int 1)
      let dead ← boolField id "dead"
      let invalidated ← boolField id "invalidated"
      whenever (!dead && !invalidated) (hset (.progress id) "success_fired" (.int 1))
      pure (some .success)
    else pure (some .success)

def batchRemoveChild (id childID : String) : Script Key (Option RemoveChildReply) :=
  guarded id [("batch progress", .progress id), ("batch jobs", .jobs id)] none do
    migrate rt id (membersLeft id)
    removeChild id childID

/-- `batch_invalidate.lua`, behind the migration. -/
def invalidate (id : String) : Script Key (Option ℤ) := do
  hset (.progress id) "invalidated" (.int 1)
  let pending ← numberField id "pending"
  pure (some pending)

def batchInvalidate (id : String) : Script Key (Option ℤ) :=
  guarded id [("batch progress", .progress id)] none do
    migrate rt id noneLeft
    invalidate id

/-- The calls of the scripts that need the progress of a batch. -/
inductive Call where
  | complete (jobID : String) (result : Batch.Result) (now : String)
  | callbackComplete (jobID : String)
  | addJobs (jobs : List NewJob)
  | addChild (childID : String)
  | removeChild (childID : String)
  | invalidate

/-- Their replies. -/
inductive Reply where
  | complete (reply : Option CompleteReply)
  | callbackComplete (reply : Option CallbackReply)
  | addJobs (reply : Option AddJobsReply)
  | addChild (reply : Option AddChildReply)
  | removeChild (reply : Option RemoveChildReply)
  | invalidate (pending : Option ℤ)

def Call.script (id : String) : Call → Script Key Reply
  | .complete jobID result now => do
    let reply ← batchComplete rt id jobID result now
    pure (.complete reply)
  | .callbackComplete jobID => do
    let reply ← batchCallbackComplete rt id jobID
    pure (.callbackComplete reply)
  | .addJobs jobs => do
    let reply ← batchAddJobs rt id jobs
    pure (.addJobs reply)
  | .addChild childID => do
    let reply ← batchAddChild rt id childID
    pure (.addChild reply)
  | .removeChild childID => do
    let reply ← batchRemoveChild rt id childID
    pure (.removeChild reply)
  | .invalidate => do
    let pending ← batchInvalidate rt id
    pure (.invalidate pending)

end Runtime

def batchEnqueueJobs (id : String) (jobs : List NewJob) : Script Key Unit := do
  expect "batch jobs" (.jobs id) .set
  expectQueues jobs
  pushJobs id jobs

end BatchLua

end Senna
