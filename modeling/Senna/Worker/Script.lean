import Senna.Keys
import Senna.Redis.Command
import Senna.Worker.Payload

/-!
# The worker's scripts

The Lua scripts that move jobs between Redis keys, command by command, as sequences of
the commands of `Redis.Command`. Each is called with the keys and arguments the worker
builds. A script runs as one step, but a runtime error in the middle of it does not undo
the writes before it: `fetchJob` has popped the payload, and `sequentialFetch` has moved
it, when `cjson.encode` raises.

Both fetch scripts decide in the same way what to hold in flight (`claim`): a payload
with a marker that is not the trusted one of its job loses the marker. The two scripts
that put jobs back on their queues read the target queue in the same way (`queueOf`).

The second half says what each script does to a well typed keyspace, once and for all;
the lemmas `run_fetchJob` to `run_requeueOrphaned` are all that is used of them later.
-/

namespace Senna

open Redis

/-! ### Checks -/

def want (what : String) (k : Key) : Script Key Unit := do
  let t ← type k
  if t = .none ∨ t = k.kind then pure ()
  else Script.fail (.reply (what ++ " key has type " ++ t.name ++ ", want " ++ k.kind.name))

/-- Whether a string key holds exactly this text; a key of another type does not. -/
def holds (k : Key) (text : String) : Script Key Bool := do
  let t ← type k
  if t = .string then do
    let s ← get k
    pure (s == some text)
  else pure false

/-! ### Fetching -/

/-- Whether the marker of a decoded payload is trusted: it is a table, the job has an ID, and
the finalization key of that ID holds this payload. -/
def trusts (job : Json) (payload : String) : Script Key Bool :=
  match Lua.field "finalization" job, Lua.field "jid" job with
  | .table, .string jid => if jid ≠ "" then holds (.finalization jid) payload else pure false
  | _, _ => pure false

def claim (cj : Cjson) (payload : String) : Script Key String :=
  match cj.decode payload with
  | none => pure payload
  | some job =>
    if Lua.isTable job = true ∧ Lua.field "finalization" job ≠ .nil then do
      let trusted ← trusts job payload
      if trusted then pure payload
      else
        match cj.encode (Lua.clear "finalization" job) with
        | some s => pure s
        | none => Script.fail (.raised "Cannot serialise")
    else pure payload

/-- The reply of the fetch scripts. -/
inductive FetchReply where
  | empty
  | locked
  | job (payload : String)
  deriving DecidableEq, Repr

def fetchJob (cj : Cjson) (queue workerID : String) : Script Key FetchReply := do
  want "queue" (.queue queue)
  want "in-flight" (.inFlight workerID)
  let payload? ← rpop (.queue queue)
  match payload? with
  | none => pure .empty
  | some payload => do
    let held ← claim cj payload
    lpush (.inFlight workerID) held
    pure (.job held)

def replaceFirst (k : Key) (payload payload' : String) : Script Key Bool := do
  let index ← lpos k payload
  match index with
  | some i => do
    lset k i payload'
    pure true
  | none => pure false

def sequentialFetch (cj : Cjson) (queue workerID : String) : Script Key FetchReply := do
  want "queue" (.queue queue)
  want "in-flight" (.inFlight workerID)
  let holder ← get (.sequentialLock queue)
  if holder ≠ none ∧ holder ≠ some workerID then pure .locked
  else do
    let payload? ← lmove (.queue queue) (.inFlight workerID)
    match payload? with
    | none => pure .empty
    | some payload => do
      let held ← claim cj payload
      if held ≠ payload then do
        let _ ← replaceFirst (.inFlight workerID) payload held
        set (.sequentialLock queue) workerID
        pure (.job held)
      else do
        set (.sequentialLock queue) workerID
        pure (.job held)

/-- `discard_sequential_fetch.lua`: drop a payload that could not be read, and the lock. -/
def discardSequentialFetch (queue workerID payload : String) : Script Key Unit := do
  want "in-flight" (.inFlight workerID)
  let _ ← lrem (.inFlight workerID) payload
  let holder ← get (.sequentialLock queue)
  if holder = some workerID then del (.sequentialLock queue) else pure ()

def releaseSequentialLock (queue workerID : String) : Script Key ℕ := do
  let holder ← get (.sequentialLock queue)
  if holder = some workerID then do
    del (.sequentialLock queue)
    pure 1
  else pure 0

/-! ### Marking -/

def contains (k : Key) (payload : String) : Script Key Bool := do
  let index ← lpos k payload
  pure index.isSome

/-- `mark_job_finalization.lua`: put the marker into the payload where it is in flight, or
where it waits again after a recovery, and trust it. -/
def markJobFinalization (workerID queue jobID payload finalized : String) : Script Key ℕ := do
  want "in-flight" (.inFlight workerID)
  if ← replaceFirst (.inFlight workerID) payload finalized then do
    set (.finalization jobID) finalized
    pure 1
  else if ← contains (.inFlight workerID) finalized then do
    set (.finalization jobID) finalized
    pure 1
  else do
    want "queue" (.queue queue)
    if ← replaceFirst (.queue queue) payload finalized then do
      set (.finalization jobID) finalized
      pure 2
    else if ← contains (.queue queue) finalized then do
      set (.finalization jobID) finalized
      pure 2
    else pure 0

def sanitizeJobFinalization (workerID payload sanitized : String) : Script Key ℕ := do
  want "in-flight" (.inFlight workerID)
  if ← replaceFirst (.inFlight workerID) payload sanitized then pure 1 else pure 0

/-! ### Finishing -/

def ownsUnique (unique : Option String) (jobID : String) : Script Key Bool :=
  match unique with
  | some key => holds (.unique key) jobID
  | none => pure false

def releaseUnique (unique : Option String) (owned : Bool) : Script Key Unit :=
  match unique with
  | some key => if owned then del (.unique key) else pure ()
  | none => pure ()

def ackJob (workerID jobID : String) (unique : Option String) (payload : String) :
    Script Key ℕ := do
  want "in-flight" (.inFlight workerID)
  let owned ← ownsUnique unique jobID
  let removed ← lrem (.inFlight workerID) payload
  if removed > 0 then do
    del (.finalization jobID)
    releaseUnique unique owned
    pure removed
  else pure removed

def moveToDeadJob (workerID jobID : String) (unique : Option String) (payload : String)
    (score : ℤ) (newData : String) : Script Key ℕ := do
  want "in-flight" (.inFlight workerID)
  want "dead" .dead
  let owned ← ownsUnique unique jobID
  let removed ← lrem (.inFlight workerID) payload
  if removed > 0 then do
    del (.finalization jobID)
    releaseUnique unique owned
    zadd .dead score newData
    pure removed
  else pure removed

def retryJob (workerID jobID payload : String) (score : ℤ) (newData : String) :
    Script Key ℕ := do
  want "in-flight" (.inFlight workerID)
  want "retry" .retry
  let removed ← lrem (.inFlight workerID) payload
  if removed > 0 then do
    del (.finalization jobID)
    zadd .retry score newData
    pure removed
  else pure removed

def requeueJob (workerID queue payload data : String) : Script Key ℕ := do
  want "in-flight" (.inFlight workerID)
  want "queue" (.queue queue)
  let removed ← lrem (.inFlight workerID) payload
  if removed > 0 then do
    lpush (.queue queue) data
    pure removed
  else pure removed

/-! ### Putting jobs back on their queues -/

def enqueueNow (queue data : String) : Script Key Unit := do
  want "queues" .queues
  want "queue" (.queue queue)
  let _ ← sadd .queues queue
  lpush (.queue queue) data

/-- The queue a decoded job goes to: `default` when it names none, nowhere when it names
something that is not a string. -/
def queueOf (job : Json) : Option String :=
  match Lua.field "queue" job with
  | .nil => some "default"
  | .string q => some q
  | _ => none

/-- A payload on its way back to a queue. -/
structure Target where
  queue : String
  data : String
  /-- The job ID, when the payload carries a marker that is to be trusted. -/
  finalized : Option String
  deriving DecidableEq, Repr

def pushTargets : List Target → Script Key Unit
  | [] => pure ()
  | t :: ts => do
    let _ ← sadd .queues t.queue
    lpush (.queue t.queue) t.data
    match t.finalized with
    | some jid => set (.finalization jid) t.data
    | none => pure ()
    pushTargets ts

def wantQueues : List Target → Script Key Unit
  | [] => pure ()
  | t :: ts => do
    want "queue" (.queue t.queue)
    wantQueues ts

def wantQueueNames (ts : List Target) : Script Key Unit :=
  if ts ≠ [] then want "queues" .queues else pure ()

def dueTarget (cj : Cjson) (data : String) : Option Target := do
  let job ← cj.decode data
  if Lua.isTable job then
    let queue ← queueOf job
    some ⟨queue, data, none⟩
  else none

def zremAll (k : Key) : List String → Script Key Unit
  | [] => pure ()
  | v :: vs => do
    zrem k v
    zremAll k vs

/-- `enqueue_scheduled.lua` on the scheduled or the retry set, at a time in seconds. -/
def enqueueScheduled (cj : Cjson) (k : Key) (limit : ℕ) (now : ℤ) : Script Key ℕ := do
  let t ← type k
  if t = .none then pure 0
  else do
    want "source" k
    let items ← zrangebyscore k now limit
    if items = [] then pure 0
    else do
      let targets := items.filterMap (dueTarget cj)
      wantQueues targets
      wantQueueNames targets
      zremAll k items
      pushTargets targets
      pure targets.length

/-- Where a job in flight goes back to: it must have an ID and a class. Its marker is trusted
if it is a table. -/
def orphanTarget (cj : Cjson) (data : String) : Option Target := do
  let job ← cj.decode data
  match Lua.field "jid" job, Lua.field "class" job with
  | .string jid, .string cls =>
    if jid ≠ "" ∧ cls ≠ "" then
      let queue ← queueOf job
      some ⟨queue, data, if Lua.field "finalization" job = .table then some jid else none⟩
    else none
  | _, _ => none

/-- `requeue_orphaned.lua`: everything a worker has in flight goes back to its queue. -/
def requeueOrphaned (cj : Cjson) (workerID : String) : Script Key ℕ := do
  let t ← type (.inFlight workerID)
  if t = .none then pure 0
  else do
    want "in-flight" (.inFlight workerID)
    want "queues" .queues
    let jobs ← lrange (.inFlight workerID)
    if jobs = [] then do
      del (.inFlight workerID)
      pure 0
    else do
      let targets := jobs.filterMap (orphanTarget cj)
      wantQueues targets
      pushTargets targets
      del (.inFlight workerID)
      pure targets.length

/-! ### What the scripts do -/

section Run

variable {cj : Cjson} {db : Db Key}

theorem run_want_of_hasType {k : Key} (h : db.HasType k k.kind) (what : String) :
    (want what k).run db = .ok () db := by
  have hk : Db.typeOf (db k) = .none ∨ Db.typeOf (db k) = k.kind := h
  unfold want
  rw [run_type_bind, Script.run_ite, if_pos hk]
  rfl

theorem run_want (h : WellTyped db) (what : String) (k : Key) : (want what k).run db = .ok () db :=
  run_want_of_hasType (h k) what

theorem run_want_bind {α : Type} (h : WellTyped db) (what : String) (k : Key)
    (f : Unit → Script Key α) : (want what k >>= f).run db = (f ()).run db :=
  Script.run_bind_ok (run_want h what k)

theorem of_run_want {α : Type} {what : String} {k : Key} {f : Unit → Script Key α} {a : α}
    {db' : Db Key} (h : (want what k >>= f).run db = .ok a db') :
    db.HasType k k.kind ∧ (f ()).run db = .ok a db' := by
  by_cases hk : db.HasType k k.kind
  · rw [Script.run_bind_ok (run_want_of_hasType hk what)] at h
    exact ⟨hk, h⟩
  · have hif : ¬ (Db.typeOf (db k) = .none ∨ Db.typeOf (db k) = k.kind) := hk
    rw [want, Script.bind_bind, run_type_bind, if_neg hif] at h
    cases h

theorem run_holds (db : Db Key) (k : Key) (text : String) :
    (holds k text).run db = .ok (db.str k == some text) db := by
  unfold holds
  rw [run_type_bind, Script.run_ite]
  split
  · next htype => rw [Script.run_bind_ok (run_get (Or.inr htype))]; rfl
  · next hne =>
    have hstr : db.str k = none := by
      unfold Db.str
      rcases hk : db k with _ | (_ | _ | _ | _ | _) <;> first | rfl | exact absurd (by rw [hk]; rfl) hne
    rw [hstr]
    rfl

def trustedIn (db : Db Key) (jobID : String) : Option String := db.str (.finalization jobID)

/-- The verdict of `trusts`, from the trusted payloads. -/
def isTrusted (trusted : String → Option String) (job : Json) (payload : String) : Bool :=
  match Lua.field "finalization" job, Lua.field "jid" job with
  | .table, .string jid => jid != "" && trusted jid == some payload
  | _, _ => false

theorem run_trusts (db : Db Key) (job : Json) (payload : String) :
    (trusts job payload).run db = .ok (isTrusted (trustedIn db) job payload) db := by
  unfold trusts isTrusted
  split
  · next jid _ _ =>
    rw [Script.run_ite, run_holds]
    by_cases hjid : jid = "" <;> simp [hjid, trustedIn]
  · rfl

/-- What `claim` holds in flight for a payload; `none` when encoding raises. -/
def held (cj : Cjson) (trusted : String → Option String) (payload : String) : Option String :=
  match cj.decode payload with
  | none => some payload
  | some job =>
    if Lua.isTable job = true ∧ Lua.field "finalization" job ≠ .nil ∧
        isTrusted trusted job payload = false then
      cj.encode (Lua.clear "finalization" job)
    else some payload

theorem run_claim (db : Db Key) (payload : String) :
    (claim cj payload).run db =
      match held cj (trustedIn db) payload with
      | some s => .ok s db
      | none => .error (.raised "Cannot serialise") db := by
  unfold claim held
  cases cj.decode payload with
  | none => rfl
  | some job =>
    by_cases hmarked : Lua.isTable job = true ∧ Lua.field "finalization" job ≠ .nil
    · simp only [hmarked, ne_eq, not_false_eq_true, and_self, if_true, true_and]
      rw [Script.run_bind_ok (run_trusts db job payload)]
      cases isTrusted (trustedIn db) job payload with
      | true => rfl
      | false =>
        simp only [Bool.false_eq_true, if_false, if_true]
        cases cj.encode (Lua.clear "finalization" job) <;> rfl
    · have hnot : ¬ (Lua.isTable job = true ∧ Lua.field "finalization" job ≠ .nil ∧
          isTrusted (trustedIn db) job payload = false) := fun hall => hmarked ⟨hall.1, hall.2.1⟩
      simp only [if_neg hmarked, if_neg hnot]
      rfl

theorem trustedIn_write {k : Key} (hk : ∀ id, k ≠ .finalization id) (v : Option Value) :
    trustedIn (db.write k v) = trustedIn db := by
  funext id
  rw [trustedIn, Db.str_write, if_neg (hk id).symm]
  rfl

theorem run_fetchJob {queue workerID : String} (hqueue : db.HasType (.queue queue) .list)
    (hinFlight : db.HasType (.inFlight workerID) .list) :
    (fetchJob cj queue workerID).run db =
      match (db.list (.queue queue)).getLast? with
      | none => .ok .empty db
      | some payload =>
        match held cj (trustedIn db) payload with
        | some s => .ok (.job s)
            ((db.putList (.queue queue) (db.list (.queue queue)).dropLast).putList
              (.inFlight workerID) (s :: db.list (.inFlight workerID)))
        | none => .error (.raised "Cannot serialise")
            (db.putList (.queue queue) (db.list (.queue queue)).dropLast) := by
  unfold fetchJob
  rw [Script.run_bind_ok (run_want_of_hasType hqueue _),
    Script.run_bind_ok (run_want_of_hasType hinFlight _), Script.run_bind, run_rpop hqueue]
  cases (db.list (.queue queue)).getLast? with
  | none => rfl
  | some payload =>
    have hpopped : (db.putList (.queue queue) (db.list (.queue queue)).dropLast).HasType
        (.inFlight workerID) .list := hinFlight.write fun heq => Key.noConfusion heq
    simp only
    rw [Script.run_bind, run_claim, trustedIn_write fun _ => Key.noConfusion]
    cases held cj (trustedIn db) payload with
    | none => rfl
    | some s =>
      simp only
      rw [Script.run_bind_ok (run_lpush hpopped s), Db.list_write, if_neg Key.noConfusion]
      rfl

theorem run_replaceFirst {k : Key} (h : db.HasType k .list) (payload payload' : String) :
    (replaceFirst k payload payload').run db =
      if payload ∈ db.list k then
        .ok true (db.putList k ((db.list k).set ((db.list k).idxOf payload) payload'))
      else .ok false db := by
  unfold replaceFirst
  rw [Script.run_bind_ok (run_lpos h payload)]
  by_cases hmem : payload ∈ db.list k
  · simp only [if_pos hmem]
    rw [Script.run_bind_ok (run_lset h _ _)]
    rfl
  · simp only [if_neg hmem]
    rfl

theorem run_contains (h : WellTyped db) {k : Key} (hk : k.kind = .list) (payload : String) :
    (contains k payload).run db = .ok (decide (payload ∈ db.list k)) db := by
  have htype : db.HasType k .list := hk ▸ h k
  unfold contains
  rw [Script.run_bind_ok (run_lpos htype payload)]
  split <;> simp_all

theorem own_of_not_locked {lock : Option String} {workerID holder : String}
    (h : ¬ (lock ≠ none ∧ lock ≠ some workerID)) (hholder : lock = some holder) :
    holder = workerID := by
  subst hholder
  by_contra hne
  exact h ⟨Option.some_ne_none _, fun heq => hne (Option.some.inj heq)⟩

theorem run_sequentialFetch {queue workerID : String}
    (hqueue : db.HasType (.queue queue) .list) (hinFlight : db.HasType (.inFlight workerID) .list)
    (hlock : db.HasType (.sequentialLock queue) .string) :
    (sequentialFetch cj queue workerID).run db =
      if db.str (.sequentialLock queue) ≠ none ∧
          db.str (.sequentialLock queue) ≠ some workerID then .ok .locked db
      else
        match (db.list (.queue queue)).getLast? with
        | none => .ok .empty db
        | some payload =>
          match held cj (trustedIn db) payload with
          | some s => .ok (.job s)
              (((db.putList (.queue queue) (db.list (.queue queue)).dropLast).putList
                (.inFlight workerID) (s :: db.list (.inFlight workerID))).putStr
                (.sequentialLock queue) workerID)
          | none => .error (.raised "Cannot serialise")
              ((db.putList (.queue queue) (db.list (.queue queue)).dropLast).putList
                (.inFlight workerID) (payload :: db.list (.inFlight workerID))) := by
  unfold sequentialFetch
  rw [Script.run_bind_ok (run_want_of_hasType hqueue _),
    Script.run_bind_ok (run_want_of_hasType hinFlight _), Script.run_bind_ok (run_get hlock),
    Script.run_ite]
  split
  · rfl
  · rw [Script.run_bind, run_lmove hqueue hinFlight Key.noConfusion]
    cases (db.list (.queue queue)).getLast? with
    | none => rfl
    | some payload =>
      have hmoved : ((db.putList (.queue queue) (db.list (.queue queue)).dropLast).putList
          (.inFlight workerID) (payload :: db.list (.inFlight workerID))).HasType
            (.inFlight workerID) .list :=
        (hinFlight.write fun heq => Key.noConfusion heq).write fun _ => Db.typeOf_ofList _
      simp only
      rw [Script.run_bind, run_claim, trustedIn_write fun _ => Key.noConfusion,
        trustedIn_write fun _ => Key.noConfusion]
      cases held cj (trustedIn db) payload with
      | none => rfl
      | some s =>
        simp only
        rw [Script.run_ite]
        split
        · -- the moved payload is at the head of the list, where it is replaced
          have hreplaced : (replaceFirst (.inFlight workerID) payload s).run
              ((db.putList (.queue queue) (db.list (.queue queue)).dropLast).putList
                (.inFlight workerID) (payload :: db.list (.inFlight workerID)))
              = .ok true ((db.putList (.queue queue) (db.list (.queue queue)).dropLast).putList
                (.inFlight workerID) (s :: db.list (.inFlight workerID))) := by
            rw [run_replaceFirst hmoved]
            simp
          rw [Script.run_bind_ok hreplaced]
          rfl
        · next heq => rw [not_not.mp heq]; rfl

theorem fetchJob_cases {db' : Db Key} {queue workerID : String} {reply : FetchReply}
    (h : (fetchJob cj queue workerID).run db = .ok reply db') :
    (∃ payload, reply = .job payload) ∧ db.list (.queue queue) ≠ [] ∨
      reply = .empty ∧ db' = db ∧ db.list (.queue queue) = [] := by
  obtain ⟨hqueue, hrest⟩ := of_run_want h
  obtain ⟨hinFlight, -⟩ := of_run_want hrest
  rw [run_fetchJob hqueue hinFlight] at h
  cases hlast : (db.list (.queue queue)).getLast? with
  | none =>
    rw [hlast] at h
    cases h
    exact Or.inr ⟨rfl, rfl, List.getLast?_eq_none_iff.mp hlast⟩
  | some payload =>
    have hfull : db.list (.queue queue) ≠ [] := fun hnil => by simp [hnil] at hlast
    simp only [hlast] at h
    cases hheld : held cj (trustedIn db) payload with
    | none =>
      rw [hheld] at h
      cases h
    | some held =>
      rw [hheld] at h
      cases h
      exact Or.inl ⟨⟨_, rfl⟩, hfull⟩

theorem sequentialFetch_cases {db' : Db Key} {queue workerID : String} {reply : FetchReply}
    (h : (sequentialFetch cj queue workerID).run db = .ok reply db') :
    (∃ payload, reply = .job payload) ∧ db.list (.queue queue) ≠ [] ∧
        (∀ holder, db.str (.sequentialLock queue) = some holder → holder = workerID) ∨
      reply = .empty ∧ db' = db ∧ db.list (.queue queue) = [] ∨
      reply = .locked ∧ db' = db ∧
        ∃ holder, holder ≠ workerID ∧ db.str (.sequentialLock queue) = some holder := by
  obtain ⟨hqueue, hrest⟩ := of_run_want h
  obtain ⟨hinFlight, hrest⟩ := of_run_want hrest
  have hlock := hasType_of_run_get hrest
  rw [run_sequentialFetch hqueue hinFlight hlock] at h
  split at h
  · next hlocked =>
    cases h
    obtain ⟨holder, hholder⟩ := Option.ne_none_iff_exists'.mp hlocked.1
    refine Or.inr (Or.inr ⟨rfl, rfl, holder, fun heq => hlocked.2 ?_, hholder⟩)
    rw [hholder, heq]
  · next hfree =>
    cases hlast : (db.list (.queue queue)).getLast? with
    | none =>
      rw [hlast] at h
      cases h
      exact Or.inr (Or.inl ⟨rfl, rfl, List.getLast?_eq_none_iff.mp hlast⟩)
    | some payload =>
      have hfull : db.list (.queue queue) ≠ [] := fun hnil => by simp [hnil] at hlast
      simp only [hlast] at h
      cases hheld : held cj (trustedIn db) payload with
      | none =>
        rw [hheld] at h
        cases h
      | some held =>
        rw [hheld] at h
        cases h
        exact Or.inl ⟨⟨_, rfl⟩, hfull, fun _ => own_of_not_locked hfree⟩

theorem run_releaseSequentialLock (h : WellTyped db) (queue workerID : String) :
    ((releaseSequentialLock queue workerID).run db).db =
      if db.str (.sequentialLock queue) = some workerID then db.del (.sequentialLock queue)
      else db := by
  unfold releaseSequentialLock
  rw [Script.run_bind_ok (run_get (h (.sequentialLock queue)))]
  split <;> rfl

theorem run_markJobFinalization (h : WellTyped db)
    (workerID queue jobID payload finalized : String) :
    (markJobFinalization workerID queue jobID payload finalized).run db =
      if payload ∈ db.list (.inFlight workerID) then
        .ok 1 ((db.putList (.inFlight workerID) ((db.list (.inFlight workerID)).set
          ((db.list (.inFlight workerID)).idxOf payload) finalized)).putStr
            (.finalization jobID) finalized)
      else if finalized ∈ db.list (.inFlight workerID) then
        .ok 1 (db.putStr (.finalization jobID) finalized)
      else if payload ∈ db.list (.queue queue) then
        .ok 2 ((db.putList (.queue queue) ((db.list (.queue queue)).set
          ((db.list (.queue queue)).idxOf payload) finalized)).putStr
            (.finalization jobID) finalized)
      else if finalized ∈ db.list (.queue queue) then
        .ok 2 (db.putStr (.finalization jobID) finalized)
      else .ok 0 db := by
  unfold markJobFinalization
  rw [run_want_bind h]
  have hreplace := run_replaceFirst (h (.inFlight workerID)) payload finalized
  have hcontains := run_contains h (k := .inFlight workerID) rfl finalized
  by_cases hpayload : payload ∈ db.list (.inFlight workerID)
  · rw [if_pos hpayload] at hreplace ⊢
    rw [Script.run_bind_ok hreplace]
    rfl
  rw [if_neg hpayload] at hreplace ⊢
  rw [Script.run_bind_ok hreplace]
  simp only [Bool.false_eq_true, if_false]
  rw [Script.run_bind_ok hcontains]
  by_cases hfinalized : finalized ∈ db.list (.inFlight workerID)
  · simp only [hfinalized, decide_true, if_true]
    rfl
  simp only [hfinalized, decide_false, Bool.false_eq_true, if_false]
  -- not in flight any more: the same on the queue
  rw [run_want_bind h]
  have hreplace := run_replaceFirst (h (.queue queue)) payload finalized
  have hcontains := run_contains h (k := .queue queue) rfl finalized
  by_cases hwaiting : payload ∈ db.list (.queue queue)
  · rw [if_pos hwaiting] at hreplace ⊢
    rw [Script.run_bind_ok hreplace]
    rfl
  rw [if_neg hwaiting] at hreplace ⊢
  rw [Script.run_bind_ok hreplace]
  simp only [Bool.false_eq_true, if_false]
  rw [Script.run_bind_ok hcontains]
  by_cases hmarked : finalized ∈ db.list (.queue queue)
  · simp only [hmarked, decide_true, if_true]
    rfl
  · simp only [hmarked, decide_false, Bool.false_eq_true, if_false]
    rfl

theorem run_sanitizeJobFinalization (h : WellTyped db) (workerID payload sanitized : String) :
    (sanitizeJobFinalization workerID payload sanitized).run db =
      if payload ∈ db.list (.inFlight workerID) then
        .ok 1 (db.putList (.inFlight workerID) ((db.list (.inFlight workerID)).set
          ((db.list (.inFlight workerID)).idxOf payload) sanitized))
      else .ok 0 db := by
  have hreplace := run_replaceFirst (h (.inFlight workerID)) payload sanitized
  unfold sanitizeJobFinalization
  rw [run_want_bind h]
  by_cases hpayload : payload ∈ db.list (.inFlight workerID)
  · rw [if_pos hpayload] at hreplace ⊢
    rw [Script.run_bind_ok hreplace]
    rfl
  · rw [if_neg hpayload] at hreplace ⊢
    rw [Script.run_bind_ok hreplace]
    rfl

def dropUnique (db : Db Key) (unique : Option String) (jobID : String) : Db Key :=
  match unique with
  | some key => if db.str (.unique key) = some jobID then db.del (.unique key) else db
  | none => db

theorem run_ownsUnique (db : Db Key) (unique : Option String) (jobID : String) :
    ∃ owned, (ownsUnique unique jobID).run db = .ok owned db ∧
      ∀ db' : Db Key, (∀ key, db'.str (.unique key) = db.str (.unique key)) →
        (releaseUnique unique owned).run db' = .ok () (dropUnique db' unique jobID) := by
  cases unique with
  | none => exact ⟨false, rfl, fun _ _ => rfl⟩
  | some key =>
    refine ⟨_, run_holds db _ jobID, fun db' hsame => ?_⟩
    unfold releaseUnique dropUnique
    simp only [hsame]
    by_cases heq : db.str (.unique key) = some jobID
    · simp [heq]
    · simp [heq]

theorem run_lrem_bind {k : Key} (h : db.HasType k .list) (payload : String)
    (body : ℕ → Script Key ℕ) :
    (lrem k payload >>= fun removed =>
        if removed > 0 then body removed else pure removed).run db =
      if payload ∈ db.list k then (body 1).run (db.putList k ((db.list k).erase payload))
      else .ok 0 db := by
  have hrem := run_lrem h payload
  by_cases hin : payload ∈ db.list k
  · rw [if_pos hin] at hrem ⊢
    rw [Script.run_bind_ok hrem, Script.run_ite, if_pos Nat.one_pos]
  · rw [if_neg hin] at hrem ⊢
    rw [Script.run_bind_ok hrem]
    rfl

theorem run_ackJob (h : WellTyped db) (workerID jobID : String) (unique : Option String)
    (payload : String) :
    (ackJob workerID jobID unique payload).run db =
      if payload ∈ db.list (.inFlight workerID) then
        .ok 1 (dropUnique ((db.putList (.inFlight workerID)
          ((db.list (.inFlight workerID)).erase payload)).del (.finalization jobID)) unique jobID)
      else .ok 0 db := by
  obtain ⟨owned, howned, hrelease⟩ := run_ownsUnique db unique jobID
  unfold ackJob
  rw [run_want_bind h, Script.run_bind_ok howned, run_lrem_bind (h (.inFlight workerID)),
    Script.run_bind_ok run_del, Script.run_bind_ok (hrelease _ (by simp))]
  rfl

theorem dropUnique_apply (db : Db Key) (unique : Option String) (jobID : String) {k : Key}
    (hk : ∀ key, k ≠ .unique key) : dropUnique db unique jobID k = db k := by
  unfold dropUnique
  split
  · split
    · exact (Db.write_apply _ _ _ _).trans (if_neg (hk _))
    · rfl
  · rfl

theorem zset_dropUnique (db : Db Key) (unique : Option String) (jobID : String) :
    (dropUnique db unique jobID).zset .dead = db.zset .dead := by
  unfold Db.zset
  rw [dropUnique_apply _ _ _ fun _ => Key.noConfusion]

section

variable (h : WellTyped db)

include h

theorem WellTyped.dropUnique (unique : Option String) (jobID : String) :
    WellTyped (dropUnique db unique jobID) := by
  unfold Senna.dropUnique
  split
  · split
    · exact h.del _
    · exact h
  · exact h

theorem run_moveToDeadJob (workerID jobID : String) (unique : Option String)
    (payload : String) (score : ℤ) (newData : String) :
    (moveToDeadJob workerID jobID unique payload score newData).run db =
      if payload ∈ db.list (.inFlight workerID) then
        .ok 1 ((dropUnique ((db.putList (.inFlight workerID)
          ((db.list (.inFlight workerID)).erase payload)).del (.finalization jobID)) unique
            jobID).putZset .dead (zinsert (db.zset .dead) newData score))
      else .ok 0 db := by
  obtain ⟨owned, howned, hrelease⟩ := run_ownsUnique db unique jobID
  have htyped := (((h.putList (k := .inFlight workerID) rfl
    ((db.list (.inFlight workerID)).erase payload)).del (.finalization jobID)).dropUnique
      unique jobID) .dead
  unfold moveToDeadJob
  rw [run_want_bind h, run_want_bind h, Script.run_bind_ok howned,
    run_lrem_bind (h (.inFlight workerID)), Script.run_bind_ok run_del,
    Script.run_bind_ok (hrelease _ (by simp)), Script.run_bind_ok (run_zadd htyped score newData),
    zset_dropUnique]
  simp

theorem run_retryJob (workerID jobID payload : String) (score : ℤ)
    (newData : String) :
    (retryJob workerID jobID payload score newData).run db =
      if payload ∈ db.list (.inFlight workerID) then
        .ok 1 (((db.putList (.inFlight workerID)
          ((db.list (.inFlight workerID)).erase payload)).del (.finalization jobID)).putZset
            .retry (zinsert (db.zset .retry) newData score))
      else .ok 0 db := by
  have htyped := ((h.putList (k := .inFlight workerID) rfl
    ((db.list (.inFlight workerID)).erase payload)).del (.finalization jobID)) .retry
  unfold retryJob
  rw [run_want_bind h, run_want_bind h, run_lrem_bind (h (.inFlight workerID)),
    Script.run_bind_ok run_del, Script.run_bind_ok (run_zadd htyped score newData)]
  simp

theorem run_requeueJob (workerID queue payload data : String) :
    (requeueJob workerID queue payload data).run db =
      if payload ∈ db.list (.inFlight workerID) then
        .ok 1 ((db.putList (.inFlight workerID)
          ((db.list (.inFlight workerID)).erase payload)).putList (.queue queue)
            (data :: db.list (.queue queue)))
      else .ok 0 db := by
  have htyped := (h.putList (k := .inFlight workerID) rfl
    ((db.list (.inFlight workerID)).erase payload)) (.queue queue)
  unfold requeueJob
  rw [run_want_bind h, run_want_bind h, run_lrem_bind (h (.inFlight workerID)),
    Script.run_bind_ok (run_lpush htyped data)]
  simp

theorem run_enqueueNow (queue data : String) :
    (enqueueNow queue data).run db =
      .ok () ((db.putSet .queues (insert queue (db.members .queues))).putList (.queue queue)
        (data :: db.list (.queue queue))) := by
  have htyped := (h.putSet (k := .queues) rfl (insert queue (db.members .queues))) (.queue queue)
  unfold enqueueNow
  rw [run_want_bind h, run_want_bind h, Script.run_bind_ok (run_sadd (h .queues) queue),
    run_lpush htyped]
  simp

theorem run_discardSequentialFetch (queue workerID payload : String) :
    ((discardSequentialFetch queue workerID payload).run db).db =
      let db' := if payload ∈ db.list (.inFlight workerID) then
          db.putList (.inFlight workerID) ((db.list (.inFlight workerID)).erase payload)
        else db
      if db.str (.sequentialLock queue) = some workerID then db'.del (.sequentialLock queue)
      else db' := by
  have hrem := run_lrem (h (.inFlight workerID)) payload
  have hrest : ∀ (db' : Db Key) (n : ℕ),
      (lrem (.inFlight workerID) payload).run db = .ok n db' → WellTyped db' →
      db'.str (.sequentialLock queue) = db.str (.sequentialLock queue) →
      ((discardSequentialFetch queue workerID payload).run db).db =
        if db.str (.sequentialLock queue) = some workerID then db'.del (.sequentialLock queue)
        else db' := by
    intro db' n hrun htyped hlock
    unfold discardSequentialFetch
    rw [run_want_bind h, Script.run_bind_ok hrun,
      Script.run_bind_ok (run_get (htyped (.sequentialLock queue))), hlock]
    split <;> rfl
  by_cases hin : payload ∈ db.list (.inFlight workerID)
  · rw [if_pos hin] at hrem
    simp only [if_pos hin]
    exact hrest _ _ hrem (h.putList rfl _) (by simp)
  · rw [if_neg hin] at hrem
    simp only [if_neg hin]
    exact hrest _ _ hrem h rfl

end

/-! ### Pushing many jobs -/

def pushTarget (db : Db Key) (t : Target) : Db Key :=
  let pushed := (db.putSet .queues (insert t.queue (db.members .queues))).putList (.queue t.queue)
    (t.data :: db.list (.queue t.queue))
  match t.finalized with
  | some jid => pushed.putStr (.finalization jid) t.data
  | none => pushed

theorem WellTyped.pushTarget (h : WellTyped db) (t : Target) : WellTyped (pushTarget db t) := by
  have hpushed := (h.putSet (k := .queues) rfl (insert t.queue (db.members .queues))).putList
    (k := .queue t.queue) rfl (t.data :: db.list (.queue t.queue))
  unfold Senna.pushTarget
  split
  · exact hpushed.putStr rfl _
  · exact hpushed

theorem WellTyped.foldl_pushTarget (h : WellTyped db) (ts : List Target) :
    WellTyped (ts.foldl Senna.pushTarget db) := by
  induction ts generalizing db with
  | nil => exact h
  | cons t ts ih => exact ih (h.pushTarget t)

theorem list_foldl_pushTarget (queue : String) (ts : List Target) (db : Db Key) :
    let db' := ts.foldl pushTarget db
    db'.list (.queue queue) =
        ((ts.filter (·.queue = queue)).map (·.data)).reverse ++ db.list (.queue queue) ∧
      db'.str (.sequentialLock queue) = db.str (.sequentialLock queue) ∧
      ∀ v, db'.list (.inFlight v) = db.list (.inFlight v) := by
  induction ts generalizing db with
  | nil => exact ⟨rfl, rfl, fun _ => rfl⟩
  | cons t ts ih =>
    obtain ⟨hline, hlock, hflights⟩ := ih (pushTarget db t)
    have hpush : (pushTarget db t).list (.queue queue) =
        if t.queue = queue then t.data :: db.list (.queue queue) else db.list (.queue queue) := by
      by_cases hqueue : t.queue = queue
      · subst hqueue
        unfold pushTarget
        split <;> simp
      · have hne : queue ≠ t.queue := fun h => hqueue h.symm
        unfold pushTarget
        split <;> simp [hqueue, hne]
    refine ⟨hline.trans ?_, hlock.trans ?_, fun v => (hflights v).trans ?_⟩
    · rw [hpush]
      by_cases hqueue : t.queue = queue <;> simp [hqueue]
    · unfold pushTarget
      split <;> simp
    · unfold pushTarget
      split <;> simp

theorem zset_foldl_pushTarget {k : Key} (hk : k.kind = .zset) (ts : List Target) (db : Db Key) :
    (ts.foldl pushTarget db).zset k = db.zset k := by
  induction ts generalizing db with
  | nil => rfl
  | cons t ts ih =>
    rw [List.foldl_cons, ih]
    have hne : k ≠ .queues ∧ (∀ q, k ≠ .queue q) ∧ ∀ id, k ≠ .finalization id := by
      refine ⟨?_, fun q => ?_, fun id => ?_⟩ <;> (rintro rfl; cases hk)
    unfold pushTarget
    cases t.finalized <;> simp [Db.zset_write, hne]

theorem run_pushTargets_of_hasType {ts : List Target}
    (hnames : ts ≠ [] → db.HasType .queues .set)
    (hqueues : ∀ t ∈ ts, db.HasType (.queue t.queue) .list) :
    (pushTargets ts).run db = .ok () (ts.foldl pushTarget db) := by
  induction ts generalizing db with
  | nil => rfl
  | cons t ts ih =>
    have hset := hnames (List.cons_ne_nil _ _)
    have hlist : (db.putSet .queues (insert t.queue (db.members .queues))).HasType (.queue t.queue)
        .list := (hqueues t List.mem_cons_self).write fun heq => Key.noConfusion heq
    have hpushed {k : Key} {kind : KeyType} (hk : db.HasType k kind) (hkind : kind = k.kind) :
        (pushTarget db t).HasType k kind := by
      subst hkind
      have hboth := (hk.write (k := .queues) (v := Db.ofSet (insert t.queue (db.members .queues)))
        fun heq => by rw [heq]; exact Db.typeOf_ofSet _).write (k := .queue t.queue)
          (v := Db.ofList (t.data :: db.list (.queue t.queue)))
            fun heq => by rw [heq]; exact Db.typeOf_ofList _
      unfold pushTarget
      split
      · exact hboth.write fun heq => by rw [heq]; exact Or.inr rfl
      · exact hboth
    unfold pushTargets
    rw [Script.run_bind_ok (run_sadd hset t.queue), Script.run_bind_ok (run_lpush hlist t.data),
      Db.list_write, if_neg Key.noConfusion, List.foldl_cons,
      ← ih (fun _ => hpushed hset rfl)
        fun t' ht' => hpushed (hqueues t' (List.mem_cons_of_mem _ ht')) rfl]
    unfold pushTarget
    cases t.finalized <;> rfl

theorem run_pushTargets (h : WellTyped db) (ts : List Target) :
    (pushTargets ts).run db = .ok () (ts.foldl pushTarget db) :=
  run_pushTargets_of_hasType (fun _ => h _) fun _ _ => h _

theorem run_wantQueues (h : WellTyped db) (ts : List Target) :
    (wantQueues ts).run db = .ok () db := by
  induction ts with
  | nil => rfl
  | cons t ts ih =>
    unfold wantQueues
    rw [run_want_bind h, ih]

theorem of_run_wantQueues {α : Type} {ts : List Target} {f : Unit → Script Key α} {a : α}
    {db' : Db Key} (h : (wantQueues ts >>= f).run db = .ok a db') :
    (∀ t ∈ ts, db.HasType (.queue t.queue) .list) ∧ (f ()).run db = .ok a db' := by
  induction ts with
  | nil => exact ⟨nofun, h⟩
  | cons t ts ih =>
    unfold wantQueues at h
    rw [Script.bind_bind] at h
    obtain ⟨htype, h⟩ := of_run_want h
    obtain ⟨hqueues, h⟩ := ih h
    exact ⟨List.forall_mem_cons.mpr ⟨htype, hqueues⟩, h⟩

def dropMembers (z : List (String × ℤ)) (vs : List String) : List (String × ℤ) :=
  z.filter fun e => e.1 ∉ vs

theorem run_zremAll {k : Key} (h : db.HasType k .zset) (vs : List String) :
    ∃ db', (zremAll k vs).run db = .ok () db' ∧ db'.zset k = dropMembers (db.zset k) vs ∧
      db'.HasType k .zset ∧ ∀ k', k' ≠ k → db' k' = db k' := by
  induction vs generalizing db with
  | nil => exact ⟨db, rfl, by simp [dropMembers], h, fun _ _ => rfl⟩
  | cons v vs ih =>
    obtain ⟨db', hrun, hzset, htyped, hother⟩ :=
      @ih (db.putZset k ((db.zset k).filter fun e => e.1 ≠ v)) (h.write fun _ => Db.typeOf_ofZset _)
    refine ⟨db', ?_, ?_, htyped, fun k' hk' => ?_⟩
    · unfold zremAll
      rw [Script.run_bind_ok (run_zrem h v), hrun]
    · rw [hzset]
      simp only [Db.zset_write, if_true, Db.zsetOf_ofZset, dropMembers, List.filter_filter]
      congr 1
      funext e
      simp [Bool.and_comm]
    · exact (hother k' hk').trans ((Db.write_apply _ _ _ _).trans (if_neg hk'))

theorem run_enqueueScheduled (h : WellTyped db) {k : Key} (hk : k.kind = .zset) (limit : ℕ)
    (now : ℤ) :
    ∃ db', db'.zset k = dropMembers (db.zset k) (zrange (db.zset k) now limit) ∧
      WellTyped db' ∧ (∀ k', k' ≠ k → db' k' = db k') ∧
      ((enqueueScheduled cj k limit now).run db).db =
        ((zrange (db.zset k) now limit).filterMap (dueTarget cj)).foldl pushTarget db' := by
  have htype : db.HasType k .zset := hk ▸ h k
  by_cases hdue : zrange (db.zset k) now limit = []
  · -- nothing is due, whether or not the key is there
    refine ⟨db, by simp [hdue, dropMembers], h, fun _ _ => rfl, ?_⟩
    rw [hdue]
    unfold enqueueScheduled
    rw [run_type_bind, Script.run_ite]
    split
    · rfl
    · rw [run_want_bind h, Script.run_bind_ok (run_zrangebyscore htype now limit), hdue]
      rfl
  · obtain ⟨db', hrun, hzset, hleft, hother⟩ := run_zremAll htype (zrange (db.zset k) now limit)
    have htyped : WellTyped db' := by
      intro k'
      by_cases hk' : k' = k
      · rw [hk', hk]
        exact hleft
      · unfold Db.HasType
        rw [hother k' hk']
        exact h k'
    refine ⟨db', hzset, htyped, hother, ?_⟩
    have hpresent : Db.typeOf (db k) ≠ .none := by
      intro hnone
      have hempty : db.zset k = [] := by rw [Db.zset, Db.typeOf_eq_none hnone]; rfl
      exact hdue (by rw [hempty]; simp [zrange])
    have hnames : ∀ ts, (wantQueueNames ts).run db = .ok () db := by
      intro ts
      rw [wantQueueNames, Script.run_ite, run_want h]
      split <;> rfl
    unfold enqueueScheduled
    rw [run_type_bind, Script.run_ite, if_neg hpresent,
      run_want_bind h, Script.run_bind_ok (run_zrangebyscore htype now limit), Script.run_ite,
      if_neg hdue, Script.run_bind_ok (run_wantQueues h _), Script.run_bind_ok (hnames _),
      Script.run_bind_ok hrun, Script.run_bind_ok (run_pushTargets htyped _)]
    rfl

theorem run_requeueOrphaned (h : WellTyped db) (workerID : String) :
    ((requeueOrphaned cj workerID).run db).db =
      (((db.list (.inFlight workerID)).filterMap (orphanTarget cj)).foldl pushTarget db).del
        (.inFlight workerID) := by
  unfold requeueOrphaned
  rw [run_type_bind, Script.run_ite]
  split
  · next hnone =>
    have habsent : db (.inFlight workerID) = none := Db.typeOf_eq_none hnone
    have hempty : db.list (.inFlight workerID) = [] := by rw [Db.list, habsent]; rfl
    have hdel : db.del (.inFlight workerID) = db := by
      unfold Db.del Db.write
      rw [← habsent, Function.update_eq_self]
    rw [hempty]
    exact hdel.symm
  · rw [run_want_bind h, run_want_bind h, Script.run_bind_ok (run_lrange (h _)), Script.run_ite]
    split
    · next hempty => rw [hempty]; rfl
    · rw [Script.run_bind_ok (run_wantQueues h _), Script.run_bind_ok (run_pushTargets h _),
        Script.run_bind_ok run_del]
      rfl

end Run

/-! ### Payloads that were written by `marshal` -/

section Targets

variable {cj : Cjson} {j : Job} {p : String}

theorem data_of_orphanTarget {t : Target} (h : orphanTarget cj p = some t) : t.data = p := by
  unfold orphanTarget at h
  obtain ⟨v, -, h⟩ := Option.bind_eq_some_iff.mp h
  split at h
  · split at h
    · obtain ⟨queue, -, h⟩ := Option.bind_eq_some_iff.mp h
      exact (Option.some.inj h) ▸ rfl
    · cases h
  · cases h

theorem data_of_dueTarget {t : Target} (h : dueTarget cj p = some t) : t.data = p := by
  unfold dueTarget at h
  obtain ⟨v, -, h⟩ := Option.bind_eq_some_iff.mp h
  split at h
  · obtain ⟨queue, -, h⟩ := Option.bind_eq_some_iff.mp h
    exact (Option.some.inj h) ▸ rfl
  · cases h

theorem dueTarget_marshal :
    dueTarget cj j.marshal = none ∨ dueTarget cj j.marshal = some ⟨j.queue, j.marshal, none⟩ := by
  unfold dueTarget
  cases hdecode : cj.decode j.marshal with
  | none => exact Or.inl rfl
  | some v =>
    obtain ⟨htable, -, -, hqueue, -⟩ := Cjson.decode_marshal hdecode
    refine Or.inr ?_
    simp [htable, queueOf, hqueue]

theorem orphanTarget_marshal (hid : j.id ≠ "") :
    orphanTarget cj j.marshal = none ∨ orphanTarget cj j.marshal =
      some ⟨j.queue, j.marshal, if j.finalization.isSome then some j.id else none⟩ := by
  unfold orphanTarget
  cases hdecode : cj.decode j.marshal with
  | none => exact Or.inl rfl
  | some v =>
    obtain ⟨-, hjid, hclass, hqueue, hfinalization⟩ := Cjson.decode_marshal hdecode
    by_cases htype : j.type = ""
    · refine Or.inl ?_
      simp [hjid, hclass, htype]
    · refine Or.inr ?_
      cases hf : j.finalization <;>
        simp [hjid, hclass, htype, hid, queueOf, hqueue, hfinalization, hf]

/-- Nothing in the payload keeps the scripts from routing it: `cjson` reads it, and it has a
class. -/
def Job.Readable (j : Job) : Prop := j.type ≠ "" ∧ j.toJson.depth ≤ cjsonMaxDepth

theorem Job.Readable.dueTarget (h : j.Readable) : Senna.dueTarget cj j.marshal ≠ none := by
  obtain ⟨v, hdecode⟩ := cj.decode_shallow _ h.2
  change cj.decode j.marshal = some v at hdecode
  obtain ⟨htable, -, -, hqueue, -⟩ := Cjson.decode_marshal hdecode
  simp [Senna.dueTarget, hdecode, htable, queueOf, hqueue]

theorem Job.Readable.orphanTarget (h : j.Readable) (hid : j.id ≠ "") :
    Senna.orphanTarget cj j.marshal ≠ none := by
  obtain ⟨v, hdecode⟩ := cj.decode_shallow _ h.2
  change cj.decode j.marshal = some v at hdecode
  obtain ⟨-, hjid, hclass, hqueue, -⟩ := Cjson.decode_marshal hdecode
  simp [Senna.orphanTarget, hdecode, hjid, hclass, hid, h.1, queueOf, hqueue]

theorem held_of_unmarked {trusted : String → Option String} (h : j.finalization = none) :
    held cj trusted j.marshal = some j.marshal := by
  unfold held
  cases hdecode : cj.decode j.marshal with
  | none => rfl
  | some v =>
    obtain ⟨-, -, -, -, hfinalization⟩ := Cjson.decode_marshal hdecode
    refine if_neg fun hall => hall.2.1 ?_
    rw [hfinalization, h]
    rfl

theorem held_marshal {trusted : String → Option String} (hid : j.id ≠ "")
    (htrusted : ∀ f, j.finalization = some f → trusted j.id = some j.marshal) :
    held cj trusted j.marshal = some j.marshal := by
  unfold held
  cases hdecode : cj.decode j.marshal with
  | none => rfl
  | some v =>
    obtain ⟨-, hjid, -, -, hfinalization⟩ := Cjson.decode_marshal hdecode
    refine if_neg ?_
    rintro ⟨-, hne, htrust⟩
    cases hf : j.finalization with
    | none => exact hne (by rw [hfinalization, hf]; rfl)
    | some f =>
      have htable : Lua.field "finalization" v = .table := by rw [hfinalization, hf]; rfl
      rw [isTrusted, htable, hjid] at htrust
      simp [hid, htrusted f hf] at htrust

end Targets

end Senna
