import Senna.Worker.Fetcher.Select
import Senna.Worker.Script

/-!
# The fetcher

The queues of a worker, as `newFetcher` arranges them, and one fetch from one of them. A fetch from
a sequential queue needs the worker's semaphore and then the lock in Redis, and does not wait for
either. What was fetched is read, and a marker in it that is not trusted is removed once more
(`prepareFetchedJob`).

A fetch is taken as one step here: nothing else runs meanwhile. **A fetch that finds no job leaves
everything as it was** (`fetchFromQueueInfo_idle`), and the reason it gives is the truth: the queue
is empty, or it is sequential and locked. That is so whatever the keys hold; if one has a wrong
type, there is an error.
-/

namespace Senna

open Redis

/-- A queue, as a worker is configured with it. -/
structure QueueConfig where
  name : String
  priority : ℤ
  paused : Bool
  sequential : Bool
  deriving DecidableEq, Repr

/-- The queues a worker fetches from. -/
structure Fetcher where
  activeQueues : List Fetcher.QueueInfo
  blockableQueues : List Fetcher.QueueInfo
  totalActiveWeight : ℤ

namespace Fetcher

/-! ### A new fetcher -/

def queueInfo (q : QueueConfig) : QueueInfo :=
  ⟨q.name, if q.priority < 1 then 1 else q.priority, q.paused, q.sequential⟩

/-- `sort.Slice`, by descending priority. It is not stable, so the order of queues with the same
priority is open. -/
structure SliceSort where
  sort : List QueueInfo → List QueueInfo
  perm : ∀ queues, (sort queues).Perm queues
  sorted : ∀ queues, (sort queues).Pairwise fun a b => b.priority ≤ a.priority

def add (f : Fetcher) (q : QueueInfo) : Fetcher :=
  if q.paused then f
  else
    { activeQueues := f.activeQueues ++ [q]
      totalActiveWeight := addInt f.totalActiveWeight q.priority
      blockableQueues :=
        if !q.sequential then f.blockableQueues ++ [q] else f.blockableQueues }

/-- `newFetcherWithSequentialLockTTL`. -/
def newFetcher (slice : SliceSort) (queues : List QueueConfig) (strictPriority : Bool) : Fetcher :=
  let infos := queues.map queueInfo
  (if strictPriority then slice.sort infos else infos).foldl add ⟨[], [], 0⟩

/-- What holds of a fetcher from the beginning. -/
structure Made (f : Fetcher) (infos : List QueueInfo) : Prop where
  active : f.activeQueues = infos.filter fun q => !q.paused
  blockable : f.blockableQueues = f.activeQueues.filter fun q => !q.sequential
  weight : f.totalActiveWeight = totalWeight f.activeQueues

theorem made_foldl (infos : List QueueInfo) : Made (infos.foldl add ⟨[], [], 0⟩) infos := by
  induction infos using List.reverseRecOn with
  | nil => exact ⟨rfl, rfl, rfl⟩
  | append_singleton infos q ih =>
    rw [List.foldl_append, List.foldl_cons, List.foldl_nil, add]
    split
    · next hpaused => exact ⟨by rw [ih.active]; simp [hpaused], ih.blockable, ih.weight⟩
    · next hactive =>
      refine ⟨?_, ?_, ?_⟩
      · rw [ih.active]
        simp [hactive]
      · rw [ih.blockable]
        cases hsequential : q.sequential <;> simp [hsequential]
      · rw [ih.weight]
        simp [totalWeight]

section Made

variable (slice : SliceSort) (queues : List QueueConfig) (strictPriority : Bool)

theorem made_newFetcher : ∃ infos, infos.Perm (queues.map queueInfo) ∧
    Made (newFetcher slice queues strictPriority) infos := by
  refine ⟨_, ?_, made_foldl _⟩
  split
  · exact slice.perm _
  · exact .refl _

theorem mem_activeQueues {q : QueueInfo} :
    q ∈ (newFetcher slice queues strictPriority).activeQueues ↔
      ∃ c ∈ queues, c.paused = false ∧ queueInfo c = q := by
  obtain ⟨infos, hperm, hmade⟩ := made_newFetcher slice queues strictPriority
  rw [hmade.active, List.mem_filter, hperm.mem_iff, List.mem_map]
  constructor
  · rintro ⟨⟨c, hc, rfl⟩, hpaused⟩
    exact ⟨c, hc, by simpa [queueInfo] using hpaused, rfl⟩
  · rintro ⟨c, hc, hpaused, rfl⟩
    exact ⟨⟨c, hc, rfl⟩, by simp [queueInfo, hpaused]⟩

theorem length_activeQueues_le :
    (newFetcher slice queues strictPriority).activeQueues.length ≤ queues.length := by
  obtain ⟨infos, hperm, hmade⟩ := made_newFetcher slice queues strictPriority
  have hlength := hperm.length_eq
  rw [List.length_map] at hlength
  rw [hmade.active, ← hlength]
  exact List.length_filter_le _ _

theorem length_blockableQueues :
    (newFetcher slice queues strictPriority).blockableQueues.length =
      (queues.filter fun c => !c.sequential && !c.paused).length := by
  obtain ⟨infos, hperm, hmade⟩ := made_newFetcher slice queues strictPriority
  rw [hmade.blockable, hmade.active, List.filter_filter, (hperm.filter _).length_eq,
    List.filter_map, List.length_map]
  rfl

theorem one_le_priority : ∀ q ∈ (newFetcher slice queues strictPriority).activeQueues,
    1 ≤ q.priority := by
  intro q hq
  obtain ⟨c, -, -, rfl⟩ := (mem_activeQueues slice queues strictPriority).mp hq
  unfold queueInfo
  dsimp only
  split <;> omega

theorem activeQueues_sorted :
    (newFetcher slice queues true).activeQueues.Pairwise fun a b => b.priority ≤ a.priority := by
  unfold newFetcher
  rw [(made_foldl _).active]
  exact (slice.sorted _).filter _

end Made

/-! ### One fetch -/

/-- The side of Redis, and of the worker. -/
structure State where
  db : Db Key
  /-- Whether the semaphore of a queue is taken. -/
  sema : String → Bool
  /-- Whether the lock of a queue is noted as held, for renewal. -/
  held : String → Bool

/-- `queueFetchEmpty` and `queueFetchLocked`. -/
inductive Status where
  | empty
  | locked
  deriving DecidableEq, Repr

/-- What a fetch returns: an error, a job, or no job and why. -/
inductive Fetched where
  | failed
  | job (job : Job)
  | idle (status : Status)

def trustsFinalization (jobID payload : String) : Script Key Bool :=
  if jobID = "" then pure false else holds (.finalization jobID) payload

def prepareFetchedJob (workerID : String) (job : Job) (payload : String) : Script Key Job :=
  if job.finalization = none then pure { job with raw := payload }
  else do
    let trusted ← trustsFinalization job.id payload
    if trusted then pure { job with raw := payload }
    else do
      let cleared : Job := { job with finalization := none }
      let sanitized := cleared.marshal
      if sanitized ≠ payload then do
        let replaced ← sanitizeJobFinalization workerID payload sanitized
        if replaced ≠ 1 then Script.fail (.reply "in-flight payload not found")
        else pure { cleared with raw := sanitized }
      else pure { cleared with raw := sanitized }

section Fetch

variable (cj : Cjson) (workerID : String)

/-- `fetchFromSequentialQueue`. The semaphore that it takes first is given back on every path on
which there is no job. -/
def fetchFromSequentialQueue (queue : QueueInfo) (s : State) : Fetched × State :=
  if s.sema queue.name then (.idle .locked, s)
  else
    match (sequentialFetch cj queue.name workerID).run s.db with
    | .error _ db => (.failed, { s with db := db })
    | .ok .locked db => (.idle .locked, { s with db := db })
    | .ok .empty db => (.idle .empty, { s with db := db })
    | .ok (.job payload) db =>
      match unmarshalJob payload with
      | none =>
        (.failed, { s with
          db := ((discardSequentialFetch queue.name workerID payload).run db).db })
      | some job =>
        match (prepareFetchedJob workerID job payload).run db with
        | .error _ db =>
          (.failed, { s with db := ((releaseSequentialLock queue.name workerID).run db).db })
        | .ok job db =>
          (.job job, {
            db := db
            sema := Function.update s.sema queue.name true
            held := Function.update s.held queue.name true })

def fetchFromQueueInfo (queue : QueueInfo) (s : State) : Fetched × State :=
  if queue.sequential then fetchFromSequentialQueue cj workerID queue s
  else
    match (fetchJob cj queue.name workerID).run s.db with
    | .error _ db => (.failed, { s with db := db })
    | .ok .locked db => (.idle .locked, { s with db := db })
    | .ok .empty db => (.idle .empty, { s with db := db })
    | .ok (.job payload) db =>
      match unmarshalJob payload with
      | none => (.failed, { s with db := db })
      | some job =>
        match (prepareFetchedJob workerID job payload).run db with
        | .error _ db => (.failed, { s with db := db })
        | .ok job db => (.job job, { s with db := db })

end Fetch

/-- A queue is locked for a worker: one of its goroutines has the semaphore, or another worker has
the lock. -/
def Locked (workerID : String) (s : State) (name : String) : Prop :=
  s.sema name = true ∨
    ∃ holder, holder ≠ workerID ∧ s.db.str (.sequentialLock name) = some holder

/-- There is nothing to fetch from a queue: it is empty or, being sequential, locked. -/
def Idle (workerID : String) (s : State) (q : QueueInfo) : Prop :=
  s.db.list (.queue q.name) = [] ∨ q.sequential = true ∧ Locked workerID s q.name

section Spec

variable {cj : Cjson} {workerID : String} {s s' : State} {q : QueueInfo}

/-- **A fetch without a job changes nothing**, and says why there is none. -/
theorem fetchFromQueueInfo_idle {status : Status}
    (h : fetchFromQueueInfo cj workerID q s = (.idle status, s')) :
    s' = s ∧ (status = .empty → s.db.list (.queue q.name) = []) ∧
      (status = .locked → q.sequential = true ∧ Locked workerID s q.name) := by
  unfold fetchFromQueueInfo at h
  split at h
  · next hsequential =>
    unfold fetchFromSequentialQueue at h
    split at h
    · next hsema =>
      cases h
      exact ⟨rfl, nofun, fun _ => ⟨hsequential, Or.inl hsema⟩⟩
    · split at h
      · cases h
      · next hrun =>
        cases h
        obtain ⟨⟨_, hreply⟩, -⟩ | ⟨hreply, -⟩ | ⟨-, rfl, hholder⟩ := sequentialFetch_cases hrun
        · cases hreply
        · cases hreply
        · exact ⟨rfl, nofun, fun _ => ⟨hsequential, Or.inr hholder⟩⟩
      · next hrun =>
        cases h
        obtain ⟨⟨_, hreply⟩, -⟩ | ⟨-, rfl, hempty⟩ | ⟨hreply, -⟩ := sequentialFetch_cases hrun
        · cases hreply
        · exact ⟨rfl, fun _ => hempty, nofun⟩
        · cases hreply
      · split at h
        · cases h
        · split at h <;> cases h
  · split at h
    · cases h
    · next hrun =>
      obtain ⟨⟨_, hreply⟩, -⟩ | ⟨hreply, -⟩ := fetchJob_cases hrun <;> cases hreply
    · next hrun =>
      cases h
      obtain ⟨⟨_, hreply⟩, -⟩ | ⟨-, rfl, hempty⟩ := fetchJob_cases hrun
      · cases hreply
      · exact ⟨rfl, fun _ => hempty, nofun⟩
    · split at h
      · cases h
      · split at h <;> cases h

end Spec

end Fetcher

end Senna
