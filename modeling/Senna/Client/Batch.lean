import Senna.Batch.Forest
import Senna.Batch.Link
import Senna.Client.Bulk

/-!
# Creating a batch

`EnqueueBatch` has five steps, each of which can fail: it stores the state of the batch with a
pipeline of commands, links the batch to its parent, enqueues its jobs, completes it if it has no
jobs, and then tells the parent that it is complete. After an error it takes back what it has done
so far: `rollbackParentLink` runs the script that unlinks a child, and `cleanupOrphanedBatch`
removes the keys of the batch.

**A batch that is not enqueued leaves no trace** (`Undone`), with one exception. There is no
cleanup after the pipeline, so metadata and progress stay if the set of all batches has a wrong
type. This is said of parents whose keys, where they have their types, hold what this code writes
there (`Proper`). Unlinking counts down what linking has counted up, which needs counters that are
numbers and a link that is still there: a script that completes the batch in its parent and stops in
the middle has removed it already.

The keys of the batch are written by its own scripts only, and those of the parent by the two
scripts that link and unlink. So the proof follows which keys are foreign to the batch
(`Key.Foreign`): up to the link they are as they were, and from there on until the rollback nothing
touches them.
-/

namespace Senna

namespace BatchLua

open Redis Script Batch

namespace Enqueue

/-! ### The call -/

/-- `CallbackConfig`, with what `encoding/json` makes of each option. -/
structure CallbackConfig where
  jobType : String
  options : List (String × Except String Json)

/-- `client.Batch`, without autoflush. -/
structure NewBatch where
  id : String
  description : String
  parentID : String
  jobs : List Bulk.Draft
  onComplete : Option CallbackConfig
  onSuccess : Option CallbackConfig
  onDeath : Option CallbackConfig
  callbackQueue : String
  createdAt : Time
  /-- An error from putting the batch together. -/
  err : Option String

/-- Which command or script has failed. -/
inductive Stage where
  | parent
  | store
  | link
  | jobs
  | completion
  | propagation
  deriving DecidableEq

/-- The error that is returned. -/
inductive EnqueueError where
  /-- Before anything is written. -/
  | invalid (message : String)
  /-- `BatchNotFoundError`. -/
  | notFound (batchID : String)
  | failed (stage : Stage) (cause : Error)
  /-- The reply of a script says so. -/
  | refused (message : String)

section Message

variable (b : NewBatch)

def EnqueueError.message : EnqueueError → String
  | .invalid message => message
  | .notFound batchID => s!"batch not found: {batchID}"
  | .refused message => message
  | .failed .parent e => Bulk.errorMessage e
  | .failed .store e => s!"store batch state {b.id}: {Bulk.errorMessage e}"
  | .failed .link e =>
    s!"failed to add child batch to parent: script batch_add_child: {Bulk.errorMessage e}"
  | .failed .jobs e =>
    s!"enqueue batch {b.id} jobs: script batch_enqueue_jobs: {Bulk.errorMessage e}"
  | .failed .completion e =>
    s!"failed to complete empty batch {b.id}: script batch_complete: {Bulk.errorMessage e}"
  | .failed .propagation e => s!"failed to propagate batch completion to parent {b.parentID}: " ++
    s!"script batch_complete: {Bulk.errorMessage e}"

end Message

/-! ### Before anything is written -/

def isReservedCallbackOptionKey (key : String) : Bool := key = "batch_id" || key = "parent_id"

def validateCallbackOptions (callbackName : String) : Option CallbackConfig → Except String Unit
  | none => .ok ()
  | some cfg =>
    match cfg.options.find? fun o => isReservedCallbackOptionKey o.1 with
    | some o =>
      .error (s!"callback option uses a reserved Senna key: {callbackName} option " ++ o.1.quote)
    | none => .ok ()

def validateBatchCallbackOptions (b : NewBatch) : Except String Unit := do
  validateCallbackOptions "on_complete" b.onComplete
  validateCallbackOptions "on_success" b.onSuccess
  validateCallbackOptions "on_death" b.onDeath

def validateJobQueues : List Bulk.Draft → Except String Unit
  | [] => .ok ()
  | d :: drafts =>
    match Bulk.validateQueueName d.job.queue with
    | .error e => .error s!"batch job {d.job.id} queue: {e}"
    | .ok () => validateJobQueues drafts

def validateBatchQueueNames (b : NewBatch) (callbackQueue : String) : Except String Unit := do
  validateJobQueues b.jobs
  if b.onComplete.isNone && b.onSuccess.isNone && b.onDeath.isNone then .ok ()
  else
    match Bulk.validateQueueName callbackQueue with
    | .error e => .error s!"batch callback queue: {e}"
    | .ok () => .ok ()

def checkBatch (b : NewBatch) (callbackQueue : String) : Except String Unit := do
  match b.err with
  | some e => .error e
  | none => pure ()
  validateBatchCallbackOptions b
  validateBatchQueueNames b callbackQueue
  if b.parentID ≠ "" ∧ b.parentID = b.id then .error "batch cannot be its own parent" else pure ()

def findParent (b : NewBatch) (db : Db Key) : Option EnqueueError :=
  if b.parentID ≠ "" then
    match (get (.batch b.parentID)).run db with
    | .error e _ => some (.failed .parent e)
    | .ok none _ => some (.notFound b.parentID)
    | .ok (some _) _ => none
  else none

def marshalBatchJobs (batchID : String) : List Bulk.Draft → Except String (List NewJob)
  | [] => .ok []
  | d :: drafts =>
    match ({ d with job := { d.job with batchID := batchID } } : Bulk.Draft).marshal with
    | .error e => .error s!"failed to marshal job {d.job.id}: {e}"
    | .ok data => (marshalBatchJobs batchID drafts).map (⟨d.job.id, d.job.queue, data⟩ :: ·)

def encodeOptions : List (String × Except String Json) → Except String (List (String × Json))
  | [] => .ok []
  | (name, v) :: options => do
    let v ← v
    let options ← encodeOptions options
    pure ((name, v) :: options)

def encodeCallback : Option CallbackConfig → Except String (Option CallbackInfo)
  | none => .ok none
  | some cfg => do
    let options ← encodeOptions cfg.options
    pure (some ⟨cfg.jobType, options⟩)

def buildBatchState (b : NewBatch) (callbackQueue : String) : Except String Metadata := do
  let onComplete ← encodeCallback b.onComplete
  let onSuccess ← encodeCallback b.onSuccess
  let onDeath ← encodeCallback b.onDeath
  pure
    { id := b.id
      description := b.description
      parentID := b.parentID
      total := b.jobs.length
      pending := b.jobs.length
      failures := 0
      successes := 0
      callbacksPending := 0
      callbackSeq := 0
      dead := false
      deathFired := false
      completeFired := false
      successFired := false
      createdAt := b.createdAt
      callbackQueue := callbackQueue
      onComplete := onComplete
      onSuccess := onSuccess
      onDeath := onDeath
      failedJIDs := []
      invalidated := false }

/-! ### The steps -/

def pipeline : List (Script Key Unit) → Db Key → Option Error × Db Key
  | [], db => (none, db)
  | x :: xs, db =>
    match x.run db with
    | .ok _ db' => pipeline xs db'
    | .error e db' => (some e, (pipeline xs db').2)

def ownKeys (id : String) : List Key :=
  [.batch id, .progress id, .jobs id, .failed id, .callbacks id]

def unlink : List Key → Script Key Unit
  | [] => pure ()
  | k :: ks => do
    del k
    unlink ks

def storeBatchState (id : String) (state : Metadata) : Db Key → Option Error × Db Key :=
  -- without the `EXPIRE` of the progress hash
  pipeline [set (.batch id) state.marshal,
    hsetAll (.progress id) (progressFields state.toBatchState),
    do
      let _ ← sadd .batches id
      pure ()]

def cleanupOrphanedBatch (id : String) (db : Db Key) : Db Key :=
  (pipeline [do
      let _ ← srem .batches id
      pure (),
    unlink (ownKeys id)] db).2

section Steps

variable (rt : Runtime) (b : NewBatch)

def rollbackParentLink (parentID childID : String) (db : Db Key) : Db Key :=
  ((batchRemoveChild rt parentID childID).run db).db

def undo (db : Db Key) : Db Key :=
  cleanupOrphanedBatch b.id
    (if b.parentID ≠ "" then rollbackParentLink rt b.parentID b.id db else db)

def linkBatchToParent (db : Db Key) : Option EnqueueError × Db Key :=
  match (batchAddChild rt b.parentID b.id).run db with
  | .error e db' => (some (.failed .link e), cleanupOrphanedBatch b.id db')
  | .ok none db' => (some (.notFound b.parentID), cleanupOrphanedBatch b.id db')
  | .ok (some .batchInvalidated) db' =>
    (some (.refused s!"parent batch {b.parentID} has been invalidated"),
      cleanupOrphanedBatch b.id db')
  | .ok (some .alreadyExists) db' => (none, db')
  | .ok (some .success) db' => (none, db')

def enqueueBatchJobs (jobs : List NewJob) (db : Db Key) : Option EnqueueError × Db Key :=
  if jobs.length = 0 then (none, db)
  else
    match (batchEnqueueJobs b.id jobs).run db with
    | .ok _ db' => (none, db')
    | .error e db' => (some (.failed .jobs e), undo rt b db')

/-- `propagateBatchCompletion`, for so many ancestors. An error from further up is logged. -/
def propagateBatchCompletion (clock : ℕ → String) :
    ℕ → String → String → Batch.Result → Db Key → Option (Option EnqueueError × Db Key)
  | 0, _, _, _, _ => none
  | depth + 1, childID, parentID, result, db =>
    match (batchComplete rt parentID childID result (clock depth)).run db with
    | .error e db' => some (some (.failed .propagation e), db')
    | .ok none db' => some (some (.notFound parentID), db')
    | .ok (some .batchNotEmpty) db' =>
      some (some (.refused s!"parent batch {parentID} completion failed: batch_not_empty"), db')
    | .ok (some .alreadyProcessed) db' => some (none, db')
    | .ok (some (.recorded r)) db' =>
      match r.parentID, parentResultType r with
      | some grandparentID, some result =>
        (propagateBatchCompletion clock depth parentID grandparentID result db').map
          fun out => (none, out.2)
      | _, _ => some (none, db')

def handleEmptyBatch (clock : ℕ → String) (depth : ℕ) (db : Db Key) :
    Option (Option EnqueueError × Db Key) :=
  match (batchComplete rt b.id b.id .emptySuccess (clock depth)).run db with
  | .error e db' => some (some (.failed .completion e), db')
  | .ok none db' =>
    some (some (.refused s!"empty batch {b.id} completion failed: batch_not_found"), db')
  | .ok (some .batchNotEmpty) db' =>
    some (some (.refused s!"empty batch {b.id} completion failed: batch_not_empty"), db')
  | .ok (some .alreadyProcessed) db' => some (none, db')
  | .ok (some (.recorded r)) db' =>
    -- a batch with callbacks is complete only when they are, and has nothing to tell yet
    match r.parentID, parentResultType r with
    | some parentID, some result => propagateBatchCompletion rt clock depth b.id parentID result db'
    | _, _ => some (none, db')

/-- The steps after the batch is linked: its jobs are enqueued, or it is completed at once. -/
def enqueueLinked (clock : ℕ → String) (depth : ℕ) (jobs : List NewJob) (db : Db Key) :
    Option (Option EnqueueError × Db Key) :=
  match enqueueBatchJobs rt b jobs db with
  | (some e, db₁) => some (some e, db₁)
  | (none, db₁) =>
    if b.jobs.length = 0 then
      match handleEmptyBatch rt b clock depth db₁ with
      | some (some e, db₂) => some (some e, undo rt b db₂)
      | out => out
    else some (none, db₁)

def enqueueStored (clock : ℕ → String) (depth : ℕ) (jobs : List NewJob) (db : Db Key) :
    Option (Option EnqueueError × Db Key) :=
  match if b.parentID ≠ "" then linkBatchToParent rt b db else (none, db) with
  | (some e, db₁) => some (some e, db₁)
  | (none, db₁) => enqueueLinked rt b clock depth jobs db₁

def enqueueBatch (defaultQueue : String) (clock : ℕ → String) (depth : ℕ) (db : Db Key) :
    Option (Option EnqueueError × Db Key) :=
  let callbackQueue := if b.callbackQueue = "" then defaultQueue else b.callbackQueue
  match checkBatch b callbackQueue with
  | .error e => some (some (.invalid e), db)
  | .ok () =>
    match findParent b db with
    | some e => some (some e, db)
    | none =>
      match marshalBatchJobs b.id b.jobs with
      | .error e => some (some (.invalid e), db)
      | .ok jobs =>
        match buildBatchState b callbackQueue with
        | .error e => some (some (.invalid s!"marshal batch state {b.id}: {e}"), db)
        | .ok state =>
          match storeBatchState b.id state db with
          -- the one error without a cleanup
          | (some e, db₁) => some (some (.failed .store e), db₁)
          | (none, db₁) => enqueueStored rt b clock depth jobs db₁

end Steps

/-! ### The pipelines -/

variable {rt : Runtime} {b : NewBatch} {id : String} {db db' : Db Key}

theorem run_unlink (ks : List Key) (db : Db Key) :
    ∃ db', (unlink ks).run db = .ok () db' ∧ (∀ k ∈ ks, db' k = none) ∧
      ∀ k, k ∉ ks → db' k = db k := by
  induction ks generalizing db with
  | nil => exact ⟨db, rfl, nofun, fun _ _ => rfl⟩
  | cons k ks ih =>
    obtain ⟨db', hrun, hgone, hother⟩ := ih (db.del k)
    have hdel : db.del k k = none := Db.write_self _ _ _
    refine ⟨db', hrun, List.forall_mem_cons.mpr ⟨?_, hgone⟩, fun k' hk' => ?_⟩
    · by_cases hk : k ∈ ks
      · exact hgone k hk
      · rw [hother k hk, hdel]
    · obtain ⟨hne, hnot⟩ := not_or.mp (mt List.mem_cons.mpr hk')
      rw [hother k' hnot, Db.del, Db.write_apply, if_neg hne]

theorem not_mem_ownKeys {k : Key} (h : k.Foreign id) : k ∉ ownKeys id := by
  intro hk
  simp only [ownKeys, List.mem_cons, List.not_mem_nil, or_false] at hk
  obtain rfl | rfl | rfl | rfl | rfl := hk <;> exact h rfl

theorem pipeline_ok {x : Script Key Unit} (h : x.run db = .ok () db')
    (xs : List (Script Key Unit)) : pipeline (x :: xs) db = pipeline xs db' := by
  rw [pipeline, h]

theorem pipeline_snd (xs : List (Script Key Unit)) (db : Db Key) :
    (pipeline xs db).2 = xs.foldl (fun db x => (x.run db).db) db := by
  induction xs generalizing db with
  | nil => rfl
  | cons x xs ih =>
    rw [pipeline, List.foldl_cons]
    cases x.run db with
    | ok a db' | error e db' => exact ih db'

theorem not_mem_srem (id : String) (db : Db Key) :
    id ∉ ((srem .batches id).run db).db.members .batches := by
  by_cases h : db.HasType .batches .set
  · rw [run_srem h, Outcome.db_ok, Db.members, Db.putSet, Db.write_self, Db.setOf_ofSet]
    exact Finset.notMem_erase _ _
  · rw [srem, run_onSet_wrongType h]
    exact Db.members_of_not_hasType h ▸ Finset.notMem_empty id

/-- **The cleanup removes all keys of the batch**, and its ID from the set of all batches. -/
theorem cleanup_spec (id : String) (db : Db Key) :
    (∀ k ∈ ownKeys id, cleanupOrphanedBatch id db k = none) ∧
      id ∉ (cleanupOrphanedBatch id db).members .batches ∧
      ∀ k, k.Foreign id → k ≠ .batches → cleanupOrphanedBatch id db k = db k := by
  have hdiscard : ((do
      let _ ← srem .batches id
      pure () : Script Key Unit).run db).db = ((srem .batches id).run db).db := by
    rw [run_bind]
    cases (srem .batches id).run db <;> rfl
  -- `UNLINK` is executed whether or not `SREM` failed
  obtain ⟨db', hrun, hgone, hother⟩ := run_unlink (ownKeys id) ((srem .batches id).run db).db
  have hcleanup : cleanupOrphanedBatch id db = db' := by
    rw [cleanupOrphanedBatch, pipeline_snd, List.foldl_cons, List.foldl_cons, List.foldl_nil,
      hdiscard, hrun]
    rfl
  rw [hcleanup]
  refine ⟨hgone, ?_, fun k hk hne => ?_⟩
  · rw [Db.members, hother .batches (not_mem_ownKeys trivial)]
    exact not_mem_srem id db
  · exact (hother k (not_mem_ownKeys hk)).trans (Leaves.srem hne id db)

/-! ### A batch that left no trace -/

/-- Nothing is stored for the batch yet. -/
structure Fresh (b : NewBatch) (db : Db Key) : Prop where
  own : ∀ k ∈ ownKeys b.id, db k = none
  batches : b.id ∉ db.members .batches
  member : b.id ∉ db.members (.jobs b.parentID)

/-- The parent and the queues are as if nothing had happened. -/
structure Restored (b : NewBatch) (db db' : Db Key) : Prop where
  member : b.parentID ≠ "" → b.id ∉ db'.members (.jobs b.parentID)
  counts : b.parentID ≠ "" → counts b.parentID db' = counts b.parentID db
  queues : ∀ name, db' (.queue name) = db (.queue name)

/-- **There is no trace of the batch**: none of its keys exist, its ID is in none of the sets, the
parent has the same counters as before, and nothing was added to a queue. -/
structure Undone (b : NewBatch) (db db' : Db Key) : Prop extends Restored b db db' where
  own : ∀ k ∈ ownKeys b.id, db' k = none
  batches : b.id ∉ db'.members .batches

section Undone

variable (hself : b.parentID ≠ "" → b.parentID ≠ b.id)
include hself

theorem Restored.of_foreign {db₁ : Db Key} (h : Restored b db db₁)
    (hsame : ∀ k, k.Foreign b.id → k ≠ .batches → db' k = db₁ k) : Restored b db db' where
  member hparent := by
    rw [Db.members, hsame (.jobs b.parentID) (hself hparent) Key.noConfusion]
    exact h.member hparent
  counts hparent := (counts_of_same (hsame (.batch _) (hself hparent) Key.noConfusion)
    (hsame (.progress _) (hself hparent) Key.noConfusion)).trans (h.counts hparent)
  queues name := (hsame (.queue name) trivial Key.noConfusion).trans (h.queues name)

theorem Restored.cleanup (h : Restored b db db') : Undone b db (cleanupOrphanedBatch b.id db') := by
  obtain ⟨hown, hbatches, hother⟩ := cleanup_spec b.id db'
  exact ⟨h.of_foreign hself hother, hown, hbatches⟩

end Undone

theorem Fresh.restored (h : Fresh b db) : Restored b db db :=
  ⟨fun _ => h.member, fun _ => rfl, fun _ => rfl⟩

theorem Fresh.undone (h : Fresh b db) : Undone b db db := ⟨h.restored, h.own, h.batches⟩

/-! ### Storing and linking -/

/-- The state was stored. -/
structure Stored (b : NewBatch) (state : Metadata) (db db₁ : Db Key) : Prop where
  batch : db₁ (.batch b.id) = some (.string state.marshal)
  progress : db₁ (.progress b.id) = some (.hash (progressHash state.toBatchState))
  jobs : db₁ (.jobs b.id) = none
  outside : ∀ k, k.Foreign b.id → k ≠ .batches → db₁ k = db k

def written (b : NewBatch) (state : Metadata) (db : Db Key) : Db Key :=
  (db.putStr (.batch b.id) state.marshal).putHash (.progress b.id)
    (progressHash state.toBatchState)

theorem written_batches {state : Metadata} : written b state db .batches = db .batches := by
  simp [written, Db.write_apply]

theorem written_batch {state : Metadata} :
    written b state db (.batch b.id) = some (.string state.marshal) := by
  simp [written, Db.write_apply]

theorem storeBatchState_eq (hfresh : Fresh b db) (state : Metadata) :
    storeBatchState b.id state db = pipeline [do
      let _ ← sadd .batches b.id
      pure ()] (written b state db) := by
  have habsent : db.putStr (.batch b.id) state.marshal (.progress b.id) = none := by
    rw [Db.putStr, Db.write_apply, if_neg Key.noConfusion]
    exact hfresh.own _ (by simp [ownKeys])
  have hhset : (hsetAll (.progress b.id) (progressFields state.toBatchState)).run
      (db.putStr (.batch b.id) state.marshal) = .ok () (written b state db) := by
    rw [run_hsetAll (Or.inl (by rw [habsent]; rfl)), Db.hash, habsent]
    rfl
  unfold storeBatchState
  rw [pipeline_ok (run_set _), pipeline_ok hhset]

theorem storeBatchState_spec (hfresh : Fresh b db) (hbatches : db.HasType .batches .set)
    (state : Metadata) :
    ∃ db₁, storeBatchState b.id state db = (none, db₁) ∧ Stored b state db db₁ := by
  have hset : (written b state db).HasType .batches .set := by
    unfold Db.HasType
    rw [written_batches]
    exact hbatches
  have hsadd : (do
      let _ ← sadd .batches b.id
      pure () : Script Key Unit).run (written b state db) = .ok () ((written b state db).putSet
        .batches (insert b.id ((written b state db).members .batches))) := by
    rw [run_bind_ok (run_sadd hset b.id)]
    rfl
  refine ⟨_, (storeBatchState_eq hfresh state).trans (pipeline_ok hsadd []), ?_⟩
  generalize insert b.id ((written b state db).members .batches) = batches
  have hother (k : Key) (hk : k ≠ .batches) :
      (written b state db).putSet .batches batches k = written b state db k := by
    rw [Db.putSet, Db.write_apply, if_neg hk]
  refine ⟨?_, ?_, ?_, fun k hk hne => ?_⟩
  · rw [hother _ Key.noConfusion, written_batch]
  · rw [hother _ Key.noConfusion]
    exact Db.write_self _ _ _
  · rw [hother _ Key.noConfusion]
    simp [written, Db.write_apply, hfresh.own (.jobs b.id) (by simp [ownKeys])]
  · have hbatch : k ≠ .batch b.id := hk.ne fun h => h rfl
    have hprogress : k ≠ .progress b.id := hk.ne not_foreign_progress
    rw [hother k hne]
    simp [written, Db.write_apply, hbatch, hprogress]

theorem storeBatchState_error (hfresh : Fresh b db) (hbatches : ¬ db.HasType .batches .set)
    (state : Metadata) :
    ∃ e db₁, storeBatchState b.id state db = (some e, db₁) ∧
      db₁ (.batch b.id) = some (.string state.marshal) := by
  have hset : ¬ (written b state db).HasType .batches .set := by
    unfold Db.HasType
    rw [written_batches]
    exact hbatches
  have hsadd : (do
      let _ ← sadd .batches b.id
      pure () : Script Key Unit).run (written b state db) =
        .error .wrongType (written b state db) := by
    rw [run_bind, sadd, run_onSet_wrongType hset]
  refine ⟨.wrongType, written b state db, ?_, written_batch⟩
  rw [storeBatchState_eq hfresh, pipeline, hsadd]
  rfl

/-- The batch is linked to its parent. -/
structure Linked (b : NewBatch) (total pending : ℕ) (db db₂ : Db Key) : Prop where
  batch : db₂ (.batch b.parentID) = db (.batch b.parentID)
  counts : ∀ data, db (.batch b.parentID) = some (.string data) →
    counts b.parentID db = (decodeBatchState data).map fun _ => ((total : ℤ), (pending : ℤ))
  tracked : Tracked b.parentID (total + 1) (pending + 1) db₂
  jobs : db₂.HasType (.jobs b.parentID) .set
  members : db₂.members (.jobs b.parentID) = insert b.id (db.members (.jobs b.parentID))
  numbered : ∀ data, Numbered b.parentID data db → Numbered b.parentID data db₂

/-- The scripts can work with what stands in the keys of the parent. Its counters are natural
numbers, and if the batch is complete at once, the counters of callback jobs are numbers and the
metadata can be read. -/
structure Proper (rt : Runtime) (b : NewBatch) (data : String) (db : Db Key) : Prop where
  counted : ∃ total pending, Counted rt b.parentID total pending db
  numbered : b.jobs.length = 0 → Numbered b.parentID data db
  sound : b.jobs.length = 0 → ∃ metadata, Sound rt data metadata

def ParentProper (rt : Runtime) (b : NewBatch) (db : Db Key) : Prop :=
  ∀ data, db (.batch b.parentID) = some (.string data) →
    db.HasType (.progress b.parentID) .hash → db.HasType (.jobs b.parentID) .set →
      Proper rt b data db

section Link

variable {state : Metadata} {db₁ : Db Key}

theorem Stored.restored (h : Stored b state db db₁) (hself : b.parentID ≠ "" → b.parentID ≠ b.id)
    (hfresh : Fresh b db) : Restored b db db₁ :=
  hfresh.restored.of_foreign hself h.outside

def Apart (b : NewBatch) (db db₂ : Db Key) : Prop :=
  ∀ k, k ≠ .progress b.parentID → k ≠ .jobs b.parentID → db₂ k = db k

/-- **Linking succeeds, or nothing is left of the batch.** -/
theorem linkBatchToParent_cases {data : String} (hstored : Stored b state db db₁) (hfresh : Fresh b db)
    (hparent : b.parentID ≠ "") (hself : b.parentID ≠ b.id)
    (hdata : db (.batch b.parentID) = some (.string data)) (hproper : ParentProper rt b db) :
    (∃ e db₂, linkBatchToParent rt b db₁ = (some (.failed .link e), db₂) ∧ Undone b db db₂) ∨
      (∃ message db₂, linkBatchToParent rt b db₁ = (some (.refused message), db₂) ∧
        Undone b db db₂) ∨
      ∃ total pending db₂, linkBatchToParent rt b db₁ = (none, db₂) ∧
        Linked b total pending db db₂ ∧ Apart b db₁ db₂ ∧ Proper rt b data db := by
  have hsame (k : Key) (hk : k.Foreign b.id) (hne : k ≠ .batches) : db₁ k = db k :=
    hstored.outside k hk hne
  have hbatch₁ : db₁ (.batch b.parentID) = db (.batch b.parentID) := hsame _ hself Key.noConfusion
  have hrestored := hstored.restored (fun _ => hself) hfresh
  have hprogress₁ : db₁ (.progress b.parentID) = db (.progress b.parentID) :=
    hsame _ hself Key.noConfusion
  have hjobs₁ : db₁ (.jobs b.parentID) = db (.jobs b.parentID) := hsame _ hself Key.noConfusion
  by_cases htypes : db.HasType (.progress b.parentID) .hash ∧ db.HasType (.jobs b.parentID) .set
  · have hcontents := hproper data hdata htypes.1 htypes.2
    obtain ⟨total, pending, hcounted⟩ := hcontents.counted
    have hcounted₁ : Counted rt b.parentID total pending db₁ := by
      cases hcounted with
      | tracked h => exact .tracked (h.of_same hbatch₁ hprogress₁)
      | old s batch progress cjson small htotal hpending =>
        exact .old s (hbatch₁.trans batch) (hprogress₁.trans progress) cjson small htotal hpending
    have hmembers₁ : db₁.members (.jobs b.parentID) = db.members (.jobs b.parentID) :=
      congrArg Db.setOf hjobs₁
    -- the script raises before it writes, refuses, or links
    unfold linkBatchToParent
    obtain ⟨e, hrun⟩ | ⟨db₂, hrun, hcounted₂, hnear⟩ |
        ⟨db₂, hrun, htracked, hjobs, hmembers, haround, hnumbered⟩ :=
      run_batchAddChild_cases hcounted₁ (hmembers₁ ▸ hfresh.member)
    · rw [hrun]
      exact Or.inl ⟨e, _, rfl, hrestored.cleanup fun _ => hself⟩
    · rw [hrun]
      refine Or.inr (Or.inl ⟨_, _, rfl, Restored.cleanup (fun _ => hself) ⟨fun _ => ?_, fun _ => ?_,
        fun name => ?_⟩⟩)
      · rw [Db.members, hnear _ Key.noConfusion]
        exact hrestored.member hparent
      · have hdata₂ : db₂ (.batch b.parentID) = some (.string data) :=
          (hnear _ Key.noConfusion).trans (hbatch₁.trans hdata)
        rw [hcounted₂.counts hdata₂, hcounted.counts hdata]
      · exact (hnear _ Key.noConfusion).trans (hrestored.queues name)
    · rw [hrun]
      refine Or.inr (Or.inr ⟨total, pending, db₂, rfl, ⟨?_, ?_, htracked, hjobs, ?_, ?_⟩, haround,
        hcontents⟩)
      · exact (haround _ Key.noConfusion Key.noConfusion).trans hbatch₁
      · exact fun data hdata => hcounted.counts hdata
      · rw [hmembers, hmembers₁]
      · exact fun data hdb => hnumbered data (hdb.of_same hbatch₁ hprogress₁)
  · -- the script stops at a key that does not fit
    have htypes₁ : ¬ (db₁.HasType (.progress b.parentID) .hash ∧
        db₁.HasType (.jobs b.parentID) .set) := by
      unfold Db.HasType
      rw [hprogress₁, hjobs₁]
      exact htypes
    obtain ⟨e, hrun⟩ := @run_batchAddChild_error rt b.id b.parentID db₁ data (hbatch₁.trans hdata)
      htypes₁
    refine Or.inl ⟨e, _, ?_, hrestored.cleanup fun _ => hself⟩
    rw [linkBatchToParent, hrun]

end Link

/-! ### Taking it back -/

/-- The state of a new batch. -/
structure New (b : NewBatch) (state : Metadata) : Prop where
  parentID : state.parentID = b.parentID
  callbacksPending : state.callbacksPending = 0
  dead : state.dead = false
  invalidated : state.invalidated = false

/-- The batch is stored and linked, and nothing is in a queue yet. -/
structure Ready (b : NewBatch) (state : Metadata) (db db₂ : Db Key) : Prop where
  batch : db₂ (.batch b.id) = some (.string state.marshal)
  progress : db₂ (.progress b.id) = some (.hash (progressHash state.toBatchState))
  jobs : db₂ (.jobs b.id) = none
  queues : ∀ name, db₂ (.queue name) = db (.queue name)
  linked : b.parentID ≠ "" → ∃ total pending, Linked b total pending db db₂

section Undo

variable {state : Metadata} {db₂ db₃ : Db Key}

/-- **The rollback and the cleanup leave no trace**, if all that has happened since the link was to
keys of the batch. -/
theorem undo_spec (h : Ready b state db db₂) (hself : b.parentID ≠ "" → b.parentID ≠ b.id)
    (hsame : ∀ k, k.Foreign b.id → db₃ k = db₂ k) : Undone b db (undo rt b db₃) := by
  refine Restored.cleanup hself ?_
  by_cases hparent : b.parentID ≠ ""
  · obtain ⟨total, pending, hlinked⟩ := h.linked hparent
    have hown := hself hparent
    have hjobs₃ : db₃ (.jobs b.parentID) = db₂ (.jobs b.parentID) := hsame (.jobs _) hown
    -- the parent still has its member and both counts, so that unlinking gives back the old ones
    have htracked : Tracked b.parentID (total + 1) (pending + 1) db₃ :=
      hlinked.tracked.of_same (hsame (.batch _) hown) (hsame (.progress _) hown)
    have htyped : db₃.HasType (.jobs b.parentID) .set := by
      unfold Db.HasType
      rw [hjobs₃]
      exact hlinked.jobs
    have hmembers : db₃.members (.jobs b.parentID) = insert b.id (db.members (.jobs b.parentID)) :=
      (congrArg Db.setOf hjobs₃).trans hlinked.members
    obtain ⟨db₄, hrun, htracked₄, -, hmembers₄, haround⟩ := @run_batchRemoveChild rt b.id b.parentID
      db₃ total pending htracked htyped (by rw [hmembers]; exact Finset.mem_insert_self _ _)
    have hbatch₄ : db₄ (.batch b.parentID) = db (.batch b.parentID) :=
      (haround _ Key.noConfusion Key.noConfusion).trans
        ((hsame (.batch _) hown).trans hlinked.batch)
    rw [if_pos hparent, rollbackParentLink, hrun]
    refine ⟨fun _ => ?_, fun _ => ?_, fun name => ?_⟩
    · rw [Outcome.db_ok, hmembers₄]
      exact Finset.notMem_erase _ _
    · obtain ⟨data, hdata⟩ := htracked₄.batch
      rw [Outcome.db_ok, Counted.counts (.tracked htracked₄ : Counted rt _ _ _ _) hdata,
        hlinked.counts data (hbatch₄ ▸ hdata)]
    · exact (haround _ Key.noConfusion Key.noConfusion).trans
        ((hsame (.queue name) trivial).trans (h.queues name))
  · rw [if_neg hparent]
    exact ⟨fun hne => absurd hne hparent, fun hne => absurd hne hparent, fun name =>
      (hsame (.queue name) trivial).trans (h.queues name)⟩

theorem propagate_error {clock : ℕ → String} {depth : ℕ} {childID parentID data : String}
    {metadata : Json} {total pending : ℕ} {err : EnqueueError} (hsound : Sound rt data metadata)
    (hdb : Numbered parentID data db) (htracked : Tracked parentID total pending db)
    (hjobs : db.HasType (.jobs parentID) .set)
    (h : propagateBatchCompletion rt clock depth childID parentID .success db =
      some (some err, db')) : db' = db := by
  cases depth with
  | zero => cases h
  | succ depth =>
    rw [propagateBatchCompletion] at h
    have hreplies := @batchComplete_replies rt parentID db data childID (clock depth) .success
      hdb.batch Batch.Result.noConfusion
    cases hrun : (batchComplete rt parentID childID .success (clock depth)).run db with
    | error e db₁ =>
      rw [hrun] at h
      cases h
      exact batchComplete_success_error hsound hdb htracked hjobs hrun
    | ok reply db₁ =>
      rw [hrun] at h hreplies
      obtain rfl | ⟨r, rfl⟩ := hreplies
      · cases h
      · -- errors from further up are logged, so there is none to return
        simp only at h
        split at h
        · obtain ⟨out, -, heq⟩ := Option.map_eq_some_iff.mp h
          cases heq
        · cases h

theorem parentResultType_eq_some {r : CompleteResult} {result : Batch.Result}
    (h : parentResultType r = some result) (hdead : r.dead = false)
    (hinvalidated : r.invalidated = false) : r.completedNow = true ∧ result = .success := by
  unfold parentResultType at h
  rw [hdead, hinvalidated] at h
  split at h
  · cases h
  · next hnot =>
    refine ⟨Bool.not_eq_false _ ▸ fun hfalse => hnot (Or.inl hfalse), ?_⟩
    exact (Option.some.inj h).symm

/-- **If an empty batch cannot be completed, only its own keys have changed.** -/
theorem handleEmptyBatch_error {clock : ℕ → String} {depth : ℕ} {err : EnqueueError}
    (hready : Ready b state db db₂) (hstate : New b state)
    (hself : b.parentID ≠ "" → b.parentID ≠ b.id)
    (hsound : b.parentID ≠ "" → ∃ data metadata, Sound rt data metadata ∧
      Numbered b.parentID data db)
    (h : handleEmptyBatch rt b clock depth db₂ = some (some err, db₃)) :
    ∀ k, k.Foreign b.id → db₃ k = db₂ k := by
  have hparent : progressHash state.toBatchState "parent_id" = some (.text b.parentID) := by
    rw [← hstate.parentID]
    rfl
  have hcallbacks : progressHash state.toBatchState "callbacks_pending" = some (.int 0) := by
    rw [← hstate.callbacksPending]
    rfl
  have hends := @run_batchComplete_empty rt b.id db₂ _ _ hready.batch hready.progress
    (Or.inl (congrArg Db.typeOf hready.jobs)) hcallbacks b.id (clock depth)
  rw [handleEmptyBatch] at h
  cases hrun : (batchComplete rt b.id b.id .emptySuccess (clock depth)).run db₂ with
  | error e db' =>
    rw [hrun] at h hends
    cases h
    exact hends
  | ok reply db' =>
    rw [hrun] at h hends
    have hquiet := hends.quiet
    rcases reply with _ | (_ | _ | r)
    · cases h
      exact hquiet fun r heq => absurd heq.symm (Option.some_ne_none _)
    · cases h
      exact hquiet fun _ heq => CompleteReply.noConfusion (Option.some.inj heq)
    · cases h
    · simp only at h
      split at h
      · next parentID result hparentID hresult =>
        -- the batch has a parent and is complete, so its own script was quiet
        have hdead : r.dead = false := by
          refine (hends.dead r rfl).trans ?_
          change boolValue (some (.int (boolInt state.dead))) = false
          rw [hstate.dead]
          rfl
        have hinvalidated : r.invalidated = false := by
          refine (hends.invalidated r rfl).trans ?_
          change boolValue (some (.int (boolInt state.invalidated))) = false
          rw [hstate.invalidated]
          rfl
        obtain ⟨hcompleted, rfl⟩ := parentResultType_eq_some hresult hdead hinvalidated
        have hsame := hquiet fun r' heq => by
          cases heq
          exact hcompleted
        have hname := hends.parentID r rfl
        rw [hparentID, hparent, stringValue, print] at hname
        split at hname
        · cases hname
        · next hne =>
          obtain rfl := Option.some.inj hname
          obtain ⟨total, pending, hlinked⟩ := hready.linked hne
          obtain ⟨data, metadata, hmetadata, hnumbered⟩ := hsound hne
          have hbatch := hsame (.batch _) (hself hne)
          have hprogress := hsame (.progress _) (hself hne)
          have hjobs : db'.HasType (.jobs b.parentID) .set := by
            unfold Db.HasType
            rw [hsame (.jobs _) (hself hne)]
            exact hlinked.jobs
          rw [propagate_error hmetadata ((hlinked.numbered data hnumbered).of_same hbatch hprogress)
            (hlinked.tracked.of_same hbatch hprogress) hjobs h]
          exact hsame
      · cases h

end Undo

/-! ### All or nothing -/

section Main

variable {clock : ℕ → String} {depth : ℕ} {err : EnqueueError}

theorem parentID_ne_of_checkBatch {callbackQueue : String}
    (h : checkBatch b callbackQueue = .ok ()) : b.parentID ≠ "" → b.parentID ≠ b.id := by
  intro hparent heq
  unfold checkBatch at h
  simp only [bind, Except.bind] at h
  repeat' split at h
  all_goals simp_all

theorem buildBatchState_ok {callbackQueue : String} {state : Metadata}
    (h : buildBatchState b callbackQueue = .ok state) : New b state := by
  unfold buildBatchState at h
  simp only [bind, Except.bind] at h
  repeat' split at h
  all_goals first | cases h; exact ⟨rfl, rfl, rfl, rfl⟩ | cases h

theorem findParent_none (h : findParent b db = none) (hparent : b.parentID ≠ "") :
    ∃ data, db (.batch b.parentID) = some (.string data) := by
  unfold findParent at h
  rw [if_pos hparent] at h
  rcases hv : db (.batch b.parentID) with _ | (data | _ | _ | _ | _)
  · rw [run_get (Or.inl (congrArg Db.typeOf hv)), Db.str, hv] at h
    cases h
  · exact ⟨data, rfl⟩
  all_goals
    simp [Redis.get, onString, Script.run, hv] at h

theorem marshalBatchJobs_nil {batchID : String} {drafts : List Bulk.Draft} {jobs : List NewJob}
    (h : marshalBatchJobs batchID drafts = .ok jobs) (hnone : drafts.length = 0) : jobs = [] := by
  rw [List.length_eq_zero_iff.mp hnone] at h
  exact (Except.ok.inj h).symm

section Steps

variable {state : Metadata} {jobs : List NewJob} {db₁ db₂ : Db Key} (hstate : New b state)
  (hjobs : b.jobs.length = 0 → jobs = []) (hself : b.parentID ≠ "" → b.parentID ≠ b.id)
include hstate hjobs hself

theorem enqueueLinked_error (hready : Ready b state db db₂)
    (hsound : b.jobs.length = 0 → b.parentID ≠ "" → ∃ data metadata, Sound rt data metadata ∧
      Numbered b.parentID data db)
    (h : enqueueLinked rt b clock depth jobs db₂ = some (some err, db')) : Undone b db db' := by
  unfold enqueueLinked at h
  by_cases hempty : b.jobs.length = 0
  · -- no job was enqueued, so an error comes from completing the batch
    rw [hjobs hempty] at h
    change (if b.jobs.length = 0 then _ else _) = _ at h
    rw [if_pos hempty] at h
    split at h
    · next e db₃ hrun =>
      cases h
      exact undo_spec hready hself
        (handleEmptyBatch_error hready hstate hself (hsound hempty) hrun)
    · next hnot => exact absurd h (hnot _ _)
  · simp only [if_neg hempty] at h
    split at h
    · next e db₃ hrun =>
      cases h
      unfold enqueueBatchJobs at hrun
      split at hrun
      · cases hrun
      · split at hrun
        · cases hrun
        · next e db₃ hscript =>
          cases hrun
          rw [batchEnqueueJobs_error hscript]
          exact undo_spec hready hself fun _ _ => rfl
    · cases h

theorem enqueueStored_error (hstored : Stored b state db db₁) (hfresh : Fresh b db)
    (hbatch : b.parentID ≠ "" → ∃ data, db (.batch b.parentID) = some (.string data))
    (hproper : b.parentID ≠ "" → ParentProper rt b db)
    (h : enqueueStored rt b clock depth jobs db₁ = some (some err, db')) : Undone b db db' := by
  unfold enqueueStored at h
  have hqueue (name : String) : db₁ (.queue name) = db (.queue name) :=
    hstored.outside (.queue name) trivial Key.noConfusion
  by_cases hparent : b.parentID ≠ ""
  · rw [if_pos hparent] at h
    have hne := hself hparent
    obtain ⟨data, hdata⟩ := hbatch hparent
    obtain ⟨e, db₂, hrun, hundone⟩ | ⟨message, db₂, hrun, hundone⟩ |
        ⟨total, pending, db₂, hrun, hlinked, hapart, hcontents⟩ :=
      linkBatchToParent_cases hstored hfresh hparent hne hdata (hproper hparent)
    · rw [hrun] at h
      cases h
      exact hundone
    · rw [hrun] at h
      cases h
      exact hundone
    · rw [hrun] at h
      refine enqueueLinked_error hstate hjobs hself ⟨?_, ?_, ?_, fun name => ?_,
        fun _ => ⟨total, pending, hlinked⟩⟩ (fun hempty _ => ?_) h
      · exact (hapart _ Key.noConfusion Key.noConfusion).trans hstored.batch
      · refine (hapart _ (fun heq => hne ?_) Key.noConfusion).trans hstored.progress
        exact (Key.progress.inj heq).symm
      · refine (hapart _ Key.noConfusion fun heq => hne ?_).trans hstored.jobs
        exact (Key.jobs.inj heq).symm
      · exact (hapart _ Key.noConfusion Key.noConfusion).trans (hqueue name)
      · obtain ⟨metadata, hmetadata⟩ := hcontents.sound hempty
        exact ⟨data, metadata, hmetadata, hcontents.numbered hempty⟩
  · rw [if_neg hparent] at h
    exact enqueueLinked_error hstate hjobs hself ⟨hstored.batch, hstored.progress, hstored.jobs,
      hqueue, fun hne => absurd hne hparent⟩ (fun _ hne => absurd hne hparent) h

end Steps

def callbackQueueOf (b : NewBatch) (defaultQueue : String) : String :=
  if b.callbackQueue = "" then defaultQueue else b.callbackQueue

/-- **The call gets as far as its pipeline**: nothing is wrong with the batch, and the parent is
found. -/
def Writes (b : NewBatch) (defaultQueue : String) (db : Db Key) : Prop :=
  checkBatch b (callbackQueueOf b defaultQueue) = .ok () ∧ findParent b db = none ∧
    (∃ jobs, marshalBatchJobs b.id b.jobs = .ok jobs) ∧
    ∃ state, buildBatchState b (callbackQueueOf b defaultQueue) = .ok state

/-- **A batch that is not enqueued leaves no trace, just if** the set of all batches is no other
type, or the call does not get as far as that. -/
theorem enqueueBatch_all_or_nothing {defaultQueue : String} (hfresh : Fresh b db)
    (hproper : b.parentID ≠ "" → ParentProper rt b db) :
    (∀ err db', enqueueBatch rt b defaultQueue clock depth db = some (some err, db') →
      Undone b db db') ↔ (Writes b defaultQueue db → db.HasType .batches .set) := by
  constructor
  · rintro hundone ⟨hcheck, hfound, ⟨jobs, hjobs⟩, state, hstate⟩
    by_contra hbatches
    -- the pipeline fails with the metadata written
    obtain ⟨e, db₁, hrun, hbatch⟩ := storeBatchState_error hfresh hbatches state
    have hcall : enqueueBatch rt b defaultQueue clock depth db =
        some (some (.failed .store e), db₁) := by
      rw [callbackQueueOf] at hcheck hstate
      unfold enqueueBatch
      simp only [hcheck, hfound, hjobs, hstate, hrun]
    have hgone := (hundone _ _ hcall).own (.batch b.id) (by simp [ownKeys])
    rw [hbatch] at hgone
    cases hgone
  · intro hbatches err db' h
    unfold enqueueBatch at h
    simp only at h
    split at h
    · cases h
      exact hfresh.undone
    · next hcheck =>
      split at h
      · cases h
        exact hfresh.undone
      · next hfound =>
        split at h
        · cases h
          exact hfresh.undone
        · next jobs hjobs =>
          split at h
          · cases h
            exact hfresh.undone
          · next state hstate =>
            obtain ⟨db₁, hrun, hstored⟩ := storeBatchState_spec hfresh
              (hbatches ⟨hcheck, hfound, ⟨jobs, hjobs⟩, state, hstate⟩) state
            rw [hrun] at h
            exact enqueueStored_error (buildBatchState_ok hstate) (marshalBatchJobs_nil hjobs)
              (parentID_ne_of_checkBatch hcheck) hstored hfresh (findParent_none hfound) hproper h

end Main

/-! ### A queue and a set of a wrong type -/

def emptyBatch (parentID : String) : NewBatch where
  id := "b"
  description := ""
  parentID := parentID
  jobs := []
  onComplete := none
  onSuccess := none
  onDeath := none
  callbackQueue := ""
  createdAt := Time.zero
  err := none

def parentMetadata : Json :=
  .obj [("id", .str "p"), ("on_complete", .obj [("job_type", .str "J")])]

/-- The parent is complete when its new member is, and the queue of its callback is no list. -/
def wrongQueue : Db Key := fun k =>
  if k = .batch "p" then some (.string parentMetadata.render) else
  if k = .progress "p" then
    some (.hash fun f => if f = "total" ∨ f = "pending" then some (.int 0) else none) else
  if k = .queue "default" then some (.string "") else none

theorem parentMetadata_sound : Sound .plain parentMetadata.render parentMetadata where
  decode := by
    simp [Runtime.plain, Cjson.plain, parentMetadata, Json.depthMembers, cjsonMaxDepth]
  name := ⟨"p", rfl⟩
  encode c hc jid queue now s parentID := by
    obtain ⟨name, hname, config, hconfig, hoptions⟩ := hc
    have hnone : c.options = none := by
      simp only [callbackFields, List.mem_cons, List.not_mem_nil, or_false] at hname
      obtain rfl | rfl := hname
      · cases hconfig
        exact (Option.some.inj hoptions).symm
      · cases hconfig
    have hstr (s : String) : (Json.str s).isFinite = true := by simp [Json.isFinite]
    have hretry : (Json.int defaultRetryCount).isFinite = true := by decide +kernel
    have hcount : (Json.int 0).isFinite = true := by decide +kernel
    have hdepth : (callbackJob jid c queue now (.str s) parentID).depth ≤ cjsonMaxDepth := by
      unfold callbackJob callbackArgs
      rw [hnone]
      cases parentID <;> simp [Json.depthMembers, cjsonMaxDepth]
    have hfinite : (callbackJob jid c queue now (.str s) parentID).isFinite = true := by
      unfold callbackJob callbackArgs
      rw [hnone]
      cases parentID <;> simp only [Json.isFinite_obj, List.forall_mem_cons, hretry, hcount, hstr,
        Option.map_none, Option.getD_none, List.filter_nil, List.nil_append, List.cons_append,
        List.append_nil, List.not_mem_nil, false_imp_iff, implies_true, and_true]
    change (if _ then _ else none) ≠ none
    rw [if_pos ⟨hdepth, hfinite⟩]
    exact Option.some_ne_none _

def wrongBatches : Db Key := fun k => if k = .batches then some (.string "") else none

def EnqueueError.stage : EnqueueError → Option Stage
  | .failed stage _ => some stage
  | _ => none

theorem empty_batch_undone :
    ∃ err db', enqueueBatch .plain (emptyBatch "p") "default" (fun _ => "") 1 wrongQueue =
      some (some err, db') ∧ err.stage = some .propagation ∧
      Undone (emptyBatch "p") wrongQueue db' := by
  have hstage : ((enqueueBatch .plain (emptyBatch "p") "default" (fun _ => "") 1 wrongQueue).bind
      fun out => out.1.map EnqueueError.stage) = some (some .propagation) := by
    decide +kernel
  obtain ⟨⟨reported, db'⟩, hrun, hreported⟩ := Option.bind_eq_some_iff.mp hstage
  obtain ⟨err, herr, hpropagation⟩ := Option.map_eq_some_iff.mp hreported
  obtain rfl : reported = some err := herr
  have hfresh : Fresh (emptyBatch "p") wrongQueue :=
    ⟨by decide +kernel, Finset.notMem_empty _, Finset.notMem_empty _⟩
  have hproper : ParentProper .plain (emptyBatch "p") wrongQueue := by
    intro data hdata _ _
    obtain rfl : parentMetadata.render = data := Value.string.inj (Option.some.inj hdata)
    refine ⟨⟨0, 0, .tracked ⟨⟨_, rfl⟩, rfl, rfl, rfl⟩⟩, fun _ => ⟨rfl, fun f hf s => ?_⟩,
      fun _ => ⟨_, parentMetadata_sound⟩⟩
    simp only [callbackCounters, List.mem_cons, List.not_mem_nil, or_false] at hf
    obtain rfl | rfl := hf <;> exact (Option.some_ne_none _).symm
  exact ⟨err, db', hrun, hpropagation, (enqueueBatch_all_or_nothing hfresh fun _ => hproper).mpr
    (fun _ => Or.inl rfl) err db' hrun⟩

/-- **There is no cleanup after the pipeline**: `SADD` fails, and the metadata and the progress of
the batch stay. -/
theorem stored_despite_error :
    Fresh (emptyBatch "") wrongBatches ∧
      (enqueueBatch .plain (emptyBatch "") "default" (fun _ => "") 1 wrongBatches).map
        (fun out => (out.1.bind EnqueueError.stage, Db.typeOf (out.2 (.batch "b")),
          Db.typeOf (out.2 (.progress "b")))) = some (some .store, .string, .hash) := by
  refine ⟨⟨?_, Finset.notMem_empty _, Finset.notMem_empty _⟩, ?_⟩
  · decide +kernel
  · decide +kernel

end Enqueue

end BatchLua

end Senna
