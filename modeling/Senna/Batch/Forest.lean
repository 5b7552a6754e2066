import Senna.Batch.Callbacks

/-!
# Batches that are members of batches

Many batches at once. A batch stored with a parent is linked to it with
`batch_add_child` and is a member of the parent like any job. When a script
reply says that a batch has come to rest, the goroutine that made the call
completes the batch in its parent, and goes on upwards while the replies say so.
Worker (`updateBatchProgress`, `handleBatchCallbackComplete`) and client
(`handleEmptyBatch`, `propagateBatchCompletion`) do the same: a recursion whose
state between two script calls is a child, a parent and a result. That is a
`Signal`, and `inFlight` holds those of all goroutines. Any of them may be the
next to make its call, which gives every interleaving of the recursions.

The scripts of different batches touch different keys, so one call is a step of
one ledger (`Forest.call`).

`links`, `jobIDs` and `batchIDs` are history. The guard says that IDs are what
they are for: no job has the ID of a batch, and no batch is its own parent. A
caller may choose the ID of a batch, also one that exists: its metadata and
progress are then written anew and its sets stay. That is how parent links can
form a cycle. `EnqueueBatch` stores, links, flushes and completes an empty batch
in this order; here these calls come in any order, so the results below do not
depend on it.
-/

namespace Senna

namespace Batch

/-- A completion on its way to the parent: the arguments of the next recursive
call. -/
structure Signal where
  child : String
  parent : String
  result : Result
  deriving DecidableEq

def parentResultType (r : CompleteResult) : Option Result :=
  if r.completedNow = false ∨ r.parentID = none then none
  else if r.dead then some .death
  else if r.invalidated then some .invalidated
  else some .success

/-- What `updateBatchProgress` and `propagateBatchCompletion` do with a reply. -/
def CompleteReply.signal (batchID : String) : CompleteReply → Option Signal
  | .recorded r =>
    match r.parentID, parentResultType r with
    | some parent, some result => some { child := batchID, parent := parent, result := result }
    | _, _ => none
  | _ => none

/-- What `handleBatchCallbackComplete` does with a reply. -/
def CallbackReply.signal (batchID : String) (r : CallbackReply) : Option Signal :=
  if r.alreadyProcessed then none
  else if r.shouldPropagate then
    r.parentID.map fun parent =>
      { child := batchID
        parent := parent
        result := if r.dead then .death else if r.invalidated then .invalidated else .success }
  else none

def Call.signal (batchID : String) (b : Batch) : Call → Option Signal
  | .complete jobID result now => (batchComplete jobID result b now).reply.signal batchID
  | .callbackComplete jobID => (batchCallbackComplete jobID b).1.signal batchID
  | _ => none

/-- All batches, the propagations in progress, and the history. -/
structure Forest where
  /-- The batches that exist. -/
  ids : Finset String
  ledger : String → Ledger
  inFlight : List Signal
  /-- The links made so far, parent first. -/
  links : List (String × String)
  /-- The IDs that have been used for jobs. -/
  jobIDs : Finset String
  /-- The IDs that have been used for batches. -/
  batchIDs : Finset String

namespace Forest

/-- The batch with an ID. -/
abbrev batch (f : Forest) (id : String) : Batch := (f.ledger id).batch

/-- A script call on one batch. On a batch that does not exist the scripts
answer `batch_not_found`, and the caller stops there. -/
def call (f : Forest) (id : String) (c : Call) : Forest :=
  if id ∈ f.ids then
    { f with
      ledger := Function.update f.ledger id ((f.ledger id).step c)
      inFlight := f.inFlight ++ (c.signal id (f.batch id)).toList }
  else f

/-- `storeBatchState`: the metadata and the progress hash are written, whatever
was there before; the sets are not touched. -/
def storeLedger (f : Forest) (r : Request) (callbackQueue : String) : Ledger :=
  if r.id ∈ f.ids then
    let s := buildBatchState r callbackQueue
    { f.ledger r.id with
      batch := { f.batch r.id with state := s, progress := batchProgressFields s }
      unflushed := r.jobs.toFinset }
  else create r callbackQueue

def cleanupOrphanedBatch (f : Forest) (id : String) : Forest :=
  { f with ids := f.ids.erase id }

def linkBatchToParent (f : Forest) (id : String) : Forest :=
  match (f.batch id).parent with
  | none => f
  | some parent =>
    if parent ∈ f.ids then
      match (batchAddChild id (f.batch parent)).1 with
      | .batchInvalidated => f.cleanupOrphanedBatch id
      | .alreadyExists => f
      | .success =>
        { f.call parent (.addChild id) with links := (parent, id) :: f.links }
    else f.cleanupOrphanedBatch id

end Forest

/-- A script call that workers and clients make on one batch. -/
inductive Action where
  /-- One chunk of `batch_enqueue_jobs`. -/
  | flush (id : String) (jobs : List String)
  | addJobs (id : String) (jobs : List String)
  | invalidate (id : String)
  /-- `updateBatchProgress` for a job of the batch. -/
  | complete (id jobID : String) (result : Result) (now : String)
  /-- `handleBatchCallbackComplete`. -/
  | callbackComplete (id jobID : String)
  /-- `handleEmptyBatch`. -/
  | empty (id now : String)
  /-- The propagation at a place of `inFlight` makes its next call. -/
  | deliver (i : ℕ) (now : String)

/-- What workers and clients do. -/
inductive Event where
  /-- `storeBatchState`. -/
  | store (r : Request) (callbackQueue : String)
  /-- `linkBatchToParent`. -/
  | link (id : String)
  | act (a : Action)

def Action.jobNames : Action → Finset String
  | .addJobs _ jobs => jobs.toFinset
  | .complete _ jobID _ _ => {jobID}
  | _ => ∅

namespace Forest

def made (f : Forest) : Action → Option (String × Call)
  | .flush id jobs => some (id, .enqueueJobs jobs)
  | .addJobs id jobs => some (id, .addJobs jobs)
  | .invalidate id => some (id, .invalidate)
  | .complete id jobID result now => some (id, .complete jobID result now)
  | .callbackComplete id jobID => some (id, .callbackComplete jobID)
  | .empty id now => some (id, .complete id .emptySuccess now)
  | .deliver i now => f.inFlight[i]?.map fun s => (s.parent, .complete s.child s.result now)

def remaining (f : Forest) : Action → List Signal
  | .deliver i _ => f.inFlight.eraseIdx i
  | _ => f.inFlight

def before (f : Forest) (a : Action) : Forest :=
  { f with inFlight := f.remaining a, jobIDs := f.jobIDs ∪ a.jobNames }

def step (f : Forest) : Event → Forest
  | .store r callbackQueue =>
    { f with
      ids := insert r.id f.ids
      ledger := Function.update f.ledger r.id (f.storeLedger r callbackQueue)
      jobIDs := f.jobIDs ∪ r.jobs.toFinset
      batchIDs := insert r.id f.batchIDs }
  | .link id => f.linkBatchToParent id
  | .act a =>
    match f.made a with
    | none => f
    | some (id, c) => (f.before a).call id c

def Permits (f : Forest) : Event → Prop
  | .store r _ =>
    r.id ∉ f.jobIDs ∧ r.parentID ≠ r.id ∧ Disjoint r.jobs.toFinset (insert r.id f.batchIDs)
  | .link id => id ∈ f.ids
  | .act (.flush id jobs) => jobs.toFinset ⊆ (f.ledger id).unflushed
  | .act (.deliver i _) => i < f.inFlight.length
  | .act a => Disjoint a.jobNames f.batchIDs

def init : Forest where
  ids := ∅
  ledger := fun _ => create
    { id := "", parentID := "", jobs := [], nodup := List.nodup_nil, onComplete := none,
      onSuccess := none, onDeath := none } ""
  inFlight := []
  links := []
  jobIDs := ∅
  batchIDs := ∅

instance (f : Forest) (e : Event) : Decidable (f.Permits e) := by
  unfold Permits
  split <;> infer_instance

def machine : Machine Forest Event where
  permits := Permits
  step := step

instance (f : Forest) (e : Event) : Decidable (machine.permits f e) :=
  inferInstanceAs (Decidable (f.Permits e))

/-! ### One script call -/

section Call

variable {f : Forest} {id : String} {c : Call}

theorem call_of_mem (h : id ∈ f.ids) :
    f.call id c =
      { f with
        ledger := Function.update f.ledger id ((f.ledger id).step c)
        inFlight := f.inFlight ++ (c.signal id (f.batch id)).toList } := by
  simp [call, h]

theorem call_of_notMem (h : id ∉ f.ids) : f.call id c = f := by
  simp [call, h]

@[simp] theorem ids_call : (f.call id c).ids = f.ids := by
  unfold call
  split <;> rfl

@[simp] theorem links_call : (f.call id c).links = f.links := by
  unfold call
  split <;> rfl

@[simp] theorem jobIDs_call : (f.call id c).jobIDs = f.jobIDs := by
  unfold call
  split <;> rfl

@[simp] theorem batchIDs_call : (f.call id c).batchIDs = f.batchIDs := by
  unfold call
  split <;> rfl

theorem ledger_call_of_ne {x : String} (hne : x ≠ id) : (f.call id c).ledger x = f.ledger x := by
  unfold call
  split
  · simp [Function.update_of_ne hne]
  · rfl

theorem ledger_call_self (h : id ∈ f.ids) : (f.call id c).ledger id = (f.ledger id).step c := by
  simp [call_of_mem h]

theorem ledger_call_cases (id : String) (c : Call) {x : String} (hx : x ∈ f.ids) :
    (f.call id c).ledger x = f.ledger x ∨
      x = id ∧ (f.call id c).ledger x = (f.ledger id).step c := by
  by_cases hne : x = id
  · subst hne
    exact .inr ⟨rfl, ledger_call_self hx⟩
  · exact .inl (ledger_call_of_ne hne)

end Call

theorem linkBatchToParent_cases (f : Forest) (id : String) :
    f.linkBatchToParent id = f ∨ f.linkBatchToParent id = f.cleanupOrphanedBatch id ∨
      ∃ parent ∈ f.ids, (f.batch id).parent = some parent ∧
        (batchAddChild id (f.batch parent)).1 = .success ∧
        f.linkBatchToParent id =
          { f.call parent (.addChild id) with links := (parent, id) :: f.links } := by
  cases hparent : (f.batch id).parent with
  | none => exact .inl (by simp [linkBatchToParent, hparent])
  | some parent =>
    by_cases hmem : parent ∈ f.ids
    · cases hreply : (batchAddChild id (f.batch parent)).1 with
      | batchInvalidated =>
        exact .inr (.inl (by simp [linkBatchToParent, hparent, hmem, hreply]))
      | alreadyExists => exact .inl (by simp [linkBatchToParent, hparent, hmem, hreply])
      | success =>
        refine .inr (.inr ⟨parent, hmem, rfl, hreply, ?_⟩)
        simp [linkBatchToParent, hparent, hmem, hreply]
    · exact .inr (.inl (by simp [linkBatchToParent, hparent, hmem]))

theorem step_act {f : Forest} {a : Action} {id : String} {c : Call}
    (h : f.made a = some (id, c)) : f.step (.act a) = (f.before a).call id c := by
  simp [step, h]

theorem made_ne_removeChild {f : Forest} {a : Action} {id : String} {c : Call}
    (h : f.made a = some (id, c)) (x : String) : c ≠ .removeChild x := by
  rintro rfl
  cases a <;> simp [made] at h

theorem added_of_permits {f : Forest} {a : Action} {id : String} {c : Call}
    (hp : f.Permits (.act a)) (h : f.made a = some (id, c)) :
    c.added.toFinset ⊆ (f.ledger id).unflushed ∪ a.jobNames := by
  cases a with
  | flush id' jobs =>
    obtain ⟨rfl, rfl⟩ : id' = id ∧ .enqueueJobs jobs = c := by simpa [made] using h
    exact Finset.Subset.trans hp Finset.subset_union_left
  | addJobs id' jobs =>
    obtain ⟨-, rfl⟩ : id' = id ∧ .addJobs jobs = c := by simpa [made] using h
    exact Finset.subset_union_right
  | invalidate id' =>
    obtain ⟨-, rfl⟩ : id' = id ∧ .invalidate = c := by simpa [made] using h
    simp [Call.added]
  | complete id' jobID result now =>
    obtain ⟨-, rfl⟩ : id' = id ∧ .complete jobID result now = c := by simpa [made] using h
    simp [Call.added]
  | callbackComplete id' jobID =>
    obtain ⟨-, rfl⟩ : id' = id ∧ .callbackComplete jobID = c := by simpa [made] using h
    simp [Call.added]
  | empty id' now =>
    obtain ⟨-, rfl⟩ : id' = id ∧ .complete id' .emptySuccess now = c := by simpa [made] using h
    simp [Call.added]
  | deliver i now =>
    obtain ⟨s, -, -, rfl⟩ : ∃ s, f.inFlight[i]? = some s ∧ s.parent = id ∧
        .complete s.child s.result now = c := by simpa [made] using h
    simp [Call.added]

theorem jobNames_disjoint {f : Forest} {a : Action} (hp : f.Permits (.act a)) :
    Disjoint a.jobNames f.batchIDs := by
  cases a with
  | flush id jobs | deliver i now => exact Finset.disjoint_empty_left _
  | _ => exact hp

theorem storeLedger_spec (f : Forest) (r : Request) (callbackQueue : String) :
    (f.storeLedger r callbackQueue).batch.progress =
        batchProgressFields (buildBatchState r callbackQueue) ∧
      (f.storeLedger r callbackQueue).unflushed = r.jobs.toFinset ∧
      (r.id ∈ f.ids → (f.storeLedger r callbackQueue).batch.jobs = (f.batch r.id).jobs ∧
        (f.storeLedger r callbackQueue).recorded = (f.ledger r.id).recorded) ∧
      (r.id ∉ f.ids → f.storeLedger r callbackQueue = create r callbackQueue) := by
  unfold storeLedger
  split
  · next h => exact ⟨rfl, rfl, fun _ => ⟨rfl, rfl⟩, fun hn => absurd h hn⟩
  · next h => exact ⟨rfl, rfl, fun hm => absurd hm h, fun _ => rfl⟩

end Forest

/-! ### Signals -/

def parentResult (b : Batch) : Result :=
  if b.progress.dead then .death else if b.progress.invalidated then .invalidated else .success

theorem parentResult_removes (b : Batch) : (parentResult b).removes = true := by
  unfold parentResult
  split
  · rfl
  · split <;> rfl

theorem Call.signal_eq (batchID : String) (b : Batch) (c : Call) :
    c.signal batchID b =
      if c.signals b then
        b.parent.map fun parent =>
          { child := batchID, parent := parent, result := parentResult (c.apply b) }
      else none := by
  cases c with
  | complete jobID result now =>
    by_cases hacc : Accepts jobID result b
    · simp only [Call.signal, Call.signals, Call.apply, batchComplete_of_accepts now hacc, record,
        CompleteReply.signal, completeResult, parentResultType, parentResult, batchAfter,
        progressAfter]
      cases completedNow result b <;> cases b.parent <;> cases deadAfter result b <;>
        cases invalidatedAfter result b <;> simp
    · obtain ⟨reply, heq, hne⟩ := batchComplete_of_not_accepts now hacc
      cases reply with
      | recorded r => exact absurd rfl (hne r)
      | _ => simp [Call.signal, Call.signals, heq, refuse, CompleteReply.signal]
  | callbackComplete jobID =>
    by_cases hm : jobID ∈ b.callbacks
    · simp [Call.signal, Call.signals, Call.apply, batchCallbackComplete, hm,
        CallbackReply.signal, parentResult]
    · simp [Call.signal, Call.signals, batchCallbackComplete, hm, CallbackReply.signal]
  | _ => simp [Call.signal, Call.signals]

end Batch

end Senna
