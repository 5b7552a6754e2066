import Senna.System.Machine
import Senna.Batch.Script
import Mathlib.Data.Finset.SDiff

/-!
# Runs of the batch scripts

A run of a batch starts with `create`, what `storeBatchState` writes, and is a
list of script calls in any order. The `Ledger` is the batch together with what
its history needs: the initial jobs that no `batch_enqueue_jobs` chunk has
flushed yet, the completions recorded so far, and the callback job IDs issued so
far. No script reads these three; they are there to be counted.

The guard of the machine is what the callers promise: job IDs are distinct and
fresh. A chunk consists of initial jobs not flushed before, and neither its IDs
nor those given to `batch_add_jobs` are members already. A child may have any
ID, and completions may name any ID, member or not, with any result.
-/

namespace Senna

namespace Batch

/-- One call of a batch script. -/
inductive Call where
  | enqueueJobs (ids : List String)
  | addJobs (ids : List String)
  | addChild (childID : String)
  | removeChild (childID : String)
  | complete (jobID : String) (result : Result) (now : String)
  | callbackComplete (jobID : String)
  | invalidate
  deriving DecidableEq

def Call.apply (b : Batch) : Call → Batch
  | .enqueueJobs ids => batchEnqueueJobs ids b
  | .addJobs ids => (batchAddJobs ids b).2
  | .addChild childID => (batchAddChild childID b).2
  | .removeChild childID => (batchRemoveChild childID b).2
  | .complete jobID result now => (batchComplete jobID result b now).batch
  | .callbackComplete jobID => (batchCallbackComplete jobID b).2
  | .invalidate => (batchInvalidate b).2

def Call.callbackJobs (b : Batch) : Call → List CallbackJob
  | .complete jobID result now => (batchComplete jobID result b now).callbackJobs
  | _ => []

/-- The reply of a call tells its caller to propagate to the parent batch:
`completed_now` of a completion, `should_propagate` of a callback. -/
def Call.signals (b : Batch) : Call → Bool
  | .complete jobID result now =>
    match (batchComplete jobID result b now).reply with
    | .recorded r => r.completedNow
    | _ => false
  | .callbackComplete jobID => (batchCallbackComplete jobID b).1.shouldPropagate
  | _ => false

def Call.added : Call → List String
  | .enqueueJobs ids => ids
  | .addJobs ids => ids
  | .addChild childID => [childID]
  | _ => []

/-- The guards of `batch_complete.lua` let the call through. -/
def Accepts (jobID : String) (result : Result) (b : Batch) : Prop :=
  if result = .emptySuccess then b.progress.pending = 0 ∧ b.progress.completeFired = false
  else jobID ∈ b.jobs

instance (jobID : String) (result : Result) (b : Batch) : Decidable (Accepts jobID result b) := by
  unfold Accepts
  infer_instance

/-- A batch with its history. -/
structure Ledger where
  batch : Batch
  /-- The initial jobs not yet flushed. -/
  unflushed : Finset String
  /-- Every completion recorded so far, last first. -/
  recorded : List (String × Result)
  /-- Every callback job ID issued so far, in order. -/
  issued : List String

def Call.records (b : Batch) : Call → List (String × Result)
  | .complete jobID result _ => if Accepts jobID result b then [(jobID, result)] else []
  | _ => []

def Ledger.Permits (l : Ledger) : Call → Prop
  | .enqueueJobs ids =>
    ids.Nodup ∧ Disjoint ids.toFinset l.batch.jobs ∧ ids.toFinset ⊆ l.unflushed
  | .addJobs ids => ids.Nodup ∧ Disjoint ids.toFinset l.batch.jobs
  | _ => True

instance (l : Ledger) (c : Call) : Decidable (l.Permits c) := by
  cases c <;> unfold Ledger.Permits <;> infer_instance

def Ledger.step (l : Ledger) (c : Call) : Ledger where
  batch := c.apply l.batch
  unflushed :=
    match c with
    | .enqueueJobs ids => l.unflushed \ ids.toFinset
    | _ => l.unflushed
  recorded := c.records l.batch ++ l.recorded
  issued := l.issued ++ (c.callbackJobs l.batch).map CallbackJob.jid

def machine : Machine Ledger Call where
  permits := Ledger.Permits
  step := Ledger.step

instance (l : Ledger) (c : Call) : Decidable (machine.permits l c) :=
  inferInstanceAs (Decidable (l.Permits c))

/-- The ledger right after `storeBatchState`. -/
def create (r : Request) (callbackQueue : String) : Ledger where
  batch := storeBatchState (buildBatchState r callbackQueue)
  unflushed := r.jobs.toFinset
  recorded := []
  issued := []

theorem Ledger.issued_step {l : Ledger} {c : Call} (h : c.callbackJobs l.batch = []) :
    (l.step c).issued = l.issued := by
  simp [Ledger.step, h]

/-! ### The guards of `batch_complete.lua` -/

section Guards

variable {jobID : String} {result : Result} {b : Batch}

theorem accepts_emptySuccess :
    Accepts jobID .emptySuccess b ↔ b.progress.pending = 0 ∧ b.progress.completeFired = false := by
  simp [Accepts]

theorem accepts_member (h : result ≠ .emptySuccess) : Accepts jobID result b ↔ jobID ∈ b.jobs := by
  simp [Accepts, h]

theorem Accepts.mem (h : Accepts jobID result b) (hr : result.removes = true) : jobID ∈ b.jobs := by
  refine (accepts_member ?_).mp h
  rintro rfl
  simp [Result.removes] at hr

theorem batchComplete_of_accepts (now : String) (h : Accepts jobID result b) :
    batchComplete jobID result b now = record jobID result b now := by
  unfold batchComplete
  by_cases he : result = .emptySuccess
  · subst he
    obtain ⟨hp, hc⟩ := accepts_emptySuccess.mp h
    simp [hp, hc]
  · simp [he, (accepts_member he).mp h]

theorem batchComplete_of_not_accepts (now : String) (h : ¬ Accepts jobID result b) :
    ∃ reply, batchComplete jobID result b now = refuse b reply ∧ ∀ r, reply ≠ .recorded r := by
  unfold batchComplete
  by_cases he : result = .emptySuccess
  · subst he
    by_cases hp : b.progress.pending = 0
    · have hc : b.progress.completeFired = true := by
        simpa [accepts_emptySuccess, hp] using h
      exact ⟨.alreadyProcessed, by simp [hp, hc], by simp⟩
    · exact ⟨.batchNotEmpty, by simp [hp], by simp⟩
  · have hm : jobID ∉ b.jobs := fun hm => h ((accepts_member he).mpr hm)
    exact ⟨.alreadyProcessed, by simp [he, hm], by simp⟩

theorem Ledger.step_complete {l : Ledger} (now : String) (h : Accepts jobID result l.batch) :
    l.step (.complete jobID result now) =
      { batch := batchAfter jobID result l.batch now
        unflushed := l.unflushed
        recorded := (jobID, result) :: l.recorded
        issued := l.issued ++ (Batch.callbackJobs result l.batch now).map CallbackJob.jid } := by
  simp [Ledger.step, Call.apply, Call.records, Call.callbackJobs, h, batchComplete_of_accepts,
    record]

theorem Ledger.step_refused {l : Ledger} (now : String) (h : ¬ Accepts jobID result l.batch) :
    l.step (.complete jobID result now) = l := by
  obtain ⟨reply, heq, -⟩ := batchComplete_of_not_accepts now h
  cases l
  simp_all [Ledger.step, Call.apply, Call.records, Call.callbackJobs, refuse]

end Guards

end Batch

end Senna
