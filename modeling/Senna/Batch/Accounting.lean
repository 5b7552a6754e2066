import Senna.Batch.Ledger
import Mathlib.Data.Finset.Card
import Mathlib.Data.List.Count
import Mathlib.Tactic.Push

/-!
# The counters of a batch

Every counter of the progress hash is the size of something: `pending` of the
jobs set and the initial jobs still to be flushed, `failures` of the failed set,
`callbacks_pending` of the callbacks set, and `total` and `successes` of what has
been recorded. The scripts keep counter and set by separate commands; the
invariant `Accounting` says that they agree in every state of every run.

A chunk only moves IDs from one summand of `pending` to the other. The issued
callback IDs are the sequence numbers `1 .. callback_seq` in order, so a new
callback job never has the ID of an old one and inserting it makes the callbacks
set grow.

With the counters equal to sizes of sets a decrement is always of a positive
number, so the clamps to zero are dead code (`Balanced.no_clamp`).
-/

namespace Senna

namespace Batch

/-! ### Callback job IDs -/

theorem callbackJobID_injective {batchID : String} {m n : ℕ}
    (h : callbackJobID batchID m = callbackJobID batchID n) : m = n := by
  have hl : (Int.repr m).toList = (Int.repr n).toList := by
    simpa [callbackJobID] using congrArg String.toList h
  change m.repr.toList = n.repr.toList at hl
  rw [Nat.toList_repr, Nat.toList_repr] at hl
  -- the decimal digits determine the number
  have hv := congrArg (fun ds => Nat.ofDigitChars 10 ds 0) hl
  simpa using hv

/-- The IDs with sequence numbers `1 .. n`. -/
def callbackJobIDs (batchID : String) (n : ℕ) : List String :=
  (List.range n).map fun i : ℕ => callbackJobID batchID (i + 1)

theorem nodup_callbackJobIDs (batchID : String) (n : ℕ) : (callbackJobIDs batchID n).Nodup := by
  have hinj : Function.Injective fun i : ℕ => callbackJobID batchID (i + 1) := by
    intro i j h
    have := @callbackJobID_injective batchID (i + 1) (j + 1) (by simpa using h)
    omega
  exact List.nodup_range.map hinj

@[simp] theorem length_makeCallbackJobs (b : Batch) (now : String) (seq : ℤ)
    (cs : List (CallbackType × CallbackInfo)) :
    (makeCallbackJobs b now seq cs).length = cs.length := by
  induction cs generalizing seq with
  | nil => rfl
  | cons c cs ih => simp [makeCallbackJobs, ih]

theorem callbackJobIDs_append (b : Batch) (now : String) (n : ℕ)
    (cs : List (CallbackType × CallbackInfo)) :
    callbackJobIDs b.batchID n ++ (makeCallbackJobs b now n cs).map CallbackJob.jid =
      callbackJobIDs b.batchID (n + cs.length) := by
  induction cs generalizing n with
  | nil => simp [makeCallbackJobs]
  | cons c cs ih =>
    have hsnoc : callbackJobIDs b.batchID (n + 1) =
        callbackJobIDs b.batchID n ++ [callbackJobID b.batchID (n + 1)] := by
      simp [callbackJobIDs, List.range_succ]
    have hnext := ih (n + 1)
    rw [hsnoc, List.append_assoc] at hnext
    rw [show n + (c :: cs).length = n + 1 + cs.length by simp; omega, ← hnext]
    simp [makeCallbackJobs, makeCallbackJob]

/-! ### The invariant -/

/-- The counters agree with the sets and with the history. -/
structure Accounting (l : Ledger) : Prop where
  pending_eq : l.batch.progress.pending = l.batch.jobs.card + l.unflushed.card
  total_eq : l.batch.progress.total =
    l.batch.progress.pending + l.recorded.countP (·.2.removes)
  successes_eq : l.batch.progress.successes = l.recorded.countP (·.2 = .success)
  failures_eq : l.batch.progress.failures = l.batch.failed.card
  callbacksPending_eq : l.batch.progress.callbacksPending = l.batch.callbacks.card
  fired : l.batch.progress.completeFired = true → l.batch.progress.pending = 0
  seq_eq : l.batch.progress.callbackSeq = l.issued.length
  /-- The issued IDs are the sequence so far. -/
  issued_eq : l.issued = callbackJobIDs l.batch.batchID l.issued.length
  /-- Only issued IDs are waited for. -/
  callbacks_sub : l.batch.callbacks ⊆ l.issued.toFinset

namespace Accounting

variable {l : Ledger}

theorem create (r : Request) (callbackQueue : String) : Accounting (create r callbackQueue) where
  pending_eq := by
    simp [Batch.create, storeBatchState, batchProgressFields, buildBatchState,
      List.toFinset_card_of_nodup r.nodup]
  total_eq := by simp [Batch.create, storeBatchState, batchProgressFields, buildBatchState]
  successes_eq := by simp [Batch.create, storeBatchState, batchProgressFields, buildBatchState]
  failures_eq := by simp [Batch.create, storeBatchState, batchProgressFields, buildBatchState]
  callbacksPending_eq := by
    simp [Batch.create, storeBatchState, batchProgressFields, buildBatchState]
  fired := by simp [Batch.create, storeBatchState, batchProgressFields, buildBatchState]
  seq_eq := by simp [Batch.create, storeBatchState, batchProgressFields, buildBatchState]
  issued_eq := by simp [Batch.create, callbackJobIDs]
  callbacks_sub := by simp [Batch.create, storeBatchState]

section

variable (h : Accounting l)

include h

theorem pending_pos {id : String} (hid : id ∈ l.batch.jobs) : 0 < l.batch.progress.pending := by
  have hcard := Finset.card_pos.mpr ⟨id, hid⟩
  rw [h.pending_eq]
  omega

theorem pending_nonneg : 0 ≤ l.batch.progress.pending := by
  rw [h.pending_eq]
  omega

theorem callbacksPending_pos {id : String} (hid : id ∈ l.batch.callbacks) :
    0 < l.batch.progress.callbacksPending := by
  have hcard := Finset.card_pos.mpr ⟨id, hid⟩
  rw [h.callbacksPending_eq]
  omega

theorem not_fired {id : String} (hid : id ∈ l.batch.jobs) :
    l.batch.progress.completeFired = false := by
  by_contra hf
  have hzero := h.fired (by simpa using hf)
  have hpos := h.pending_pos hid
  omega

/-! ### The clamps -/

theorem pendingUnclamped_nonneg {jobID : String} {result : Result}
    (hacc : Accepts jobID result l.batch) : 0 ≤ pendingUnclamped result l.batch := by
  unfold pendingUnclamped
  split
  · next hr =>
    have := h.pending_pos (hacc.mem hr)
    omega
  · exact h.pending_nonneg

theorem pendingAfter_eq {jobID : String} {result : Result}
    (hacc : Accepts jobID result l.batch) :
    pendingAfter result l.batch = pendingUnclamped result l.batch := by
  have := h.pendingUnclamped_nonneg hacc
  unfold pendingAfter
  rw [if_neg (by omega)]

theorem pending_progressAfter {jobID : String} {result : Result}
    (hacc : Accepts jobID result l.batch) :
    (progressAfter jobID result l.batch).pending =
      l.batch.progress.pending - (if result.removes then 1 else 0) := by
  have hp := h.pendingAfter_eq hacc
  unfold pendingUnclamped at hp
  cases hr : result.removes <;> simp [progressAfter, hr, hp]

/-! ### One lemma for each script -/

theorem issued_append (now : String)
    (cs : List (CallbackType × CallbackInfo)) :
    l.issued ++ (makeCallbackJobs l.batch now l.batch.progress.callbackSeq cs).map
        CallbackJob.jid =
      callbackJobIDs l.batch.batchID (l.issued.length + cs.length) := by
  have happ := callbackJobIDs_append l.batch now l.issued.length cs
  rw [← h.issued_eq] at happ
  rw [h.seq_eq, happ]

theorem card_callbacks_union (now : String)
    (cs : List (CallbackType × CallbackInfo)) :
    (l.batch.callbacks ∪ ((makeCallbackJobs l.batch now l.batch.progress.callbackSeq cs).map
        CallbackJob.jid).toFinset).card =
      l.batch.callbacks.card + cs.length := by
  have hnodup := nodup_callbackJobIDs l.batch.batchID (l.issued.length + cs.length)
  rw [← h.issued_append now cs, List.nodup_append] at hnodup
  obtain ⟨-, hnew, hne⟩ := hnodup
  have hdisj : Disjoint l.batch.callbacks
      ((makeCallbackJobs l.batch now l.batch.progress.callbackSeq cs).map
        CallbackJob.jid).toFinset := by
    rw [Finset.disjoint_left]
    intro id hold hid
    have hissued := List.mem_toFinset.mp (h.callbacks_sub hold)
    exact hne id hissued id (List.mem_toFinset.mp hid) rfl
  rw [Finset.card_union_of_disjoint hdisj, List.toFinset_card_of_nodup hnew]
  simp

theorem enqueueJobs {ids : List String}
    (hnew : Disjoint ids.toFinset l.batch.jobs) (hids : ids.toFinset ⊆ l.unflushed) :
    Accounting (l.step (.enqueueJobs ids)) where
  pending_eq := by
    -- the chunk moves from one summand to the other
    change l.batch.progress.pending =
      (l.batch.jobs ∪ ids.toFinset).card + (l.unflushed \ ids.toFinset).card
    rw [Finset.card_union_of_disjoint hnew.symm, h.pending_eq]
    have := Finset.card_sdiff_add_card_eq_card hids
    omega
  total_eq := h.total_eq
  successes_eq := h.successes_eq
  failures_eq := h.failures_eq
  callbacksPending_eq := h.callbacksPending_eq
  fired := h.fired
  seq_eq := by
    rw [Ledger.issued_step rfl]
    exact h.seq_eq
  issued_eq := by
    rw [Ledger.issued_step rfl]
    exact h.issued_eq
  callbacks_sub := by
    rw [Ledger.issued_step rfl]
    exact h.callbacks_sub

theorem of_unchanged {c : Call} (hb : c.apply l.batch = l.batch)
    (hu : (l.step c).unflushed = l.unflushed) (hr : c.records l.batch = [])
    (hc : c.callbackJobs l.batch = []) : Accounting (l.step c) := by
  have heq : l.step c = l := by
    cases l
    simp_all [Ledger.step]
  rw [heq]
  exact h

theorem resize {l' : Ledger} (d : ℤ) (jobs : Finset String) (complete : Bool) {success : Bool}
    (hbatch : l'.batch =
      { l.batch with
        progress := { l.batch.progress with
          total := l.batch.progress.total + d
          pending := l.batch.progress.pending + d
          completeFired := complete
          successFired := success }
        jobs := jobs })
    (hr : l'.recorded = l.recorded) (hissued : l'.issued = l.issued)
    (hcard : (jobs.card : ℤ) + l'.unflushed.card = l.batch.jobs.card + l.unflushed.card + d)
    (hfired : complete = true → l.batch.progress.pending + d = 0) : Accounting l' := by
  constructor
  case pending_eq =>
    rw [hbatch]
    change l.batch.progress.pending + d = jobs.card + l'.unflushed.card
    rw [h.pending_eq, hcard]
  case total_eq =>
    rw [hbatch, hr]
    change l.batch.progress.total + d =
      l.batch.progress.pending + d + l.recorded.countP (·.2.removes)
    rw [h.total_eq]
    omega
  case fired => rw [hbatch]; exact hfired
  case successes_eq => rw [hbatch, hr]; exact h.successes_eq
  case failures_eq => rw [hbatch]; exact h.failures_eq
  case callbacksPending_eq => rw [hbatch]; exact h.callbacksPending_eq
  case seq_eq => rw [hissued, hbatch]; exact h.seq_eq
  case issued_eq => rw [hissued, hbatch]; exact h.issued_eq
  case callbacks_sub => rw [hissued, hbatch]; exact h.callbacks_sub

theorem addJobs {ids : List String} (hnodup : ids.Nodup)
    (hnew : Disjoint ids.toFinset l.batch.jobs) :
    Accounting (l.step (.addJobs ids)) := by
  by_cases hi : l.batch.progress.invalidated = true
  · exact h.of_unchanged (by simp [Call.apply, batchAddJobs, hi]) rfl rfl rfl
  by_cases hf : l.batch.progress.completeFired = true
  · exact h.of_unchanged (by simp [Call.apply, batchAddJobs, hi, hf]) rfl rfl rfl
  refine h.resize ids.length (l.batch.jobs ∪ ids.toFinset) _
    (by simp [Ledger.step, Call.apply, batchAddJobs, hi, hf]; rfl) rfl (Ledger.issued_step rfl) ?_
    fun hfired => absurd hfired hf
  rw [Finset.card_union_of_disjoint hnew.symm, List.toFinset_card_of_nodup hnodup]
  change ((l.batch.jobs.card + ids.length : ℕ) : ℤ) + l.unflushed.card = _
  omega

theorem addChild (childID : String) : Accounting (l.step (.addChild childID)) := by
  by_cases hi : l.batch.progress.invalidated = true
  · exact h.of_unchanged (by simp [Call.apply, batchAddChild, hi]) rfl rfl rfl
  by_cases hm : childID ∈ l.batch.jobs
  · exact h.of_unchanged (by simp [Call.apply, batchAddChild, hi, hm]) rfl rfl rfl
  refine h.resize 1 (insert childID l.batch.jobs) false
    (by simp [Ledger.step, Call.apply, batchAddChild, hi, hm]; rfl) rfl (Ledger.issued_step rfl) ?_
    fun hfired => absurd hfired (by decide)
  rw [Finset.card_insert_of_notMem hm]
  change ((l.batch.jobs.card + 1 : ℕ) : ℤ) + l.unflushed.card = _
  omega

theorem total_ge_pending : l.batch.progress.pending ≤ l.batch.progress.total := by
  rw [h.total_eq]
  omega

theorem removeChild (childID : String) : Accounting (l.step (.removeChild childID)) := by
  by_cases hm : childID ∈ l.batch.jobs
  swap
  · exact h.of_unchanged (by simp [Call.apply, batchRemoveChild, hm]) rfl rfl rfl
  have hpos := h.pending_pos hm
  have hle := h.total_ge_pending
  have hp : ¬ l.batch.progress.pending - 1 < 0 := by omega
  have ht : ¬ l.batch.progress.total - 1 < 0 := by omega
  refine h.resize (-1) (l.batch.jobs.erase childID)
    (l.batch.progress.completeFired || decide (l.batch.progress.pending - 1 = 0))
    (by simp [Ledger.step, Call.apply, batchRemoveChild, hm, hp, ht, ← sub_eq_add_neg]; rfl)
    rfl (Ledger.issued_step rfl) ?_ ?_
  · have hcard := Finset.card_erase_add_one hm
    change ((l.batch.jobs.erase childID).card : ℤ) + l.unflushed.card = _
    omega
  · simp [h.not_fired hm, ← sub_eq_add_neg]

theorem callbackComplete (jobID : String) : Accounting (l.step (.callbackComplete jobID)) := by
  by_cases hm : jobID ∈ l.batch.callbacks
  swap
  · exact h.of_unchanged (by simp [Call.apply, batchCallbackComplete, hm]) rfl rfl rfl
  have hpos := h.callbacksPending_pos hm
  have hbatch : (l.step (.callbackComplete jobID)).batch =
      { l.batch with
        progress := { l.batch.progress with
          callbacksPending := l.batch.progress.callbacksPending - 1 }
        callbacks := l.batch.callbacks.erase jobID } := by
    have hp : ¬ l.batch.progress.callbacksPending - 1 < 0 := by omega
    simp [Ledger.step, Call.apply, batchCallbackComplete, hm, hp]
  constructor
  case callbacksPending_eq =>
    rw [hbatch]
    change l.batch.progress.callbacksPending - 1 = (l.batch.callbacks.erase jobID).card
    have hcard := Finset.card_erase_add_one hm
    rw [h.callbacksPending_eq]
    omega
  case callbacks_sub =>
    rw [Ledger.issued_step rfl, hbatch]
    exact (Finset.erase_subset _ _).trans h.callbacks_sub
  case pending_eq => rw [hbatch]; exact h.pending_eq
  case total_eq => rw [hbatch]; exact h.total_eq
  case fired => rw [hbatch]; exact h.fired
  case successes_eq => rw [hbatch]; exact h.successes_eq
  case failures_eq => rw [hbatch]; exact h.failures_eq
  case seq_eq => rw [Ledger.issued_step rfl, hbatch]; exact h.seq_eq
  case issued_eq => rw [Ledger.issued_step rfl, hbatch]; exact h.issued_eq

theorem invalidate : Accounting (l.step .invalidate) where
  pending_eq := h.pending_eq
  total_eq := h.total_eq
  successes_eq := h.successes_eq
  failures_eq := h.failures_eq
  callbacksPending_eq := h.callbacksPending_eq
  fired := h.fired
  seq_eq := by
    rw [Ledger.issued_step rfl]
    exact h.seq_eq
  issued_eq := by
    rw [Ledger.issued_step rfl]
    exact h.issued_eq
  callbacks_sub := by
    rw [Ledger.issued_step rfl]
    exact h.callbacks_sub

theorem failures_after (jobID : String) (result : Result) :
    l.batch.progress.failures + (if addFailedJob jobID result l.batch then 1 else 0) =
      (if addFailedJob jobID result l.batch then insert jobID l.batch.failed
        else l.batch.failed).card := by
  rw [h.failures_eq]
  split
  · next hadd =>
    have hnew : jobID ∉ l.batch.failed := by
      simp only [addFailedJob, Bool.and_eq_true, decide_eq_true_eq] at hadd
      exact hadd.2
    rw [Finset.card_insert_of_notMem hnew]
    omega
  · omega

theorem complete (jobID : String) (result : Result) (now : String) :
    Accounting (l.step (.complete jobID result now)) := by
  by_cases hacc : Accepts jobID result l.batch
  swap
  · -- A refused result leaves the books alone.
    rw [Ledger.step_refused now hacc]
    exact h
  -- An accepted one is counted as its kind says, takes its member out if it is a final one, and
  -- issues callbacks; the two numbers of jobs move together.
  have hpending := h.pending_progressAfter hacc
  rw [Ledger.step_complete now hacc]
  constructor
  case pending_eq =>
    change (progressAfter jobID result l.batch).pending =
      (if result.removes then l.batch.jobs.erase jobID else l.batch.jobs).card +
        l.unflushed.card
    rw [hpending, h.pending_eq]
    split
    · next hr =>
      have hcard := Finset.card_erase_add_one (hacc.mem hr)
      omega
    · omega
  case total_eq =>
    change l.batch.progress.total = (progressAfter jobID result l.batch).pending +
      ((jobID, result) :: l.recorded).countP (·.2.removes)
    rw [hpending, h.total_eq, List.countP_cons]
    cases result.removes with
    | false =>
      simp only [Bool.false_eq_true, if_false]
      omega
    | true =>
      simp only [if_true]
      omega
  case successes_eq =>
    change l.batch.progress.successes + (if result = .success then 1 else 0) =
      ((jobID, result) :: l.recorded).countP (·.2 = .success)
    rw [h.successes_eq, List.countP_cons]
    split <;> simp_all
  case failures_eq => exact h.failures_after jobID result
  case callbacksPending_eq =>
    change l.batch.progress.callbacksPending + (callbackList result l.batch).length = _
    rw [h.callbacksPending_eq]
    have hcard := h.card_callbacks_union now (callbackList result l.batch)
    exact_mod_cast hcard.symm
  case fired =>
    intro hfired
    change (progressAfter jobID result l.batch).pending = 0
    have hafter := h.pendingAfter_eq hacc
    have hor : l.batch.progress.completeFired = true ∨
        firesComplete result l.batch = true := by
      simpa [batchAfter, progressAfter] using hfired
    rcases hor with hbefore | hnow
    · -- Fired before: there was no member, so nothing is removed now.
      have hzero := h.fired hbefore
      cases hr : result.removes with
      | true =>
        have := h.pending_pos (hacc.mem hr)
        omega
      | false => simpa [hpending, hr] using hzero
    · -- Fired now: the script has found nothing pending, unclamped since the member was counted.
      have hzero : pendingAfter result l.batch = 0 := by
        simp only [firesComplete, Bool.and_eq_true, decide_eq_true_eq] at hnow
        exact hnow.1
      rw [hafter, pendingUnclamped] at hzero
      rw [hpending]
      split at hzero <;> simp_all
  case seq_eq =>
    change l.batch.progress.callbackSeq + (callbackList result l.batch).length = _
    rw [h.seq_eq]
    simp [callbackJobs]
  case issued_eq =>
    -- The new IDs are the next numbers of the sequence.
    have happ := h.issued_append now (callbackList result l.batch)
    have hlen : (l.issued ++ (callbackJobs result l.batch now).map CallbackJob.jid).length =
        l.issued.length + (callbackList result l.batch).length := by
      simp [callbackJobs]
    rw [hlen]
    exact happ
  case callbacks_sub =>
    change l.batch.callbacks ∪ ((callbackJobs result l.batch now).map CallbackJob.jid).toFinset ⊆
      (l.issued ++ (callbackJobs result l.batch now).map CallbackJob.jid).toFinset
    rw [List.toFinset_append]
    exact Finset.union_subset_union_left h.callbacks_sub

/-- **Invariant preservation.** Every permitted call keeps the books balanced. -/
theorem step {c : Call} (hc : l.Permits c) : Accounting (l.step c) := by
  cases c with
  | enqueueJobs ids => exact h.enqueueJobs hc.2.1 hc.2.2
  | addJobs ids => exact h.addJobs hc.1 hc.2
  | addChild childID => exact h.addChild childID
  | removeChild childID => exact h.removeChild childID
  | complete jobID result now => exact h.complete jobID result now
  | callbackComplete jobID => exact h.callbackComplete jobID
  | invalidate => exact h.invalidate

end

theorem of_legal (r : Request) (callbackQueue : String) {cs : List Call}
    (legal : machine.Legal (Batch.create r callbackQueue) cs) :
    Accounting (machine.run (Batch.create r callbackQueue) cs) :=
  legal.invariant (fun _ _ h hc => h.step hc) (.create r callbackQueue)

end Accounting

/-! ### What the counters say -/

/-- The books of a batch are balanced. -/
structure Balanced (l : Ledger) : Prop where
  /-- `pending` counts the members and the initial jobs still to be flushed. -/
  pending : l.batch.progress.pending = l.batch.jobs.card + l.unflushed.card
  /-- `total - pending` counts the members recorded as success, death or
  invalidated. -/
  finished : l.batch.progress.total - l.batch.progress.pending =
    l.recorded.countP fun e => e.2 = .success ∨ e.2 = .death ∨ e.2 = .invalidated
  successes : l.batch.progress.successes = l.recorded.countP fun e => e.2 = .success
  failures : l.batch.progress.failures = l.batch.failed.card
  callbacksPending : l.batch.progress.callbacksPending = l.batch.callbacks.card
  /-- No callback job ID is issued twice. -/
  issued : l.issued.Nodup
  completeFired : l.batch.progress.completeFired = true → l.batch.progress.pending = 0
  /-- `batch_add_jobs` is not refused as complete while a member runs. -/
  addJobs : ∀ member ∈ l.batch.jobs, ∀ ids, (batchAddJobs ids l.batch).1 ≠ .batchComplete
  /-- No clamp of `batch_complete.lua`, `batch_callback_complete.lua` or
  `batch_remove_child.lua` is reached by the next call. -/
  no_clamp :
    (∀ jobID result, Accepts jobID result l.batch → 0 ≤ pendingUnclamped result l.batch) ∧
    (∀ jobID ∈ l.batch.callbacks, 0 ≤ l.batch.progress.callbacksPending - 1) ∧
    (∀ childID ∈ l.batch.jobs,
      0 ≤ l.batch.progress.total - 1 ∧ 0 ≤ l.batch.progress.pending - 1)

theorem removes_iff (result : Result) :
    result.removes = true ↔ result = .success ∨ result = .death ∨ result = .invalidated := by
  cases result <;> simp [Result.removes]

theorem Accounting.balanced {l : Ledger} (h : Accounting l) : Balanced l where
  pending := h.pending_eq
  finished := by
    have hcount : l.recorded.countP (·.2.removes) =
        l.recorded.countP fun e => e.2 = .success ∨ e.2 = .death ∨ e.2 = .invalidated := by
      refine List.countP_congr ?_
      intro e _
      simp [removes_iff]
    rw [h.total_eq, hcount]
    omega
  successes := h.successes_eq
  failures := h.failures_eq
  callbacksPending := h.callbacksPending_eq
  issued := by
    rw [h.issued_eq]
    exact nodup_callbackJobIDs _ _
  completeFired := h.fired
  addJobs := by
    intro member hm ids
    simp only [batchAddJobs, h.not_fired hm]
    split <;> simp
  no_clamp := by
    refine ⟨fun _ _ hacc => h.pendingUnclamped_nonneg hacc, ?_, ?_⟩
    · intro jobID hid
      have := h.callbacksPending_pos hid
      omega
    · intro childID hid
      have hpos := h.pending_pos hid
      have hle := h.total_ge_pending
      omega

/-- **Batch accounting.** In every state of every run of a batch, however its
initial jobs are flushed and whatever the order of the calls, the books are
balanced. -/
theorem balanced_of_legal (r : Request) (callbackQueue : String) (cs : List Call)
    (legal : machine.Legal (create r callbackQueue) cs) :
    Balanced (machine.run (create r callbackQueue) cs) :=
  (Accounting.of_legal r callbackQueue legal).balanced

/-- A batch of two jobs, flushed in two chunks, with an `on_complete` callback
and a death callback. -/
def twoJobs : Request where
  id := "b"
  parentID := ""
  jobs := ["j1", "j2"]
  nodup := by decide
  onComplete := some { jobType := "Notify", options := [] }
  onSuccess := none
  onDeath := some { jobType := "Page", options := [] }

/-- A run in which one job fails and then dies before the other is flushed, a
child is linked and rolled back, the batch completes, and jobs offered afterwards
are refused. -/
def twoJobsRun : List Call :=
  [.enqueueJobs ["j1"], .complete "j1" .failure "t1", .complete "j1" .death "t2",
    .complete "j1" .death "t2", .enqueueJobs ["j2"], .addChild "c", .removeChild "c",
    .addJobs ["j3"], .complete "j2" .success "t3", .complete "j3" .invalidated "t4",
    .callbackComplete "b:callback:1", .addJobs ["j4"]]

theorem balanced_twoJobsRun :
    machine.Legal (create twoJobs "default") twoJobsRun ∧
      Balanced (machine.run (create twoJobs "default") twoJobsRun) :=
  ⟨by decide, balanced_of_legal twoJobs "default" twoJobsRun (by decide)⟩

end Batch

end Senna
