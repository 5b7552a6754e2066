import Senna.Batch.Callbacks

/-!
# Linking a child and rolling the link back

`EnqueueBatch` links a child to its parent with `batch_add_child` before it
enqueues the child's jobs, and takes the link back with `batch_remove_child`
when that fails. In between the parent goes on. This module compares the run of
the parent with such a pair of calls and the run without it.

While the child is linked, the parent with the pair is `withChild childID l`,
where `l` is the parent without it: one member, one pending and one total more,
and no fired flag. Every call keeps that relation (`step_withChild`) except the
ones for which the extra member makes a difference. These are the calls that
`Undisturbed` excludes, all read off the parent without the pair: a completion
that leaves it with nothing pending, a callback that brings it to rest, and
`batch_add_jobs` refused because it is complete.

`batch_remove_child` then has to give back the fired flags. It sets both from
`pending = 0`, `dead` and `invalidated`, which is right when the parent was
complete all along and had an `on_success` to fire (`Restorable`). A parent that
lost its last other member while the child was linked is marked as fired without
its callbacks ever having been pushed.
-/

namespace Senna

namespace Batch

def signalCount (l : Ledger) : List Call → ℕ
  | [] => 0
  | c :: cs => (if c.signals l.batch then 1 else 0) + signalCount (l.step c) cs

theorem pushed_append (l : Ledger) (as bs : List Call) :
    pushed l (as ++ bs) = pushed l as ++ pushed (machine.run l as) bs := by
  induction as generalizing l with
  | nil => rfl
  | cons a as ih =>
    simp only [List.cons_append, pushed, ih, List.append_assoc, Machine.run_cons]
    rfl

theorem signalCount_append (l : Ledger) (as bs : List Call) :
    signalCount l (as ++ bs) = signalCount l as + signalCount (machine.run l as) bs := by
  induction as generalizing l with
  | nil => simp [signalCount]
  | cons a as ih =>
    simp only [List.cons_append, signalCount, ih, Nat.add_assoc, Machine.run_cons]
    rfl

/-! ### The parent with one more member -/

/-- The parent `l` with `childID` linked to it. -/
def Ledger.withChild (childID : String) (l : Ledger) : Ledger :=
  { l with
    batch := { l.batch with
      progress := { l.batch.progress with
        total := l.batch.progress.total + 1
        pending := l.batch.progress.pending + 1
        completeFired := false
        successFired := false }
      jobs := insert childID l.batch.jobs } }

/-- What the window between link and rollback may contain, read off the parent
without the pair. -/
def Undisturbed (childID : String) (l : Ledger) : Call → Prop
  | .enqueueJobs ids => childID ∉ ids
  | .addJobs ids => childID ∉ ids ∧
      (l.batch.progress.completeFired = true → l.batch.progress.invalidated = true)
  | .addChild id => id ≠ childID
  | .removeChild _ => False
  | .complete jobID result now =>
    jobID ≠ childID ∧ ¬ (Call.complete jobID result now).Finishes l.batch
  | .callbackComplete jobID => ¬ (jobID ∈ l.batch.callbacks ∧ l.batch.progress.callbacksPending ≤ 1 ∧
      l.batch.progress.pending = 0 ∧ l.batch.progress.completeFired = true)
  | .invalidate => True

/-- What the rollback restores is what the parent without the pair has: with
nothing else pending it is complete, and `success_fired` tells that it is
neither dead nor invalidated. -/
def Restorable (b : Batch) : Prop :=
  b.progress.pending = 0 → b.progress.completeFired = true ∧
    b.progress.successFired = (!b.progress.dead && !b.progress.invalidated)

theorem successFired_step {l : Ledger} {c : Call}
    (h : l.batch.progress.successFired = true → l.batch.progress.completeFired = true)
    (hs : (l.step c).batch.progress.successFired = true) :
    (l.step c).batch.progress.completeFired = true := by
  cases c with
  | complete jobID result now =>
    by_cases hacc : Accepts jobID result l.batch
    · rw [Ledger.step_complete now hacc] at hs ⊢
      change (l.batch.progress.successFired || firesSuccess result l.batch) = true at hs
      change (l.batch.progress.completeFired || firesComplete result l.batch) = true
      rw [Bool.or_eq_true] at hs ⊢
      refine hs.imp h ?_
      simp only [firesSuccess, Bool.and_eq_true]
      exact fun hf => hf.1.1.1.1
    · rw [Ledger.step_refused now hacc] at hs ⊢
      exact h hs
  | addChild childID =>
    simp only [Ledger.step, Call.apply, batchAddChild] at hs ⊢
    split_ifs at hs ⊢
    · exact h hs
    · exact h hs
    · simp only [Bool.and_eq_true, Bool.not_eq_eq_eq_not, Bool.not_true] at hs
      simp [h hs.1] at hs
  | addJobs ids =>
    simp only [Ledger.step, Call.apply, batchAddJobs] at hs ⊢
    split_ifs at hs ⊢ <;> exact h hs
  | removeChild childID =>
    by_cases hm : childID ∈ l.batch.jobs
    · simp only [Ledger.step, Call.apply, batchRemoveChild, hm, not_true_eq_false, if_false,
        Bool.or_eq_true, Bool.and_eq_true] at hs ⊢
      exact hs.imp h fun hz => hz.1.1
    · simp only [Ledger.step, Call.apply, batchRemoveChild, hm, not_false_eq_true, if_true]
        at hs ⊢
      exact h hs
  | callbackComplete jobID =>
    simp only [Ledger.step, Call.apply, batchCallbackComplete] at hs ⊢
    split_ifs at hs ⊢ <;> exact h hs
  | enqueueJobs ids | invalidate => exact h hs

/-! ### One call of the window -/

section Window

variable {l : Ledger} (childID : String)

theorem makeCallbackJobs_withChild (now : String) (seq : ℤ)
    (cs : List (CallbackType × CallbackInfo)) :
    makeCallbackJobs (l.withChild childID).batch now seq cs =
      makeCallbackJobs l.batch now seq cs := by
  induction cs generalizing seq with
  | nil => rfl
  | cons c cs ih =>
    simp only [makeCallbackJobs, ih]
    rfl

theorem accepts_withChild {childID jobID : String} {result : Result} (hid : jobID ≠ childID)
    (he : result ≠ .emptySuccess) :
    Accepts jobID result (l.withChild childID).batch ↔ Accepts jobID result l.batch := by
  rw [accepts_member he, accepts_member he]
  simp [Ledger.withChild, hid]

theorem pendingAfter_pos (h : Accounting l) {jobID : String} {result : Result} {now : String}
    (hacc : Accepts jobID result l.batch)
    (hfin : ¬ (Call.complete jobID result now).Finishes l.batch) :
    firesComplete result l.batch = false ∧ 0 < pendingAfter result l.batch := by
  have hfires : firesComplete result l.batch = false := by
    by_contra hf
    exact hfin ((finishes_complete_iff h).mpr ⟨hacc, by simpa using hf⟩)
  refine ⟨hfires, ?_⟩
  have hnonneg := h.pendingUnclamped_nonneg hacc
  rw [← h.pendingAfter_eq hacc] at hnonneg
  by_contra hle
  have hzero : pendingAfter result l.batch = 0 := by omega
  -- nothing pending and not fired would have fired
  have hfired : l.batch.progress.completeFired = true := by
    simpa [firesComplete, hzero] using hfires
  by_cases he : result = .emptySuccess
  · subst he
    simp [(accepts_emptySuccess.mp hacc).2] at hfired
  · simp [h.not_fired ((accepts_member he).mp hacc)] at hfired

theorem pendingAfter_withChild (h : Accounting l) {jobID : String} {result : Result}
    (hacc : Accepts jobID result l.batch) :
    pendingAfter result (l.withChild childID).batch = pendingAfter result l.batch + 1 := by
  have hnonneg := h.pendingUnclamped_nonneg hacc
  have hun : pendingUnclamped result (l.withChild childID).batch =
      pendingUnclamped result l.batch + 1 := by
    simp only [pendingUnclamped, Ledger.withChild]
    split <;> omega
  rw [h.pendingAfter_eq hacc, pendingAfter, hun, if_neg (by omega)]

theorem callbackList_withChild (h : Accounting l) {jobID : String} {result : Result}
    {now : String} (hacc : Accepts jobID result l.batch)
    (hfin : ¬ (Call.complete jobID result now).Finishes l.batch) :
    firesComplete result (l.withChild childID).batch = false ∧
      callbackList result (l.withChild childID).batch = callbackList result l.batch := by
  obtain ⟨hfires, hpos⟩ := pendingAfter_pos h hacc hfin
  have hfires' : firesComplete result (l.withChild childID).batch = false := by
    have hne : pendingAfter result (l.withChild childID).batch ≠ 0 := by
      rw [pendingAfter_withChild childID h hacc]
      omega
    simp [firesComplete, hne]
  refine ⟨hfires', ?_⟩
  simp only [callbackList, firesSuccess, hfires, hfires', Bool.false_and]
  rfl

/-- A call does the same to the parent with and without the child. -/
structure Agrees (childID : String) (l : Ledger) (c : Call) : Prop where
  step : (l.withChild childID).step c = (l.step c).withChild childID
  callbackJobs : c.callbackJobs (l.withChild childID).batch = c.callbackJobs l.batch
  signals : c.signals (l.withChild childID).batch = c.signals l.batch

theorem agrees_recorded (h : Accounting l) {childID jobID : String} {result : Result} {now : String}
    (hid : jobID ≠ childID) (he : result ≠ .emptySuccess) (hacc : Accepts jobID result l.batch)
    (hfin : ¬ (Call.complete jobID result now).Finishes l.batch) :
    Agrees childID l (.complete jobID result now) := by
  have hacc' := (accepts_withChild hid he).mpr hacc
  obtain ⟨hfires, hpos⟩ := pendingAfter_pos h hacc hfin
  obtain ⟨hfires', hlist⟩ := callbackList_withChild childID h hacc hfin
  have hpend := pendingAfter_withChild childID h hacc
  -- members stay pending on both sides, so nothing fires on either
  have hjobs : callbackJobs result (l.withChild childID).batch now =
      callbackJobs result l.batch now := by
    rw [callbackJobs, hlist, makeCallbackJobs_withChild]
    rfl
  constructor
  case step =>
    rw [Ledger.step_complete now hacc', Ledger.step_complete now hacc, hjobs]
    have hprog : progressAfter jobID result (l.withChild childID).batch =
        { progressAfter jobID result l.batch with
          total := l.batch.progress.total + 1
          pending := (progressAfter jobID result l.batch).pending + 1
          completeFired := false
          successFired := false } := by
      simp only [progressAfter, hlist, hpend, hfires', firesSuccess, Bool.false_and,
        Bool.or_false]
      cases result.removes <;> rfl
    have hset : (if result.removes then (insert childID l.batch.jobs).erase jobID
        else insert childID l.batch.jobs) =
        insert childID (if result.removes then l.batch.jobs.erase jobID else l.batch.jobs) := by
      split
      · exact Finset.erase_insert_of_ne hid.symm
      · rfl
    simp only [batchAfter, hprog, hjobs]
    simp only [Ledger.withChild, hset]
    rfl
  case callbackJobs =>
    simp only [Call.callbackJobs, batchComplete_of_accepts now hacc,
      batchComplete_of_accepts now hacc', record, hjobs]
  case signals =>
    have hne : pendingAfter result l.batch ≠ 0 := by omega
    have hne' : pendingAfter result (l.withChild childID).batch ≠ 0 := by omega
    simp [Call.signals, batchComplete_of_accepts now hacc, batchComplete_of_accepts now hacc',
      record, completeResult, completedNow, hne, hne']

theorem agrees_refused (h : Accounting l) {childID jobID : String} {result : Result}
    {now : String} (hid : jobID ≠ childID) (hacc : ¬ Accepts jobID result l.batch) :
    Agrees childID l (.complete jobID result now) := by
  have hacc' : ¬ Accepts jobID result (l.withChild childID).batch := by
    by_cases he : result = .emptySuccess
    · -- with the child the parent is not empty
      subst he
      rw [accepts_emptySuccess]
      rintro ⟨hp, -⟩
      have hnonneg := h.pending_nonneg
      change l.batch.progress.pending + 1 = 0 at hp
      omega
    · rwa [accepts_withChild hid he]
  obtain ⟨reply, heq, hne⟩ := batchComplete_of_not_accepts now hacc
  obtain ⟨reply', heq', hne'⟩ := batchComplete_of_not_accepts now hacc'
  constructor
  case step => rw [Ledger.step_refused now hacc', Ledger.step_refused now hacc]
  case callbackJobs => simp [Call.callbackJobs, heq, heq', refuse]
  case signals =>
    cases reply <;> cases reply' <;> simp_all [Call.signals, refuse]

theorem agrees_complete (h : Accounting l) {childID jobID : String} {result : Result}
    {now : String} (hid : jobID ≠ childID)
    (hfin : ¬ (Call.complete jobID result now).Finishes l.batch) :
    Agrees childID l (.complete jobID result now) := by
  by_cases hacc : Accepts jobID result l.batch
  · refine agrees_recorded h hid ?_ hacc hfin
    rintro rfl
    -- a recorded empty success would finish the parent
    have hpos := (pendingAfter_pos h hacc hfin).2
    rw [h.pendingAfter_eq hacc] at hpos
    have hzero := (accepts_emptySuccess.mp hacc).1
    simp [pendingUnclamped, Result.removes, hzero] at hpos
  · exact agrees_refused h hid hacc

/-- **Every call of the window** does the same with and without the child. -/
theorem Undisturbed.agrees (h : Accounting l) {childID : String} {c : Call}
    (hc : Undisturbed childID l c) : Agrees childID l c := by
  cases c with
  | complete jobID result now => exact agrees_complete h hc.1 hc.2
  | enqueueJobs ids =>
    refine ⟨?_, rfl, rfl⟩
    simp [Ledger.step, Call.apply, batchEnqueueJobs, Ledger.withChild, Finset.insert_union,
      Call.records, Call.callbackJobs]
  | addJobs ids =>
    refine ⟨?_, rfl, rfl⟩
    by_cases hi : l.batch.progress.invalidated = true
    · simp [Ledger.step, Call.apply, batchAddJobs, Ledger.withChild, hi, Call.records,
        Call.callbackJobs]
    · have hf : l.batch.progress.completeFired = false := by
        by_contra hf
        exact hi (hc.2 (by simpa using hf))
      simp [Ledger.step, Call.apply, batchAddJobs, Ledger.withChild, hi, hf, Finset.insert_union,
        Call.records, Call.callbackJobs]
      omega
  | addChild id =>
    refine ⟨?_, rfl, rfl⟩
    have hne : id ≠ childID := hc
    by_cases hi : l.batch.progress.invalidated = true
    · simp [Ledger.step, Call.apply, batchAddChild, Ledger.withChild, hi, Call.records,
        Call.callbackJobs]
    · by_cases hm : id ∈ l.batch.jobs
      · simp [Ledger.step, Call.apply, batchAddChild, Ledger.withChild, hi, hm, hne, Call.records,
          Call.callbackJobs]
      · simp [Ledger.step, Call.apply, batchAddChild, Ledger.withChild, hi, hm, hne,
          Finset.insert_comm, Call.records, Call.callbackJobs]
  | removeChild id => exact hc.elim
  | callbackComplete jobID =>
    by_cases hm : jobID ∈ l.batch.callbacks
    · -- the extra member is pending, so that the call does not signal with it
      have hsig : (Call.callbackComplete jobID).signals l.batch = false := by
        by_contra hsig
        have hthree : l.batch.progress.pending = 0 ∧
            (l.batch.progress.callbacksPending < 1 ∨ l.batch.progress.callbacksPending - 1 = 0) ∧
            l.batch.progress.completeFired = true := by
          simpa [Call.signals, batchCallbackComplete, hm] using hsig
        exact hc ⟨hm, by omega, hthree.1, hthree.2.2⟩
      refine ⟨?_, rfl, ?_⟩
      · simp only [Ledger.step, Call.apply, batchCallbackComplete, Ledger.withChild,
          hm, not_true_eq_false, if_false]
        rfl
      · rw [hsig]
        simp [Call.signals, batchCallbackComplete, Ledger.withChild, hm]
    · refine ⟨?_, rfl, ?_⟩
      · simp [Ledger.step, Call.apply, batchCallbackComplete, Ledger.withChild, hm, Call.records,
          Call.callbackJobs]
      · simp [Call.signals, batchCallbackComplete, Ledger.withChild, hm]
  | invalidate => exact ⟨rfl, rfl, rfl⟩

theorem permits_of_withChild {childID : String} {c : Call}
    (hp : (l.withChild childID).Permits c) : l.Permits c := by
  have hsub : l.batch.jobs ⊆ insert childID l.batch.jobs := Finset.subset_insert _ _
  cases c with
  | enqueueJobs ids => exact ⟨hp.1, hp.2.1.mono_right hsub, hp.2.2⟩
  | addJobs ids => exact ⟨hp.1, hp.2.mono_right hsub⟩
  | _ => trivial

theorem notMem_step {childID : String} {c : Call} (hc : Undisturbed childID l c)
    (hm : childID ∉ l.batch.jobs) : childID ∉ (l.step c).batch.jobs := by
  cases c with
  | complete jobID result now =>
    by_cases hacc : Accepts jobID result l.batch
    · rw [Ledger.step_complete now hacc]
      simp only [batchAfter]
      split
      · exact fun h => hm (Finset.mem_of_mem_erase h)
      · exact hm
    · rwa [Ledger.step_refused now hacc]
  | enqueueJobs ids =>
    have hids : childID ∉ ids := hc
    simp [Ledger.step, Call.apply, batchEnqueueJobs, hm, hids]
  | addJobs ids =>
    simp only [Ledger.step, Call.apply, batchAddJobs]
    split_ifs <;> simp [hm, hc.1]
  | addChild id =>
    have hne : id ≠ childID := hc
    simp only [Ledger.step, Call.apply, batchAddChild]
    split_ifs <;> simp [hm, hne.symm]
  | removeChild id => exact hc.elim
  | callbackComplete jobID =>
    simp only [Ledger.step, Call.apply, batchCallbackComplete]
    split_ifs <;> exact hm
  | invalidate => exact hm

/-! ### Link, window, rollback -/

theorem step_addChild {childID : String}
    (hinv : l.batch.progress.successFired = true → l.batch.progress.completeFired = true)
    (hi : l.batch.progress.invalidated = false) (hm : childID ∉ l.batch.jobs) :
    l.step (.addChild childID) = l.withChild childID := by
  have hs : (l.batch.progress.successFired && !l.batch.progress.completeFired) = false := by
    cases hs : l.batch.progress.successFired with
    | false => rfl
    | true => simp [hinv hs]
  simp [Ledger.step, Call.apply, batchAddChild, hi, hm, hs, Ledger.withChild, Call.records,
    Call.callbackJobs]

theorem step_removeChild (h : Accounting l) {childID : String}
    (hinv : l.batch.progress.successFired = true → l.batch.progress.completeFired = true)
    (hm : childID ∉ l.batch.jobs) (hres : Restorable l.batch) :
    (l.withChild childID).step (.removeChild childID) = l := by
  have hnonneg := h.pending_nonneg
  have hle := h.total_ge_pending
  have hp : (if l.batch.progress.pending < 0 then 0 else l.batch.progress.pending) =
      l.batch.progress.pending := if_neg (by omega)
  have ht : (if l.batch.progress.total < 0 then 0 else l.batch.progress.total) =
      l.batch.progress.total := if_neg (by omega)
  -- both flags are functions of `pending = 0`, `dead` and `invalidated`
  have hcf : decide (l.batch.progress.pending = 0) = l.batch.progress.completeFired := by
    by_cases hz : l.batch.progress.pending = 0
    · simp [hz, (hres hz).1]
    · have hnf : l.batch.progress.completeFired = false := by
        by_contra hf
        exact hz (h.fired (by simpa using hf))
      simp [hz, hnf]
  have hsf : (decide (l.batch.progress.pending = 0) && !l.batch.progress.dead &&
      !l.batch.progress.invalidated) = l.batch.progress.successFired := by
    by_cases hz : l.batch.progress.pending = 0
    · simp [hz, (hres hz).2]
    · have hns : l.batch.progress.successFired = false := by
        by_contra hs
        exact hz (h.fired (hinv (by simpa using hs)))
      simp [hz, hns]
  simp [Ledger.step, Call.apply, batchRemoveChild, Ledger.withChild, Call.records,
    Call.callbackJobs, hp, ht, hsf, hm]
  rw [hcf]

theorem run_withChild {childID : String} {mid : List Call} (h : Accounting l)
    (hlegal : machine.Legal (l.withChild childID) mid)
    (hw : machine.Throughout (Undisturbed childID) l mid)
    (hm : childID ∉ l.batch.jobs)
    (hinv : l.batch.progress.successFired = true → l.batch.progress.completeFired = true) :
    machine.run (l.withChild childID) mid = (machine.run l mid).withChild childID ∧
      pushed (l.withChild childID) mid = pushed l mid ∧
      signalCount (l.withChild childID) mid = signalCount l mid ∧
      Accounting (machine.run l mid) ∧ childID ∉ (machine.run l mid).batch.jobs ∧
      ((machine.run l mid).batch.progress.successFired = true →
        (machine.run l mid).batch.progress.completeFired = true) := by
  induction mid generalizing l with
  | nil => exact ⟨rfl, rfl, rfl, h, hm, hinv⟩
  | cons c cs ih =>
    obtain ⟨hstep, hjobs, hsig⟩ := hw.1.agrees h
    have hperm : l.Permits c := permits_of_withChild hlegal.1
    have hlegal' : machine.Legal ((l.step c).withChild childID) cs := by
      rw [← hstep]
      exact hlegal.2
    obtain ⟨hrun, hpushed, hcount, hrest⟩ :=
      ih (h.step hperm) hlegal' hw.2 (notMem_step hw.1 hm) (successFired_step hinv)
    refine ⟨?_, ?_, ?_, hrest⟩
    · change machine.run ((l.withChild childID).step c) cs = _
      rw [hstep]
      exact hrun
    · simp only [pushed, hjobs, hstep, hpushed]
    · simp only [signalCount, hsig, hstep, hcount]

end Window

/-! ### Transparency -/

/-- The link and its rollback leave no trace: the same counters and flags, the
same completion and success callbacks, and a signal to the parent's own parent
in one run if and only if in the other. -/
def Transparent (start : Ledger) (pre : List Call) (childID : String) (mid post : List Call) :
    Prop :=
  let linked := pre ++ .addChild childID :: (mid ++ .removeChild childID :: post)
  let plain := pre ++ (mid ++ post)
  (machine.run start linked).batch.progress = (machine.run start plain).batch.progress ∧
    (pushed start linked).filter (·.callbackType ≠ .death) =
      (pushed start plain).filter (·.callbackType ≠ .death) ∧
    (signalCount start linked ≠ 0 ↔ signalCount start plain ≠ 0)

/-- **Rollback.** Where no call of the window is disturbed by the child and the
parent is restorable at the rollback, the pair is transparent. -/
theorem transparent_of_undisturbed (r : Request) (callbackQueue : String) (pre : List Call)
    (childID : String) (mid post : List Call)
    (legal : machine.Legal (create r callbackQueue)
      (pre ++ .addChild childID :: (mid ++ .removeChild childID :: post)))
    (hi : (machine.run (create r callbackQueue) pre).batch.progress.invalidated = false)
    (hm : childID ∉ (machine.run (create r callbackQueue) pre).batch.jobs)
    (hwindow : machine.Throughout (Undisturbed childID) (machine.run (create r callbackQueue) pre) mid)
    (hrestore : Restorable (machine.run (create r callbackQueue) (pre ++ mid)).batch) :
    Transparent (create r callbackQueue) pre childID mid post := by
  rw [Machine.legal_append, Machine.legal_cons, Machine.legal_append] at legal
  obtain ⟨hpre, -, hmid, -⟩ := legal
  have hacc := Accounting.of_legal r callbackQueue hpre
  have hinv := hpre.invariant
    (I := fun l => l.batch.progress.successFired = true → l.batch.progress.completeFired = true)
    (fun _ _ h _ => successFired_step h) (by
      simp [create, storeBatchState, batchProgressFields, buildBatchState])
  rw [Machine.run_append] at hrestore
  generalize hl : machine.run (create r callbackQueue) pre = l at *
  -- link, window and rollback, one after the other
  have hadd := step_addChild hinv hi hm
  have hadd' : machine.step l (.addChild childID) = l.withChild childID := hadd
  rw [hadd'] at hmid
  obtain ⟨hrun, hpushed, hcount, hacc', hm', hinv'⟩ := run_withChild hacc hmid hwindow hm hinv
  have hremove := step_removeChild hacc' hinv' hm' hrestore
  have hremove' : machine.step ((machine.run l mid).withChild childID) (.removeChild childID) =
      machine.run l mid := hremove
  refine ⟨?_, ?_, ?_⟩
  · rw [Machine.run_append, Machine.run_append, hl, Machine.run_cons, hadd', Machine.run_append,
      hrun, Machine.run_cons, hremove', Machine.run_append]
  · have hsame : pushed (create r callbackQueue)
        (pre ++ .addChild childID :: (mid ++ .removeChild childID :: post)) =
        pushed (create r callbackQueue) (pre ++ (mid ++ post)) := by
      rw [pushed_append, pushed_append, hl, pushed, hadd, pushed_append, hrun, hpushed, pushed,
        hremove, pushed_append]
      rfl
    rw [hsame]
  · have hsame : signalCount (create r callbackQueue)
        (pre ++ .addChild childID :: (mid ++ .removeChild childID :: post)) =
        signalCount (create r callbackQueue) (pre ++ (mid ++ post)) := by
      rw [signalCount_append, signalCount_append, hl, signalCount, hadd, signalCount_append, hrun,
        hcount, signalCount, hremove, signalCount_append]
      simp [Call.signals]
    rw [hsame]

def oneJob : Request where
  id := "p"
  parentID := ""
  jobs := ["j"]
  nodup := List.nodup_singleton "j"
  onComplete := some { jobType := "Notify", options := [] }
  onSuccess := some { jobType := "Celebrate", options := [] }
  onDeath := none

theorem transparent_completed_parent :
    Transparent (create oneJob "default") [.enqueueJobs ["j"], .complete "j" .success "t"] "c"
      [.callbackComplete "p:callback:1"] [.callbackComplete "p:callback:2"] :=
  transparent_of_undisturbed oneJob "default" [.enqueueJobs ["j"], .complete "j" .success "t"] "c"
    [.callbackComplete "p:callback:1"] [.callbackComplete "p:callback:2"] (by decide) (by decide)
    (by decide) ⟨fun h => absurd h.2.1 (by decide), trivial⟩ (fun _ => by decide)

theorem not_transparent_lost_callbacks :
    machine.Legal (create oneJob "default")
        [.enqueueJobs ["j"], .addChild "c", .complete "j" .success "t", .removeChild "c"] ∧
      (batchAddChild "c"
        (machine.run (create oneJob "default") [.enqueueJobs ["j"]]).batch).1 = .success ∧
      ¬ Transparent (create oneJob "default") [.enqueueJobs ["j"]] "c"
        [.complete "j" .success "t"] [] := by
  refine ⟨by decide, by decide, ?_⟩
  rintro ⟨-, hpushed, -⟩
  -- no callback job on the left, two on the right
  have hlength := congrArg List.length hpushed
  revert hlength
  decide

end Batch

end Senna
