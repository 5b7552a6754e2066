import Senna.Batch.Callbacks

/-!
# Growing a batch from a handler

`BatchHandle.AddJobs` gives a running batch more jobs. The script behind it puts the IDs
into the jobs set and raises `total` and `pending` by **the number of jobs it was given**:
the set forgets repetitions, the counters do not. A list that names an ID twice, or one
that is already a member (a handler that is delivered again repeats its call), therefore
leaves `pending` ahead of the members.

What that does later is stated for `completeAll`, the completions of a batch's members in
any order. Each completion takes one member and lowers `pending` by at most one
(`pending_le_completeAll`), so a counter that is ahead of the members never reaches zero
and no callback is pushed. A counter that is not ahead reaches zero on the way
(`concludes_of_pending_le`). Both bounds together decide when a call of `AddJobs` counts what
it adds.
-/

namespace Senna

namespace Batch

/-! ### The call -/

/-- `BatchHandle.AddJobs` on an existing batch, with the jobs reduced to their IDs. Nothing is
sent for an empty list. -/
def addJobs (bid : String) (ids : List String) (b : Batch) : Except String Unit × Batch :=
  if ids = [] then (.ok (), b)
  else
    match batchAddJobs ids b with
    | (.success _ _, b') => (.ok (), b')
    | (.batchInvalidated, b') => (.error ("batch " ++ bid ++ " has been invalidated"), b')
    | (.batchComplete, b') => (.error ("batch " ++ bid ++ " has already completed"), b')

/-- A batch that `AddJobs` accepts jobs for: neither invalidated nor completed. -/
structure Open (b : Batch) : Prop where
  valid : b.progress.invalidated = false
  unfired : b.progress.completeFired = false

def grown (ids : List String) (b : Batch) : Batch :=
  { b with
    progress := { b.progress with
      total := b.progress.total + ids.length
      pending := b.progress.pending + ids.length }
    jobs := b.jobs ∪ ids.toFinset }

variable {b : Batch}

theorem Open.addJobs_eq (h : Open b) (bid : String) (ids : List String) :
    addJobs bid ids b = (.ok (), grown ids b) := by
  unfold addJobs
  by_cases hids : ids = []
  · subst hids
    rw [if_pos rfl]
    simp [grown]
  · rw [if_neg hids]
    simp [batchAddJobs, h.valid, h.unfired, grown]

/-! ### Completing the members -/

/-- A completion of one member. -/
structure Completion where
  jobID : String
  result : Result
  now : String

def Completion.call (c : Completion) : Call := .complete c.jobID c.result c.now

def completeAll : List Completion → Batch → Batch
  | [], b => b
  | c :: cs, b => completeAll cs (c.call.apply b)

def announced : List Completion → Batch → List CallbackJob
  | [], _ => []
  | c :: cs, b => c.call.callbackJobs b ++ announced cs (c.call.apply b)

/-- The completions finish every member, each of them once. -/
structure Exhausts (cs : List Completion) (jobs : Finset String) : Prop where
  nodup : (cs.map Completion.jobID).Nodup
  members : (cs.map Completion.jobID).toFinset = jobs
  final : ∀ c ∈ cs, c.result.removes = true

/-- The completions bring `pending` to zero and fire the callbacks: the completion callback
whatever the results are, and the success callback if every member succeeded in a batch
that has neither seen a death nor fired it before. -/
structure Concludes (cs : List Completion) (b : Batch) : Prop where
  pending : (completeAll cs b).progress.pending = 0
  fired : (completeAll cs b).progress.completeFired = true
  onComplete : ∀ info, b.state.onComplete = some info →
    ∃ job ∈ announced cs b, job.callbackType = .complete ∧ job.jobClass = info.jobType
  onSuccess : (∀ c ∈ cs, c.result = .success) → b.progress.dead = false →
    b.progress.invalidated = false → b.progress.successFired = false →
    ∀ info, b.state.onSuccess = some info →
      ∃ job ∈ announced cs b, job.callbackType = .success ∧ job.jobClass = info.jobType

/-- A call of `AddJobs` counted what it added: both counters have grown by the number of IDs
that were not members, and completing every member once concludes the batch. -/
structure Counted (ids : List String) (before after : Batch) : Prop where
  pending : after.progress.pending = before.progress.pending + (ids.toFinset \ before.jobs).card
  total : after.progress.total = before.progress.total + (ids.toFinset \ before.jobs).card
  concludes : ∀ cs : List Completion, Exhausts cs after.jobs → cs ≠ [] → Concludes cs after

/-! ### One completion -/

section Step

variable {c : Completion} {b : Batch}

theorem Completion.apply_eq (hmem : c.jobID ∈ b.jobs) (hfinal : c.result.removes = true) :
    c.call.apply b = batchAfter c.jobID c.result b c.now ∧
      c.call.callbackJobs b = callbackJobs c.result b c.now := by
  have hne : c.result ≠ .emptySuccess := by
    rintro he
    rw [he] at hfinal
    simp [Result.removes] at hfinal
  have heq := batchComplete_of_accepts c.now ((accepts_member hne).mpr hmem)
  simp [Completion.call, Call.apply, Call.callbackJobs, heq, record]

theorem pendingAfter_of_removes {result : Result} (hfinal : result.removes = true) :
    pendingAfter result b = max 0 (b.progress.pending - 1) := by
  simp only [pendingAfter, pendingUnclamped, hfinal, if_true]
  split <;> omega

theorem Completion.pending_le (c : Completion) (b : Batch) :
    b.progress.pending - 1 ≤ (c.call.apply b).progress.pending := by
  by_cases h : Accepts c.jobID c.result b
  · have heq := batchComplete_of_accepts c.now h
    simp only [Completion.call, Call.apply, heq, record, batchAfter, progressAfter]
    split
    · next hfinal =>
      rw [pendingAfter_of_removes hfinal]
      omega
    · omega
  · obtain ⟨reply, heq, -⟩ := batchComplete_of_not_accepts c.now h
    simp only [Completion.call, Call.apply, heq, refuse]
    omega

theorem Completion.stays (c : Completion) (hzero : b.progress.pending = 0)
    (hfired : b.progress.completeFired = true) :
    (c.call.apply b).progress.pending = 0 ∧
      (c.call.apply b).progress.completeFired = true := by
  by_cases h : Accepts c.jobID c.result b
  · have heq := batchComplete_of_accepts c.now h
    simp only [Completion.call, Call.apply, heq, record, batchAfter, progressAfter, hfired,
      Bool.true_or, and_true]
    split
    · next hfinal =>
      rw [pendingAfter_of_removes hfinal, hzero]
      rfl
    · exact hzero
  · obtain ⟨reply, heq, -⟩ := batchComplete_of_not_accepts c.now h
    simp only [Completion.call, Call.apply, heq, refuse]
    exact ⟨hzero, hfired⟩

theorem exists_makeCallbackJob {t : CallbackType} {info : CallbackInfo} (b : Batch) (now : String)
    (seq : ℤ) {cs : List (CallbackType × CallbackInfo)} (h : (t, info) ∈ cs) :
    ∃ job ∈ makeCallbackJobs b now seq cs,
      job.callbackType = t ∧ job.jobClass = info.jobType := by
  induction cs generalizing seq with
  | nil => cases h
  | cons d ds ih =>
    rcases List.mem_cons.mp h with rfl | h
    · exact ⟨_, List.mem_cons_self .., rfl, rfl⟩
    · obtain ⟨job, hjob, heq⟩ := ih (seq + 1) h
      exact ⟨job, List.mem_cons_of_mem _ hjob, heq⟩

end Step

/-! ### All completions -/

theorem pending_le_completeAll (cs : List Completion) (b : Batch) :
    b.progress.pending - cs.length ≤ (completeAll cs b).progress.pending := by
  induction cs generalizing b with
  | nil => simp [completeAll]
  | cons c cs ih =>
    have hstep := c.pending_le b
    have hrest := ih (c.call.apply b)
    simp only [completeAll, List.length_cons]
    push_cast
    omega

theorem stays_completeAll (cs : List Completion) (hzero : b.progress.pending = 0)
    (hfired : b.progress.completeFired = true) :
    (completeAll cs b).progress.pending = 0 ∧
      (completeAll cs b).progress.completeFired = true := by
  induction cs generalizing b with
  | nil => exact ⟨hzero, hfired⟩
  | cons c cs ih =>
    obtain ⟨hzero', hfired'⟩ := c.stays hzero hfired
    exact ih hzero' hfired'

variable {cs : List Completion}

theorem Exhausts.length_eq {jobs : Finset String} (h : Exhausts cs jobs) :
    cs.length = jobs.card := by
  rw [← h.members, List.toFinset_card_of_nodup h.nodup, List.length_map]

theorem Exhausts.head_mem {c : Completion} {jobs : Finset String}
    (h : Exhausts (c :: cs) jobs) : c.jobID ∈ jobs := by
  rw [← h.members]
  simp

theorem Exhausts.tail {c : Completion} {jobs : Finset String}
    (h : Exhausts (c :: cs) jobs) : Exhausts cs (jobs.erase c.jobID) where
  nodup := (List.nodup_cons.mp h.nodup).2
  members := by
    have hnew : c.jobID ∉ (cs.map Completion.jobID).toFinset := by
      rw [List.mem_toFinset]
      exact (List.nodup_cons.mp h.nodup).1
    rw [← h.members, List.map_cons, List.toFinset_cons, Finset.erase_insert hnew]
  final d hd := h.final d (List.mem_cons_of_mem _ hd)

theorem concludes_of_fires {c : Completion} (cs : List Completion)
    (hmem : c.jobID ∈ b.jobs) (hfinal : c.result.removes = true)
    (hunfired : b.progress.completeFired = false) (hzero : pendingAfter c.result b = 0) :
    Concludes (c :: cs) b := by
  obtain ⟨happly, hjobs⟩ := c.apply_eq hmem hfinal
  have hfires : firesComplete c.result b = true := by simp [firesComplete, hzero, hunfired]
  have hend := stays_completeAll cs (b := c.call.apply b)
    (by simp [happly, batchAfter, progressAfter, hfinal, hzero])
    (by simp [happly, batchAfter, progressAfter, hfires])
  -- what stands in the callback list is pushed by this call
  have hpushed : ∀ {t : CallbackType} {info : CallbackInfo},
      (t, info) ∈ callbackList c.result b →
      ∃ job ∈ announced (c :: cs) b, job.callbackType = t ∧ job.jobClass = info.jobType := by
    intro t info hin
    obtain ⟨job, hjob, heq⟩ := exists_makeCallbackJob b c.now b.progress.callbackSeq hin
    refine ⟨job, List.mem_append_left _ ?_, heq⟩
    rw [hjobs]
    exact hjob
  refine ⟨hend.1, hend.2, fun info hinfo => hpushed ?_, ?_⟩
  · simp [callbackList, hfires, hinfo]
  · intro hall hdead hvalid hnot info hinfo
    have hsuccess : c.result = .success := hall c (List.mem_cons_self ..)
    have hfiresS : firesSuccess c.result b = true := by
      rw [hsuccess] at hfires
      simp [firesSuccess, hsuccess, hfires, deadAfter, invalidatedAfter, addDeadBatch, hdead,
        hvalid, hnot, hinfo]
    exact hpushed (by simp [callbackList, hfiresS, hinfo])

/-- **A counter that is not ahead of the members reaches zero**: the induction is on the
completions, and as long as something is pending the next one finds an unfired batch whose
counter is still not ahead. -/
theorem concludes_of_pending_le (hex : Exhausts cs b.jobs)
    (hne : cs ≠ []) (hunfired : b.progress.completeFired = false)
    (hle : b.progress.pending ≤ cs.length) : Concludes cs b := by
  induction cs generalizing b with
  | nil => exact absurd rfl hne
  | cons c cs ih =>
    have hmem := hex.head_mem
    have hfinal := hex.final c (List.mem_cons_self ..)
    have hpend := pendingAfter_of_removes (b := b) hfinal
    by_cases hzero : pendingAfter c.result b = 0
    · exact concludes_of_fires cs hmem hfinal hunfired hzero
    · obtain ⟨happly, -⟩ := c.apply_eq hmem hfinal
      have hquiet : firesComplete c.result b = false := by simp [firesComplete, hzero]
      have hlen : b.progress.pending ≤ cs.length + 1 := by simpa using hle
      have hrest : Concludes cs (c.call.apply b) := by
        refine ih ?_ ?_ ?_ ?_
        · simpa [happly, batchAfter, hfinal] using hex.tail
        · rintro rfl
          simp only [List.length_nil] at hlen
          omega
        · simp [happly, batchAfter, progressAfter, hunfired, hquiet]
        · simp only [happly, batchAfter, progressAfter, hfinal, if_true]
          omega
      refine ⟨hrest.pending, hrest.fired, fun info hinfo => ?_, ?_⟩
      · obtain ⟨job, hjob, heq⟩ := hrest.onComplete info (by rw [happly]; exact hinfo)
        exact ⟨job, List.mem_append_right _ hjob, heq⟩
      · intro hall hdead hvalid hnot info hinfo
        have hsuccess : c.result = .success := hall c (List.mem_cons_self ..)
        rw [hsuccess] at hquiet
        obtain ⟨job, hjob, heq⟩ := hrest.onSuccess
          (fun d hd => hall d (List.mem_cons_of_mem _ hd))
          (by simp [happly, batchAfter, progressAfter, deadAfter, addDeadBatch, hsuccess, hdead])
          (by simp [happly, batchAfter, progressAfter, invalidatedAfter, hsuccess, hvalid])
          (by simp [happly, batchAfter, progressAfter, firesSuccess, hsuccess, hquiet, hnot])
          info (by rw [happly]; exact hinfo)
        exact ⟨job, List.mem_append_right _ hjob, heq⟩

/-! ### When the call counts what it adds -/

theorem length_eq_card_sdiff_iff (ids : List String) (jobs : Finset String) :
    ids.length = (ids.toFinset \ jobs).card ↔ ids.Nodup ∧ Disjoint ids.toFinset jobs := by
  constructor
  · intro h
    have hset : ids.toFinset.card ≤ ids.length := List.toFinset_card_le ids
    have hnew : (ids.toFinset \ jobs).card ≤ ids.toFinset.card :=
      Finset.card_le_card Finset.sdiff_subset
    have hnodup : ids.toFinset.card = ids.length := by omega
    refine ⟨Multiset.toFinset_card_eq_card_iff_nodup.mp hnodup, ?_⟩
    have hall : ids.toFinset \ jobs = ids.toFinset :=
      Finset.eq_of_subset_of_card_le Finset.sdiff_subset (by omega)
    exact Finset.sdiff_eq_self_iff_disjoint.mp hall
  · rintro ⟨hnodup, hdisj⟩
    rw [Finset.sdiff_eq_self_iff_disjoint.mpr hdisj, List.toFinset_card_of_nodup hnodup]

theorem card_grown {ids : List String} (hnodup : ids.Nodup)
    (hdisj : Disjoint ids.toFinset b.jobs) :
    (grown ids b).jobs.card = b.jobs.card + ids.length := by
  rw [grown, Finset.card_union_of_disjoint hdisj.symm, List.toFinset_card_of_nodup hnodup]

theorem exists_exhausts (jobs : Finset String) : ∃ cs, Exhausts cs jobs := by
  refine ⟨jobs.toList.map fun id => ⟨id, .success, ""⟩, ?_, ?_, ?_⟩
  · simpa [Function.comp_def] using jobs.nodup_toList
  · simp [Function.comp_def]
  · simp [Result.removes]

theorem counted_of_fresh {ids : List String} (hopen : Open b) (hnodup : ids.Nodup)
    (hdisj : Disjoint ids.toFinset b.jobs)
    (hcounter : b.jobs ∪ ids.toFinset = ∅ ∨ b.progress.pending ≤ b.jobs.card) :
    Counted ids b (grown ids b) := by
  have hlen := (length_eq_card_sdiff_iff ids b.jobs).mpr ⟨hnodup, hdisj⟩
  refine ⟨by rw [← hlen]; rfl, by rw [← hlen]; rfl, fun cs hcs hne => ?_⟩
  have hcard := hcs.length_eq
  refine concludes_of_pending_le hcs hne hopen.unfired ?_
  rcases hcounter with hempty | hle
  · exact absurd (List.length_eq_zero_iff.mp (hcard.trans (by rw [grown, hempty]; rfl))) hne
  · rw [hcard, card_grown hnodup hdisj]
    simp only [grown]
    omega

/-- **A batch with a clean history.** As long as every call of `AddJobs` gives new IDs, each
once, `pending` is the number of members as soon as the initial jobs are flushed, and the
next such call is counted. -/
theorem counted_of_legal (r : Request) (callbackQueue bid : String) (cs : List Call)
    (legal : machine.Legal (create r callbackQueue) cs) {ids : List String}
    (hflushed : (machine.run (create r callbackQueue) cs).unflushed = ∅)
    (hopen : Open (machine.run (create r callbackQueue) cs).batch)
    (hcall : machine.permits (machine.run (create r callbackQueue) cs) (.addJobs ids)) :
    Counted ids (machine.run (create r callbackQueue) cs).batch
      (addJobs bid ids (machine.run (create r callbackQueue) cs).batch).2 := by
  have hbooks := Accounting.of_legal r callbackQueue legal
  obtain ⟨hnodup, hdisj⟩ := hcall
  rw [hopen.addJobs_eq]
  refine counted_of_fresh hopen hnodup hdisj (Or.inr ?_)
  rw [hbooks.pending_eq, hflushed]
  simp

theorem counted_of_legal_twoJobs :
    Counted ["j3"] (machine.run (create twoJobs "default") [.enqueueJobs ["j1", "j2"]]).batch
      (addJobs "b" ["j3"] (machine.run (create twoJobs "default")
        [.enqueueJobs ["j1", "j2"]]).batch).2 :=
  counted_of_legal twoJobs "default" "b" _ (by decide) (by decide) ⟨rfl, rfl⟩ (by decide)

/-- **When `AddJobs` counts what it adds**, for every open batch and every list: exactly when
the list has no repetitions, none of its IDs is a member, and the counter was not already
ahead of the members. The last condition is idle when there is no member to complete. -/
theorem addJobs_counts_iff (bid : String) (ids : List String) (b : Batch) (hopen : Open b) :
    (addJobs bid ids b).1 = .ok () ∧
      (Counted ids b (addJobs bid ids b).2 ↔
        ids.Nodup ∧ Disjoint ids.toFinset b.jobs ∧
          (b.jobs ∪ ids.toFinset = ∅ ∨ b.progress.pending ≤ b.jobs.card)) := by
  rw [hopen.addJobs_eq]
  refine ⟨rfl, ?_⟩
  constructor
  · rintro ⟨hpending, -, hconcludes⟩
    have hlen : ids.length = (ids.toFinset \ b.jobs).card := by
      simp only [grown] at hpending
      omega
    obtain ⟨hnodup, hdisj⟩ := (length_eq_card_sdiff_iff ids b.jobs).mp hlen
    refine ⟨hnodup, hdisj, ?_⟩
    by_cases hempty : b.jobs ∪ ids.toFinset = ∅
    · exact Or.inl hempty
    · right
      -- complete every member: what is pending in the end is zero, and at least the surplus
      obtain ⟨cs, hcs⟩ := exists_exhausts (grown ids b).jobs
      have hcard := hcs.length_eq
      have hne : cs ≠ [] := by
        rintro rfl
        exact hempty (Finset.card_eq_zero.mp hcard.symm)
      have hzero := (hconcludes cs hcs hne).pending
      have hle := pending_le_completeAll cs (grown ids b)
      rw [hzero, hcard, card_grown hnodup hdisj] at hle
      simp only [grown] at hle
      omega
  · rintro ⟨hnodup, hdisj, hcounter⟩
    exact counted_of_fresh hopen hnodup hdisj hcounter

/-- The batch of `twoJobs` once its jobs are enqueued. -/
def crew : Batch :=
  batchEnqueueJobs twoJobs.jobs (storeBatchState (buildBatchState twoJobs "default"))

theorem open_crew : Open crew := ⟨rfl, rfl⟩

def doubled : Batch := (addJobs "b" ["j3"] (addJobs "b" ["j3"] crew).2).2

/-- The completions of the three members of `doubled`. -/
def doubledDone : List Completion :=
  [⟨"j1", .success, "t1"⟩, ⟨"j2", .success, "t2"⟩, ⟨"j3", .success, "t3"⟩]

/-- **A repeated call is counted twice.** The second call succeeds and adds no member, but
`pending` and `total` grow by one. With all three members completed one job is still
pending, and no callback has been pushed. -/
theorem repeated_call_never_concludes :
    Open (addJobs "b" ["j3"] crew).2 ∧
      (addJobs "b" ["j3"] (addJobs "b" ["j3"] crew).2).1.toBool = true ∧
      (["j3"].toFinset \ (addJobs "b" ["j3"] crew).2.jobs).card = 0 ∧
      (addJobs "b" ["j3"] crew).2.progress.pending = 3 ∧ doubled.progress.pending = 4 ∧
      (addJobs "b" ["j3"] crew).2.progress.total = 3 ∧ doubled.progress.total = 4 ∧
      Exhausts doubledDone doubled.jobs ∧ (completeAll doubledDone doubled).jobs = ∅ ∧
      (completeAll doubledDone doubled).progress.pending = 1 ∧
      (completeAll doubledDone doubled).progress.completeFired = false ∧
      (announced doubledDone doubled).length = 0 := by
  refine ⟨⟨by decide, by decide⟩, by decide, by decide, by decide, by decide, by decide,
    by decide, ⟨by decide, by decide, by decide⟩, by decide, by decide, by decide, by decide⟩

theorem new_ids_counted :
    Open crew ∧ (addJobs "b" ["j3", "j4"] crew).1 = .ok () ∧
      Counted ["j3", "j4"] crew (addJobs "b" ["j3", "j4"] crew).2 :=
  have h := addJobs_counts_iff "b" ["j3", "j4"] crew open_crew
  ⟨open_crew, h.1, h.2.mpr (by decide)⟩

end Batch

end Senna
