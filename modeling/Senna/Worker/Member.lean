import Senna.Batch.Accounting
import Senna.Worker.Outcome
import Senna.Worker.Result.Settle

/-!
# The members of a batch are counted once

A worker that finishes a member of a batch makes two notes of it, in different places and by
different commands. `batch_complete` takes the ID out of the jobs set of the batch and lowers
`pending`, and then `ack_job` or `move_to_dead_job` takes the payload out of the in-flight list.
The payload is the anchor: it stays in flight until the batch knows. Commands may fail or be
repeated, workers may crash between the two, and a job may be worked on by several workers at
once, of which some are late.

Here the system of `Worker.Client` runs together with one batch (`State`). A thread at
`updateBatchProgress` calls `batch_complete`. Everything else that happens to the batch is up to
the environment: links of children and their completions, callbacks, invalidation. `Counts` adds
up what the calls **for one job** do to the counters. Two things are shown of a member.

* No thread comes to `Ack` or `MoveToDead` before the ID is out of the jobs set
  (`World.Over`). The one step that makes a job over is the call of `batch_complete`
  (`over_step`), and that call removes the ID.
* At every time, `pending` was lowered for the job once, or not at all, and then there is a
  payload of it that is still to be worked on (`Counted`).

The scripts look at the jobs set before they count, so it does not matter how often they are
called and with what results. That the payload is still there has the condition of
`Worker.Conservation`: a payload that a recovery drops is never counted.

Workers use `completeJob`, `killJob` and `retryJobAt`. A retry without a delay is none of these:
it removes the job and does not count it (`Event.Delayed`).
-/

namespace Senna

open Redis

/-! ### The batch a job belongs to -/

section Jobs

variable {cj : Cjson} {s : World} {e : Event} {t : Thread} {id bid : String}

theorem durableJobPayload_batchID {job durable : Job} (h : durableJobPayload job = some durable) :
    durable.batchID = job.batchID := by
  obtain ⟨args, encrypted, rfl⟩ := durableJobPayload_eq h
  rfl

def Job.SameBatch (job job' : Job) : Prop := job.id = job'.id ∧ job.batchID = job'.batchID

/-- **A thread writes payloads of its job, for the batch of its job.** -/
theorem sameBatch_of_writes {j : Job} (hthread : e.thread = some t) (ht : t.Faithful)
    (hready : e.Ready) (hclient : s.FromClient e) (hwrites : e.Writes j) :
    t.stage ≠ .undecodable ∧ j.SameBatch t.job := by
  cases e with
  | sanitize t' =>
    cases hthread
    obtain rfl := hwrites
    exact ⟨(hready : t.stage = _) ▸ nofun, rfl, rfl⟩
  | interrupted t' job =>
    cases hthread
    exact ⟨(hready : t.stage = _) ▸ nofun, (durableJobPayload_id hwrites).1.trans hclient.1,
      (durableJobPayload_batchID hwrites).trans hclient.2.2⟩
  | mark t' =>
    cases hthread
    obtain ⟨op, job, hstage, hread, rfl⟩ := hwrites
    obtain ⟨j₀, -, hpayload, halike⟩ := ht.working (Or.inr (hstage ▸ nofun))
    have hsame := alike_of_unmarshalJob (hpayload ▸ hread)
    exact ⟨hstage ▸ nofun, hsame.id.symm.trans halike.id, hsame.batchID.symm.trans halike.batchID⟩
  | finish t' now =>
    cases hthread
    obtain ⟨retryAt, hstage, -, hnext⟩ | ⟨error, hstage, hdead⟩ := hwrites
    · obtain ⟨durable, hdurable, rfl⟩ := Option.map_eq_some_iff.mp hnext
      exact ⟨hstage ▸ nofun, (nextJob_id hnext).1, (durableJobPayload_batchID hdurable :)⟩
    · obtain ⟨durable, hdurable, rfl⟩ := Option.map_eq_some_iff.mp hdead
      exact ⟨hstage ▸ nofun, (deadJob_id hdead).1, (durableJobPayload_batchID hdurable :)⟩
  | enqueue job | enqueueAt job score => cases hthread
  | _ => exact hwrites.elim

theorem Thread.process_keeps (t : Thread) (job : Job) :
    (t.process job).worker = t.worker ∧ (t.process job).job.SameBatch job := by
  unfold Thread.process
  split
  · exact ⟨rfl, rfl, rfl⟩
  · unfold Thread.resume
    repeat' split
    all_goals exact ⟨rfl, rfl, rfl⟩

theorem sameBatch_of_new {v v' : View} {t' : Thread} (hnew : NewThread cj v v' e t')
    (hbooks : Books v.issued v.stock) (hclient : s.FromClient e) :
    (∃ k, ∃ j : Job, j.marshal ∈ v.stock.stored k ∧ t'.job.SameBatch j) ∨
      t'.stage = .undecodable ∨
      ∃ t, e.thread = some t ∧ t.stage ≠ .undecodable ∧ t'.worker = t.worker ∧
        t'.job.SameBatch t.job := by
  cases hnew with
  | run he hp hheld hread hnone | claimed he hp hheld hread hsome =>
    obtain ⟨rfl, j, hj⟩ := hbooks.fetched hp hheld
    obtain rfl := hj.payload
    have halike := alike_of_unmarshalJob hread
    exact Or.inl ⟨_, j, hp, halike.id.symm, halike.batchID.symm⟩
  | undecodable he hp hheld hread => exact Or.inr (Or.inl rfl)
  | @trusted t hstage htrust =>
    obtain ⟨hworker, hsame⟩ := t.process_keeps { t.job with raw := t.payload }
    exact Or.inr (Or.inr ⟨t, rfl, hstage ▸ nofun, hworker, hsame⟩)
  | @handled t hstage job op =>
    refine Or.inr (Or.inr ⟨t, rfl, hstage ▸ nofun, rfl, ?_⟩)
    cases op <;> exact ⟨hclient.1, hclient.2.2⟩
  | @sanitized t hstage | @marked t op p' hstage | @typed t hstage | @untyped t hstage
  | @distrusted t hstage | @unmarked t op hstage | @progressed t op hstage
  | @calledBack t op hstage =>
    exact Or.inr (Or.inr ⟨t, rfl, hstage ▸ nofun, rfl, rfl, rfl⟩)

/-- Every version of the job, in the keyspace or in memory, names the batch. -/
structure World.Linked (s : World) (bid id : String) : Prop where
  payloads : ∀ k, ∀ j : Job, j.marshal ∈ (stock s.db).stored k → j.id = id → j.batchID = bid
  threads : ∀ t ∈ s.threads, t.stage ≠ .undecodable → t.job.id = id → t.job.batchID = bid

namespace World.Linked

/-- **The batch of a job does not change.** Whoever enqueues it says which one it is. -/
theorem step (h : s.Linked bid id) (hsound : Sound s) (he : (clientMachine cj).permits s e)
    (hnew : ∀ j, e.thread = none → e.Writes j → j.id = id → j.batchID = bid) :
    (s.step cj e).Linked bid id where
  payloads := by
    intro k j hj hjid
    obtain ⟨k', -, hj'⟩ | ⟨j', hwrites, hsame, hwriter⟩ :=
      origin_of_moves (moves_step hsound.typed he.1).2 hsound.books he.2 hj
    · exact h.payloads k' j hj' hjid
    · have halike := alike_of_marshal_eq hsame
      have hid : j'.id = id := halike.id.symm.trans hjid
      rw [halike.batchID]
      obtain hnone | ⟨t, p, k', hthread, -⟩ := hwriter
      · exact hnew j' hnone hwrites hid
      · have ht : t ∈ s.threads := he.1.1 t hthread
        obtain ⟨hstage, htid, htbatch⟩ :=
          sameBatch_of_writes hthread (hsound.threads t ht) he.1.2.1 he.2 hwrites
        exact htbatch.trans (h.threads t ht hstage (htid.symm.trans hid))
  threads := by
    intro t' ht' hstage hjid
    obtain hold | hnew := threads_step hsound.typed he.1 ht'
    · exact h.threads t' hold hstage hjid
    · obtain ⟨k, j, hj, hsame⟩ | hundecodable | ⟨t, hthread, ht, -, hsame⟩ :=
        sameBatch_of_new hnew hsound.books he.2
      · exact hsame.2.trans (h.payloads k j hj (hsame.1.symm.trans hjid))
      · exact absurd hundecodable hstage
      · exact hsame.2.trans (h.threads t (he.1.1 t hthread) ht (hsame.1.symm.trans hjid))

theorem fresh (h : Deliveries s) (hid : id ∉ s.issued) : s.Linked bid id where
  payloads := by
    intro k j hj hjid
    obtain ⟨j', hj'⟩ := h.sound.books.entry k _ hj
    have hsame : j'.id = id := (hj'.id_eq (payloadID_marshal j)).trans hjid
    exact absurd (hsame ▸ hj'.issued) hid
  threads := by
    intro t ht hstage hjid
    exact absurd (hjid ▸ (h.threads t ht).issued hstage) hid

end World.Linked

end Jobs

/-! ### Jobs that are over -/

def Event.Delayed : Event → Prop
  | .finish t _ => ∀ retryAt, t.stage = .progressed (.retry retryAt) → retryAt.isZero = false
  | _ => True

def Stage.Past (stage : Stage) : Prop :=
  ∃ op : Operation, op.result.removes = true ∧ (stage = .progressed op ∨ stage = .calledBack op)

/-- Somebody is about to remove the job, or has done so: it was acknowledged, or it is dead. -/
def World.Over (s : World) (id : String) : Prop :=
  (∃ t ∈ s.threads, t.stage.Past ∧ t.job.id = id) ∨ id ∈ s.acked ∨
    ∃ j : Job, j.marshal ∈ (stock s.db).stored .dead ∧ j.id = id

section Over

variable {cj : Cjson} {raises : Prop} {v v' : View} {s : World} {e : Event} {id : String}

theorem not_past_finalize (t : Thread) (job : Job) (op : Operation) :
    ¬ (t.finalize job op).stage.Past := by
  rintro ⟨op', -, h⟩
  unfold Thread.finalize at h
  dsimp only at h
  split at h <;> obtain h | h := h <;> cases h

theorem not_past_process (t : Thread) (job : Job) : ¬ (t.process job).stage.Past := by
  unfold Thread.process
  split
  · rintro ⟨op, -, h | h⟩ <;> cases h
  · unfold Thread.resume
    repeat' split
    all_goals exact not_past_finalize _ _ _

theorem past_of_new {t' : Thread} (hnew : NewThread cj v v' e t') (hpast : t'.stage.Past) :
    ∃ t op, op.result.removes = true ∧ t.job = t'.job ∧
      (e = .progress t ∧ t.stage = .recording op ∨ e = .callback t ∧ t.stage = .progressed op) := by
  cases hnew with
  | @progressed t op' hstage =>
    obtain ⟨op, hop, h | h⟩ := hpast <;> cases h
    exact ⟨t, op', hop, rfl, Or.inl ⟨rfl, hstage⟩⟩
  | @calledBack t op' hstage =>
    obtain ⟨op, hop, h | h⟩ := hpast <;> cases h
    exact ⟨t, op', hop, rfl, Or.inr ⟨rfl, hstage⟩⟩
  | trusted => exact absurd hpast (not_past_process _ _)
  | handled => exact absurd hpast (not_past_finalize _ _ _)
  | _ => obtain ⟨op, -, h | h⟩ := hpast <;> cases h

theorem acked_of_moves (hmoves : Moves cj raises v e v') (hdelayed : e.Delayed)
    (hacked : id ∈ v'.acked) :
    id ∈ v.acked ∨ ∃ t, e.thread = some t ∧ t.stage.Past ∧ t.job.id = id := by
  cases hmoves with
  | @ack t now hstage hp =>
    obtain rfl | hold := List.mem_cons.mp hacked
    · obtain hstage | ⟨retryAt, hstage, hzero⟩ := hstage
      · exact Or.inr ⟨t, rfl, ⟨.complete, rfl, Or.inr hstage⟩, rfl⟩
      · rw [hdelayed retryAt hstage] at hzero
        cases hzero
    · exact Or.inl hold
  | _ => exact Or.inl hacked

theorem Stock.stored_foldl {f : Stock → String → Stock} {k : Key}
    (hf : ∀ st p, (f st p).stored k = st.stored k) (ps : List String) (st : Stock) :
    (ps.foldl f st).stored k = st.stored k := by
  induction ps generalizing st with
  | nil => rfl
  | cons p ps ih => rw [List.foldl_cons, ih, hf]

theorem dead_of_moves (hmoves : Moves cj raises v e v') {q : String}
    (hq : q ∈ v'.stock.stored .dead) :
    q ∈ v.stock.stored .dead ∨
      ∃ t, ∃ j : Job, e.thread = some t ∧ t.stage.Past ∧ t.job.id = j.id ∧ q = j.marshal := by
  have hput {st : Stock} {k : Key} {p : String} (h : q ∈ (st.put k p).stored .dead)
      (hk : .dead ≠ k) : q ∈ st.stored .dead := by
    rwa [Stock.stored_put, if_neg hk] at h
  cases hmoves with
  | @bury t now error dead hstage hdead hp =>
    obtain h | h := Stock.mem_put hq
    · exact Or.inl (Stock.mem_take (Stock.mem_drop h))
    · exact Or.inr ⟨t, dead, rfl, ⟨.kill error, rfl, Or.inr hstage⟩, (deadJob_id hdead).1.symm, h⟩
  | quiet | found => exact Or.inl hq
  | enqueue | push => exact Or.inl (hput hq nofun)
  | enqueueAt => exact Or.inl (Stock.mem_drop (hput hq nofun))
  | @pushAt k hk =>
    have hne : Key.dead ≠ k := by obtain rfl | rfl := hk <;> nofun
    exact Or.inl (Stock.mem_drop (hput hq hne))
  | claim | strand | sanitize | requeue => exact Or.inl (Stock.mem_take (hput hq nofun))
  | lose | discard => exact Or.inl (Stock.mem_take hq)
  | @ack t now hstage hp =>
    have h : q ∈ (v.stock.take (.inFlight t.worker) (jobPayload t.job)).stored .dead := hq
    exact Or.inl (Stock.mem_take h)
  | @replace t op p' k hstage hp' hk hp =>
    have hne : Key.dead ≠ k := by obtain rfl | rfl := hk <;> nofun
    exact Or.inl (Stock.mem_take (hput hq hne))
  | retry => exact Or.inl (Stock.mem_take (Stock.mem_drop (hput hq nofun)))
  | @promote k hk now items hitems =>
    have hne : Key.dead ≠ k := by obtain rfl | rfl := hk <;> nofun
    refine Or.inl ?_
    rwa [Stock.stored_foldl fun st p => ?_] at hq
    rw [Stock.promote, Stock.stored_route _ _ _ fun _ => Key.noConfusion, Stock.stored_drop,
      if_neg hne]
  | @reap worker ps hps =>
    refine Or.inl ?_
    rwa [Stock.stored_foldl fun st p => ?_] at hq
    rw [Stock.recover, Stock.stored_route _ _ _ fun _ => Key.noConfusion, Stock.stored_take,
      if_neg nofun]

/-- **A job is over only by the call of `batch_complete`.** -/
theorem over_step (hsound : Sound s) (he : (clientMachine cj).permits s e) (hdelayed : e.Delayed)
    (hover : (s.step cj e).Over id) :
    s.Over id ∨ ∃ t op, e = .progress t ∧ t.stage = .recording op ∧ t.job.id = id ∧
      op.result.removes = true := by
  have hmoves := (@moves_step cj _ _ hsound.typed he.1).2
  have hthread {t : Thread} (ht : e.thread = some t) (hpast : t.stage.Past) (hid : t.job.id = id) :
      s.Over id := Or.inl ⟨t, he.1.1 t ht, hpast, hid⟩
  obtain ⟨t', ht', hpast, hid⟩ | hacked | ⟨j, hj, hid⟩ := hover
  · obtain hold | hnew := threads_step hsound.typed he.1 ht'
    · exact Or.inl (Or.inl ⟨t', hold, hpast, hid⟩)
    · obtain ⟨t, op, hop, hjob, ⟨rfl, hstage⟩ | ⟨rfl, hstage⟩⟩ := past_of_new hnew hpast
      · exact Or.inr ⟨t, op, rfl, hstage, hjob ▸ hid, hop⟩
      · exact Or.inl (hthread rfl ⟨op, hop, Or.inl hstage⟩ (hjob ▸ hid))
  · obtain hold | ⟨t, ht, hpast, hid⟩ := acked_of_moves hmoves hdelayed hacked
    · exact Or.inl (Or.inr (Or.inl hold))
    · exact Or.inl (hthread ht hpast hid)
  · obtain hold | ⟨t, j', ht, hpast, htid, hsame⟩ := dead_of_moves hmoves hj
    · exact Or.inl (Or.inr (Or.inr ⟨j, hold, hid⟩))
    · exact Or.inl (hthread ht hpast (htid.trans ((alike_of_marshal_eq hsame).id.symm.trans hid)))

end Over

/-! ### The calls of the batch scripts -/

namespace Member

open Batch

/-- By how much calls have lowered `pending` and raised `successes` and `failures`. -/
structure Counts where
  pending : ℤ
  successes : ℤ
  failures : ℤ
  deriving DecidableEq

def Counts.zero : Counts := ⟨0, 0, 0⟩

def Counts.add (c : Counts) (before after : Progress) : Counts where
  pending := c.pending + (before.pending - after.pending)
  successes := c.successes + (after.successes - before.successes)
  failures := c.failures + (after.failures - before.failures)

theorem Counts.add_self (c : Counts) (p : Progress) : c.add p p = c := by
  simp [Counts.add]

/-- What has been counted for a job that is or was in the jobs set. -/
structure Tallied (b : Batch) (id : String) (c : Counts) : Prop where
  /-- `pending` was lowered once when the job was taken out. -/
  pending : c.pending = if id ∈ b.jobs then 0 else 1
  successes : c.successes = 0 ∨ c.successes = 1 ∧ id ∉ b.jobs
  failures : c.failures = 0 ∨ c.failures = 1 ∧ id ∈ b.failed

namespace Tallied

variable {l : Ledger} {id : String} {c : Counts}

theorem fresh {b : Batch} (hid : id ∈ b.jobs) : Tallied b id .zero :=
  ⟨(if_pos hid).symm, Or.inl rfl, Or.inl rfl⟩

theorem of_kept {b b' : Batch} (h : Tallied b id c) (hjobs : id ∈ b'.jobs ↔ id ∈ b.jobs)
    (hfailed : id ∈ b.failed → id ∈ b'.failed) : Tallied b' id c where
  pending := by rw [h.pending]; simp only [hjobs]
  successes := h.successes.imp_right fun hone => ⟨hone.1, fun hid => hone.2 (hjobs.mp hid)⟩
  failures := h.failures.imp_right fun hone => ⟨hone.1, hfailed hone.2⟩

/-- **A completion of the job counts what it should.** The second one is refused. -/
theorem complete (h : Tallied l.batch id c) (haccounting : Accounting l) {result : Result}
    (hresult : result ≠ .emptySuccess) (now : String) :
    Tallied (l.step (.complete id result now)).batch id
      (c.add l.batch.progress (l.step (.complete id result now)).batch.progress) := by
  by_cases hid : id ∈ l.batch.jobs
  swap
  · rw [Ledger.step_refused now fun hacc => hid ((accepts_member hresult).mp hacc), Counts.add_self]
    exact h
  have hacc : Accepts id result l.batch := (accepts_member hresult).mpr hid
  have hnone : c.successes = 0 := h.successes.resolve_right fun hone => hone.2 hid
  rw [Ledger.step_complete now hacc]
  constructor
  case pending =>
    change c.pending + (l.batch.progress.pending - (progressAfter id result l.batch).pending) =
      if id ∈ (if result.removes then l.batch.jobs.erase id else l.batch.jobs) then 0 else 1
    rw [haccounting.pending_progressAfter hacc, h.pending, if_pos hid]
    cases result.removes with
    | true =>
      rw [if_pos rfl, if_pos rfl, if_neg (Finset.notMem_erase id _)]
      omega
    | false => simp [hid]
  case successes =>
    change c.successes + (l.batch.progress.successes + (if result = .success then 1 else 0) -
        l.batch.progress.successes) = 0 ∨ _
    rw [hnone]
    by_cases hsuccess : result = .success
    · subst hsuccess
      refine Or.inr ⟨?_, Finset.notMem_erase id _⟩
      change c.successes + (l.batch.progress.successes + 1 - l.batch.progress.successes) = 1
      omega
    · refine Or.inl ?_
      rw [if_neg hsuccess]
      omega
  case failures =>
    change c.failures + (l.batch.progress.failures +
        (if addFailedJob id result l.batch then 1 else 0) - l.batch.progress.failures) = 0 ∨
      c.failures + (l.batch.progress.failures +
        (if addFailedJob id result l.batch then 1 else 0) - l.batch.progress.failures) = 1 ∧
        id ∈ (if addFailedJob id result l.batch then insert id l.batch.failed else l.batch.failed)
    by_cases hadd : addFailedJob id result l.batch = true
    · -- The job enters the failed set, so it was not counted before.
      have hnew : id ∉ l.batch.failed := by
        simp only [addFailedJob, Bool.and_eq_true, decide_eq_true_eq] at hadd
        exact hadd.2
      have hzero : c.failures = 0 := h.failures.resolve_right fun hone => hnew hone.2
      rw [if_pos hadd, if_pos hadd]
      refine Or.inr ⟨?_, Finset.mem_insert_self id _⟩
      omega
    · rw [if_neg hadd, if_neg hadd]
      obtain hzero | ⟨hone, hfailed⟩ := h.failures
      · exact Or.inl (by omega)
      · exact Or.inr ⟨by omega, hfailed⟩

end Tallied

def named : Batch.Call → List String
  | .enqueueJobs ids | .addJobs ids => ids
  | .addChild id | .removeChild id | .complete id _ _ => [id]
  | .callbackComplete _ | .invalidate => []

theorem kept_of_not_named {l : Ledger} {call : Batch.Call} {id : String} (hid : id ∉ named call) :
    (id ∈ (l.step call).batch.jobs ↔ id ∈ l.batch.jobs) ∧
      (id ∈ l.batch.failed → id ∈ (l.step call).batch.failed) := by
  cases call with
  | enqueueJobs ids =>
    have hids : id ∉ ids := hid
    exact ⟨by simp [Ledger.step, Call.apply, batchEnqueueJobs, hids], fun h => h⟩
  | addJobs ids =>
    have hids : id ∉ ids := hid
    simp only [Ledger.step, Call.apply, batchAddJobs]
    repeat' split
    all_goals exact ⟨by simp [hids], fun h => h⟩
  | addChild childID =>
    have hne : id ≠ childID := List.ne_of_not_mem_cons hid
    simp only [Ledger.step, Call.apply, batchAddChild]
    repeat' split
    all_goals exact ⟨by simp [hne], fun h => h⟩
  | removeChild childID =>
    have hne : id ≠ childID := List.ne_of_not_mem_cons hid
    simp only [Ledger.step, Call.apply, batchRemoveChild]
    split
    all_goals exact ⟨by simp [hne], fun h => h⟩
  | complete jobID result now =>
    have hne : id ≠ jobID := List.ne_of_not_mem_cons hid
    by_cases hacc : Accepts jobID result l.batch
    · rw [Ledger.step_complete now hacc]
      refine ⟨?_, fun h => ?_⟩
      · change id ∈ (if result.removes then l.batch.jobs.erase jobID else l.batch.jobs) ↔ _
        split <;> simp [hne]
      · change id ∈ (if addFailedJob jobID result l.batch then insert jobID l.batch.failed
          else l.batch.failed)
        split
        · exact Finset.mem_insert_of_mem h
        · exact h
    · rw [Ledger.step_refused now hacc]
      exact ⟨Iff.rfl, fun h => h⟩
  | callbackComplete jobID =>
    simp only [Ledger.step, Call.apply, batchCallbackComplete]
    split <;> exact ⟨Iff.rfl, fun h => h⟩
  | invalidate => exact ⟨Iff.rfl, fun h => h⟩

/-! ### The system with one batch -/

/-- The system, the batch with its history, what was counted for each job, and the jobs that were
put into the batch. -/
structure State where
  world : World
  ledger : Ledger
  counted : String → Counts
  members : List String

def State.init (r : Request) (callbackQueue : String) : State :=
  ⟨.init, create r callbackQueue, fun _ => .zero, []⟩

/-- One `LPUSH` of a batch script. -/
def pushJob (s : World) (job : Job) : World :=
  { s with
    db := ((lpush (Key.queue job.queue) job.marshal).run s.db).db
    issued := job.id :: s.issued }

/-- A step of the system or of the batch. -/
inductive Event where
  /-- A step of the system. If it is `updateBatchProgress`, the batch is told, at a time. -/
  | work (e : Senna.Event) (now : String)
  /-- A chunk of the initial jobs, by `batch_enqueue_jobs`. -/
  | enqueueJobs (jobs : List Job)
  /-- More jobs, by `batch_add_jobs`. -/
  | addJobs (jobs : List Job)
  /-- Another call, of a child batch, a callback or an administrator. -/
  | call (c : Batch.Call)

/-- The job and the result that a step calls `batch_complete` of the batch with. -/
def completion (bid : String) : Senna.Event → Option (String × Result)
  | .progress t =>
    match t.stage with
    | .recording op =>
      if t.job.batchID ≠ "" ∧ t.job.batchID = bid then some (t.job.id, op.result) else none
    | _ => none
  | _ => none

def State.enter (s : State) (jobs : List Job) : State :=
  { s with
    world := jobs.foldl pushJob s.world
    members := jobs.map Job.id ++ s.members }

def State.call (s : State) (c : Batch.Call) : State := { s with ledger := s.ledger.step c }

/-- The call of `batch_complete` for a job, which is counted for it. -/
def State.complete (s : State) (jobID : String) (result : Result) (now : String) : State :=
  let l := s.ledger.step (.complete jobID result now)
  { s with
    ledger := l
    counted := Function.update s.counted jobID
      ((s.counted jobID).add s.ledger.batch.progress l.batch.progress) }

def State.step (cj : Cjson) (bid : String) (s : State) : Event → State
  | .work e now =>
    let s' : State := { s with world := s.world.step cj e }
    match completion bid e with
    | some (jobID, result) => s'.complete jobID result now
    | none => s'
  | .enqueueJobs jobs => (s.call (.enqueueJobs (jobs.map Job.id))).enter jobs
  | .addJobs jobs =>
    match (batchAddJobs (jobs.map Job.id) s.ledger.batch).1 with
    | .success _ _ => (s.call (.addJobs (jobs.map Job.id))).enter jobs
    | _ => s.call (.addJobs (jobs.map Job.id))
  | .call c => s.call c

section Step

variable {cj : Cjson} {bid : String} {s : State} (e : Senna.Event) (now : String)

theorem world_work : (s.step cj bid (.work e now)).world = s.world.step cj e := by
  simp only [State.step]
  split <;> rfl

theorem members_work : (s.step cj bid (.work e now)).members = s.members := by
  simp only [State.step]
  split <;> rfl

end Step

def Joins (bid : String) (s : World) (job : Job) : Prop :=
  (job.id ≠ "" ∧ job.id ∉ s.issued) ∧ (job.batchID ≠ "" ∧ job.batchID = bid) ∧
    job.finalization = none ∧ job.raw = ""

def State.Permits (cj : Cjson) (bid : String) (s : State) : Event → Prop
  | .work e _ => (clientMachine cj).permits s.world e ∧ e.Delayed
  | .enqueueJobs jobs =>
    (∀ job ∈ jobs, Joins bid s.world job) ∧ s.ledger.Permits (.enqueueJobs (jobs.map Job.id))
  | .addJobs jobs =>
    (∀ job ∈ jobs, Joins bid s.world job) ∧ s.ledger.Permits (.addJobs (jobs.map Job.id))
  | .call c =>
    match c with
    | .enqueueJobs _ | .addJobs _ => False
    | c => ∀ id ∈ named c, id ∉ s.world.issued

def machine (cj : Cjson) (bid : String) : Machine State Event where
  permits := State.Permits cj bid
  step := State.step cj bid

/-! ### Jobs that enter -/

section Enter

variable {cj : Cjson} {s s' : World} {jobs : List Job} {bid id : String}

/-- Two states that differ at most in keys that hold no payload. -/
structure Same (s s' : World) : Prop where
  typed : WellTyped s.db
  typed' : WellTyped s'.db
  view : s.view = s'.view
  threads : s.threads = s'.threads

namespace Same

variable (h : Same s s')

include h

theorem push (cj : Cjson) (job : Job) : Same (pushJob s job) (s'.step cj (.enqueue job)) := by
  have hrun := run_lpush (h.typed (.queue job.queue)) job.marshal
  have hstock : stock (pushJob s job).db = (stock s.db).put (.queue job.queue) job.marshal := by
    rw [pushJob, hrun]
    exact stock_putList s.db rfl _
  obtain ⟨htyped', hstock'⟩ := stock_enqueueNow h.typed' job.queue job.marshal
  refine ⟨?_, htyped', ?_, h.threads⟩
  · rw [pushJob, hrun]
    exact h.typed.putList (k := .queue job.queue) rfl _
  · change View.mk (stock (pushJob s job).db) (job.id :: s.issued) s.acked s.marked =
      View.mk (stock ((enqueueNow job.queue job.marshal).run s'.db).db) (job.id :: s'.issued)
        s'.acked s'.marked
    rw [hstock, hstock']
    exact congrArg (fun v : View => View.mk (v.stock.put (.queue job.queue) job.marshal)
      (job.id :: v.issued) v.acked v.marked) h.view

theorem foldl_push (cj : Cjson) (jobs : List Job) :
    Same (jobs.foldl pushJob s) ((clientMachine cj).run s' (jobs.map .enqueue)) := by
  induction jobs generalizing s s' with
  | nil => exact h
  | cons job jobs ih => exact ih (h.push cj job)

theorem stock_eq : stock s.db = stock s'.db := congrArg View.stock h.view

theorem issued_eq : s.issued = s'.issued := congrArg View.issued h.view

theorem acked_eq : s.acked = s'.acked := congrArg View.acked h.view

theorem deliveries (hs' : Deliveries s') : Deliveries s where
  sound :=
    { typed := h.typed
      books := by rw [h.issued_eq, h.stock_eq]; exact hs'.sound.books
      threads := by rw [h.threads]; exact hs'.sound.threads }
  decodes := by rw [h.stock_eq]; exact hs'.decodes
  threads := by rw [h.threads, h.issued_eq, h.stock_eq]; exact hs'.threads

theorem linked (hs' : s'.Linked bid id) : s.Linked bid id where
  payloads := by rw [h.stock_eq]; exact hs'.payloads
  threads := by rw [h.threads]; exact hs'.threads

theorem isOver (hs : s.Over id) : s'.Over id := by
  unfold World.Over at hs ⊢
  rwa [← h.threads, ← h.acked_eq, ← h.stock_eq]

theorem kept (hs' : Kept s' id) : Kept s id where
  once := by rw [h.issued_eq, h.acked_eq, h.stock_eq]; exact hs'.once
  gone := by rw [h.acked_eq, h.stock_eq]; exact hs'.gone
  issued := by rw [h.issued_eq, h.acked_eq]; exact hs'.issued
  readable := by rw [h.stock_eq]; exact hs'.readable

end Same

theorem records_foldl : (jobs.foldl pushJob s).acked = s.acked ∧
    ∀ id, id ∈ (jobs.foldl pushJob s).issued ↔ id ∈ jobs.map Job.id ∨ id ∈ s.issued := by
  induction jobs generalizing s with
  | nil => simp
  | cons job jobs ih =>
    obtain ⟨hacked, hissued⟩ := @ih (pushJob s job)
    refine ⟨hacked, fun id => ?_⟩
    rw [List.foldl_cons, hissued]
    simp [pushJob, or_left_comm, or_assoc]

/-- What entering jobs leave of a job. -/
structure Entered (bid : String) (jobs : List Job) (s s' : World) : Prop where
  deliveries : Deliveries s'
  threads : s'.threads = s.threads
  gone : ∀ id ∈ s.issued, (stock s.db).copies id = 0 → (stock s'.db).copies id = 0
  linked : ∀ id, s.Linked bid id → s'.Linked bid id
  isOver : ∀ id, s'.Over id → s.Over id
  kept : ∀ id, (∀ job ∈ jobs, job.id = id → job.Readable) → Kept s id → Kept s' id

theorem entered_run (cj : Cjson) (h : Deliveries s) (hjoins : ∀ job ∈ jobs, Joins bid s job)
    (hnodup : (jobs.map Job.id).Nodup) :
    Entered bid jobs s ((clientMachine cj).run s (jobs.map .enqueue)) := by
  induction jobs generalizing s with
  | nil => exact ⟨h, rfl, fun _ _ hg => hg, fun _ hl => hl, fun _ ho => ho, fun _ _ hk => hk⟩
  | cons job jobs ih =>
    have hmem : job ∈ job :: jobs := List.mem_cons_self
    obtain ⟨hnew, ⟨-, hbatch⟩, hplain⟩ := hjoins job hmem
    have hpermits : (clientMachine cj).permits s (.enqueue job) :=
      ⟨World.permits_of_thread_eq_none rfl trivial hplain, hnew⟩
    obtain ⟨hfirst, hrest⟩ := List.nodup_cons.mp hnodup
    -- The others are still new.
    have hjoins' : ∀ j ∈ jobs, Joins bid (s.step cj (.enqueue job)) j := by
      intro j hj
      obtain ⟨⟨hne, hissued⟩, hrest⟩ := hjoins j (List.mem_cons_of_mem _ hj)
      refine ⟨⟨hne, fun hold => ?_⟩, hrest⟩
      obtain heq | hold := List.mem_cons.mp hold
      · exact hfirst (heq ▸ List.mem_map_of_mem hj)
      · exact hissued hold
    have hlater := ih (h.step hpermits) hjoins' hrest
    refine ⟨hlater.deliveries, hlater.threads, fun id hid hg => ?_, fun id hl => ?_,
      fun id ho => ?_, fun id hreadable hk => ?_⟩
    · have hevolves := (h.sound.advance hpermits).evolves id hid
      rw [show s.view.stock.copies id = 0 from hg] at hevolves
      exact hlater.gone id (List.mem_cons_of_mem _ hid) hevolves.zero
    · refine hlater.linked id (hl.step h.sound hpermits ?_)
      rintro j - hj -
      exact (show j = job from hj) ▸ hbatch
    · obtain hold | ⟨t, op, he, -⟩ := over_step h.sound hpermits trivial (hlater.isOver id ho)
      · exact hold
      · cases he
    · refine hlater.kept id (fun j hj => hreadable j (List.mem_cons_of_mem _ hj)) ?_
      refine hk.step h.sound hpermits ⟨?_, fun _ => Senna.Event.noConfusion⟩
      rintro j hj hid
      obtain rfl : j = job := hj
      exact hreadable j hmem hid

/-- **Jobs that enter a batch are as any others.** -/
theorem entered (h : Deliveries s) (hjoins : ∀ job ∈ jobs, Joins bid s job)
    (hnodup : (jobs.map Job.id).Nodup) : Entered bid jobs s (jobs.foldl pushJob s) := by
  have hsame : Same (jobs.foldl pushJob s) ((clientMachine .plain).run s (jobs.map .enqueue)) :=
    Same.foldl_push ⟨h.sound.typed, h.sound.typed, rfl, rfl⟩ .plain jobs
  have hrun := entered_run .plain h hjoins hnodup
  exact ⟨hsame.deliveries hrun.deliveries, hsame.threads.trans hrun.threads,
    fun id hid hg => hsame.stock_eq ▸ hrun.gone id hid hg,
    fun id hl => hsame.linked (hrun.linked id hl),
    fun id ho => hrun.isOver id (hsame.isOver ho),
    fun id hreadable hk => hsame.kept (hrun.kept id hreadable hk)⟩

end Enter

/-! ### The invariant -/

/-- What is known of a member. -/
structure Known (bid : String) (s : State) (id : String) : Prop where
  bid_ne : bid ≠ ""
  issued : id ∈ s.world.issued
  linked : s.world.Linked bid id
  /-- **The anchor outlives the bookkeeping.** -/
  settled : s.world.Over id → id ∉ s.ledger.batch.jobs
  tallied : Tallied s.ledger.batch id (s.counted id)

/-- What every run keeps. -/
structure Invariant (bid : String) (s : State) : Prop where
  deliveries : Deliveries s.world
  accounting : Accounting s.ledger
  acked : ∀ id ∈ s.world.acked, id ∈ s.world.issued
  /-- Only jobs that were enqueued are counted. -/
  uncounted : ∀ id ∉ s.world.issued, s.counted id = .zero
  known : ∀ id ∈ s.members, Known bid s id

variable {e : Senna.Event}

theorem completion_eq_some {bid jobID : String} {result : Result}
    (h : completion bid e = some (jobID, result)) :
    ∃ t op, e = .progress t ∧ t.stage = .recording op ∧ t.job.id = jobID ∧
      result = Operation.result op := by
  cases e with
  | progress t =>
    simp only [completion] at h
    split at h
    · next op hstage =>
      split at h
      · cases h
        exact ⟨t, op, rfl, hstage, rfl, rfl⟩
      · cases h
    · cases h
  | _ => cases h

theorem completion_result {bid jobID : String} {result : Result}
    (h : completion bid e = some (jobID, result)) : result ≠ .emptySuccess := by
  obtain ⟨t, op, -, -, -, rfl⟩ := completion_eq_some h
  cases op <;> nofun

theorem completion_progress {bid : String} {t : Thread} {op : Operation}
    (hstage : t.stage = .recording op) (hbatch : t.job.batchID = bid) (hbid : bid ≠ "") :
    completion bid (.progress t) = some (t.job.id, op.result) := by
  simp only [completion, hstage]
  rw [if_pos ⟨hbatch ▸ hbid, hbatch⟩]

theorem mem_jobs_complete {l : Ledger} {id jobID now : String} {result : Result}
    (h : id ∈ (l.step (.complete jobID result now)).batch.jobs) :
    id ∈ l.batch.jobs ∧ (result.removes = true → id ≠ jobID) := by
  by_cases hacc : Accepts jobID result l.batch
  · rw [Ledger.step_complete now hacc] at h
    change id ∈ (if result.removes then l.batch.jobs.erase jobID else l.batch.jobs) at h
    split at h
    · exact ⟨Finset.mem_of_mem_erase h, fun _ => Finset.ne_of_mem_erase h⟩
    · next hkeep => exact ⟨h, fun hremoves => absurd hremoves hkeep⟩
  · rw [Ledger.step_refused now hacc] at h
    refine ⟨h, ?_⟩
    rintro hremoves rfl
    refine hacc ((accepts_member ?_).mpr h)
    rintro rfl
    cases hremoves

theorem jobs_batchAddJobs {ids : List String} {b : Batch} {total pending : ℤ}
    (h : (batchAddJobs ids b).1 = .success total pending) :
    (batchAddJobs ids b).2.jobs = b.jobs ∪ ids.toFinset := by
  unfold batchAddJobs at h ⊢
  split at h
  · cases h
  · split at h
    · cases h
    · next hinvalidated hfired =>
      rw [if_neg hinvalidated, if_neg hfired]

namespace Invariant

variable {cj : Cjson} {bid : String} {s : State}

theorem init (r : Request) (callbackQueue : String) : Invariant bid (.init r callbackQueue) where
  deliveries := .init
  accounting := .create r callbackQueue
  acked := fun _ h => absurd h List.not_mem_nil
  uncounted := fun _ _ => rfl
  known := fun _ h => absurd h List.not_mem_nil

variable (h : Invariant bid s)

include h

theorem issued_of_over {id : String} (hover : s.world.Over id) : id ∈ s.world.issued := by
  obtain ⟨t, ht, ⟨op, -, hstage⟩, rfl⟩ | hacked | ⟨j, hj, rfl⟩ := hover
  · refine (h.deliveries.threads t ht).issued ?_
    obtain hstage | hstage := hstage <;> exact hstage ▸ nofun
  · exact h.acked id hacked
  · obtain ⟨j', hj'⟩ := h.deliveries.sound.books.entry _ _ hj
    exact hj'.id_eq (payloadID_marshal j) ▸ hj'.issued

theorem call {c : Batch.Call} (hc : s.ledger.Permits c)
    (hother : ∀ id ∈ named c, id ∉ s.world.issued) : Invariant bid (s.call c) where
  deliveries := h.deliveries
  accounting := h.accounting.step hc
  acked := h.acked
  uncounted := h.uncounted
  known := by
    intro id hid
    have hknown := h.known id hid
    obtain ⟨hjobs, hfailed⟩ :=
      kept_of_not_named (l := s.ledger) fun hnamed => hother id hnamed hknown.issued
    exact
      { hknown with
        settled := fun hover hmem => hknown.settled hover (hjobs.mp hmem)
        tallied := hknown.tallied.of_kept hjobs hfailed }

theorem enter {jobs : List Job} (hjoins : ∀ job ∈ jobs, Joins bid s.world job)
    (hnodup : (jobs.map Job.id).Nodup) (hjobs : ∀ job ∈ jobs, job.id ∈ s.ledger.batch.jobs) :
    Invariant bid (s.enter jobs) := by
  have hentered : Entered bid jobs s.world (s.enter jobs).world :=
    entered h.deliveries hjoins hnodup
  obtain ⟨hacked, hissued⟩ := @records_foldl s.world jobs
  refine ⟨hentered.deliveries, h.accounting, fun id hid => ?_, fun id hid => ?_, fun id hid => ?_⟩
  · exact (hissued id).mpr (Or.inr (h.acked id (hacked ▸ hid)))
  · exact h.uncounted id fun hold => hid ((hissued id).mpr (Or.inr hold))
  · obtain hnew | hold := List.mem_append.mp hid
    · obtain ⟨job, hj, rfl⟩ := List.mem_map.mp hnew
      have hfresh := (hjoins job hj).1.2
      exact
        { bid_ne := (hjoins job hj).2.1.2 ▸ (hjoins job hj).2.1.1
          issued := (hissued _).mpr (Or.inl hnew)
          linked := hentered.linked _ (.fresh h.deliveries hfresh)
          settled := fun hover => absurd (h.issued_of_over (hentered.isOver _ hover)) hfresh
          tallied := by
            rw [show (s.enter jobs).counted job.id = .zero from h.uncounted _ hfresh]
            exact .fresh (hjobs job hj) }
    · have hknown := h.known id hold
      exact
        { hknown with
          issued := (hissued _).mpr (Or.inr hknown.issued)
          linked := hentered.linked id hknown.linked
          settled := fun hover => hknown.settled (hentered.isOver id hover) }

theorem known_work (he : (clientMachine cj).permits s.world e) (hdelayed : e.Delayed) (now : String)
    {id : String}
    (hid : id ∈ s.members) : Known bid (s.step cj bid (.work e now)) id := by
  have hknown := h.known id hid
  have hissued : id ∈ (s.world.step cj e).issued :=
    (h.deliveries.sound.advance he).issued id hknown.issued
  have hlinked : (s.world.step cj e).Linked bid id := by
    refine hknown.linked.step h.deliveries.sound he fun j hnone hwrites hjid => ?_
    -- Who enqueues a job gives it a new ID.
    have hfresh : j.id ∉ s.world.issued := by
      cases e with
      | enqueue job | enqueueAt job score => exact (show j = job from hwrites) ▸ he.2.2
      | sanitize | interrupted | mark | finish => cases hnone
      | _ => exact hwrites.elim
    exact absurd (hjid ▸ hknown.issued) hfresh
  have hover (hover' : (s.world.step cj e).Over id) : id ∉ s.ledger.batch.jobs ∨
      ∃ result : Result, result.removes = true ∧ completion bid e = some (id, result) := by
    obtain hbefore | ⟨t, op, rfl, hstage, rfl, hremoves⟩ :=
      over_step h.deliveries.sound he hdelayed hover'
    · exact Or.inl (hknown.settled hbefore)
    · have hbatch : t.job.batchID = bid :=
        hknown.linked.threads t (he.1.1 t rfl) (hstage ▸ nofun) rfl
      exact Or.inr ⟨op.result, hremoves, completion_progress hstage hbatch hknown.bid_ne⟩
  cases hc : completion bid e with
  | none =>
    have hstep : s.step cj bid (.work e now) = { s with world := s.world.step cj e } := by
      simp only [State.step, hc]
    rw [hstep]
    refine ⟨hknown.bid_ne, hissued, hlinked, fun hover' => ?_, hknown.tallied⟩
    obtain hout | ⟨result, -, hsome⟩ := hover hover'
    · exact hout
    · rw [hc] at hsome
      cases hsome
  | some c =>
    obtain ⟨jobID, result⟩ := c
    have hstep : s.step cj bid (.work e now) =
        ({ s with world := s.world.step cj e } : State).complete jobID result now := by
      simp only [State.step, hc]
    rw [hstep]
    refine ⟨hknown.bid_ne, hissued, hlinked, fun hover' hmem => ?_, ?_⟩
    · obtain ⟨hmem, hne⟩ := mem_jobs_complete hmem
      obtain hout | ⟨result', hremoves, hsome⟩ := hover hover'
      · exact hout hmem
      · cases hc.symm.trans hsome
        exact hne hremoves rfl
    · by_cases hsame : id = jobID
      · subst hsame
        change Tallied _ id (Function.update s.counted id _ id)
        rw [Function.update_self]
        exact hknown.tallied.complete h.accounting (completion_result hc) now
      · change Tallied _ id (Function.update s.counted jobID _ id)
        rw [Function.update_of_ne hsame]
        obtain ⟨hjobs, hfailed⟩ := @kept_of_not_named s.ledger (.complete jobID result now) id
          fun hnamed => hsame (List.mem_singleton.mp hnamed)
        exact hknown.tallied.of_kept hjobs hfailed

theorem work (he : (clientMachine cj).permits s.world e)
    (hdelayed : e.Delayed) (now : String) : Invariant bid (s.step cj bid (.work e now)) := by
  have hadvance := h.deliveries.sound.advance he
  have hacked : ∀ id ∈ (s.world.step cj e).acked, id ∈ (s.world.step cj e).issued := by
    intro id hid
    by_cases hold : id ∈ s.world.acked
    · exact hadvance.issued id (h.acked id hold)
    · exact hadvance.issued id (hadvance.acked id hid hold).1
  have huncounted {id : String} (hid : id ∉ (s.world.step cj e).issued) : s.counted id = .zero :=
    h.uncounted id fun hold => hid (hadvance.issued id hold)
  have hmembers : (s.step cj bid (.work e now)).members = s.members := members_work e now
  have hknown : ∀ id ∈ (s.step cj bid (.work e now)).members,
      Known bid (s.step cj bid (.work e now)) id :=
    fun id hid => h.known_work he hdelayed now (hmembers ▸ hid)
  cases hc : completion bid e with
  | none =>
    have hstep : s.step cj bid (.work e now) = { s with world := s.world.step cj e } := by
      simp only [State.step, hc]
    rw [hstep] at hknown ⊢
    exact ⟨h.deliveries.step he, h.accounting, hacked, fun _ => huncounted, hknown⟩
  | some c =>
    obtain ⟨jobID, result⟩ := c
    have hstep : s.step cj bid (.work e now) =
        ({ s with world := s.world.step cj e } : State).complete jobID result now := by
      simp only [State.step, hc]
    rw [hstep] at hknown ⊢
    refine ⟨h.deliveries.step he, h.accounting.complete jobID result now, hacked,
      fun id hid => ?_, hknown⟩
    -- The job that is counted belongs to a thread.
    obtain ⟨t, op, rfl, hstage, rfl, -⟩ := completion_eq_some hc
    have hissued : t.job.id ∈ s.world.issued :=
      (h.deliveries.threads t (he.1.1 t rfl)).issued (hstage ▸ nofun)
    have hne : id ≠ t.job.id := by
      rintro rfl
      exact hid (hadvance.issued _ hissued)
    exact (Function.update_of_ne hne _ _).trans (huncounted hid)

/-- **Every step keeps the invariant.** -/
theorem step {e : Event} (he : (machine cj bid).permits s e) :
    Invariant bid ((machine cj bid).step s e) := by
  have hfresh {jobs : List Job} (hjoins : ∀ job ∈ jobs, Joins bid s.world job) :
      ∀ id ∈ jobs.map Job.id, id ∉ s.world.issued := by
    intro id hid
    obtain ⟨job, hj, rfl⟩ := List.mem_map.mp hid
    exact (hjoins job hj).1.2
  cases e with
  | work e now => exact h.work he.1 he.2 now
  | enqueueJobs jobs =>
    have hcall : Invariant bid (s.call (.enqueueJobs (jobs.map Job.id))) :=
      h.call he.2 (hfresh he.1)
    refine hcall.enter he.1 he.2.1 fun job hj => ?_
    exact Finset.mem_union_right _ (List.mem_toFinset.mpr (List.mem_map_of_mem hj))
  | addJobs jobs =>
    have hcall : Invariant bid (s.call (.addJobs (jobs.map Job.id))) := h.call he.2 (hfresh he.1)
    simp only [machine, State.step]
    split
    · next total pending hsuccess =>
      refine hcall.enter he.1 he.2.1 fun job hj => ?_
      change job.id ∈ (batchAddJobs (jobs.map Job.id) s.ledger.batch).2.jobs
      rw [jobs_batchAddJobs hsuccess]
      exact Finset.mem_union_right _ (List.mem_toFinset.mpr (List.mem_map_of_mem hj))
    · exact hcall
  | call c =>
    cases c with
    | enqueueJobs ids | addJobs ids => exact he.elim
    | _ => exact h.call trivial he

end Invariant

/-! ### Members are counted once -/

/-- A step that takes the job out of an in-flight list for good: `Ack` or `MoveToDead`. -/
def Event.Removes (id : String) : Event → Prop
  | .work (.finish t _) _ =>
    t.job.id = id ∧ (t.stage = .calledBack .complete ∨ ∃ error, t.stage = .calledBack (.kill error))
  | _ => False

/-- What the batch has counted for a member. -/
structure Counted (s : State) (id : String) : Prop where
  /-- `pending` was lowered once, and the job is out of the jobs set; or neither has happened. -/
  pending : (s.counted id).pending = if id ∈ s.ledger.batch.jobs then 0 else 1
  successes : (s.counted id).successes = 0 ∨ (s.counted id).successes = 1
  failures : (s.counted id).failures = 0 ∨ (s.counted id).failures = 1
  /-- A job that was acknowledged or is dead was counted. -/
  isOver : (id ∈ s.world.acked ∨
    ∃ j : Job, j.marshal ∈ (stock s.world.db).stored .dead ∧ j.id = id) →
      (s.counted id).pending = 1

def State.Keeps (id : String) (s : State) : Event → Prop
  | .work e _ => s.world.Keeps id e
  | .enqueueJobs jobs | .addJobs jobs => ∀ job ∈ jobs, job.id = id → job.Readable
  | .call _ => True

def Waiting (s : State) (id : String) : Prop :=
  ∃ k, k.Live ∧ (stock s.world.db).copies id = Pi.single k 1

section Counting

variable {cj : Cjson} {bid id : String} {s : State}

theorem Known.counted (h : Known bid s id) : Counted s id where
  pending := h.tallied.pending
  successes := h.tallied.successes.imp_right And.left
  failures := h.tallied.failures.imp_right And.left
  isOver := by
    intro hover
    rw [h.tallied.pending, if_neg (h.settled (Or.inr hover))]

theorem Known.waiting (h : Known bid s id) (hinvariant : Invariant bid s)
    (hkept : Kept s.world id) (hzero : (s.counted id).pending = 0) : Waiting s id := by
  have hmem : id ∈ s.ledger.batch.jobs := by
    by_contra hout
    rw [h.tallied.pending, if_neg hout] at hzero
    cases hzero
  have hnot : ¬ s.world.Over id := fun hover => h.settled hover hmem
  obtain ⟨k, hk⟩ := hkept.once h.issued fun hacked => hnot (Or.inr (Or.inl hacked))
  refine ⟨k, ?_, hk⟩
  have hpos : 0 < (stock s.world.db).copies id k := by simp [hk]
  obtain ⟨p, hp, hid⟩ := Multiset.countP_pos.mp hpos
  cases k with
  | queue | inFlight | scheduled | retry => trivial
  | dead =>
    -- A dead job is over.
    obtain ⟨j, hj⟩ := hinvariant.deliveries.sound.books.entry _ p hp
    exact absurd (Or.inr (Or.inr ⟨j, hj.payload ▸ hp, hj.id_eq hid⟩)) hnot
  | finalization | queues | unique | sequentialLock => exact absurd hp (Multiset.notMem_zero p)

theorem kept_step (h : Invariant bid s) (hkept : Kept s.world id) {e : Event}
    (he : (machine cj bid).permits s e) (hkeeps : s.Keeps id e) :
    Kept ((machine cj bid).step s e).world id := by
  cases e with
  | work e now =>
    change Kept (s.step cj bid (.work e now)).world id
    rw [world_work]
    exact hkept.step h.deliveries.sound he.1 hkeeps
  | enqueueJobs jobs => exact (entered h.deliveries he.1 he.2.1).kept id hkeeps hkept
  | addJobs jobs =>
    simp only [machine, State.step]
    split
    · exact (entered h.deliveries he.1 he.2.1).kept id hkeeps hkept
    · exact hkept
  | call c => exact hkept

/-- **A member is counted once.** In every run of the system with a batch: `Ack` and `MoveToDead`
of a member come after its ID is out of the jobs set, and `pending` is lowered for it at most once,
as `successes` and `failures` are raised. If all its payloads can be read by the scripts, it is
counted in the end: until then one is waiting. -/
theorem member_counted_once (cj : Cjson) (r : Request) (callbackQueue id : String) {es : List Event}
    (legal : (machine cj r.id).Legal (.init r callbackQueue) es) :
    (machine cj r.id).Throughout
        (fun s e => id ∈ s.members → e.Removes id → id ∉ s.ledger.batch.jobs)
        (.init r callbackQueue) es ∧
      (id ∈ ((machine cj r.id).run (.init r callbackQueue) es).members →
        Counted ((machine cj r.id).run (.init r callbackQueue) es) id ∧
        ((machine cj r.id).Throughout (State.Keeps id) (.init r callbackQueue) es →
          (((machine cj r.id).run (.init r callbackQueue) es).counted id).pending = 0 →
            Waiting ((machine cj r.id).run (.init r callbackQueue) es) id)) := by
  have hinvariant : Invariant r.id ((machine cj r.id).run (.init r callbackQueue) es) :=
    legal.invariant (fun _ _ h he => h.step he) (.init r callbackQueue)
  refine ⟨?_, fun hid => ⟨(hinvariant.known id hid).counted, fun hkeeps hzero => ?_⟩⟩
  · refine legal.throughout (I := Invariant r.id) (fun _ _ h he => h.step he) ?_
      (.init r callbackQueue)
    intro s e h he hid hremoves
    cases e with
    | work e now =>
      cases e with
      | finish t now =>
        obtain ⟨rfl, hstage⟩ := hremoves
        have ht : t ∈ s.world.threads := he.1.1.1 t rfl
        refine (h.known _ hid).settled (Or.inl ⟨t, ht, ?_, rfl⟩)
        obtain hstage | ⟨error, hstage⟩ := hstage
        · exact ⟨.complete, rfl, Or.inr hstage⟩
        · exact ⟨.kill error, rfl, Or.inr hstage⟩
      | _ => exact hremoves.elim
    | _ => exact hremoves.elim
  · have hkept : Invariant r.id ((machine cj r.id).run (.init r callbackQueue) es) ∧
        Kept ((machine cj r.id).run (.init r callbackQueue) es).world id :=
      legal.invariant_throughout (I := fun s => Invariant r.id s ∧ Kept s.world id)
        (fun s e h he hkeep => ⟨h.1.step he, kept_step h.1 h.2 he hkeep⟩) hkeeps
        ⟨.init r callbackQueue, .init⟩
    exact (hinvariant.known id hid).waiting hinvariant hkept.2 hzero

end Counting

/-! ### A member that is lost -/

def Event.Without (worker : String) : Event → Prop
  | .work e _ => ∀ t, e.thread = some t → t.worker ≠ worker
  | _ => True

/-- A member without a payload that was not counted, and that only one worker knows of. -/
structure Lost (bid worker id : String) (s : State) : Prop where
  invariant : Invariant bid s
  member : id ∈ s.members
  copies : (stock s.world.db).copies id = 0
  threads : ∀ t ∈ s.world.threads, t.stage ≠ .undecodable → t.job.id = id → t.worker = worker
  uncounted : (s.counted id).pending = 0

namespace Lost

variable {cj : Cjson} {bid worker id : String} {s : State}

theorem work (h : Lost bid worker id s) {now : String}
    (he : (machine cj bid).permits s (.work e now))
    (hwithout : (Event.work e now).Without worker) :
    Lost bid worker id ((machine cj bid).step s (.work e now)) := by
  have hsound := h.invariant.deliveries.sound
  have hissued := (h.invariant.known id h.member).issued
  have hworld : ((machine cj bid).step s (.work e now)).world = s.world.step cj e :=
    world_work e now
  have hmembers : ((machine cj bid).step s (.work e now)).members = s.members := members_work e now
  refine ⟨h.invariant.step he, hmembers ▸ h.member, ?_, ?_, ?_⟩
  · have hevolves := (hsound.advance he.1).evolves id hissued
    rw [show s.world.view.stock.copies id = 0 from h.copies] at hevolves
    rw [hworld]
    exact hevolves.zero
  · rw [hworld]
    intro t' ht' hstage hid
    obtain hold | hnew := threads_step hsound.typed he.1.1 ht'
    · exact h.threads t' hold hstage hid
    · obtain ⟨k, j, hj, hsame⟩ | hundecodable | ⟨t, hthread, ht, -, hsame⟩ :=
        sameBatch_of_new hnew hsound.books he.1.2
      · have hcopy : payloadID j.marshal = some id := by rw [payloadID_marshal, ← hsame.1, hid]
        exact absurd hcopy (Stock.copies_eq_zero.mp h.copies k _ hj)
      · exact absurd hundecodable hstage
      · -- The thread before was of the worker that takes no step.
        have hworker := h.threads t (he.1.1.1 t hthread) ht (hsame.1.symm.trans hid)
        exact absurd hworker (hwithout t hthread)
  · change ((s.step cj bid (.work e now)).counted id).pending = 0
    simp only [State.step]
    split
    · next jobID result hc =>
      obtain ⟨t, op, rfl, hstage, rfl, -⟩ := completion_eq_some hc
      have hne : id ≠ t.job.id := by
        rintro rfl
        exact hwithout t rfl (h.threads t (he.1.1.1 t rfl) (hstage ▸ nofun) rfl)
      change (Function.update s.counted t.job.id _ id).pending = 0
      rw [Function.update_of_ne hne]
      exact h.uncounted
    · exact h.uncounted

/-- **What is lost is not counted any more.** -/
theorem step (h : Lost bid worker id s) {e : Event} (he : (machine cj bid).permits s e)
    (hwithout : e.Without worker) : Lost bid worker id ((machine cj bid).step s e) := by
  have hissued := (h.invariant.known id h.member).issued
  have hinvariant := h.invariant.step he
  have henter {jobs : List Job} {c : Batch.Call}
      (hentered : Entered bid jobs s.world (jobs.foldl pushJob s.world))
      (hinvariant : Invariant bid ((s.call c).enter jobs)) :
      Lost bid worker id ((s.call c).enter jobs) :=
    { invariant := hinvariant
      member := List.mem_append_right _ h.member
      copies := hentered.gone id hissued h.copies
      threads := hentered.threads ▸ h.threads
      uncounted := h.uncounted }
  cases e with
  | work e now => exact h.work he hwithout
  | enqueueJobs jobs => exact henter (entered h.invariant.deliveries he.1 he.2.1) hinvariant
  | addJobs jobs =>
    simp only [machine, State.step] at hinvariant ⊢
    split at hinvariant
    · exact henter (entered h.invariant.deliveries he.1 he.2.1) hinvariant
    · exact { h with invariant := hinvariant }
  | call c => exact { h with invariant := hinvariant }

end Lost

def oneJob : Request where
  id := "b"
  parentID := ""
  jobs := ["j"]
  nodup := List.nodup_singleton "j"
  onComplete := none
  onSuccess := none
  onDeath := none

def memberJob (args : Args) : Job := { sampleJob args with batchID := "b" }

def memberThread (args : Args) (job : Job) : Thread :=
  ⟨"w", "q", (memberJob args).marshal, { job with raw := (memberJob args).marshal }, .running⟩

/-- The job is enqueued and fetched. The worker begins with `completeJob` and stops, and then it is
recovered. -/
def memberRun (args : Args) (job : Job) : List Event :=
  [.enqueueJobs [memberJob args], .work (.fetch "w" "q") "",
    .work (.handled (memberThread args job) (memberThread args job).job .complete) "",
    .work (.reap "w") ""]

def afterRun (args : Args) (job : Job) (db : Db Key) : State where
  world := ⟨db, [(memberThread args job).finalize (memberThread args job).job .complete,
    memberThread args job], ["j"], [], []⟩
  ledger := (create oneJob "default").step (.enqueueJobs ["j"])
  counted := fun _ => .zero
  members := ["j"]

theorem run_memberRun (cj : Cjson) {args : Args} {job : Job}
    (hread : unmarshalJob (memberJob args).marshal = some job) :
    (machine cj "b").Legal (.init oneJob "default") (memberRun args job) ∧
      ∃ db, stock db = ((stock World.init.db).put (.inFlight "w") (memberJob args).marshal).recover
          cj "w" (memberJob args).marshal ∧
        (machine cj "b").run (.init oneJob "default") (memberRun args job) =
          afterRun args job db := by
  set p := (memberJob args).marshal with hp
  have hnone : job.finalization = none := (alike_of_unmarshalJob hread).finalization.symm
  have hempty : WellTyped World.init.db := .empty
  -- On the queue.
  obtain ⟨db₁, hdb₁⟩ : ∃ db₁, db₁ = World.init.db.putList (.queue "q") [p] := ⟨_, rfl⟩
  have hpush : pushJob .init (memberJob args) = ⟨db₁, [], ["j"], [], []⟩ := by
    rw [pushJob, run_lpush (hempty (.queue _)), hdb₁]
    rfl
  have htyped₁ : WellTyped db₁ := hdb₁ ▸ hempty.putList (k := .queue "q") rfl _
  have hqueue₁ : db₁.list (.queue "q") = [p] := by
    rw [hdb₁]
    simp
  have hinFlight₁ : db₁.list (.inFlight "w") = [] := by
    rw [hdb₁]
    simp
    rfl
  have hstock₁ : stock db₁ = (stock World.init.db).put (.queue "q") p := by
    rw [hdb₁, stock_putList _ rfl]
    rfl
  -- In flight.
  have hheld : held cj (trustedIn db₁) p = some p :=
    held_marshal (by simp [memberJob, sampleJob]) (by rintro _ ⟨⟩)
  obtain ⟨db₂, htyped₂, hlist₂, hstock₂, hfetch⟩ :=
    @step_fetch_only cj ⟨db₁, [], ["j"], [], []⟩ "w" "q" p htyped₁ hqueue₁ hinFlight₁ hheld
  change stock db₂ = ((stock db₁).take (.queue "q") p).put (.inFlight "w") p at hstock₂
  rw [hstock₁, Stock.take_put] at hstock₂
  have hclaim (s : World) : s.claim "w" "q" p false = s.spawn (memberThread args job) := by
    rw [World.claim, hread]
    dsimp only
    split
    · rfl
    · next f hsome => exact absurd (hnone.symm.trans hsome).symm (Option.some_ne_none f)
  rw [hclaim] at hfetch
  have hchunk : (create oneJob "default").Permits (.enqueueJobs ["j"]) := by decide
  have hrun₂ : (machine cj "b").run (.init oneJob "default")
      [.enqueueJobs [memberJob args], .work (.fetch "w" "q") ""] =
      ⟨⟨db₂, [memberThread args job], ["j"], [], []⟩,
        (create oneJob "default").step (.enqueueJobs ["j"]), fun _ => .zero, ["j"]⟩ := by
    change (⟨(pushJob .init (memberJob args)).step cj (.fetch "w" "q"), _, _, _⟩ : State) = _
    rw [hpush, hfetch]
    rfl
  -- Back on the queue, or gone.
  refine ⟨⟨⟨?_, hchunk⟩, ?_, ?_, ?_, trivial⟩,
    ((requeueOrphaned cj "w").run db₂).db, ?_, ?_⟩
  · rintro j hj
    obtain rfl := List.mem_singleton.mp hj
    exact ⟨⟨by simp [memberJob, sampleJob], List.not_mem_nil⟩, ⟨by simp [memberJob], rfl⟩, rfl, rfl⟩
  · exact ⟨⟨World.permits_of_thread_eq_none rfl trivial trivial, trivial⟩, trivial⟩
  · change (machine cj "b").permits ((machine cj "b").run (.init oneJob "default")
      [.enqueueJobs [memberJob args], .work (.fetch "w" "q") ""]) _
    rw [hrun₂]
    refine ⟨⟨⟨fun t ht => ?_, rfl, rfl, rfl⟩, rfl, rfl, rfl⟩, trivial⟩
    rw [← Option.some.inj ht]
    exact List.mem_cons_self
  · exact ⟨⟨World.permits_of_thread_eq_none rfl trivial trivial, trivial⟩, trivial⟩
  · rw [(stock_requeueOrphaned htyped₂ "w").2, hlist₂, List.foldl_cons, List.foldl_nil, hstock₂]
  · change (machine cj "b").run ((machine cj "b").run (.init oneJob "default")
      [.enqueueJobs [memberJob args], .work (.fetch "w" "q") ""]) [_, .work (.reap "w") ""] = _
    rw [hrun₂]
    rfl

theorem memberJob_waits :
    (machine .plain oneJob.id).Legal (.init oneJob "default") (memberRun none (memberJob none)) ∧
      Counted ((machine .plain oneJob.id).run (.init oneJob "default")
        (memberRun none (memberJob none))) "j" ∧
      Waiting ((machine .plain oneJob.id).run (.init oneJob "default")
        (memberRun none (memberJob none))) "j" := by
  have hread : unmarshalJob (memberJob none).marshal = some (memberJob none) :=
    unmarshalJob_of_args_eq_none rfl (by decide) (by decide) (by decide)
  obtain ⟨legal, db, -, hrun⟩ := run_memberRun .plain hread
  have hmember : "j" ∈ ((machine .plain "b").run (.init oneJob "default")
      (memberRun none (memberJob none))).members := by
    rw [hrun]
    exact List.mem_singleton_self _
  obtain ⟨hcounted, hwaiting⟩ :=
    (member_counted_once .plain oneJob "default" "j" legal).2 hmember
  refine ⟨legal, hcounted, hwaiting ?_ ?_⟩
  · refine ⟨?_, ?_, ?_, ?_, trivial⟩
    · rintro j hj -
      obtain rfl := List.mem_singleton.mp hj
      exact ⟨by decide, by decide⟩
    · exact ⟨fun _ h => h.elim, fun _ => Senna.Event.noConfusion⟩
    · exact ⟨fun _ h => h.elim, fun _ => Senna.Event.noConfusion⟩
    · exact ⟨fun _ h => h.elim, fun _ => Senna.Event.noConfusion⟩
  · change (((machine .plain "b").run (.init oneJob "default")
      (memberRun none (memberJob none))).counted "j").pending = 0
    rw [hrun]
    rfl

/-- **A member whose arguments nest too deep for `cjson` is never counted.** The recovery drops it.
Whatever happens then, the job is neither acknowledged nor dead, and `pending` still counts it. -/
theorem deep_member_never_counted :
    ∃ es, (machine .plain "b").Legal (.init oneJob "default") es ∧
      ∀ es', (machine .plain "b").Legal (.init oneJob "default") (es ++ es') →
        (machine .plain "b").Throughout (fun _ e => e.Without "w")
          ((machine .plain "b").run (.init oneJob "default") es) es' →
        "j" ∈ ((machine .plain "b").run (.init oneJob "default") (es ++ es')).members ∧
        "j" ∈ ((machine .plain "b").run (.init oneJob "default") (es ++ es')).ledger.batch.jobs ∧
        (((machine .plain "b").run (.init oneJob "default") (es ++ es')).counted "j").pending = 0 ∧
        "j" ∉ ((machine .plain "b").run (.init oneJob "default") (es ++ es')).world.acked ∧
        (stock ((machine .plain "b").run (.init oneJob "default") (es ++ es')).world.db).copies "j"
          = 0 := by
  obtain ⟨job, hread⟩ :=
    @unmarshalJob_deepArgs (memberJob deepArgs) rfl (by decide) (by decide) (by decide)
  obtain ⟨legal, db, hstock, hrun⟩ := run_memberRun .plain hread
  have hdeep : cjsonMaxDepth ≤ (memberJob deepArgs).args.toJson.depth := by
    simp [memberJob, sampleJob, deepArgs, Args.toJson, depth_nested]
  have hnone : orphanTarget .plain (memberJob deepArgs).marshal = none := by
    simp [orphanTarget, plain_decode_of_args hdeep]
  -- Only the worker that has stopped knows of the job.
  have hlost : Lost "b" "w" "j" ((machine .plain "b").run (.init oneJob "default")
      (memberRun deepArgs job)) := by
    refine ⟨legal.invariant (fun _ _ h he => h.step he) (.init oneJob "default"), ?_, ?_, ?_, ?_⟩
    · rw [hrun]
      exact List.mem_singleton_self _
    · rw [hrun]
      change (stock db).copies "j" = 0
      rw [hstock, Stock.recover, Stock.route, hnone, Stock.take_put]
      exact Sound.init.books.fresh List.not_mem_nil
    · rw [hrun]
      rintro t ht - -
      obtain rfl | rfl : t = _ ∨ t = _ := by simpa [afterRun] using ht
      · rfl
      · rfl
    · rw [hrun]
      rfl
  refine ⟨memberRun deepArgs job, legal, fun es' legal' hwithout => ?_⟩
  rw [Machine.run_append]
  have hend : Lost "b" "w" "j" _ := Machine.Legal.invariant_throughout
    (fun s e h he hw => h.step he hw) ((Machine.legal_append _ _ _ _).mp legal').2 hwithout hlost
  have hknown := hend.invariant.known _ hend.member
  have hmem : "j" ∈ ((machine .plain "b").run ((machine .plain "b").run (.init oneJob "default")
      (memberRun deepArgs job)) es').ledger.batch.jobs := by
    by_contra hout
    have hone := hknown.tallied.pending
    rw [if_neg hout, hend.uncounted] at hone
    cases hone
  exact ⟨hend.member, hmem, hend.uncounted,
    fun hacked => hknown.settled (Or.inr (Or.inl hacked)) hmem, hend.copies⟩

end Member

end Senna
