import Senna.Redis.Frame
import Senna.Worker.Conservation

/-!
# Unique jobs

A job that is enqueued with a unique key takes a lock under that key, in the same script that
stores it, and the lock holds the ID of the job. `enqueue_unique_now` and `enqueue_unique_at` store
nothing while there is a lock. `ack_job` and `move_to_dead_job` give it up with the job, if it is
still theirs. In between nobody looks at it, and it expires when its time is over.

Here are the two scripts that take a lock, and what the rest of the system does to locks and to
unique keys. **No step but finishing a job touches a lock**, and finishing touches only that of its
own job, together with the payload (`unique_step`, by the frame rules of `Redis.Frame`). And **a
live payload is only ever replaced by one with the same ID and the same unique key**
(`kin_of_moves`): what is written comes from a thread, and every thread, at whatever stage, holds
the unique key of the payload it was given (`Thread.Keyed`).
-/

namespace Senna

open Redis

/-! ### The scripts -/

def enqueueUniqueNow (uniqueKey jobID queue data : String) : Script Key ℕ := do
  want "unique" (.unique uniqueKey)
  let t ← type (.unique uniqueKey)
  if t = .string then pure 0
  else do
    want "queues" .queues
    want "queue" (.queue queue)
    let claimed ← setNX (.unique uniqueKey) jobID
    if claimed then do
      let _ ← sadd .queues queue
      lpush (.queue queue) data
      pure 1
    else pure 0

def enqueueUniqueAt (uniqueKey jobID : String) (score : ℤ) (data : String) : Script Key ℕ := do
  want "unique" (.unique uniqueKey)
  let t ← type (.unique uniqueKey)
  if t = .string then pure 0
  else do
    want "scheduled" .scheduled
    let claimed ← setNX (.unique uniqueKey) jobID
    if claimed then do
      zadd .scheduled score data
      pure 1
    else pure 0

section Scripts

variable {db : Db Key} (h : WellTyped db)
include h

theorem unique_cases (key : String) :
    db (.unique key) = none ∧ db.str (.unique key) = none ∨
      Db.typeOf (db (.unique key)) = .string ∧ db.str (.unique key) ≠ none := by
  have htype : Db.typeOf (db (.unique key)) = .none ∨ Db.typeOf (db (.unique key)) = .string :=
    h (.unique key)
  unfold Db.str
  generalize db (.unique key) = v at htype ⊢
  rcases v with _ | (_ | _ | _ | _ | _) <;> simp_all [Db.typeOf, Db.strOf]

theorem run_enqueueUniqueNow (uniqueKey jobID queue data : String) :
    (enqueueUniqueNow uniqueKey jobID queue data).run db =
      if db.str (.unique uniqueKey) = none then
        .ok 1 ((enqueueNow queue data).run (db.putStr (.unique uniqueKey) jobID)).db
      else .ok 0 db := by
  unfold enqueueUniqueNow
  rw [run_want_bind h, run_type_bind]
  obtain ⟨hfree, hstr⟩ | ⟨hstring, hstr⟩ := unique_cases h uniqueKey
  · have htyped := h.putStr (k := .unique uniqueKey) rfl jobID
    have hpush := (htyped.putSet (k := .queues) rfl
      (insert queue ((db.putStr (.unique uniqueKey) jobID).members .queues))) (.queue queue)
    rw [if_neg (by rw [hfree]; exact fun heq => KeyType.noConfusion heq), if_pos hstr,
      run_want_bind h, run_want_bind h, Script.run_bind_ok (run_setNX hfree jobID),
      run_enqueueNow htyped, if_pos rfl, Script.run_bind_ok (run_sadd (htyped .queues) queue),
      Script.run_bind_ok (run_lpush hpush data)]
    simp
  · rw [if_pos hstring, if_neg hstr]
    rfl

theorem run_enqueueUniqueAt (uniqueKey jobID : String) (score : ℤ) (data : String) :
    (enqueueUniqueAt uniqueKey jobID score data).run db =
      if db.str (.unique uniqueKey) = none then
        .ok 1 ((zadd .scheduled score data).run (db.putStr (.unique uniqueKey) jobID)).db
      else .ok 0 db := by
  unfold enqueueUniqueAt
  rw [run_want_bind h, run_type_bind]
  obtain ⟨hfree, hstr⟩ | ⟨hstring, hstr⟩ := unique_cases h uniqueKey
  · have htyped := h.putStr (k := .unique uniqueKey) rfl jobID
    rw [if_neg (by rw [hfree]; exact fun heq => KeyType.noConfusion heq), if_pos hstr,
      run_want_bind h, Script.run_bind_ok (run_setNX hfree jobID), if_pos rfl,
      Script.run_bind_ok (run_zadd (htyped .scheduled) score data), run_zadd (htyped .scheduled)]
    rfl
  · rw [if_pos hstring, if_neg hstr]
    rfl

end Scripts

/-! ### Who touches a lock -/

section Locks

variable {cj : Cjson} {k : Key} {key : String}

theorem want_leaves (what : String) (k' : Key) : (want what k').Leaves k :=
  .bind (.type _) fun _ => .ite (.pure _) (.fail _)

theorem holds_leaves (k' : Key) (text : String) : (holds k' text).Leaves k :=
  .bind (.type _) fun _ => .ite (.bind (.get _) fun _ => .pure _) (.pure _)

theorem trusts_leaves (job : Json) (payload : String) : (trusts job payload).Leaves k := by
  unfold trusts
  split
  · exact .ite (holds_leaves _ _) (.pure _)
  · exact .pure _

theorem claim_leaves (payload : String) : (claim cj payload).Leaves k := by
  unfold claim
  split
  · exact .pure _
  · refine .ite (.bind (trusts_leaves _ _) fun trusted => .ite (.pure _) ?_) (.pure _)
    split
    · exact .pure _
    · exact .fail _

theorem fetchJob_leaves (queue workerID : String) :
    (fetchJob cj queue workerID).Leaves (.unique key) := by
  refine .bind (want_leaves _ _) fun _ => .bind (want_leaves _ _) fun _ =>
    .bind (.rpop Key.noConfusion) fun payload? => ?_
  cases payload? with
  | none => exact .pure _
  | some payload =>
    exact .bind (claim_leaves _) fun _ => .bind (.lpush Key.noConfusion _) fun _ => .pure _

theorem replaceFirst_leaves {k' : Key} (hne : k ≠ k') (payload payload' : String) :
    (replaceFirst k' payload payload').Leaves k := by
  refine .bind (.lpos _ _) fun index => ?_
  cases index with
  | none => exact .pure _
  | some i => exact .bind (.lset hne _ _) fun _ => .pure _

theorem contains_leaves (k' : Key) (payload : String) : (contains k' payload).Leaves k :=
  .bind (.lpos _ _) fun _ => .pure _

theorem sequentialFetch_leaves (queue workerID : String) :
    (sequentialFetch cj queue workerID).Leaves (.unique key) := by
  refine .bind (want_leaves _ _) fun _ => .bind (want_leaves _ _) fun _ =>
    .bind (.get _) fun holder => .ite (.pure _) ?_
  refine .bind (.lmove Key.noConfusion Key.noConfusion) fun payload? => ?_
  cases payload? with
  | none => exact .pure _
  | some payload =>
    have hlocked (held : String) :
        (do set (.sequentialLock queue) workerID; pure (.job held) : Script Key FetchReply).Leaves
          (.unique key) := .bind (.set Key.noConfusion _) fun _ => .pure _
    refine .bind (claim_leaves _) fun held => .ite ?_ (hlocked held)
    exact .bind (replaceFirst_leaves Key.noConfusion _ _) fun _ => hlocked held

theorem discardSequentialFetch_leaves (queue workerID payload : String) :
    (discardSequentialFetch queue workerID payload).Leaves (.unique key) :=
  .bind (want_leaves _ _) fun _ => .bind (.lrem Key.noConfusion _) fun _ => .bind (.get _) fun _ =>
    .ite (.del Key.noConfusion) (.pure _)

theorem markJobFinalization_leaves (workerID queue jobID payload finalized : String) :
    (markJobFinalization workerID queue jobID payload finalized).Leaves (.unique key) := by
  have htrust (n : ℕ) :
      (do set (.finalization jobID) finalized; pure n : Script Key ℕ).Leaves (.unique key) :=
    .bind (.set Key.noConfusion _) fun _ => .pure _
  refine .bind (want_leaves _ _) fun _ =>
    .bind (replaceFirst_leaves Key.noConfusion _ _) fun _ => .ite (htrust 1) ?_
  refine .bind (contains_leaves _ _) fun _ => .ite (htrust 1) ?_
  refine .bind (want_leaves _ _) fun _ =>
    .bind (replaceFirst_leaves Key.noConfusion _ _) fun _ => .ite (htrust 2) ?_
  exact .bind (contains_leaves _ _) fun _ => .ite (htrust 2) (.pure _)

theorem sanitizeJobFinalization_leaves (workerID payload sanitized : String) :
    (sanitizeJobFinalization workerID payload sanitized).Leaves (.unique key) :=
  .bind (want_leaves _ _) fun _ => .bind (replaceFirst_leaves Key.noConfusion _ _) fun _ =>
    .ite (.pure _) (.pure _)

theorem retryJob_leaves (workerID jobID payload : String) (score : ℤ) (newData : String) :
    (retryJob workerID jobID payload score newData).Leaves (.unique key) := by
  refine .bind (want_leaves _ _) fun _ => .bind (want_leaves _ _) fun _ =>
    .bind (.lrem Key.noConfusion _) fun _ => .ite ?_ (.pure _)
  exact .bind (.del Key.noConfusion) fun _ => .bind (.zadd Key.noConfusion _ _) fun _ => .pure _

theorem requeueJob_leaves (workerID queue payload data : String) :
    (requeueJob workerID queue payload data).Leaves (.unique key) := by
  refine .bind (want_leaves _ _) fun _ => .bind (want_leaves _ _) fun _ =>
    .bind (.lrem Key.noConfusion _) fun _ => .ite ?_ (.pure _)
  exact .bind (.lpush Key.noConfusion _) fun _ => .pure _

theorem enqueueNow_leaves (queue data : String) : (enqueueNow queue data).Leaves (.unique key) :=
  .bind (want_leaves _ _) fun _ => .bind (want_leaves _ _) fun _ =>
    .bind (.sadd Key.noConfusion _) fun _ => .lpush Key.noConfusion _

theorem pushTargets_leaves (ts : List Target) : (pushTargets ts).Leaves (.unique key) := by
  induction ts with
  | nil => exact .pure _
  | cons t ts ih =>
    refine .bind (.sadd Key.noConfusion _) fun _ => .bind (.lpush Key.noConfusion _) fun _ => ?_
    split
    · exact .bind (.set Key.noConfusion _) fun _ => ih
    · exact ih

theorem wantQueues_leaves (ts : List Target) : (wantQueues ts).Leaves k := by
  induction ts with
  | nil => exact .pure _
  | cons t ts ih => exact .bind (want_leaves _ _) fun _ => ih

theorem zremAll_leaves {k' : Key} (hne : k ≠ k') (vs : List String) : (zremAll k' vs).Leaves k := by
  induction vs with
  | nil => exact .pure _
  | cons v vs ih => exact .bind (.zrem hne _) fun _ => ih

theorem enqueueScheduled_leaves {k' : Key} (hne : Key.unique key ≠ k') (limit : ℕ) (now : ℤ) :
    (enqueueScheduled cj k' limit now).Leaves (.unique key) := by
  refine .bind (.type _) fun _ => .ite (.pure _) (.bind (want_leaves _ _) fun _ =>
    .bind (.zrangebyscore _ _ _) fun items => .ite (.pure _) ?_)
  refine .bind (wantQueues_leaves _) fun _ => .bind (.ite (want_leaves _ _) (.pure _)) fun _ => ?_
  exact .bind (zremAll_leaves hne _) fun _ => .bind (pushTargets_leaves _) fun _ => .pure _

theorem requeueOrphaned_leaves (workerID : String) :
    (requeueOrphaned cj workerID).Leaves (.unique key) := by
  refine .bind (.type _) fun _ => .ite (.pure _) (.bind (want_leaves _ _) fun _ =>
    .bind (want_leaves _ _) fun _ => .bind (.lrange _) fun jobs => .ite ?_ ?_)
  · exact .bind (.del Key.noConfusion) fun _ => .pure _
  · exact .bind (wantQueues_leaves _) fun _ => .bind (pushTargets_leaves _) fun _ =>
      .bind (.del Key.noConfusion) fun _ => .pure _

theorem str_dropUnique (db : Db Key) (unique : Option String) (jobID key : String) :
    (dropUnique db unique jobID).str (.unique key) =
      if unique = some key ∧ db.str (.unique key) = some jobID then none
      else db.str (.unique key) := by
  unfold dropUnique
  cases unique with
  | none => simp
  | some key' =>
    by_cases hkey : key' = key
    · subst hkey
      by_cases hown : db.str (.unique key') = some jobID
      · simp [hown]
      · simp [hown]
    · have hne : key ≠ key' := fun heq => hkey heq.symm
      dsimp only
      split
      · simp [hkey, hne]
      · simp [hkey]

/-- A thread has given up the lock with the payload of its job, which is now nowhere or among the
dead jobs. -/
structure Released (s s' : World) (t : Thread) (key : String) : Prop where
  own : s.db.str (.unique key) = some t.job.id
  gone : s'.db.str (.unique key) = none
  inFlight : jobPayload t.job ∈ (stock s.db).stored (.inFlight t.worker)
  stage : t.stage.operation ≠ none
  moved : stock s'.db = ((stock s.db).take (.inFlight t.worker) (jobPayload t.job)).trust t.job.id
      none ∨
    ∃ dead : Job, dead.id = t.job.id ∧ dead.finalization = none ∧
      stock s'.db = ((((stock s.db).take (.inFlight t.worker) (jobPayload t.job)).trust dead.id
        none).drop .dead dead.marshal).put .dead dead.marshal

section Finish

variable {s : World} (hdb : WellTyped s.db) {t : Thread}
include hdb

theorem unique_acknowledge (unique : Option String) (hstage : t.stage.operation ≠ none)
    (key : String) :
    (s.acknowledge t unique).db.str (.unique key) = s.db.str (.unique key) ∨
      Released s (s.acknowledge t unique) t key := by
  have hrun := run_ackJob hdb t.worker t.job.id unique (jobPayload t.job)
  have heffect := stock_ackJob hdb t.worker t.job.id unique (jobPayload t.job)
  by_cases hp : jobPayload t.job ∈ s.db.list (.inFlight t.worker)
  · rw [if_pos hp] at hrun
    rw [hrun] at heffect
    obtain ⟨_, ⟨⟩, -, hstock⟩ := heffect.of_mem hp
    unfold World.acknowledge
    rw [hrun]
    change (dropUnique _ _ _).str _ = _ ∨ _
    rw [str_dropUnique]
    split
    · next howned =>
      refine Or.inr ⟨?_, ?_, hp, hstage, Or.inl hstock⟩
      · simpa using howned.2
      · exact (str_dropUnique _ _ _ _).trans (if_pos howned)
    · exact Or.inl (by simp)
  · rw [if_neg hp] at hrun
    unfold World.acknowledge
    rw [hrun]
    exact Or.inl rfl

theorem unique_finish (now : Time) (key : String) :
    (s.finish t now).db.str (.unique key) = s.db.str (.unique key) ∨
      Released s (s.finish t now) t key := by
  unfold World.finish
  split
  · next hstage => exact unique_acknowledge hdb _ (hstage ▸ Option.some_ne_none _) key
  · next error hstage =>
    split
    · exact Or.inl rfl
    · next dead hdead =>
      have hrun := run_moveToDeadJob hdb t.worker t.job.id t.job.unique (jobPayload t.job) now.unix
        dead.marshal
      have heffect := stock_moveToDeadJob hdb t.worker t.job.id t.job.unique (jobPayload t.job)
        now.unix dead.marshal
      obtain ⟨hid, hnone⟩ := deadJob_id hdead
      by_cases hp : jobPayload t.job ∈ s.db.list (.inFlight t.worker)
      · rw [if_pos hp] at hrun
        rw [hrun] at heffect
        obtain ⟨_, ⟨⟩, -, hstock⟩ := heffect.of_mem hp
        rw [hrun, Outcome.db_ok, Db.str_write, if_neg Key.noConfusion, str_dropUnique]
        split
        · next howned =>
          refine Or.inr ⟨?_, ?_, hp, hstage ▸ Option.some_ne_none _,
            Or.inr ⟨dead, hid, hnone, hid ▸ hstock⟩⟩
          · simpa using howned.2
          · rw [Db.str_write, if_neg Key.noConfusion, str_dropUnique, if_pos howned]
        · exact Or.inl (by simp)
      · rw [if_neg hp] at hrun
        rw [hrun]
        exact Or.inl rfl
  · next retryAt hstage =>
    split
    · exact unique_acknowledge hdb _ (hstage ▸ Option.some_ne_none _) key
    · split
      · exact Or.inl rfl
      · exact Or.inl (congrArg Db.strOf (retryJob_leaves _ _ _ _ _ s.db))
  · exact Or.inl rfl

end Finish

/-- **Only finishing a job touches a lock**, and only its own. -/
theorem unique_step (cj : Cjson) {s : World} {e : Event} (hdb : WellTyped s.db) (he : s.Permits e)
    (key : String) :
    (s.step cj e).db.str (.unique key) = s.db.str (.unique key) ∨
      ∃ t now, e = .finish t now ∧ Released s (s.step cj e) t key := by
  have hsame {α : Type} {x : Script Key α} (hx : x.Leaves (.unique key)) :
      (x.run s.db).db.str (.unique key) = s.db.str (.unique key) := congrArg Db.strOf (hx s.db)
  have hfetched {out : Outcome Key FetchReply} (worker queue : String) (sequential : Bool)
      (hout : out.db.str (.unique key) = s.db.str (.unique key)) :
      (s.fetched out worker queue sequential).db.str (.unique key) = s.db.str (.unique key) := by
    unfold World.fetched
    split
    · next payload db =>
      rw [(@view_claim { s with db := db } worker queue payload sequential).2]
      exact hout
    · exact hout
  obtain ⟨-, hready, hsensible⟩ := he
  -- every other script leaves the keys of locks alone
  cases e with
  | finish t now =>
    obtain h | h := unique_finish hdb (t := t) now key
    · exact Or.inl h
    · exact Or.inr ⟨t, now, rfl, h⟩
  | enqueue job => exact Or.inl (hsame (enqueueNow_leaves _ _))
  | enqueueAt job score => exact Or.inl (hsame (.zadd Key.noConfusion _ _))
  | push queue payload => exact Or.inl (hsame (.lpush Key.noConfusion _))
  | pushAt k payload score =>
    refine Or.inl (hsame (.zadd ?_ _ _))
    obtain rfl | rfl := hsensible <;> exact Key.noConfusion
  | promote k now =>
    refine Or.inl (hsame (enqueueScheduled_leaves ?_ _ _))
    obtain rfl | rfl := hsensible <;> exact Key.noConfusion
  | fetch worker queue =>
    exact Or.inl (hfetched worker queue false (hsame (fetchJob_leaves queue worker)))
  | sequentialFetch worker queue =>
    exact Or.inl (hfetched worker queue true (hsame (sequentialFetch_leaves queue worker)))
  | unlock queue => exact Or.inl (by simp [World.step])
  | discard t => exact Or.inl (hsame (discardSequentialFetch_leaves _ _ _))
  | readType t | handled t job op => exact Or.inl rfl
  | readTrust t =>
    left
    rw [World.step]
    split <;> rfl
  | sanitize t =>
    left
    have hscript := hsame (sanitizeJobFinalization_leaves t.worker t.payload t.sanitized.marshal)
    rw [World.step, World.sanitize]
    split
    · rfl
    · generalize (sanitizeJobFinalization _ _ _).run s.db = out at hscript
      split <;> exact hscript
  | interrupted t job =>
    left
    rw [World.step, World.requeue]
    split
    · rfl
    · exact hsame (requeueJob_leaves _ _ _ _)
  | mark t =>
    left
    obtain ⟨op, hstage⟩ := hready
    rw [World.step, hstage]
    unfold World.mark
    dsimp only
    split
    · rfl
    · next finalized hfinalized =>
      have hscript := hsame (markJobFinalization_leaves t.worker t.job.queue t.job.id
        (jobPayload t.job) finalized)
      generalize (markJobFinalization _ _ _ _ _).run s.db = out at hscript
      split <;> exact hscript
  | progress t =>
    obtain ⟨op, hstage⟩ := hready
    rw [World.step, hstage]
    exact Or.inl rfl
  | callback t =>
    obtain ⟨op, hstage, -⟩ := hready
    rw [World.step, hstage]
    exact Or.inl rfl
  | reap worker => exact Or.inl (hsame (requeueOrphaned_leaves worker))

end Locks

/-! ### The key of a payload -/

/-- The `unique_key` of a payload that is a JSON object. -/
def payloadUniqueKey (payload : String) : Option String :=
  match Json.parse payload with
  | some (.obj ms) =>
    match Json.lookup "unique_key" ms with
    | some (.str s) => some s
    | _ => none
  | _ => none

@[simp] theorem payloadUniqueKey_marshal (job : Job) :
    payloadUniqueKey job.marshal = job.unique := by
  have hkey : Json.lookup "unique_key" (job.required ++ job.optional ++ job.marker) =
      if job.uniqueKey = "" then none else some (.str job.uniqueKey) := job.member_uniqueKey
  simp only [payloadUniqueKey, Job.marshal, Json.parse_render, Job.toJson, hkey, Job.unique]
  by_cases hempty : job.uniqueKey = "" <;> simp [hempty]

def Kin (p q : String) : Prop := payloadID q = payloadID p ∧ payloadUniqueKey q = payloadUniqueKey p

theorem Kin.refl (p : String) : Kin p p := ⟨rfl, rfl⟩

theorem durableJobPayload_unique {job durable : Job} (h : durableJobPayload job = some durable) :
    durable.unique = job.unique := by
  obtain ⟨args, encrypted, rfl⟩ := durableJobPayload_eq h
  rfl

theorem payloadWithFinalization_kin {j : Job} {f : JobFinalization} {p : String}
    (h : payloadWithFinalization j.marshal f = some p) : Kin j.marshal p := by
  obtain ⟨args, rfl⟩ := payloadWithFinalization_marshal h
  refine ⟨?_, ?_⟩
  · rw [payloadID_marshal, payloadID_marshal]
  · rw [payloadUniqueKey_marshal, payloadUniqueKey_marshal]
    rfl

/-- A handler leaves the unique key of its job alone, and the client's own steps are not among
those of the system. -/
def Event.KeepsKey : Event → Prop
  | .enqueue _ | .enqueueAt _ _ => False
  | .handled t job _ | .interrupted t job => job.uniqueKey = t.job.uniqueKey
  | _ => True

namespace Thread

variable {cj : Cjson} {t : Thread}

def Keyed (t : Thread) : Prop :=
  t.stage ≠ .undecodable → payloadUniqueKey t.source = t.job.unique

theorem unique_withError (job : Job) (op : Operation) : (withError job op).unique = job.unique := by
  cases op <;> rfl

theorem keyed_process {job : Job} (h : payloadUniqueKey job.raw = job.unique) :
    (t.process job).Keyed := by
  have hfinal {job' : Job} (op : Operation) (hraw : job'.raw = job.raw)
      (hunique : job'.unique = job.unique) : (t.finalize job' op).Keyed := by
    intro _
    rw [source_finalize, hraw, h]
    exact hunique.symm
  unfold Thread.process
  split
  · exact fun _ => h
  · unfold Thread.resume
    split
    · exact hfinal _ rfl rfl
    · split
      · exact hfinal _ rfl rfl
      · split
        · exact hfinal _ rfl rfl
        · exact hfinal _ rfl rfl

theorem Keyed.working (h : t.Keyed) (hfaithful : t.Faithful)
    (hstage : t.stage = .running ∨ t.stage.operation ≠ none) :
    payloadID (jobPayload t.job) = some t.job.id ∧
      payloadUniqueKey (jobPayload t.job) = t.job.unique := by
  obtain ⟨j, hraw, hpayload, halike⟩ := hfaithful.working hstage
  refine ⟨by rw [hpayload, payloadID_marshal, halike.id], ?_⟩
  have hsource : t.stage ≠ .undecodable ∧ t.source = t.job.raw := by
    obtain ⟨worker, queue, payload, job, stage⟩ := t
    cases stage <;> simp_all [Thread.source, Stage.operation]
  rw [hpayload, ← hraw, ← hsource.2]
  exact h hsource.1

/-- **Every new thread knows the key of its job.** -/
theorem Keyed.of_new {v v' : View} {e : Event} {t' : Thread} (hnew : NewThread cj v v' e t')
    (hbooks : Books v.issued v.stock) (hfaithful : ∀ t ∈ e.thread, t.Faithful)
    (hkeyed : ∀ t ∈ e.thread, t.Keyed) (hsensible : e.Sensible) (hplain : e.KeepsKey) :
    t'.Keyed := by
  have hfetched {p p' queue : String} {job : Job} (hp : p ∈ v.stock.stored (.queue queue))
      (hheld : held cj v.stock.trusted p = some p') (hread : unmarshalJob p' = some job) :
      payloadUniqueKey p' = job.unique := by
    obtain ⟨rfl, j, hj⟩ := hbooks.fetched hp hheld
    rw [hj.payload] at hread ⊢
    rw [unmarshalJob_marshal hread, payloadUniqueKey_marshal]
    rfl
  -- Most steps only move the thread to its next stage.
  have hadvance {t : Thread} {stage : Stage} (ht : t.Keyed) (hstage : t.stage ≠ .undecodable)
      (hsource : ({ t with stage := stage } : Thread).source = t.source) :
      ({ t with stage := stage } : Thread).Keyed := fun _ => hsource ▸ ht hstage
  cases hnew with
  | run he hp hheld hread hnone =>
    have hkey := hfetched hp hheld hread
    exact fun _ => hkey
  | claimed he hp hheld hread hsome => exact fun _ => hfetched hp hheld hread
  | undecodable he hp hheld hread => exact fun h => absurd rfl h
  | @typed t hstage | @untyped t hstage hnone | @distrusted t hstage htrust
  | @unmarked t op hstage | @progressed t op hstage | @calledBack t op hstage =>
    exact hadvance (hkeyed t rfl) (hstage ▸ Stage.noConfusion) (by simp only [Thread.source, hstage])
  | @trusted t hstage htrust =>
    have hkey := hkeyed t rfl (hstage ▸ Stage.noConfusion)
    simp only [Thread.source, hstage] at hkey
    exact keyed_process hkey
  | @sanitized t hstage hp => exact fun _ => payloadUniqueKey_marshal _
  | @handled t hstage job op =>
    have hkey := hkeyed t rfl (hstage ▸ Stage.noConfusion)
    simp only [Thread.source, hstage] at hkey
    intro _
    rw [source_finalize]
    change payloadUniqueKey (withError job op).raw = (withError job op).unique
    rw [unique_withError, Job.unique, hplain, withError_raw, hsensible.1, hkey]
    rfl
  | @marked t op p' hstage hp' hmarked htrusted =>
    have hop : t.stage.operation ≠ none := hstage ▸ Option.some_ne_none _
    obtain ⟨j, -, hpayload, -⟩ := (hfaithful t rfl).working (Or.inr hop)
    have hkey := ((hkeyed t rfl).working (hfaithful t rfl) (Or.inr hop)).2
    rw [hpayload] at hp' hkey
    exact fun _ => (payloadWithFinalization_kin hp').2.trans hkey

end Thread

/-! ### Live payloads -/

theorem kin_of_writes {e : Event} {t : Thread} {j : Job} {p : String} {s : World}
    (hthread : e.thread = some t) (hfaithful : t.Faithful) (hkeyed : t.Keyed) (hready : e.Ready)
    (hsensible : e.Sensible) (hclient : s.FromClient e) (hkeeps : e.KeepsKey) (hwrites : e.Writes j)
    (hanchor : e.anchor = some p) : Kin p j.marshal := by
  -- The payload in memory is that of the job in memory.
  have hkin {job : Job} (hstage : t.stage = .running ∨ t.stage.operation ≠ none)
      (hid : job.id = t.job.id) (hkey : job.unique = t.job.unique) :
      Kin (jobPayload t.job) job.marshal := by
    obtain ⟨hid', hkey'⟩ := hkeyed.working hfaithful hstage
    exact ⟨by rw [payloadID_marshal, hid', hid], by rw [payloadUniqueKey_marshal, hkey', hkey]⟩
  cases e with
  | sanitize t' =>
    cases hthread
    cases hanchor
    obtain rfl := hwrites
    obtain ⟨j, hpayload, halike⟩ := hfaithful.given (Or.inr (Or.inr hready))
    have hkey := hkeyed (hready ▸ Stage.noConfusion)
    simp only [Thread.source, show t.stage = .distrusted from hready] at hkey
    refine ⟨?_, ?_⟩
    · rw [hpayload, payloadID_marshal, payloadID_marshal, halike.id]
      rfl
    · rw [payloadUniqueKey_marshal, hkey]
      rfl
  | interrupted t' job =>
    cases hthread
    cases hanchor
    obtain ⟨j', hraw, -, -⟩ := hfaithful.working (Or.inl hready)
    have hsame : jobPayload job = jobPayload t.job := by
      rw [jobPayload_raw (hsensible.1.trans hraw), jobPayload_raw hraw]
      exact hsensible.1
    rw [hsame]
    refine hkin (Or.inl hready) ((durableJobPayload_id hwrites).1.trans hclient.1) ?_
    rw [durableJobPayload_unique hwrites, Job.unique, show job.uniqueKey = _ from hkeeps]
    rfl
  | mark t' =>
    cases hthread
    cases hanchor
    obtain ⟨op, job, hstage, hread, rfl⟩ := hwrites
    obtain ⟨j', -, hpayload, -⟩ := hfaithful.working (Or.inr (hstage ▸ Option.some_ne_none _))
    have hmarked : payloadWithFinalization (jobPayload t.job) op.finalization
        = some ({ job with finalization := some op.finalization } : Job).marshal := by
      rw [payloadWithFinalization, hread]
      rfl
    rw [hpayload] at hmarked ⊢
    exact payloadWithFinalization_kin hmarked
  | finish t' now =>
    cases hthread
    cases hanchor
    obtain ⟨retryAt, hstage, -, hnext⟩ | ⟨error, hstage, hdead⟩ := hwrites
    · obtain ⟨durable, hdurable, rfl⟩ := Option.map_eq_some_iff.mp hnext
      have hunique := durableJobPayload_unique hdurable
      exact hkin (Or.inr (hstage ▸ Option.some_ne_none _)) (durableJobPayload_id hdurable).1 hunique
    · obtain ⟨durable, hdurable, rfl⟩ := Option.map_eq_some_iff.mp hdead
      have hunique := durableJobPayload_unique hdurable
      exact hkin (Or.inr (hstage ▸ Option.some_ne_none _)) (durableJobPayload_id hdurable).1 hunique
  | _ => cases hanchor

/-- **A live payload takes the place of a live payload of the same job with the same key.** -/
theorem kin_of_moves {cj : Cjson} {raises : Prop} {v v' : View} {e : Event}
    (hmoves : Moves cj raises v e v') (hbooks : Books v.issued v.stock)
    (hfaithful : ∀ t ∈ e.thread, t.Faithful) (hkeyed : ∀ t ∈ e.thread, t.Keyed) (hready : e.Ready)
    (hsensible : e.Sensible) {s : World} (hclient : s.FromClient e) (hkeeps : e.KeepsKey) {k : Key}
    (hk : k.Live) {q : String} (hq : q ∈ v'.stock.stored k) :
    ∃ k', k'.Live ∧ ∃ p ∈ v.stock.stored k', Kin p q := by
  obtain ⟨k', hlive, hold⟩ | ⟨j, hwrites, rfl, hplace⟩ := origin_of_moves hmoves hbooks hclient hq
  · exact ⟨k', hlive hk, q, hold, Kin.refl q⟩
  · obtain hnone | ⟨t, p, k', hthread, hanchor, hlive, hp⟩ := hplace
    · -- Without a thread only clients write.
      cases e with
      | enqueue job | enqueueAt job score => exact hkeeps.elim
      | _ => first | exact hwrites.elim | cases hnone
    · exact ⟨k', hlive, p, hp, kin_of_writes hthread (hfaithful t hthread) (hkeyed t hthread)
        hready hsensible hclient hkeeps hwrites hanchor⟩

end Senna
