import Senna.Batch.Lua
import Senna.Periodic
import Senna.Worker.Unique

/-!
# Keys of the wrong type

Redis does not roll a script back: one that stops in the middle leaves what it has written. A key
of the wrong type is the one thing that makes a command fail, so the scripts look at the types of
all keys they are going to write, and stop with an error reply before the first write. **A call
that ends with an error about a type has changed nothing**, of the twenty scripts that check.

Most of them list their keys at the top. Some know a key only when they have read something, and
check in a loop: `requeue_orphaned.lua` and `enqueue_scheduled.lua` the queues named in payloads,
`batch_add_jobs.lua` and `batch_enqueue_jobs.lua` the queues of new jobs. `batch_complete.lua`
decides what it is going to write first, and checks the keys of that (`Ready`). The scripts on a
batch write before they are through with checking in one case: a batch without a progress hash gets
one. So for these, unchanged means unchanged but for that (`Migrated`).

Some keys are not checked. The lock of a sequential queue is read before anything is written, the
keys of trusted payloads and locks of unique jobs are read only if they are strings, and `SET` and
`DEL` take any key.
-/

namespace Senna

open Redis Script

/-! ### The scripts of the worker -/

section Worker

variable {S : Set Key}

theorem want_checks (what : String) (k : Key) :
    Checks Key.kind Eq S (want what k) fun _ => insert k S := .expect what k

theorem holds_safe (k : Key) (text : String) : Safe Key.kind S (holds k text) :=
  .type_get (fun _ => .pure _) (.pure _)

theorem claim_safe (cj : Cjson) (payload : String) : Safe Key.kind S (claim cj payload) := by
  have htrusts (job : Json) : Safe Key.kind S (trusts job payload) := by
    unfold trusts
    split
    · exact .ite (holds_safe _ _) (.pure _)
    · exact .pure _
  unfold claim
  split
  · exact .pure _
  · next job _ =>
    refine .ite (.bind (htrusts job) fun _ => .ite (.pure _) ?_) (.pure _)
    split
    · exact .pure _
    · exact .raised _

theorem replaceFirst_safe {k : Key} (hk : k ∈ S) (hkind : k.kind = .list)
    (payload payload' : String) : Safe Key.kind S (replaceFirst k payload payload') := by
  refine .bind (.lpos hk hkind _) fun index => ?_
  split
  · exact .bind (.lset hk hkind _ _) fun _ => .pure _
  · exact .pure _

theorem replaceFirst_intact {α : Type} {k : Key} (hk : k ∈ S) (hkind : k.kind = .list)
    (payload payload' : String) {f : Bool → Script Key α} (htrue : Safe Key.kind S (f true))
    (hfalse : Intact Key.kind Eq S (f false)) :
    Intact Key.kind Eq S (replaceFirst k payload payload' >>= f) := by
  rw [replaceFirst, Script.bind_bind]
  refine .bind (.lpos _ _) fun index => ?_
  cases index with
  | none => exact hfalse
  | some i =>
    refine .of_safe ?_
    rw [Script.bind_bind]
    exact .bind (.lset hk hkind _ _) fun _ => htrue

theorem contains_checks (k : Key) (payload : String) :
    Checks Key.kind Eq S (contains k payload) fun _ => S := .bind (.lpos _ _) fun _ => .pure _

theorem ownsUnique_safe (unique : Option String) (jobID : String) :
    Safe Key.kind S (ownsUnique unique jobID) := by
  unfold ownsUnique
  split
  · exact holds_safe _ _
  · exact .pure _

theorem releaseUnique_safe (unique : Option String) (owned : Bool) :
    Safe Key.kind S (releaseUnique unique owned) := by
  unfold releaseUnique
  split
  · exact .ite (.del _) (.pure _)
  · exact .pure _

def targetKeys (ts : List Target) : Set Key := {k | ∃ t ∈ ts, k = .queue t.queue}

theorem wantQueues_checks (ts : List Target) :
    Checks Key.kind Eq S (wantQueues ts) fun _ => S ∪ targetKeys ts := by
  induction ts generalizing S with
  | nil => exact .pure_of (by simp [targetKeys])
  | cons t ts ih =>
    refine .bind (want_checks _ _) fun _ => ih.mono fun _ => ?_
    rintro k (hk | ⟨t', ht', rfl⟩)
    · exact Or.inl (Or.inr hk)
    · rcases List.mem_cons.mp ht' with rfl | hlater
      · exact Or.inl (Or.inl rfl)
      · exact Or.inr ⟨t', hlater, rfl⟩

theorem pushTargets_safe {ts : List Target} (hqueues : ts ≠ [] → Key.queues ∈ S)
    (hts : targetKeys ts ⊆ S) : Safe Key.kind S (pushTargets ts) := by
  induction ts with
  | nil => exact .pure _
  | cons t ts ih =>
    have hqueue : Key.queue t.queue ∈ S := hts ⟨t, List.mem_cons_self, rfl⟩
    have hrest : Safe Key.kind S (pushTargets ts) :=
      ih (fun _ => hqueues (List.cons_ne_nil t ts)) fun k hk =>
        hts (hk.imp fun _ h => ⟨List.mem_cons_of_mem _ h.1, h.2⟩)
    rw [pushTargets]
    refine .bind (.sadd (hqueues (List.cons_ne_nil t ts)) rfl _) fun _ =>
      .bind (.lpush hqueue rfl _) fun _ => ?_
    cases t.finalized with
    | none => exact hrest
    | some jid => exact .bind (.set rfl _) fun _ => hrest

theorem zremAll_safe {k : Key} (hk : k ∈ S) (hkind : k.kind = .zset) (vs : List String) :
    Safe Key.kind S (zremAll k vs) := by
  induction vs with
  | nil => exact .pure _
  | cons v vs ih => exact .bind (.zrem hk hkind v) fun _ => ih

/-- The calls of the scripts on the keys of the worker. -/
inductive Call where
  | enqueueNow (queue data : String)
  | enqueueUniqueNow (uniqueKey jobID queue data : String)
  | enqueueUniqueAt (uniqueKey jobID : String) (score : ℤ) (data : String)
  | fetchJob (queue workerID : String)
  | sequentialFetch (queue workerID : String)
  | markJobFinalization (workerID queue jobID payload finalized : String)
  | retryJob (workerID jobID payload : String) (score : ℤ) (newData : String)
  | moveToDeadJob (workerID jobID : String) (unique : Option String) (payload : String) (score : ℤ)
    (newData : String)
  | requeueJob (workerID queue payload data : String)
  | requeueOrphaned (workerID : String)
  /-- On the scheduled set. -/
  | enqueueScheduled (limit : ℕ) (now : ℤ)
  /-- The same script on the retry set. -/
  | enqueueRetries (limit : ℕ) (now : ℤ)
  | ackJob (workerID jobID : String) (unique : Option String) (payload : String)

def Call.script (cj : Cjson) : Call → Script Key Unit
  | .enqueueNow queue data => Senna.enqueueNow queue data
  | .enqueueUniqueNow uniqueKey jobID queue data => do
    let _ ← Senna.enqueueUniqueNow uniqueKey jobID queue data
    pure ()
  | .enqueueUniqueAt uniqueKey jobID score data => do
    let _ ← Senna.enqueueUniqueAt uniqueKey jobID score data
    pure ()
  | .fetchJob queue workerID => do
    let _ ← Senna.fetchJob cj queue workerID
    pure ()
  | .sequentialFetch queue workerID => do
    let _ ← Senna.sequentialFetch cj queue workerID
    pure ()
  | .markJobFinalization workerID queue jobID payload finalized => do
    let _ ← Senna.markJobFinalization workerID queue jobID payload finalized
    pure ()
  | .retryJob workerID jobID payload score newData => do
    let _ ← Senna.retryJob workerID jobID payload score newData
    pure ()
  | .moveToDeadJob workerID jobID unique payload score newData => do
    let _ ← Senna.moveToDeadJob workerID jobID unique payload score newData
    pure ()
  | .requeueJob workerID queue payload data => do
    let _ ← Senna.requeueJob workerID queue payload data
    pure ()
  | .requeueOrphaned workerID => do
    let _ ← Senna.requeueOrphaned cj workerID
    pure ()
  | .enqueueScheduled limit now => do
    let _ ← Senna.enqueueScheduled cj .scheduled limit now
    pure ()
  | .enqueueRetries limit now => do
    let _ ← Senna.enqueueScheduled cj .retry limit now
    pure ()
  | .ackJob workerID jobID unique payload => do
    let _ ← Senna.ackJob workerID jobID unique payload
    pure ()

theorem enqueueNow_intact (queue data : String) : Intact Key.kind Eq ∅ (enqueueNow queue data) :=
  .bind (want_checks _ _) fun _ => .bind (want_checks _ _) fun _ =>
    .of_safe (.bind (.sadd (by simp) rfl _) fun _ => .lpush (by simp) rfl _)

theorem enqueueUniqueNow_intact (uniqueKey jobID queue data : String) :
    Intact Key.kind Eq ∅ (enqueueUniqueNow uniqueKey jobID queue data) := by
  refine .bind (want_checks _ _) fun _ => .bind (.type _) fun _ =>
    .ite (.of_safe (.pure _)) ?_
  refine .bind (want_checks _ _) fun _ => .bind (want_checks _ _) fun _ => .of_safe ?_
  refine .bind (.setNX rfl _) fun _ => .ite ?_ (.pure _)
  exact .bind (.sadd (by simp) rfl _) fun _ => .bind (.lpush (by simp) rfl _) fun _ => .pure _

theorem enqueueUniqueAt_intact (uniqueKey jobID : String) (score : ℤ) (data : String) :
    Intact Key.kind Eq ∅ (enqueueUniqueAt uniqueKey jobID score data) := by
  refine .bind (want_checks _ _) fun _ => .bind (.type _) fun _ =>
    .ite (.of_safe (.pure _)) ?_
  refine .bind (want_checks _ _) fun _ => .of_safe ?_
  exact .bind (.setNX rfl _) fun _ => .ite (.bind (.zadd (by simp) rfl _ _) fun _ => .pure _)
    (.pure _)

theorem fetchJob_intact (cj : Cjson) (queue workerID : String) :
    Intact Key.kind Eq ∅ (fetchJob cj queue workerID) := by
  refine .bind (want_checks _ _) fun _ => .bind (want_checks _ _) fun _ => .of_safe ?_
  refine .bind (.rpop (by simp) rfl) fun payload? => ?_
  split
  · exact .pure _
  · exact .bind (claim_safe _ _) fun _ => .bind (.lpush (by simp) rfl _) fun _ => .pure _

theorem sequentialFetch_intact (cj : Cjson) (queue workerID : String) :
    Intact Key.kind Eq ∅ (sequentialFetch cj queue workerID) := by
  -- the lock is read before the first write, so it need not be checked
  refine .bind (want_checks _ _) fun _ => .bind (want_checks _ _) fun _ => .bind (.get _) fun _ =>
    .ite (.of_safe (.pure _)) (.of_safe ?_)
  refine .bind (.lmove (by simp) (by simp) rfl rfl) fun payload? => ?_
  split
  · exact .pure _
  · refine .bind (claim_safe _ _) fun _ => .ite ?_ (.bind (.set rfl _) fun _ => .pure _)
    exact .bind (replaceFirst_safe (by simp) rfl _ _) fun _ => .bind (.set rfl _) fun _ => .pure _

theorem markJobFinalization_intact (workerID queue jobID payload finalized : String) :
    Intact Key.kind Eq ∅ (markJobFinalization workerID queue jobID payload finalized) := by
  have htrust (S : Set Key) (n : ℕ) :
      Safe Key.kind S (do set (.finalization jobID) finalized; pure n) :=
    .bind (.set rfl _) fun _ => .pure _
  refine .bind (want_checks _ _) fun _ => replaceFirst_intact (by simp) rfl _ _ (htrust _ 1) ?_
  refine .bind (contains_checks _ _) fun _ => .ite (.of_safe (htrust _ 1)) ?_
  refine .bind (want_checks _ _) fun _ => replaceFirst_intact (by simp) rfl _ _ (htrust _ 2) ?_
  exact .bind (contains_checks _ _) fun _ => .ite (.of_safe (htrust _ 2)) (.of_safe (.pure _))

theorem retryJob_intact (workerID jobID payload : String) (score : ℤ) (newData : String) :
    Intact Key.kind Eq ∅ (retryJob workerID jobID payload score newData) := by
  refine .bind (want_checks _ _) fun _ => .bind (want_checks _ _) fun _ => .of_safe ?_
  refine .bind (.lrem (by simp) rfl _) fun _ => .ite (.bind (.del _) fun _ => ?_) (.pure _)
  exact .bind (.zadd (by simp) rfl _ _) fun _ => .pure _

theorem moveToDeadJob_intact (workerID jobID : String) (unique : Option String) (payload : String)
    (score : ℤ) (newData : String) :
    Intact Key.kind Eq ∅ (moveToDeadJob workerID jobID unique payload score newData) := by
  refine .bind (want_checks _ _) fun _ => .bind (want_checks _ _) fun _ => .of_safe ?_
  refine .bind (ownsUnique_safe _ _) fun _ => .bind (.lrem (by simp) rfl _) fun _ =>
    .ite (.bind (.del _) fun _ => .bind (releaseUnique_safe _ _) fun _ => ?_) (.pure _)
  exact .bind (.zadd (by simp) rfl _ _) fun _ => .pure _

theorem requeueJob_intact (workerID queue payload data : String) :
    Intact Key.kind Eq ∅ (requeueJob workerID queue payload data) := by
  refine .bind (want_checks _ _) fun _ => .bind (want_checks _ _) fun _ => .of_safe ?_
  exact .bind (.lrem (by simp) rfl _) fun _ =>
    .ite (.bind (.lpush (by simp) rfl _) fun _ => .pure _) (.pure _)

theorem ackJob_intact (workerID jobID : String) (unique : Option String) (payload : String) :
    Intact Key.kind Eq ∅ (ackJob workerID jobID unique payload) := by
  refine .bind (want_checks _ _) fun _ => .of_safe ?_
  refine .bind (ownsUnique_safe _ _) fun _ => .bind (.lrem (by simp) rfl _) fun _ =>
    .ite (.bind (.del _) fun _ => .bind (releaseUnique_safe _ _) fun _ => .pure _) (.pure _)

theorem requeueOrphaned_intact (cj : Cjson) (workerID : String) :
    Intact Key.kind Eq ∅ (requeueOrphaned cj workerID) := by
  refine .bind (.type _) fun _ => .ite (.of_safe (.pure _)) ?_
  refine .bind (want_checks _ _) fun _ => .bind (want_checks _ _) fun _ =>
    .bind (.lrange _) fun jobs => .ite (.of_safe (.bind (.del _) fun _ => .pure _)) ?_
  refine .bind (wantQueues_checks _) fun _ => .of_safe ?_
  exact .bind (pushTargets_safe (fun _ => by simp) Set.subset_union_right) fun _ =>
    .bind (.del _) fun _ => .pure _

theorem enqueueScheduled_intact (cj : Cjson) {k : Key} (hk : k.kind = .zset) (limit : ℕ) (now : ℤ) :
    Intact Key.kind Eq ∅ (enqueueScheduled cj k limit now) := by
  refine .bind (.type _) fun _ => .ite (.of_safe (.pure _)) ?_
  refine .bind (want_checks _ _) fun _ => .bind (.zrangebyscore _ _ _) fun items =>
    .ite (.of_safe (.pure _)) ?_
  generalize items.filterMap (dueTarget cj) = targets
  refine .bind (wantQueues_checks _) fun _ => ?_
  have hnames : Checks Key.kind Eq (insert k ∅ ∪ targetKeys targets) (wantQueueNames targets)
      fun _ => {k' | k' = k ∨ k' ∈ targetKeys targets ∨ k' = .queues ∧ targets ≠ []} := by
    unfold wantQueueNames
    split
    · refine (want_checks _ _).mono fun _ => ?_
      rintro k' (rfl | hk' | ⟨rfl, -⟩)
      · exact Or.inr (Or.inl (Or.inl rfl))
      · exact Or.inr (Or.inr hk')
      · exact Or.inl rfl
    · next hnone =>
      refine .pure_of ?_
      rintro k' (rfl | hk' | ⟨-, hne⟩)
      · exact Or.inl (Or.inl rfl)
      · exact Or.inr hk'
      · exact absurd hne hnone
  refine .bind hnames fun _ => .of_safe ?_
  refine .bind (zremAll_safe (Or.inl rfl) hk items) fun _ => .bind ?_ fun _ => .pure _
  exact pushTargets_safe (fun hne => Or.inr (Or.inr ⟨rfl, hne⟩)) fun _ h => Or.inr (Or.inl h)

/-- **An error about a type leaves the keys of the worker unchanged.** -/
theorem Call.intact (cj : Cjson) (c : Call) : Intact Key.kind Eq ∅ (c.script cj) := by
  cases c with
  | enqueueNow queue data => exact enqueueNow_intact _ _
  | enqueueUniqueNow uniqueKey jobID queue data => exact (enqueueUniqueNow_intact _ _ _ _).discard
  | enqueueUniqueAt uniqueKey jobID score data => exact (enqueueUniqueAt_intact _ _ _ _).discard
  | fetchJob queue workerID => exact (fetchJob_intact _ _ _).discard
  | sequentialFetch queue workerID => exact (sequentialFetch_intact _ _ _).discard
  | markJobFinalization workerID queue jobID payload finalized =>
    exact (markJobFinalization_intact _ _ _ _ _).discard
  | retryJob workerID jobID payload score newData => exact (retryJob_intact _ _ _ _ _).discard
  | moveToDeadJob workerID jobID unique payload score newData =>
    exact (moveToDeadJob_intact _ _ _ _ _ _).discard
  | requeueJob workerID queue payload data => exact (requeueJob_intact _ _ _ _).discard
  | requeueOrphaned workerID => exact (requeueOrphaned_intact _ _).discard
  | enqueueScheduled limit now | enqueueRetries limit now =>
    exact (enqueueScheduled_intact _ rfl _ _).discard
  | ackJob workerID jobID unique payload => exact (ackJob_intact _ _ _ _).discard

end Worker

/-! ### The script of the periodic scheduler -/

namespace Periodic

theorem periodicEnqueue_intact (name : String) (minuteTS : ℤ) (lockValue queue data : String) :
    Intact Key.kind Eq ∅ (periodicEnqueue (.slot name minuteTS) lockValue queue data) := by
  refine .bind (.expect _ (Key.slot name minuteTS)) fun _ => .bind (.type _) fun _ =>
    .ite (.of_safe (.pure _)) ?_
  refine .bind (.expect _ Key.queues) fun _ => .bind (.expect _ (Key.queue queue)) fun _ => ?_
  refine .of_safe ?_
  refine .bind (.setNX rfl _) fun _ => .ite ?_ (.pure _)
  exact .bind (.sadd (by simp) rfl _) fun _ => .bind (.lpush (by simp) rfl _) fun _ => .pure _

end Periodic

/-! ### The scripts on a batch -/

namespace BatchLua

variable {S : Set Key}

/-- The progress hash was made from the metadata, and nothing else happened. -/
structure Created (rt : Runtime) (id : String) (db db' : Db Key) : Prop where
  absent : db (.progress id) = none
  present : db' (.progress id) ≠ none
  elsewhere : ∀ k, k ≠ .progress id → db' k = db k
  migrated : (migrate rt id (membersLeft id)).run db = .ok () db' ∨
    (migrate rt id noneLeft).run db = .ok () db'

def Migrated (rt : Runtime) (id : String) (db db' : Db Key) : Prop :=
  db' = db ∨ Created rt id db db'

instance (rt : Runtime) (id : String) : Std.Refl (Migrated rt id) := ⟨fun _ => Or.inl rfl⟩

instance (rt : Runtime) (id : String) : IsTrans (Db Key) (Migrated rt id) where
  trans db₁ db₂ db₃ := by
    rintro (rfl | h₁) (rfl | h₂)
    · exact Or.inl rfl
    · exact Or.inr h₂
    · exact Or.inr h₁
    -- it is not created twice
    · exact absurd h₂.absent h₁.present

section Reading

variable {R : Db Key → Db Key → Prop} [Std.Refl R]

theorem field_checks (v : Json) (name : String) :
    Checks Key.kind R S (field v name) fun _ => S := by
  unfold field
  split
  · exact .pure _
  · exact .fail _ _

theorem argument_checks (rt : Runtime) (v : Option Json) :
    Checks Key.kind R S (argument rt v) fun _ => S := by
  unfold argument
  split
  · exact .pure _
  · exact .pure _
  · exact .fail _ _

theorem noneLeft_checks : Checks Key.kind R S noneLeft fun _ => S := .pure _

variable [IsTrans (Db Key) R]

theorem loadBatch_checks (rt : Runtime) (id : String) :
    Checks Key.kind R S (loadBatch rt id) fun _ => S := by
  refine .bind (.get _) fun data => ?_
  split
  · exact .pure _
  · exact .fail _ _

theorem legacyFields_checks (rt : Runtime) (legacy : Json) {pending : Script Key Scalar}
    (hpending : Checks Key.kind R S pending fun _ => S) :
    Checks Key.kind R S (legacyFields rt legacy pending) fun _ => S := by
  have hdefault (name : String) {default : Script Key Scalar}
      (hdefault : Checks Key.kind R S default fun _ => S) :
      Checks Key.kind R S (orDefault rt legacy name default) fun _ => S := by
    refine .bind (field_checks _ _) fun v => ?_
    split
    · exact argument_checks _ _
    · exact hdefault
  have hflag (name : String) : Checks Key.kind R S (flag legacy name) fun _ => S :=
    .bind (field_checks _ _) fun _ => .pure _
  exact .bind (hdefault _ (.pure _)) fun _ => .bind (hdefault _ (.pure _)) fun _ =>
    .bind (hdefault _ (.pure _)) fun _ => .bind (hdefault _ (.pure _)) fun _ =>
    .bind (hdefault _ hpending) fun _ => .bind (hdefault _ (.pure _)) fun _ =>
    .bind (hdefault _ (.pure _)) fun _ => .bind (hdefault _ (.pure _)) fun _ =>
    .bind (hdefault _ (.pure _)) fun _ => .bind (hflag _) fun _ => .bind (hflag _) fun _ =>
    .bind (hflag _) fun _ => .bind (hflag _) fun _ => .bind (hflag _) fun _ => .pure _

theorem membersLeft_checks (id : String) : Checks Key.kind R S (membersLeft id) fun _ => S :=
  .bind (.scard _) fun _ => .pure _

theorem boolField_checks (id name : String) : Checks Key.kind R S (boolField id name) fun _ => S :=
  .bind (.hget _ _) fun _ => .pure _

theorem expectAll_checks (checks : List (String × Key)) :
    Checks Key.kind R S (expectAll checks) fun _ => S ∪ {k | k ∈ checks.map Prod.snd} := by
  induction checks generalizing S with
  | nil => exact .pure_of (by simp)
  | cons c checks ih =>
    refine .bind (.expect _ _) fun _ => ih.mono fun _ => ?_
    rintro k (hk | hk)
    · exact Or.inl (Or.inr hk)
    · rcases List.mem_cons.mp hk with rfl | hlater
      · exact Or.inl (Or.inl rfl)
      · exact Or.inr hlater

theorem expectQueues_checks (jobs : List NewJob) :
    Checks Key.kind R S (expectQueues jobs) fun _ =>
      S ∪ {k | ∃ job ∈ jobs, k = .queue job.queue} := by
  induction jobs generalizing S with
  | nil => exact .pure_of (by simp)
  | cons job jobs ih =>
    refine .bind (.expect _ (Key.queue job.queue)) fun _ => ih.mono fun _ => ?_
    rintro k (hk | ⟨job', hjob', rfl⟩)
    · exact Or.inl (Or.inr hk)
    · rcases List.mem_cons.mp hjob' with rfl | hlater
      · exact Or.inl (Or.inl rfl)
      · exact Or.inr ⟨job', hlater, rfl⟩

end Reading

theorem migrate_checks (rt : Runtime) {id : String} (hprogress : .progress id ∈ S)
    {pending : Script Key Scalar} (hpending : pending = membersLeft id ∨ pending = noneLeft) :
    Checks Key.kind (Migrated rt id) S (migrate rt id pending) fun _ => S := by
  intro db hdb
  by_cases habsent : Db.typeOf (db (.progress id)) = .none
  · -- up to the write, everything is read
    let fields : Script Key (List (String × Scalar)) := do
      let legacy ← loadBatch rt id
      legacyFields rt legacy pending
    have hread : Checks Key.kind Eq S fields fun _ => S := by
      refine .bind (loadBatch_checks _ _) fun legacy => legacyFields_checks _ _ ?_
      rcases hpending with rfl | rfl
      · exact membersLeft_checks _
      · exact noneLeft_checks
    have hrun : (migrate rt id pending).run db = (fields >>= hsetAll (.progress id)).run db := by
      rw [migrate, run_type_bind, if_pos habsent, Script.bind_bind]
    have hfields := hread db hdb
    cases hx : fields.run db with
    | error e db' =>
      rw [hx] at hfields
      rw [hrun, run_bind, hx]
      exact fun he => Or.inl (hfields he).symm
    | ok fs db' =>
      rw [hx] at hfields
      obtain ⟨rfl, -⟩ := hfields
      have hset := hrun.trans ((run_bind_ok hx).trans (run_hsetAll (hdb _ hprogress) fs))
      rw [hset]
      refine ⟨Or.inr ⟨Db.typeOf_eq_none habsent, ?_, fun k hk => ?_, ?_⟩, ?_⟩
      · rw [Db.putHash, Db.write_self]
        exact Option.some_ne_none _
      · rw [Db.putHash, Db.write_apply, if_neg hk]
      · rcases hpending with rfl | rfl
        · exact Or.inl hset
        · exact Or.inr hset
      · intro k hk
        refine (hdb k hk).write fun heq => ?_
        rw [heq]
        exact Or.inr rfl
  · rw [migrate, run_type_bind, if_neg habsent]
    exact ⟨Or.inl rfl, hdb⟩

theorem guarded_intact {α : Type} {R : Db Key → Db Key → Prop} [Std.Refl R] [IsTrans (Db Key) R]
    (id : String) (checks : List (String × Key)) (missing : α) {body : Script Key α}
    (hbody : Intact Key.kind R (insert (.batch id) ∅ ∪ {k | k ∈ checks.map Prod.snd}) body) :
    Intact Key.kind R ∅ (guarded id checks missing body) :=
  .bind (.type _) fun _ => .ite (.of_safe (.pure _)) (.bind (.expect _ (Key.batch id)) fun _ =>
    .bind (expectAll_checks _) fun _ => hbody)

section Writing

theorem field_safe (v : Json) (name : String) : Safe Key.kind S (field v name) := by
  unfold field
  split
  · exact .pure _
  · exact .raised _

theorem argument_safe (rt : Runtime) (v : Option Json) : Safe Key.kind S (argument rt v) := by
  unfold argument
  split
  · exact .pure _
  · exact .pure _
  · exact .raised _

theorem whenever_safe {α : Type} {c : Bool} {x : Script Key α}
    (h : c = true → Safe Key.kind S x) : Safe Key.kind S (whenever c x) := by
  unfold whenever
  split
  · next hc => exact .bind (h hc) fun _ => .pure _
  · exact .pure _

variable {id : String}

theorem loadBatch_safe (rt : Runtime) (hbatch : .batch id ∈ S) :
    Safe Key.kind S (loadBatch rt id) := by
  refine .bind (.onString hbatch rfl fun _ => .pure _) fun data => ?_
  split
  · exact .pure _
  · exact .raised _

theorem boolField_safe (hprogress : .progress id ∈ S) (name : String) :
    Safe Key.kind S (boolField id name) := .bind (.hget hprogress rfl _) fun _ => .pure _

theorem numberField_safe (hprogress : .progress id ∈ S) (name : String) :
    Safe Key.kind S (numberField id name) := .bind (.hget hprogress rfl _) fun _ => .pure _

theorem decrement_safe (hprogress : .progress id ∈ S) (name : String) :
    Safe Key.kind S (decrement id name) :=
  .bind (.hincrby hprogress rfl _ _) fun _ =>
    .bind (whenever_safe fun _ => .hset hprogress rfl _ _) fun _ => .pure _

theorem pushJobs_safe (hjobs : .jobs id ∈ S) {jobs : List NewJob}
    (hqueues : ∀ job ∈ jobs, .queue job.queue ∈ S) : Safe Key.kind S (pushJobs id jobs) := by
  induction jobs with
  | nil => exact .pure _
  | cons job jobs ih =>
    exact .bind (.sadd hjobs rfl _) fun _ =>
      .bind (.lpush (hqueues job List.mem_cons_self) rfl _) fun _ =>
        ih fun job hjob => hqueues job (List.mem_cons_of_mem _ hjob)

theorem encodeCallbacks_safe (rt : Runtime) (hprogress : .progress id ∈ S) (queue now : String)
    (batchID : Option Json) (parentID : Option String) (callbacks : List Callback) :
    Safe Key.kind S (encodeCallbacks rt id queue now batchID parentID callbacks) := by
  induction callbacks with
  | nil => exact .pure _
  | cons callback callbacks ih =>
    rw [encodeCallbacks]
    refine .bind (.hincrby hprogress rfl _ _) fun _ => .bind (argument_safe _ _) fun _ => ?_
    dsimp only
    split
    · exact .bind ih fun _ => .pure _
    · exact .raised _

theorem pushCallbacks_safe {queue : String} (hcallbacks : .callbacks id ∈ S)
    (hqueue : .queue queue ∈ S) (jobs : List (String × String)) :
    Safe Key.kind S (pushCallbacks id queue jobs) := by
  induction jobs with
  | nil => exact .pure _
  | cons job jobs ih =>
    exact .bind (.sadd hcallbacks rfl _) fun _ => .bind (.lpush hqueue rfl _) fun _ => ih

variable (id) in
/-- The keys that `batch_complete.lua` is going to write, or to read on the way, fit. -/
structure Ready (plan : Plan) (queue : String) (S : Set Key) : Prop where
  batch : .batch id ∈ S
  progress : .progress id ∈ S
  jobs : .jobs id ∈ S
  failed : plan.addFailedJob = true → .failed id ∈ S
  deadBatches : plan.addDeadBatch = true → .deadBatches ∈ S
  callbacks : plan.callbacks ≠ [] → .callbacks id ∈ S ∧ .queues ∈ S ∧ .queue queue ∈ S

theorem recordCompletion_safe (rt : Runtime) (jobID : String) (result : Batch.Result)
    (now : String) (before : Before) {plan : Plan} {queue : String} (h : Ready id plan queue S) :
    Safe Key.kind S (recordCompletion rt id jobID result now before plan queue) := by
  have hcallbacks : (!plan.callbacks.isEmpty) = true →
      .callbacks id ∈ S ∧ .queues ∈ S ∧ .queue queue ∈ S := by
    intro hsome
    exact h.callbacks (by simpa using hsome)
  -- behind the name of the batch
  have hrest (batchID : Option Json) : Safe Key.kind S (do
      whenever plan.addDeadBatch (do
        let name ← argument rt batchID
        sadd .deadBatches (print name))
      let jobs ← encodeCallbacks rt id queue now batchID before.parentID plan.callbacks
      whenever (!plan.callbacks.isEmpty) (do
        let _ ← sadd .queues queue
        pushCallbacks id queue jobs)) := by
    refine .bind (whenever_safe fun hdead => .bind (argument_safe _ _) fun _ =>
      .sadd (h.deadBatches hdead) rfl _) fun _ => ?_
    refine .bind (encodeCallbacks_safe rt h.progress _ _ _ _ _) fun jobs =>
      whenever_safe fun hsome => ?_
    obtain ⟨htracked, hqueues, hqueue⟩ := hcallbacks hsome
    exact .bind (.sadd hqueues rfl _) fun _ => pushCallbacks_safe htracked hqueue _
  refine .bind (whenever_safe fun _ => .hincrby h.progress rfl _ _) fun _ => ?_
  refine .bind (whenever_safe fun _ => .hincrby h.progress rfl _ _) fun _ => ?_
  refine .bind (whenever_safe fun _ => .hsetAll h.progress rfl _) fun _ => ?_
  refine .bind (whenever_safe fun _ => .hincrby h.progress rfl _ _) fun _ => ?_
  refine .bind (whenever_safe fun _ => .srem h.jobs rfl _) fun _ => ?_
  refine .bind (whenever_safe fun hfailed => .sadd (h.failed hfailed) rfl _) fun _ => ?_
  split
  · exact hrest _
  · exact .bind (loadBatch_safe rt h.batch) fun _ => .bind (field_safe _ _) hrest

variable (hprogress : .progress id ∈ S)

include hprogress

theorem callbackComplete_safe (hcallbacks : .callbacks id ∈ S)
    (jobID : String) : Safe Key.kind S (callbackComplete id jobID) := by
  refine .bind (.hget hprogress rfl _) fun _ => .bind (.srem hcallbacks rfl _) fun _ => .ite ?_ ?_
  · exact .bind (numberField_safe hprogress _) fun _ => .bind (numberField_safe hprogress _) fun _ =>
      .bind (boolField_safe hprogress _) fun _ => .bind (boolField_safe hprogress _) fun _ => .pure _
  · refine .bind (.hincrby hprogress rfl _ _) fun _ =>
      .bind (whenever_safe fun _ => .hset hprogress rfl _ _) fun _ => ?_
    exact .bind (numberField_safe hprogress _) fun _ => .bind (boolField_safe hprogress _) fun _ =>
      .bind (boolField_safe hprogress _) fun _ => .bind (boolField_safe hprogress _) fun _ => .pure _

theorem addChild_safe (hjobs : .jobs id ∈ S) (childID : String) :
    Safe Key.kind S (addChild id childID) := by
  refine .bind (boolField_safe hprogress _) fun _ => .ite (.pure _) ?_
  refine .bind (.sadd hjobs rfl _) fun _ => .ite (.pure _) ?_
  exact .bind (.hincrby hprogress rfl _ _) fun _ => .bind (.hincrby hprogress rfl _ _) fun _ =>
    .bind (boolField_safe hprogress _) fun _ =>
      .bind (whenever_safe fun _ => .hsetAll hprogress rfl _) fun _ => .pure _

theorem removeChild_safe (hjobs : .jobs id ∈ S)
    (childID : String) : Safe Key.kind S (removeChild id childID) := by
  refine .bind (.srem hjobs rfl _) fun _ => .ite (.pure _) ?_
  refine .bind (decrement_safe hprogress _) fun _ => .bind (decrement_safe hprogress _) fun _ =>
    .ite ?_ (.pure _)
  exact .bind (.hset hprogress rfl _ _) fun _ => .bind (boolField_safe hprogress _) fun _ =>
    .bind (boolField_safe hprogress _) fun _ =>
      .bind (whenever_safe fun _ => .hset hprogress rfl _ _) fun _ => .pure _

theorem invalidate_safe : Safe Key.kind S (invalidate id) :=
  .bind (.hset hprogress rfl _ _) fun _ => .bind (numberField_safe hprogress _) fun _ => .pure _

end Writing

section Planning

variable {R : Db Key → Db Key → Prop} [Std.Refl R] [IsTrans (Db Key) R] {id : String}

/-- The keys that fit once it is known what is going to be written: the failed set has been looked
at if it is to be written. -/
def planned (id : String) (S : Set Key) (plan : Plan) : Set Key :=
  {k | k ∈ S ∨ k = .failed id ∧ plan.addFailedJob = true}

theorem planned_of_not {plan : Plan} (h : plan.addFailedJob = false) : planned id S plan ⊆ S := by
  rintro k (hk | ⟨-, hadd⟩)
  · exact hk
  · rw [h] at hadd
    cases hadd

theorem planned_subset_insert (plan : Plan) : planned id S plan ⊆ insert (.failed id) S := by
  rintro k (hk | ⟨rfl, -⟩)
  · exact Or.inr hk
  · exact Or.inl rfl

theorem notFailed_checks (jobID : String) :
    Checks Key.kind R S (notFailed id jobID) fun _ => insert (.failed id) S :=
  .bind (.expect _ (Key.failed id)) fun _ => .bind (.sismember _ _) fun _ => .pure _

theorem makeCallback_checks (callbackType : Batch.CallbackType) (config : Json) {plan : Plan}
    {S' : Set Key} (h : planned id S plan ⊆ S') :
    Checks Key.kind R S' (makeCallback callbackType config plan) (planned id S) :=
  .bind (field_checks _ _) fun _ => .bind (field_checks _ _) fun _ => .pure_of h

theorem planResult_checks (rt : Runtime) (jobID : String) (before : Before)
    (result : Batch.Result) :
    Checks Key.kind R S (planResult rt id jobID before result) (planned id S) := by
  cases result with
  | success | invalidated | emptySuccess => exact .pure_of (planned_of_not rfl)
  | failure => exact .bind (notFailed_checks jobID) fun _ => .pure_of (planned_subset_insert _)
  | death =>
    refine .bind (notFailed_checks jobID) fun _ => .ite (.pure_of (planned_subset_insert _))
      (.ite (.pure_of (planned_subset_insert _)) ?_)
    refine .bind (loadBatch_checks _ _) fun _ => .bind (field_checks _ _) fun _ => ?_
    split
    · exact makeCallback_checks _ _ (planned_subset_insert _)
    · exact .pure_of (planned_subset_insert _)

theorem planCompletion_checks (rt : Runtime) (plan : Plan) :
    Checks Key.kind R (planned id S plan) (planCompletion rt id plan) (planned id S) := by
  unfold planCompletion
  refine .ite ?_ (.pure_of subset_rfl)
  refine .bind (loadBatch_checks _ _) fun metadata => .bind (field_checks _ _) fun _ => ?_
  -- with a complete callback or without one, the success callback is next
  split
  all_goals
    refine .bind ?_ fun _ =>
      .ite (.bind (field_checks _ _) fun _ => ?_) (.pure_of subset_rfl)
    · first | exact makeCallback_checks _ _ subset_rfl | exact .pure_of subset_rfl
    · split
      · exact makeCallback_checks _ _ subset_rfl
      · exact .pure_of subset_rfl

def targeted (id : String) (S : Set Key) (plan : Plan) (queue : String) : Set Key :=
  {k | k ∈ S ∨ plan.callbacks ≠ [] ∧ (k = .callbacks id ∨ k = .queues ∨ k = .queue queue)}

theorem callbackTarget_checks (rt : Runtime) (plan : Plan) :
    Checks Key.kind R S (callbackTarget rt id plan) (targeted id S plan) := by
  have hqueue : Checks Key.kind R S (callbackQueue rt id) fun _ => S := by
    refine .bind (.hget _ _) fun _ => ?_
    split
    · exact .pure _
    · refine .bind (loadBatch_checks _ _) fun _ => .bind (field_checks _ _) fun _ => ?_
      split
      · exact .pure _
      · exact .pure _
  unfold callbackTarget
  split
  · refine .bind hqueue fun queue => .bind (.expect _ (Key.callbacks id)) fun _ =>
      .bind (.expect _ Key.queues) fun _ => .bind (.expect _ (Key.queue queue)) fun _ =>
        .pure_of ?_
    rintro k (hk | ⟨-, rfl | rfl | rfl⟩) <;> simp_all
  · next hnone =>
    refine .pure_of ?_
    rintro k (hk | ⟨hsome, -⟩)
    · exact hk
    · exact absurd hsome hnone

theorem ready_of_subset (hbatch : .batch id ∈ S) (hprogress : .progress id ∈ S)
    (hjobs : .jobs id ∈ S) (plan : Plan) (queue : String) {S' : Set Key}
    (hsub : targeted id (planned id S plan) plan queue ⊆ S')
    (hdead : plan.addDeadBatch = true → .deadBatches ∈ S') : Ready id plan queue S' where
  batch := hsub (Or.inl (Or.inl hbatch))
  progress := hsub (Or.inl (Or.inl hprogress))
  jobs := hsub (Or.inl (Or.inl hjobs))
  failed hadd := hsub (Or.inl (Or.inr ⟨rfl, hadd⟩))
  deadBatches := hdead
  callbacks hsome := by
    refine ⟨hsub ?_, hsub ?_, hsub ?_⟩
    · exact Or.inr ⟨hsome, Or.inl rfl⟩
    · exact Or.inr ⟨hsome, Or.inr (Or.inl rfl)⟩
    · exact Or.inr ⟨hsome, Or.inr (Or.inr rfl)⟩

theorem complete_intact (rt : Runtime) (hbatch : .batch id ∈ S) (hprogress : .progress id ∈ S)
    (hjobs : .jobs id ∈ S) (jobID : String) (result : Batch.Result) (now : String) :
    Intact Key.kind R S (complete rt id jobID result now) := by
  have hrefusal (before : Before) :
      Checks Key.kind R S (refusal id jobID result before) fun _ => S :=
    .ite (.ite (.pure _) (.ite (.pure _) (.pure _)))
      (.bind (.sismember _ _) fun _ => .pure _)
  refine .bind (.hmget _) fun progress => .bind (.scard _) fun members =>
    .bind (hrefusal _) fun refused => ?_
  split
  · exact .of_safe (.pure _)
  refine .bind (planResult_checks _ _ _ _) fun plan => .bind (planCompletion_checks _ _) fun plan =>
    .bind (callbackTarget_checks _ _) fun queue => ?_
  dsimp only
  split
  · refine .bind (.expect _ Key.deadBatches) fun _ => .of_safe ?_
    have hready := ready_of_subset hbatch hprogress hjobs plan queue
      (Set.subset_insert Key.deadBatches _) fun _ => Set.mem_insert Key.deadBatches _
    exact .bind (recordCompletion_safe _ _ _ _ _ hready) fun _ => .pure _
  · next hnot =>
    have hready := ready_of_subset hbatch hprogress hjobs plan queue subset_rfl
      fun hadd => absurd hadd hnot
    exact .of_safe (.bind (recordCompletion_safe _ _ _ _ _ hready) fun _ => .pure _)

theorem addJobs_intact (hprogress : .progress id ∈ S) (hjobs : .jobs id ∈ S)
    (jobs : List NewJob) : Intact Key.kind R S (addJobs id jobs) := by
  refine .bind (boolField_checks _ _) fun _ => .ite (.of_safe (.pure _)) ?_
  refine .bind (boolField_checks _ _) fun _ => .ite (.of_safe (.pure _)) ?_
  refine .bind (expectQueues_checks _) fun _ => .of_safe ?_
  have hcounted : .progress id ∈ S ∪ {k | ∃ job ∈ jobs, k = .queue job.queue} := Or.inl hprogress
  refine .bind (pushJobs_safe (Or.inl hjobs) fun job hjob => Or.inr ⟨job, hjob, rfl⟩) fun _ => ?_
  exact .bind (.hincrby hcounted rfl _ _) fun _ => .bind (.hincrby hcounted rfl _ _) fun _ => .pure _

end Planning

/-- **An error about a type leaves a batch unchanged**, but for a missing progress hash. -/
theorem Call.intact (rt : Runtime) (id : String) (c : Call) :
    Intact Key.kind (Migrated rt id) ∅ (c.script rt id) := by
  cases c with
  | complete jobID result now =>
    refine (guarded_intact _ _ _ ?_).discard
    exact .bind (migrate_checks rt (by simp) (Or.inl rfl)) fun _ =>
      complete_intact rt (by simp) (by simp) (by simp) _ _ _
  | callbackComplete jobID =>
    refine (guarded_intact _ _ _ ?_).discard
    exact .bind (migrate_checks rt (by simp) (Or.inr rfl)) fun _ =>
      .of_safe (callbackComplete_safe (by simp) (by simp) _)
  | addJobs jobs =>
    refine (guarded_intact _ _ _ ?_).discard
    exact .bind (migrate_checks rt (by simp) (Or.inl rfl)) fun _ =>
      addJobs_intact (by simp) (by simp) _
  | addChild childID =>
    refine (guarded_intact _ _ _ ?_).discard
    exact .bind (migrate_checks rt (by simp) (Or.inl rfl)) fun _ =>
      .of_safe (addChild_safe (by simp) (by simp) _)
  | removeChild childID =>
    refine (guarded_intact _ _ _ ?_).discard
    exact .bind (migrate_checks rt (by simp) (Or.inl rfl)) fun _ =>
      .of_safe (removeChild_safe (by simp) (by simp) _)
  | invalidate =>
    refine (guarded_intact _ _ _ ?_).discard
    exact .bind (migrate_checks rt (by simp) (Or.inr rfl)) fun _ =>
      .of_safe (invalidate_safe (by simp))

theorem batchEnqueueJobs_intact (id : String) (jobs : List NewJob) :
    Intact Key.kind Eq ∅ (batchEnqueueJobs id jobs) := by
  refine .bind (.expect _ (Key.jobs id)) fun _ => .bind (expectQueues_checks _) fun _ => .of_safe ?_
  exact pushJobs_safe (Or.inl (Or.inl rfl)) fun job hjob => Or.inr ⟨job, hjob, rfl⟩

end BatchLua

/-! ### All scripts -/

/-- **A call that ends with an error about a type has changed nothing.** On a batch, a missing
progress hash may have been created. -/
theorem type_error_leaves_unchanged :
    (∀ (cj : Cjson) (c : Call) (db db' : Db Key) (e : Error),
      (c.script cj).run db = .error e db' → e.IsType → db' = db) ∧
    (∀ (name : String) (minuteTS : ℤ) (lockValue queue data : String) (db db' : Db Periodic.Key)
      (e : Error), (Periodic.periodicEnqueue (.slot name minuteTS) lockValue queue data).run db =
        .error e db' → e.IsType → db' = db) ∧
    (∀ (id : String) (jobs : List BatchLua.NewJob) (db db' : Db BatchLua.Key) (e : Error),
      (BatchLua.batchEnqueueJobs id jobs).run db = .error e db' → e.IsType → db' = db) ∧
    ∀ (rt : BatchLua.Runtime) (id : String) (c : BatchLua.Call) (db db' : Db BatchLua.Key)
      (e : Error), (c.script rt id).run db = .error e db' → e.IsType →
        BatchLua.Migrated rt id db db' := by
  refine ⟨?_, ?_, ?_, ?_⟩
  · intro cj c db db' e hrun he
    exact ((c.intact cj).unchanged hrun he).symm
  · intro name minuteTS lockValue queue data db db' e hrun he
    exact ((Periodic.periodicEnqueue_intact _ _ _ _ _).unchanged hrun he).symm
  · intro id jobs db db' e hrun he
    exact ((BatchLua.batchEnqueueJobs_intact id jobs).unchanged hrun he).symm
  · intro rt id c db db' e hrun he
    exact (c.intact rt id).unchanged hrun he

def brokenQueue : Db BatchLua.Key := fun
  | .queue "broken" => some (.string "")
  | _ => none

theorem type_error_leaves_unchanged_brokenQueue : ∃ e db',
    (BatchLua.batchEnqueueJobs "b" [⟨"j", "q", "x"⟩, ⟨"k", "broken", "y"⟩]).run brokenQueue =
      .error e db' ∧ e.IsType ∧ db' = brokenQueue := by
  have hrun : (BatchLua.batchEnqueueJobs "b" [⟨"j", "q", "x"⟩, ⟨"k", "broken", "y"⟩]).run
      brokenQueue = .error (.reply "queue key has type string, want list") brokenQueue := rfl
  have he : (Error.reply "queue key has type string, want list").IsType :=
    ⟨"queue", .string, .list, rfl⟩
  exact ⟨_, _, hrun, he, type_error_leaves_unchanged.2.2.1 _ _ _ _ _ hrun he⟩

end Senna
