import Senna.Worker.Sequential

/-!
# Sequential queues: the order of the jobs

`enqueue_now` pushes to the left of a queue and `sequential_fetch` takes from the right, so the
list is in order of arrival, the newest first. A fetch needs the lock, so a job is not handed out
while the one before it is still in flight. Two scripts put jobs back: `requeue_job` for an
interrupted job and `requeue_orphaned` for what a stopped worker had in flight. Both push to the
*left*, so a job that is put back ends up behind all that arrived after it.

The machine of this module refines the label `other` of the lock machine: every script that touches
the jobs of the queue is a label of its own, and a worker may crash. Which worker runs a script,
and when, is not restricted. Three lists record what has happened, newest first: the jobs that
arrived on the queue, those that were handed out and not put back, and those that were finished by
`ack_job`, `retry_job` or `move_to_dead_job`.

**Order.** If a job is put back only when nothing waits behind it, and the lock is not given up
while a job of the queue is in flight (`Line.Orderly`), the arrivals are at every moment the jobs
that wait followed by those that were handed out, and those that were handed out are the finished
ones and at most one more (`Line.InOrder`). Without the condition an interrupted job is overtaken.
-/

namespace Senna

open Redis

def ownID (queue payload : String) : Option String :=
  match Json.parse payload with
  | some (.obj ms) =>
    match Json.lookup "queue" ms with
    | some (.str s) => if s = queue then payloadID payload else none
    | _ => none
  | _ => none

theorem ownID_marshal (queue : String) (job : Job) :
    ownID queue job.marshal = if job.queue = queue then some job.id else none := by
  have hqueue : Json.lookup "queue" (job.required ++ job.optional ++ job.marker) =
      some (.str job.queue) := job.member_queue
  have hid := payloadID_marshal job
  have hparse : Json.parse job.marshal =
      some (.obj (job.required ++ job.optional ++ job.marker)) := Json.parse_render _
  simp only [ownID, hid, hparse, hqueue]

namespace Sequential

/-! ### The machine -/

/-- How a delivery ends. -/
inductive Ending where
  | ack (jobID : String) (unique : Option String)
  | retry (jobID : String) (score : ℤ) (newData : String)
  | dead (jobID : String) (unique : Option String) (score : ℤ) (newData : String)

def Ending.script (workerID payload : String) : Ending → Script Key ℕ
  | .ack jobID unique => ackJob workerID jobID unique payload
  | .retry jobID score newData => retryJob workerID jobID payload score newData
  | .dead jobID unique score newData => moveToDeadJob workerID jobID unique payload score newData

/-- One sequential queue with its jobs. -/
structure Line where
  core : State
  /-- The workers that have crashed. -/
  dead : List String
  arrived : List String
  handed : List String
  finished : List String

/-- A label of the machine. -/
inductive Label where
  /-- A step of the lock machine. -/
  | lock (e : Event)
  | enqueue (job : Job)
  /-- `MarkFinalization`. -/
  | mark (worker jobID payload finalized : String)
  | finish (worker payload : String) (how : Ending)
  /-- An interrupted job is put back. -/
  | requeue (worker payload data : String)
  /-- `requeue_orphaned` on the in-flight list of a worker, dead or not. -/
  | reap (worker : String)
  | crash (worker : String)

def Event.worker : Event → Option String
  | .take w _ | .fetch w _ _ | .discard w _ _ | .prepare w _ _ | .abandon w _ _ | .drain w _
  | .release w _ | .unlock w _ _ | .free w _ | .renew w => some w
  | .expire | .other _ => none

section Steps

variable (cj : Cjson) (queue : String)

def waiting (db : Db Key) : List String := (db.list (.queue queue)).filterMap (ownID queue)

def aloft (db : Db Key) (worker : String) : List String :=
  (db.list (.inFlight worker)).filterMap (ownID queue)

def handedOut (db : Db Key) (worker : String) : Call → List String
  | .delivered =>
    match (sequentialFetch cj queue worker).run db with
    | .ok (.job payload) _ => (ownID queue payload).toList
    | _ => []
  | _ => []

def State.crash (s : State) (worker : String) : State :=
  { s with
    sema := Function.update s.sema worker false
    held := Function.update s.held worker false
    phase := Function.update s.phase worker fun _ => .idle }

namespace Line

def init : Line := ⟨.init, [], [], [], []⟩

def exec {α : Type} (s : Line) (script : Script Key α) : Line :=
  { s with core := { s.core with db := (script.run s.core.db).db } }

def step (s : Line) : Label → Line
  | .lock e =>
    { s with
      core := s.core.step cj queue e
      handed := match e with
        | .fetch worker _ call => handedOut cj queue s.core.db worker call ++ s.handed
        | _ => s.handed }
  | .enqueue job =>
    { s.exec (enqueueNow queue job.marshal) with arrived := job.id :: s.arrived }
  | .mark worker jobID payload finalized =>
    s.exec (markJobFinalization worker queue jobID payload finalized)
  | .finish worker payload how =>
    { s.exec (how.script worker payload) with
      finished :=
        if payload ∈ s.core.db.list (.inFlight worker) then
          (ownID queue payload).toList ++ s.finished
        else s.finished }
  | .requeue worker payload data =>
    { s.exec (requeueJob worker queue payload data) with
      handed := if payload ∈ s.core.db.list (.inFlight worker) then s.handed.tail else s.handed }
  | .reap worker =>
    { s.exec (requeueOrphaned cj worker) with
      handed := s.handed.drop (aloft queue s.core.db worker).length }
  | .crash worker => { s with core := s.core.crash worker, dead := worker :: s.dead }

/-- What holds of the surroundings. The steps of the lock machine are as there, by workers that are
alive, and do not change which job a payload belongs to; what else happens in the system leaves the
jobs of the queue alone. -/
def Permits (s : Line) : Label → Prop
  | .lock e => s.core.Permits cj queue e ∧ (∀ w ∈ e.worker, w ∉ s.dead) ∧
      match e with
      | .fetch _ _ _ => ∀ payload payload', (s.core.db.list (.queue queue)).getLast? = some payload →
          held cj (trustedIn s.core.db) payload = some payload' →
            ownID queue payload' = ownID queue payload
      | .prepare worker i (.sanitized sanitized _) => ∀ payload job,
          s.core.phase worker i = .preparing payload job →
            ownID queue sanitized = ownID queue payload
      | .other db => db.list (.queue queue) = s.core.db.list (.queue queue) ∧
          ∀ worker, aloft queue db worker = aloft queue s.core.db worker
      | _ => True
  | .enqueue job => job.queue = queue
  | .mark _ _ payload finalized => ownID queue finalized = ownID queue payload
  | .finish _ _ _ => True
  | .requeue _ payload data => ∃ id, ownID queue payload = some id ∧ ownID queue data = some id
  | .reap worker => ∀ payload ∈ s.core.db.list (.inFlight worker), ∀ target,
      orphanTarget cj payload = some target →
        (target.queue = queue ↔ ownID queue payload ≠ none)
  | .crash _ => True

/-- **The condition for the order.** A fetch that takes a job of the queue hands it out: its reply
arrives, and the payload can be held and read. No fetched job is given up: where it is sanitized,
the payload is still in flight. The lock is released, or lost by a dead worker, only when no job of the
queue is in flight there; and a job is put back only when no other waits, and can be read by the
script. -/
def Orderly (s : Line) : Label → Prop
  | .lock (.fetch worker _ call) =>
    call ≠ .failed →
      (∀ holder, s.core.db.str (.sequentialLock queue) = some holder → holder = worker) →
        ∀ payload, (s.core.db.list (.queue queue)).getLast? = some payload →
          ownID queue payload ≠ none →
            call = .delivered ∧ ∃ payload' job,
              held cj (trustedIn s.core.db) payload = some payload' ∧
                unmarshalJob payload' = some job
  | .lock (.prepare _ _ .accepted) => True
  | .lock (.prepare worker i (.sanitized _ call)) =>
    call = .delivered ∧ ∀ payload job, s.core.phase worker i = .preparing payload job →
      payload ∈ s.core.db.list (.inFlight worker)
  | .lock (.prepare _ _ .failed) => False
  | .lock (.discard worker i _) =>
    ∀ payload, s.core.phase worker i = .discarding payload → ownID queue payload = none
  | .lock (.release worker _) => aloft queue s.core.db worker = []
  | .lock .expire => ∀ worker, s.core.db.str (.sequentialLock queue) = some worker →
      aloft queue s.core.db worker = []
  | .requeue _ _ _ => waiting queue s.core.db = []
  | .reap worker => aloft queue s.core.db worker = [] ∨ waiting queue s.core.db = [] ∧
      ∀ payload ∈ s.core.db.list (.inFlight worker), ownID queue payload ≠ none →
        orphanTarget cj payload ≠ none
  | _ => True

end Line

end Steps

def lineMachine (cj : Cjson) (queue : String) : Machine Line Label where
  permits := Line.Permits cj queue
  step := Line.step cj queue

/-! ### What the scripts do to the jobs of the queue -/

section Effects

variable {cj : Cjson} {queue worker payload : String} {db : Db Key}

theorem filterMap_set {f : String → Option String} {l : List String} {p p' : String}
    (hf : f p' = f p) : (l.set (l.idxOf p) p').filterMap f = l.filterMap f := by
  induction l with
  | nil => rfl
  | cons a l ih =>
    by_cases h : a = p
    · subst h
      simp [hf, List.filterMap_cons]
    · rw [List.idxOf_cons_ne _ h, List.set_cons_succ, List.filterMap_cons, List.filterMap_cons, ih]

theorem perm_filterMap_erase {f : String → Option String} {l : List String} {p : String}
    (hp : p ∈ l) : (l.filterMap f).Perm ((f p).toList ++ (l.erase p).filterMap f) := by
  have h := (List.perm_cons_erase hp).filterMap f
  rw [List.filterMap_cons] at h
  cases hf : f p with
  | none | some id => rw [hf] at h; exact h

theorem filterMap_erase_of_none {f : String → Option String} {l : List String} {p : String}
    (hf : f p = none) : (l.erase p).filterMap f = l.filterMap f := by
  induction l with
  | nil => rfl
  | cons a l ih =>
    by_cases h : a = p
    · subst h
      simp [hf]
    · rw [List.erase_cons_tail (by simpa using h), List.filterMap_cons, List.filterMap_cons, ih]

/-- The lists that hold the jobs of the queue. -/
structure Moved (queue : String) (db db' : Db Key) (line : List String)
    (flights : String → List String) : Prop where
  typed : WellTyped db'
  lock : db'.str (.sequentialLock queue) = db.str (.sequentialLock queue)
  line : db'.list (.queue queue) = line
  flights : ∀ worker, db'.list (.inFlight worker) = flights worker

theorem Moved.of_not_mem (h : WellTyped db) (hin : payload ∉ db.list (.inFlight worker)) :
    Moved queue db db (db.list (.queue queue))
      fun v => if v = worker then (db.list (.inFlight v)).erase payload
        else db.list (.inFlight v) := by
  refine ⟨h, rfl, rfl, fun v => ?_⟩
  split
  · next hv => rw [hv, List.erase_of_not_mem hin]
  · rfl

theorem moved_finish (h : WellTyped db) (how : Ending) :
    Moved queue db ((how.script worker payload).run db).db (db.list (.queue queue))
      fun v => if v = worker then (db.list (.inFlight v)).erase payload
        else db.list (.inFlight v) := by
  have hlist := h.putList (k := .inFlight worker) rfl ((db.list (.inFlight worker)).erase payload)
  have hsame : ∀ {db₁ : Db Key} {unique : Option String} {jobID : String} (k : Key),
      (∀ key, k ≠ .unique key) → (dropUnique db₁ unique jobID).list k = db₁.list k ∧
        (dropUnique db₁ unique jobID).str k = db₁.str k := by
    intro db₁ unique jobID k hk
    unfold Db.list Db.str
    rw [dropUnique_apply _ _ _ hk]
    exact ⟨rfl, rfl⟩
  by_cases hin : payload ∈ db.list (.inFlight worker)
  · cases how with
    | ack jobID unique =>
      simp only [Ending.script, run_ackJob h, if_pos hin]
      refine ⟨(hlist.del _).dropUnique _ _, ?_, ?_, fun v => ?_⟩
      · rw [Outcome.db, (hsame _ fun _ => Key.noConfusion).2]
        simp
      · rw [Outcome.db, (hsame _ fun _ => Key.noConfusion).1]
        simp
      · rw [Outcome.db, (hsame _ fun _ => Key.noConfusion).1]
        by_cases hv : v = worker <;> simp [hv]
    | retry jobID score newData =>
      simp only [Ending.script, run_retryJob h, if_pos hin]
      refine ⟨(hlist.del _).putZset rfl _, ?_, ?_, fun v => ?_⟩
      · simp [Outcome.db]
      · simp [Outcome.db]
      · by_cases hv : v = worker <;> simp [Outcome.db, hv]
    | dead jobID unique score newData =>
      simp only [Ending.script, run_moveToDeadJob h, if_pos hin]
      refine ⟨((hlist.del _).dropUnique _ _).putZset rfl _, ?_, ?_, fun v => ?_⟩
      · simp [Outcome.db, (hsame (.sequentialLock queue) fun _ => Key.noConfusion).2]
      · simp [Outcome.db, (hsame (.queue queue) fun _ => Key.noConfusion).1]
      · by_cases hv : v = worker <;>
          simp [Outcome.db, (hsame (.inFlight _) fun _ => Key.noConfusion).1, hv]
  · have hnone : ((how.script worker payload).run db).db = db := by
      cases how with
      | ack jobID unique => simp only [Ending.script, run_ackJob h, if_neg hin, Outcome.db]
      | retry jobID score newData => simp only [Ending.script, run_retryJob h, if_neg hin, Outcome.db]
      | dead jobID unique score newData =>
        simp only [Ending.script, run_moveToDeadJob h, if_neg hin, Outcome.db]
    rw [hnone]
    exact .of_not_mem h hin

theorem moved_enqueueNow (h : WellTyped db) : Moved queue db ((enqueueNow queue payload).run db).db
    (payload :: db.list (.queue queue)) (fun v => db.list (.inFlight v)) := by
  rw [run_enqueueNow h]
  exact ⟨(h.putSet rfl _).putList rfl _, by simp [Outcome.db], by simp [Outcome.db],
    fun v => by simp [Outcome.db]⟩

theorem moved_requeueJob (h : WellTyped db) (data : String) :
    Moved queue db ((requeueJob worker queue payload data).run db).db
      (if payload ∈ db.list (.inFlight worker) then data :: db.list (.queue queue)
        else db.list (.queue queue))
      fun v => if v = worker then (db.list (.inFlight v)).erase payload
        else db.list (.inFlight v) := by
  rw [run_requeueJob h]
  split
  · refine ⟨(h.putList rfl _).putList rfl _, by simp [Outcome.db], by simp [Outcome.db], fun v => ?_⟩
    by_cases hv : v = worker <;> simp [Outcome.db, hv]
  · next hin => exact .of_not_mem h hin

theorem mark_effect (h : WellTyped db) {jobID finalized : String}
    (hid : ownID queue finalized = ownID queue payload) :
    let db' := ((markJobFinalization worker queue jobID payload finalized).run db).db
    WellTyped db' ∧ db'.str (.sequentialLock queue) = db.str (.sequentialLock queue) ∧
      waiting queue db' = waiting queue db ∧ ∀ v, aloft queue db' v = aloft queue db v := by
  intro db'
  have hdb : db' = ((markJobFinalization worker queue jobID payload finalized).run db).db := rfl
  clear_value db'
  rw [run_markJobFinalization h] at hdb
  unfold waiting aloft
  split at hdb
  · subst hdb
    refine ⟨(h.putList rfl _).putStr rfl _, by simp [Outcome.db], by simp [Outcome.db], fun v => ?_⟩
    by_cases hv : v = worker
    · subst hv
      simp [Outcome.db, filterMap_set hid]
    · simp [Outcome.db, hv]
  · split at hdb
    · subst hdb
      exact ⟨h.putStr rfl _, by simp [Outcome.db], by simp [Outcome.db],
        fun v => by simp [Outcome.db]⟩
    · split at hdb
      · subst hdb
        refine ⟨(h.putList rfl _).putStr rfl _, by simp [Outcome.db], ?_,
          fun v => by simp [Outcome.db]⟩
        simp [Outcome.db, filterMap_set hid]
      · split at hdb
        · subst hdb
          exact ⟨h.putStr rfl _, by simp [Outcome.db], by simp [Outcome.db],
            fun v => by simp [Outcome.db]⟩
        · subst hdb
          exact ⟨h, rfl, rfl, fun _ => rfl⟩

theorem filterMap_orphanTarget {l : List String}
    (hown : ∀ p ∈ l, ∀ target, orphanTarget cj p = some target →
      (target.queue = queue ↔ ownID queue p ≠ none))
    (hread : ∀ p ∈ l, ownID queue p ≠ none → orphanTarget cj p ≠ none) :
    (((l.filterMap (orphanTarget cj)).filter (·.queue = queue)).map (·.data)).filterMap
      (ownID queue) = l.filterMap (ownID queue) := by
  induction l with
  | nil => rfl
  | cons p l ih =>
    have ih := ih (fun p hp => hown p (List.mem_cons_of_mem _ hp))
      fun p hp => hread p (List.mem_cons_of_mem _ hp)
    have hhead := hown p List.mem_cons_self
    rw [List.filterMap_cons, List.filterMap_cons]
    cases htarget : orphanTarget cj p with
    | none =>
      have hnone : ownID queue p = none := by
        by_contra hne
        exact hread p List.mem_cons_self hne htarget
      rw [hnone]
      exact ih
    | some target =>
      have hdata := data_of_orphanTarget htarget
      have hqueue := hhead target htarget
      cases hid : ownID queue p with
      | none =>
        have hother : target.queue ≠ queue := fun h => hqueue.mp h hid
        simp only [List.filter_cons, hother, decide_false, Bool.false_eq_true, if_false]
        exact ih
      | some id =>
        have hmine : target.queue = queue := hqueue.mpr (hid ▸ Option.some_ne_none _)
        simp only [List.filter_cons, hmine, decide_true, if_true, List.map_cons, hdata,
          List.filterMap_cons, hid]
        rw [ih]

theorem reap_effect (h : WellTyped db)
    (hown : ∀ p ∈ db.list (.inFlight worker), ∀ target, orphanTarget cj p = some target →
      (target.queue = queue ↔ ownID queue p ≠ none))
    (hread : ∀ p ∈ db.list (.inFlight worker), ownID queue p ≠ none → orphanTarget cj p ≠ none) :
    let db' := ((requeueOrphaned cj worker).run db).db
    WellTyped db' ∧ db'.str (.sequentialLock queue) = db.str (.sequentialLock queue) ∧
      waiting queue db' = (aloft queue db worker).reverse ++ waiting queue db ∧
      ∀ v, aloft queue db' v = if v = worker then [] else aloft queue db v := by
  intro db'
  have hdb : db' = ((requeueOrphaned cj worker).run db).db := rfl
  clear_value db'
  rw [run_requeueOrphaned h] at hdb
  obtain ⟨hline, hlock, hflights⟩ := @list_foldl_pushTarget queue
    ((db.list (.inFlight worker)).filterMap (orphanTarget cj)) db
  have hlineDel : db'.list (.queue queue) = _ := (by rw [hdb]; simp : _ = _).trans hline
  subst hdb
  refine ⟨(h.foldl_pushTarget _).del _, ?_, ?_, fun v => ?_⟩
  · exact (by simp : _ = _).trans hlock
  · unfold waiting aloft
    rw [hlineDel, List.filterMap_append, List.filterMap_reverse, filterMap_orphanTarget hown hread]
  · unfold aloft
    by_cases hv : v = worker
    · simp [hv]
    · rw [if_neg hv, ← hflights v]
      simp [hv]

/-- A payload is taken from the right of the queue and is now in flight. -/
structure Taken (queue worker : String) (db db' : Db Key) (id : Option String) : Prop where
  waiting : waiting queue db = waiting queue db' ++ id.toList
  aloft : ∀ v, aloft queue db' v =
    if v = worker then id.toList ++ aloft queue db v else aloft queue db v

theorem Taken.waiting_eq {db' : Db Key} (h : Taken queue worker db db' none) :
    Sequential.waiting queue db' = Sequential.waiting queue db :=
  (h.waiting.trans (List.append_nil _)).symm

theorem Taken.aloft_eq {db' : Db Key} (h : Taken queue worker db db' none) (v : String) :
    Sequential.aloft queue db' v = Sequential.aloft queue db v := by
  rw [h.aloft v]
  split <;> rfl

theorem Taken.refl (db : Db Key) : Taken queue worker db db none :=
  ⟨(List.append_nil _).symm, fun v => by split <;> rfl⟩

theorem taken_moveOldest {p p' : String} (hlast : (db.list (.queue queue)).getLast? = some p)
    {db' : Db Key} (hline : db'.list (.queue queue) = (db.list (.queue queue)).dropLast)
    (hflights : ∀ v, db'.list (.inFlight v) =
      if v = worker then p' :: db.list (.inFlight v) else db.list (.inFlight v))
    (hid : ownID queue p' = ownID queue p) : Taken queue worker db db' (ownID queue p') := by
  have hqueue := List.dropLast_append_getLast? p hlast
  constructor
  · unfold Sequential.waiting
    rw [hline, hid]
    conv_lhs => rw [← hqueue]
    rw [List.filterMap_append]
    cases hp : ownID queue p <;> simp [hp]
  · intro v
    unfold Sequential.aloft
    rw [hflights]
    split
    · cases hp' : ownID queue p' <;> simp [hp']
    · rfl

theorem fetch_effect (h : WellTyped db)
    (hheld : ∀ p p', (db.list (.queue queue)).getLast? = some p →
      held cj (trustedIn db) p = some p' → ownID queue p' = ownID queue p) :
    ∃ id, Taken queue worker db ((sequentialFetch cj queue worker).run db).db id ∧
      (∀ payload db', (sequentialFetch cj queue worker).run db = .ok (.job payload) db' →
        ownID queue payload = id) ∧
      (id ≠ none → (∀ holder, db.str (.sequentialLock queue) = some holder → holder = worker) ∧
        ∃ p, (db.list (.queue queue)).getLast? = some p ∧ ownID queue p = id ∧
          ∀ p', held cj (trustedIn db) p = some p' →
            ∃ db', (sequentialFetch cj queue worker).run db = .ok (.job p') db') := by
  rw [run_sequentialFetch (h _) (h _) (h _)]
  split
  · exact ⟨none, .refl _, fun _ _ hrun => (by cases hrun), fun hid => absurd rfl hid⟩
  · next hlock =>
    have hown : ∀ holder, db.str (.sequentialLock queue) = some holder → holder = worker :=
      fun _ => own_of_not_locked hlock
    cases hlast : (db.list (.queue queue)).getLast? with
    | none => exact ⟨none, .refl _, fun _ _ hrun => (by cases hrun), fun hid => absurd rfl hid⟩
    | some p =>
      dsimp only
      cases hp : held cj (trustedIn db) p with
      | none =>
        refine ⟨_, taken_moveOldest hlast (by simp [Outcome.db]) (fun v => ?_) rfl,
          fun _ _ hrun => (by cases hrun),
          fun _ => ⟨hown, p, rfl, rfl, fun p' hp' => by rw [hp] at hp'; cases hp'⟩⟩
        by_cases hv : v = worker <;> simp [Outcome.db, hv]
      | some p' =>
        have hid := hheld p p' hlast hp
        refine ⟨_, taken_moveOldest hlast (by simp [Outcome.db]) (fun v => ?_) hid,
          fun payload db' hrun => (by cases hrun; rfl), fun _ => ⟨hown, p, rfl, hid.symm, ?_⟩⟩
        · by_cases hv : v = worker <;> simp [Outcome.db, hv]
        · intro payload hpayload
          obtain rfl := Option.some.inj (hp.symm.trans hpayload)
          exact ⟨_, rfl⟩

theorem fetch_locked (h : WellTyped db) {holder : String}
    (hlock : db.str (.sequentialLock queue) = some holder) (hne : holder ≠ worker) :
    (sequentialFetch cj queue worker).run db = .ok .locked db := by
  rw [run_sequentialFetch (h _) (h _) (h _), if_pos]
  rw [hlock]
  exact ⟨Option.some_ne_none _, fun heq => hne (Option.some.inj heq)⟩

def SameJobs (queue : String) (db db' : Db Key) : Prop :=
  waiting queue db' = waiting queue db ∧ ∀ v, aloft queue db' v = aloft queue db v

theorem SameJobs.refl (db : Db Key) : SameJobs queue db db := ⟨rfl, fun _ => rfl⟩

theorem SameJobs.effect {db' : Db Key} (h : SameJobs queue db db') (call : Call) :
    SameJobs queue db (call.effect db db') := by
  cases call with
  | failed => exact .refl db
  | delivered => exact h
  | lost => exact h

theorem Moved.sameJobs {db' : Db Key}
    (h : Moved queue db db' (db.list (.queue queue)) fun v =>
      if v = worker then (db.list (.inFlight v)).erase payload else db.list (.inFlight v))
    (hother : ownID queue payload = none ∨ payload ∉ db.list (.inFlight worker)) :
    SameJobs queue db db' := by
  refine ⟨congrArg (List.filterMap (ownID queue)) h.line, fun v => ?_⟩
  unfold aloft
  rw [h.flights v]
  split
  · next hv =>
    obtain hid | hin := hother
    · exact filterMap_erase_of_none hid
    · rw [hv, List.erase_of_not_mem hin]
  · rfl

theorem sameJobs_releaseSequentialLock (h : WellTyped db) :
    SameJobs queue db ((releaseSequentialLock queue worker).run db).db := by
  rw [run_releaseSequentialLock h]
  unfold SameJobs waiting aloft
  split
  · exact ⟨by simp, fun v => by simp⟩
  · exact ⟨rfl, fun _ => rfl⟩

theorem sameJobs_discardSequentialFetch (h : WellTyped db) (hid : ownID queue payload = none) :
    SameJobs queue db ((discardSequentialFetch queue worker payload).run db).db := by
  rw [run_discardSequentialFetch h]
  unfold SameJobs waiting aloft
  dsimp only
  have hflight : ∀ v, ((if payload ∈ db.list (.inFlight worker) then
        db.putList (.inFlight worker) ((db.list (.inFlight worker)).erase payload)
      else db).list (.inFlight v)).filterMap (ownID queue) =
      (db.list (.inFlight v)).filterMap (ownID queue) := by
    intro v
    split
    · by_cases hv : v = worker
      · subst hv
        simp [filterMap_erase_of_none hid]
      · simp [hv]
    · rfl
  have hline : (if payload ∈ db.list (.inFlight worker) then
        db.putList (.inFlight worker) ((db.list (.inFlight worker)).erase payload)
      else db).list (.queue queue) = db.list (.queue queue) := by
    split
    · simp
    · rfl
  split
  · refine ⟨?_, fun v => ?_⟩
    · simp only [Db.list_write, reduceCtorEq, if_false]
      rw [hline]
    · simp only [Db.list_write, reduceCtorEq, if_false]
      exact hflight v
  · exact ⟨by rw [hline], hflight⟩

theorem sameJobs_sanitizeJobFinalization (h : WellTyped db) {sanitized : String}
    (hid : ownID queue sanitized = ownID queue payload) :
    SameJobs queue db ((sanitizeJobFinalization worker payload sanitized).run db).db := by
  rw [run_sanitizeJobFinalization h]
  unfold SameJobs waiting aloft
  split
  · refine ⟨by simp [Outcome.db], fun v => ?_⟩
    by_cases hv : v = worker
    · subst hv
      simp [Outcome.db, filterMap_set hid]
    · simp [Outcome.db, hv]
  · exact ⟨rfl, fun _ => rfl⟩

end Effects

/-! ### The order of the jobs -/

def Phase.Holding : Phase → Prop
  | .preparing _ _ | .processing _ => True
  | _ => False

theorem Phase.Holding.ne_idle {p : Phase} (h : p.Holding) : p ≠ .idle := by
  rintro rfl
  exact h

theorem phase_crash (s : State) (worker v : String) (i : ℕ) :
    (s.crash worker).phase v i = if v = worker then .idle else s.phase v i := by
  unfold State.crash
  by_cases hv : v = worker <;> simp [hv]

theorem Exclusive.crash {queue : String} {s : State} (h : Exclusive queue s) (worker : String) :
    Exclusive queue (s.crash worker) where
  typed := h.typed
  one := by
    intro v i j hi hj
    rw [phase_crash] at hi hj
    split at hi
    · exact absurd rfl hi
    · next hv =>
      rw [if_neg hv] at hj
      exact h.one v i j hi hj
  sema := by
    intro v
    simp only [phase_crash]
    by_cases hv : v = worker
    · simp [State.crash, hv]
    · simp only [State.crash, hv, if_false, ne_eq, not_false_eq_true, Function.update_of_ne]
      exact h.sema v
  lock := by
    intro v i hlocks
    rw [phase_crash] at hlocks
    split at hlocks
    · exact hlocks.elim
    · exact h.lock v i hlocks
  names := by
    intro v i
    rw [phase_crash]
    split
    · trivial
    · exact h.names v i

namespace Line

variable {cj : Cjson} {queue worker id : String} {s : Line}

/-- No job of the queue is in flight. -/
structure Landed (queue : String) (s : Line) : Prop where
  aloft : ∀ v, aloft queue s.core.db v = []
  handed : s.handed = s.finished

/-- One job of the queue is in flight. Its worker has the lock, and is dead or at work on it. -/
structure Flying (queue : String) (s : Line) (worker id : String) : Prop where
  aloft : ∀ v, aloft queue s.core.db v = if v = worker then [id] else []
  handed : s.handed = id :: s.finished
  lock : s.core.db.str (.sequentialLock queue) = some worker
  guarded : worker ∈ s.dead ∨ ∃ i, (s.core.phase worker i).Holding

/-- **The invariant.** -/
structure InOrder (queue : String) (s : Line) : Prop where
  exclusive : Exclusive queue s.core
  /-- What arrived is what waits and, before that, what was handed out. -/
  line : s.arrived = waiting queue s.core.db ++ s.handed
  flight : s.Landed queue ∨ ∃ worker id, s.Flying queue worker id

theorem Flying.ne_worker (h : s.Flying queue worker id) (hexclusive : Exclusive queue s.core)
    {v : String} {i : ℕ} {p : Phase} (halive : v ∉ s.dead) (hphase : s.core.phase v i = p)
    (hidle : p ≠ .idle) (hholding : ¬ p.Holding) : worker ≠ v := by
  rintro rfl
  obtain hdead | ⟨j, hj⟩ := h.guarded
  · exact halive hdead
  · obtain rfl := hexclusive.one worker i j (hphase ▸ hidle) hj.ne_idle
    exact hholding (hphase ▸ hj)

namespace InOrder

theorem init (queue : String) : InOrder queue Line.init where
  exclusive := .init queue
  line := rfl
  flight := Or.inl ⟨fun _ => rfl, rfl⟩

theorem quiet (h : InOrder queue s) {core : State} (hexclusive : Exclusive queue core)
    (hwaiting : waiting queue core.db = waiting queue s.core.db)
    (haloft : ∀ v, aloft queue core.db v = aloft queue s.core.db v)
    (hflying : ∀ worker id, s.Flying queue worker id →
      core.db.str (.sequentialLock queue) = some worker ∧
        ∀ i, (s.core.phase worker i).Holding → ∃ j, (core.phase worker j).Holding) :
    InOrder queue { s with core := core } where
  exclusive := hexclusive
  line := by rw [hwaiting]; exact h.line
  flight := by
    obtain hlanded | ⟨worker, id, hfly⟩ := h.flight
    · exact Or.inl ⟨fun v => (haloft v).trans (hlanded.aloft v), hlanded.handed⟩
    · obtain ⟨hlock, hphase⟩ := hflying worker id hfly
      refine Or.inr ⟨worker, id, fun v => (haloft v).trans (hfly.aloft v), hfly.handed, hlock, ?_⟩
      obtain hdead | ⟨i, hi⟩ := hfly.guarded
      · exact Or.inl hdead
      · exact Or.inr (hphase i hi)

theorem move (h : InOrder queue s) {v : String} {i : ℕ} {p : Phase} (halive : v ∉ s.dead)
    (hphase : s.core.phase v i = p) (hidle : p ≠ .idle) (hholding : ¬ p.Holding)
    {core : State} (hexclusive : Exclusive queue core)
    (hdb : Respects queue v s.core.db core.db) (hjobs : SameJobs queue s.core.db core.db)
    (hothers : ∀ w, w ≠ v → core.phase w = s.core.phase w) :
    InOrder queue { s with core := core } := by
  refine h.quiet hexclusive hjobs.1 hjobs.2 fun worker id hfly => ?_
  have hne := hfly.ne_worker h.exclusive halive hphase hidle hholding
  refine ⟨hdb.lock worker hne hfly.lock, fun j hj => ⟨j, ?_⟩⟩
  rw [hothers worker hne]
  exact hj

theorem core_fetch (s : State) (v : String) (i : ℕ) (call : Call) :
    ∃ p, s.step cj queue (.fetch v i call) =
        { s with db := call.effect s.db ((sequentialFetch cj queue v).run s.db).db }.goto v i p ∧
      ∀ payload db job, call = .delivered →
        (sequentialFetch cj queue v).run s.db = .ok (.job payload) db →
          unmarshalJob payload = some job → p = .preparing payload job := by
  by_cases h : ∃ payload db job, call = .delivered ∧
      (sequentialFetch cj queue v).run s.db = .ok (.job payload) db ∧ unmarshalJob payload = some job
  · obtain ⟨payload, db, job, rfl, hrun, hjob⟩ := h
    refine ⟨.preparing payload job, by simp only [State.step, State.fetch, hrun, hjob], ?_⟩
    intro payload' db' job' _ hrun' hjob'
    cases hrun.symm.trans hrun'
    rw [Option.some.inj (hjob.symm.trans hjob')]
  · obtain ⟨p, hp⟩ : ∃ p, s.step cj queue (.fetch v i call) =
        { s with db := call.effect s.db ((sequentialFetch cj queue v).run s.db).db }.goto v i p := by
      simp only [State.step, State.fetch]
      split
      · split <;> exact ⟨_, rfl⟩
      · exact ⟨_, rfl⟩
    exact ⟨p, hp, fun payload db job hcall hrun hjob =>
      absurd ⟨payload, db, job, hcall, hrun, hjob⟩ h⟩

theorem fetch (h : InOrder queue s) {v : String} {i : ℕ} {call : Call}
    (he : (lineMachine cj queue).permits s (.lock (.fetch v i call)))
    (horderly : s.Orderly cj queue (.lock (.fetch v i call))) :
    InOrder queue (s.step cj queue (.lock (.fetch v i call))) := by
  obtain ⟨hpermits, halive, hheld⟩ := he
  have hexclusive := h.exclusive.step hpermits
  have hphase : s.core.phase v i = .fetching := hpermits.1
  have htyped := h.exclusive.typed
  obtain ⟨hrespects, hlocked⟩ := @respects_sequentialFetch cj s.core.db queue v htyped
  obtain ⟨id, htaken, hreply, hfrom⟩ := @fetch_effect cj queue v s.core.db htyped hheld
  obtain ⟨p, hstep, hprepares⟩ := @core_fetch cj queue s.core v i call
  have hothers : ∀ w, w ≠ v →
      (s.core.step cj queue (.fetch v i call)).phase w = s.core.phase w := by
    intro w hw
    rw [hstep]
    exact Function.update_of_ne hw _ _
  have hdb : (s.core.step cj queue (.fetch v i call)).db =
      call.effect s.core.db ((sequentialFetch cj queue v).run s.core.db).db := by
    rw [hstep]
    rfl
  have hmove : SameJobs queue s.core.db (s.core.step cj queue (.fetch v i call)).db →
      handedOut cj queue s.core.db v call = [] →
        InOrder queue (s.step cj queue (.lock (.fetch v i call))) := by
    intro hsame hnone
    have hline : s.step cj queue (.lock (.fetch v i call)) =
        { s with core := s.core.step cj queue (.fetch v i call) } := by
      simp only [Line.step, hnone, List.nil_append]
    rw [hline]
    exact h.move (halive v rfl) hphase Phase.noConfusion False.elim hexclusive
      (hdb ▸ hrespects.effect htyped call) hsame hothers
  cases id with
  | none =>
    refine hmove (hdb ▸ ?_) ?_
    · exact SameJobs.effect ⟨htaken.waiting_eq, htaken.aloft_eq⟩ call
    · unfold handedOut
      split
      · split
        · next payload db hrun => rw [hreply payload db hrun]; rfl
        · rfl
      · rfl
  | some id =>
    by_cases hfailed : call = .failed
    · subst hfailed
      exact hmove (hdb ▸ .refl _) rfl
    -- The script took effect, so the goroutine must have got the job.
    have heffect : call.effect s.core.db ((sequentialFetch cj queue v).run s.core.db).db =
        ((sequentialFetch cj queue v).run s.core.db).db := by
      cases call with
      | failed => exact absurd rfl hfailed
      | delivered => rfl
      | lost => rfl
    obtain ⟨hown, oldest, hlast, hid, hruns⟩ := hfrom (Option.some_ne_none _)
    obtain ⟨rfl, payload, job, hpayload, hjob⟩ :=
      horderly hfailed hown oldest hlast (hid ▸ Option.some_ne_none _)
    obtain ⟨db', hrun⟩ := hruns payload hpayload
    obtain rfl := hprepares payload db' job rfl hrun hjob
    have hlanded : s.Landed queue := by
      refine h.flight.resolve_right ?_
      rintro ⟨worker, id', hfly⟩
      have hne := hfly.ne_worker h.exclusive (halive v rfl) hphase Phase.noConfusion False.elim
      rw [fetch_locked htyped hfly.lock hne] at hrun
      cases hrun
    have hout : handedOut cj queue s.core.db v .delivered = [id] := by
      simp only [handedOut, hrun, hreply payload db' hrun, Option.toList_some]
    refine ⟨hexclusive, ?_, Or.inr ⟨v, id, fun w => ?_, ?_, ?_, Or.inr ⟨i, ?_⟩⟩⟩
    · simp only [Line.step, hdb, heffect, hout, h.line, htaken.waiting, Option.toList_some,
        List.append_assoc]
    · simp only [Line.step, hdb, heffect, htaken.aloft, hlanded.aloft, Option.toList_some,
        List.append_nil]
    · simp only [Line.step, hout, hlanded.handed, List.singleton_append]
    · simp only [Line.step, hdb, heffect]
      rw [hrun]
      exact hlocked payload db' hrun
    · simp only [Line.step, hstep, phase_goto, and_self, if_true]
      trivial

theorem core_prepare {v payload : String} {i : ℕ} {job : Job} {how : Preparation}
    (htyped : WellTyped s.core.db) (hphase : s.core.phase v i = .preparing payload job)
    (hid : ∀ sanitized call, how = .sanitized sanitized call →
      ownID queue sanitized = ownID queue payload)
    (horderly : s.Orderly cj queue (.lock (.prepare v i how))) :
    ∃ db held, s.core.step cj queue (.prepare v i how) =
        { s.core with db := db, held := held }.goto v i (.processing job) ∧
      db.str (.sequentialLock queue) = s.core.db.str (.sequentialLock queue) ∧
      SameJobs queue s.core.db db := by
  simp only [State.step, hphase]
  cases how with
  | accepted => exact ⟨s.core.db, _, rfl, rfl, .refl _⟩
  | failed => exact horderly.elim
  | sanitized sanitized call =>
    obtain ⟨rfl, hmem⟩ := horderly
    have hlock := (@lock_sanitizeJobFinalization s.core.db queue v htyped payload sanitized).2
    have hjobs : SameJobs queue s.core.db
        ((sanitizeJobFinalization v payload sanitized).run s.core.db).db :=
      sameJobs_sanitizeJobFinalization htyped (hid sanitized .delivered rfl)
    have hvalue : ((sanitizeJobFinalization v payload sanitized).run s.core.db).value? = some 1 := by
      rw [run_sanitizeJobFinalization htyped, if_pos (hmem payload job hphase)]
      rfl
    exact ⟨_, _, if_pos ⟨rfl, hvalue⟩, hlock, hjobs⟩

section

variable (h : InOrder queue s)

include h

theorem lock {e : Event}
    (he : (lineMachine cj queue).permits s (.lock e)) (horderly : s.Orderly cj queue (.lock e)) :
    InOrder queue (s.step cj queue (.lock e)) := by
  obtain ⟨hpermits, halive, hsame⟩ := he
  have hexclusive : Exclusive queue (s.core.step cj queue e) := h.exclusive.step hpermits
  have htyped := h.exclusive.typed
  have hothers {core : State} {v : String} {i : ℕ} {p : Phase} (w : String) (hw : w ≠ v) :
      (core.goto v i p).phase w = core.phase w := Function.update_of_ne hw _ _
  cases e with
  | take v i =>
    have hidle : s.core.phase v i = .idle := hpermits
    have hstep : s.core.step cj queue (.take v i) = s.core ∨ s.core.step cj queue (.take v i) =
        { s.core with sema := Function.update s.core.sema v true }.goto v i .fetching := by
      simp only [State.step]
      split
      · exact Or.inl rfl
      · exact Or.inr rfl
    obtain hstep | hstep := hstep
    · simp only [Line.step, hstep]
      exact h
    · rw [hstep] at hexclusive
      simp only [Line.step, hstep]
      refine h.quiet hexclusive rfl (fun _ => rfl) fun worker id hfly =>
        ⟨hfly.lock, fun j hj => ⟨j, ?_⟩⟩
      rw [phase_goto, if_neg]
      · exact hj
      · rintro ⟨rfl, rfl⟩
        exact hj.ne_idle hidle
  | fetch v i call => exact h.fetch ⟨hpermits, halive, hsame⟩ horderly
  | discard v i call =>
    obtain ⟨payload, hphase⟩ := hpermits
    have hstep : s.core.step cj queue (.discard v i call) =
        { s.core with
          db := call.effect s.core.db
            ((discardSequentialFetch queue v payload).run s.core.db).db }.goto v i .draining := by
      simp only [State.step, hphase]
    have hid := horderly payload hphase
    refine h.move (halive v rfl) hphase Phase.noConfusion False.elim hexclusive ?_ ?_ ?_
    · rw [hstep]
      exact (respects_discardSequentialFetch htyped payload).effect htyped call
    · rw [hstep]
      exact (sameJobs_discardSequentialFetch htyped hid).effect call
    · rw [hstep]
      exact hothers
  | prepare v i how =>
    obtain ⟨payload, job, hphase⟩ := hpermits
    have hid : ∀ sanitized call, how = .sanitized sanitized call →
        ownID queue sanitized = ownID queue payload := by
      rintro sanitized call rfl
      exact hsame payload job hphase
    obtain ⟨db, held, hstep, hlock, hjobs⟩ := core_prepare htyped hphase hid horderly
    rw [hstep] at hexclusive
    simp only [Line.step, hstep]
    refine h.quiet hexclusive hjobs.1 hjobs.2 fun worker id hfly =>
      ⟨hlock.trans hfly.lock, fun j hj => ⟨j, ?_⟩⟩
    rw [phase_goto]
    split
    · trivial
    · exact hj
  | abandon v i call | unlock v i call =>
    exact h.move (halive v rfl) hpermits Phase.noConfusion False.elim hexclusive
      ((respects_releaseSequentialLock htyped).effect htyped call)
      ((sameJobs_releaseSequentialLock htyped).effect call) hothers
  | drain v i | free v i =>
    exact h.move (halive v rfl) hpermits Phase.noConfusion False.elim hexclusive (.refl htyped)
      (.refl _) hothers
  | release v i =>
    obtain ⟨job, hphase⟩ := hpermits
    have hmine : s.core.db.str (.sequentialLock queue) = some v :=
      h.exclusive.lock v i (hphase ▸ trivial)
    have hdb : (s.core.step cj queue (.release v i)).db = s.core.db := by
      simp only [State.step, hphase]
      split <;> rfl
    refine h.quiet hexclusive (congrArg _ hdb) (fun w => by rw [hdb]) fun worker id hfly => ?_
    -- The worker has the lock, so a job in flight is in flight there.
    obtain rfl : worker = v := Option.some.inj (hfly.lock.symm.trans hmine)
    have hnone := horderly
    rw [show s.Orderly cj queue _ = (aloft queue s.core.db worker = []) from rfl, hfly.aloft,
      if_pos rfl] at hnone
    cases hnone
  | renew v => exact h
  | expire =>
    refine h.quiet hexclusive ?_ (fun v => ?_) fun worker id hfly => ?_
    · simp [waiting, State.step]
    · simp [aloft, State.step]
    · have hnone := horderly worker hfly.lock
      rw [hfly.aloft, if_pos rfl] at hnone
      cases hnone
  | other db =>
    refine h.quiet hexclusive ?_ hsame.2 fun worker id hfly => ⟨?_, fun i hi => ⟨i, hi⟩⟩
    · exact congrArg (List.filterMap (ownID queue)) hsame.1
    · exact hpermits.2.trans hfly.lock

theorem exclusive_exec {db : Db Key} (htyped : WellTyped db)
    (hlock : db.str (.sequentialLock queue) = s.core.db.str (.sequentialLock queue)) :
    Exclusive queue { s.core with db := db } :=
  @Exclusive.step .plain queue s.core h.exclusive (.other db) ⟨htyped, hlock⟩

theorem exec_same {db : Db Key} (htyped : WellTyped db)
    (hlock : db.str (.sequentialLock queue) = s.core.db.str (.sequentialLock queue))
    (hjobs : SameJobs queue s.core.db db) :
    InOrder queue { s with core := { s.core with db := db } } :=
  h.quiet (h.exclusive_exec htyped hlock) hjobs.1 hjobs.2 fun _ _ hfly =>
    ⟨hlock.trans hfly.lock, fun i hi => ⟨i, hi⟩⟩

theorem enqueue {job : Job} (hqueue : job.queue = queue) :
    InOrder queue (s.step cj queue (.enqueue job)) := by
  have hmoved := @moved_enqueueNow queue job.marshal s.core.db h.exclusive.typed
  have haloft : ∀ v, aloft queue ((enqueueNow queue job.marshal).run s.core.db).db v =
      aloft queue s.core.db v := fun v => congrArg _ (hmoved.flights v)
  have hwaiting : waiting queue ((enqueueNow queue job.marshal).run s.core.db).db =
      job.id :: waiting queue s.core.db := by
    unfold waiting
    rw [hmoved.line, List.filterMap_cons, ownID_marshal, if_pos hqueue]
  refine ⟨h.exclusive_exec hmoved.typed hmoved.lock, ?_, ?_⟩
  · simp only [Line.step, Line.exec, hwaiting, h.line, List.cons_append]
  · obtain hlanded | ⟨worker, id, hfly⟩ := h.flight
    · exact Or.inl ⟨fun v => (haloft v).trans (hlanded.aloft v), hlanded.handed⟩
    · exact Or.inr ⟨worker, id, fun v => (haloft v).trans (hfly.aloft v), hfly.handed,
        hmoved.lock.trans hfly.lock, hfly.guarded⟩

theorem flying_of_mem {payload : String}
    (hin : payload ∈ s.core.db.list (.inFlight worker)) (hid : ownID queue payload = some id) :
    s.Flying queue worker id := by
  have hmem : id ∈ aloft queue s.core.db worker := List.mem_filterMap.mpr ⟨payload, hin, hid⟩
  obtain hlanded | ⟨worker', id', hfly⟩ := h.flight
  · rw [hlanded.aloft] at hmem
    exact absurd hmem List.not_mem_nil
  · rw [hfly.aloft] at hmem
    split at hmem
    · next hworker =>
      obtain rfl := List.mem_singleton.mp hmem
      exact hworker ▸ hfly
    · exact absurd hmem List.not_mem_nil

end

theorem aloft_erase {payload : String} (hfly : s.Flying queue worker id)
    (hin : payload ∈ s.core.db.list (.inFlight worker)) (hid : ownID queue payload = some id)
    {db : Db Key} (hflights : ∀ v, db.list (.inFlight v) =
      if v = worker then (s.core.db.list (.inFlight v)).erase payload
      else s.core.db.list (.inFlight v)) (v : String) : aloft queue db v = [] := by
  have hv := hfly.aloft v
  unfold aloft at hv ⊢
  rw [hflights v]
  split at hv
  · next hworker =>
    subst hworker
    have hperm := perm_filterMap_erase (f := ownID queue) hin
    rw [hv, hid] at hperm
    rw [if_pos rfl]
    exact List.perm_nil.mp (List.perm_cons id |>.mp hperm.symm)
  · next hworker =>
    rw [if_neg hworker]
    exact hv

variable (h : InOrder queue s)

include h

theorem finish (worker payload : String) (how : Ending) :
    InOrder queue (s.step cj queue (.finish worker payload how)) := by
  have hmoved := @moved_finish queue worker payload s.core.db h.exclusive.typed how
  have hsame (hother : ownID queue payload = none ∨ payload ∉ s.core.db.list (.inFlight worker))
      (hstep : (s.step cj queue (.finish worker payload how)).finished = s.finished) :
      InOrder queue (s.step cj queue (.finish worker payload how)) := by
    rw [show s.step cj queue (.finish worker payload how) =
      { s.exec (how.script worker payload) with finished := s.finished } from
      congrArg (fun l => { s.exec (how.script worker payload) with finished := l }) hstep]
    exact h.exec_same hmoved.typed hmoved.lock (hmoved.sameJobs hother)
  cases hid : ownID queue payload with
  | none =>
    refine hsame (Or.inl hid) ?_
    simp only [Line.step, hid, Option.toList_none, List.nil_append, ite_self]
  | some id =>
    by_cases hin : payload ∈ s.core.db.list (.inFlight worker)
    · have hfly := h.flying_of_mem hin hid
      have hwaiting : waiting queue ((how.script worker payload).run s.core.db).db =
          waiting queue s.core.db := congrArg (List.filterMap (ownID queue)) hmoved.line
      refine ⟨h.exclusive_exec hmoved.typed hmoved.lock, ?_, Or.inl ⟨fun v => ?_, ?_⟩⟩
      · simp only [Line.step, Line.exec, hwaiting, h.line]
      · exact aloft_erase hfly hin hid hmoved.flights v
      · simp only [Line.step, Line.exec, hin, if_true, hid, hfly.handed, Option.toList_some,
          List.singleton_append]
    · exact hsame (Or.inr hin) (if_neg hin)

theorem requeue {payload data : String}
    (hid : ownID queue payload = some id) (hdata : ownID queue data = some id)
    (hempty : waiting queue s.core.db = []) :
    InOrder queue (s.step cj queue (.requeue worker payload data)) := by
  have hmoved := @moved_requeueJob queue worker payload s.core.db h.exclusive.typed data
  have hline := hmoved.line
  by_cases hin : payload ∈ s.core.db.list (.inFlight worker)
  · have hfly := h.flying_of_mem hin hid
    rw [if_pos hin] at hline
    have hwaiting : waiting queue ((requeueJob worker queue payload data).run s.core.db).db =
        [id] := by
      unfold waiting at hempty ⊢
      rw [hline, List.filterMap_cons, hdata, hempty]
    refine ⟨h.exclusive_exec hmoved.typed hmoved.lock, ?_, Or.inl ⟨fun v => ?_, ?_⟩⟩
    · simp only [Line.step, Line.exec, hin, if_true, hwaiting, h.line, hempty, hfly.handed,
        List.tail_cons, List.nil_append, List.singleton_append]
    · exact aloft_erase hfly hin hid hmoved.flights v
    · simp only [Line.step, Line.exec, hin, if_true, hfly.handed, List.tail_cons]
  · have hstep : s.step cj queue (.requeue worker payload data) =
        { s with core :=
          { s.core with db := ((requeueJob worker queue payload data).run s.core.db).db } } := by
      simp only [Line.step, Line.exec, hin, if_false]
    rw [hstep]
    rw [if_neg hin] at hmoved
    exact h.exec_same hmoved.typed hmoved.lock (hmoved.sameJobs (Or.inr hin))

theorem reap (he : (lineMachine cj queue).permits s (.reap worker))
    (horderly : s.Orderly cj queue (.reap worker)) :
    InOrder queue (s.step cj queue (.reap worker)) := by
  have hread : ∀ p ∈ s.core.db.list (.inFlight worker), ownID queue p ≠ none →
      orphanTarget cj p ≠ none := by
    obtain hnone | ⟨-, hread⟩ := horderly
    · intro p hp hid
      obtain ⟨id, hid⟩ := Option.ne_none_iff_exists'.mp hid
      have hmem : id ∈ aloft queue s.core.db worker := List.mem_filterMap.mpr ⟨p, hp, hid⟩
      rw [hnone] at hmem
      exact absurd hmem List.not_mem_nil
    · exact hread
  obtain ⟨htyped, hlock, hwaiting, haloft⟩ := reap_effect h.exclusive.typed he hread
  -- the worker has no job of the queue in flight, or the only one, which alone waits afterwards
  by_cases hnone : aloft queue s.core.db worker = []
  · have hstep : s.step cj queue (.reap worker) =
        { s with core :=
          { s.core with db := ((requeueOrphaned cj worker).run s.core.db).db } } := by
      simp only [Line.step, Line.exec, hnone, List.length_nil, List.drop_zero]
    rw [hstep]
    refine h.exec_same htyped hlock ⟨?_, fun v => ?_⟩
    · rw [hwaiting, hnone]
      rfl
    · rw [haloft]
      split
      · next hv => rw [hv, hnone]
      · rfl
  · have hempty := (horderly.resolve_left hnone).1
    obtain ⟨id, hfly⟩ : ∃ id, s.Flying queue worker id := by
      obtain hlanded | ⟨worker', id, hfly⟩ := h.flight
      · exact absurd (hlanded.aloft worker) hnone
      · by_cases hworker : worker = worker'
        · exact ⟨id, hworker ▸ hfly⟩
        · exact absurd ((hfly.aloft worker).trans (if_neg hworker)) hnone
    have hone : aloft queue s.core.db worker = [id] := (hfly.aloft worker).trans (if_pos rfl)
    refine ⟨h.exclusive_exec htyped hlock, ?_, Or.inl ⟨fun v => ?_, ?_⟩⟩
    · simp only [Line.step, Line.exec, hwaiting, h.line, hempty, hone, hfly.handed,
        List.reverse_singleton, List.length_singleton, List.drop_succ_cons, List.drop_zero,
        List.nil_append, List.append_nil, List.singleton_append]
    · simp only [Line.step, Line.exec, haloft, hfly.aloft]
      split
      · rfl
      · rfl
    · simp only [Line.step, Line.exec, hone, hfly.handed, List.length_singleton,
        List.drop_succ_cons, List.drop_zero]

theorem crash (worker : String) : InOrder queue (s.step cj queue (.crash worker)) := by
  refine ⟨h.exclusive.crash worker, h.line, ?_⟩
  obtain hlanded | ⟨worker', id, hfly⟩ := h.flight
  · exact Or.inl ⟨hlanded.aloft, hlanded.handed⟩
  · refine Or.inr ⟨worker', id, hfly.aloft, hfly.handed, hfly.lock, ?_⟩
    by_cases hworker : worker' = worker
    · exact Or.inl (hworker ▸ List.mem_cons_self)
    · obtain hdead | ⟨i, hi⟩ := hfly.guarded
      · exact Or.inl (List.mem_cons_of_mem _ hdead)
      · refine Or.inr ⟨i, ?_⟩
        rw [show (s.step cj queue (.crash worker)).core = s.core.crash worker from rfl, phase_crash,
          if_neg hworker]
        exact hi

/-- **What every step preserves.** -/
theorem step {e : Label} (he : (lineMachine cj queue).permits s e)
    (horderly : s.Orderly cj queue e) : InOrder queue (s.step cj queue e) := by
  cases e with
  | lock e => exact h.lock he horderly
  | enqueue job => exact h.enqueue he
  | mark worker jobID payload finalized =>
    obtain ⟨htyped, hlock, hwaiting, haloft⟩ := mark_effect h.exclusive.typed he
    exact h.exec_same htyped hlock ⟨hwaiting, haloft⟩
  | finish worker payload how => exact h.finish worker payload how
  | requeue worker payload data =>
    obtain ⟨id, hid, hdata⟩ := he
    exact h.requeue hid hdata horderly
  | reap worker => exact h.reap he horderly
  | crash worker => exact h.crash worker

end InOrder

/-- **In order.** In every run that meets the condition, what arrived is what waits and what was
handed out; all that was handed out is finished, but for one job at most; and of two jobs that each
arrived once, the later one is not handed out before the earlier one is finished. -/
theorem sequential_in_order (cj : Cjson) (queue : String) (es : List Label)
    (legal : (lineMachine cj queue).Legal .init es)
    (horderly : (lineMachine cj queue).Throughout (Orderly cj queue) .init es) :
    let s := (lineMachine cj queue).run .init es
    s.arrived = waiting queue s.core.db ++ s.handed ∧
      (s.handed = s.finished ∨ ∃ id, s.handed = id :: s.finished) ∧
      (s.arrived.Nodup → ∀ newer b older, s.arrived = newer ++ b :: older → b ∈ s.handed →
        ∀ a ∈ older, a ∈ s.finished) := by
  intro s
  have h : InOrder queue s := legal.invariant_throughout
    (fun s e h he horderly => h.step he horderly) horderly (.init queue)
  have hhanded : s.handed = s.finished ∨ ∃ id, s.handed = id :: s.finished := by
    obtain hlanded | ⟨worker, id, hfly⟩ := h.flight
    · exact Or.inl hlanded.handed
    · exact Or.inr ⟨id, hfly.handed⟩
  refine ⟨h.line, hhanded, fun hnodup newer b older harrived hb a ha => ?_⟩
  have hsplit := h.line.symm.trans harrived
  have holder : b :: older <:+ s.handed := by
    obtain ⟨x, -, hx⟩ | ⟨y, hwaiting, hy⟩ := List.append_eq_append_iff.mp hsplit
    · exact ⟨x, hx.symm⟩
    · cases y with
      | nil => exact ⟨[], hy⟩
      | cons c y =>
        -- Then `b` waits, though it arrived once and was handed out.
        obtain ⟨rfl, -⟩ := List.cons.inj hy
        rw [h.line] at hnodup
        have hmem : b ∈ waiting queue s.core.db := by
          rw [hwaiting]
          exact List.mem_append_right _ List.mem_cons_self
        exact absurd hb (List.disjoint_of_nodup_append hnodup hmem)
  have hfinished : older <:+ s.finished := by
    obtain heq | ⟨id, heq⟩ := hhanded
    · exact heq ▸ (List.suffix_cons b older).trans holder
    · rw [heq, List.suffix_cons_iff] at holder
      obtain heq | hsuffix := holder
      · exact (List.cons.inj heq).2 ▸ List.suffix_refl _
      · exact (List.suffix_cons b older).trans hsuffix
  exact hfinished.subset ha

/-! ### A job that is overtaken -/

section Overtaking

variable {payload : String} {job : Job}

theorem receive_line (h : Offered cj queue worker payload job s.core) (halive : worker ∉ s.dead)
    (hid : ownID queue payload = some id) :
    let es := (receive worker).map Label.lock
    (lineMachine cj queue).Legal s es ∧ (lineMachine cj queue).Throughout (Orderly cj queue) s es ∧
      (lineMachine cj queue).run s es =
        { s with
          core := (lockMachine cj queue).run s.core (receive worker)
          handed := id :: s.handed } := by
  obtain ⟨⟨htake, hfetch, hprepare, -⟩, hrun⟩ := h.receive
  have hworker : ∀ w ∈ some worker, w ∉ s.dead := by
    rintro w ⟨⟩
    exact halive
  have hdb : (s.core.step cj queue (.take worker 0)).db = s.core.db := by
    simp only [State.step]
    split <;> rfl
  have hout : handedOut cj queue (s.core.step cj queue (.take worker 0)).db worker .delivered =
      [id] := by
    simp only [handedOut, hdb, h.sequentialFetch, hid, Option.toList_some]
  have hsame : ∀ p p', ((s.core.step cj queue (.take worker 0)).db.list (.queue queue)).getLast? =
      some p → held cj (trustedIn (s.core.step cj queue (.take worker 0)).db) p = some p' →
        ownID queue p' = ownID queue p := by
    intro p p' hlast hheld
    rw [hdb] at hlast hheld
    obtain rfl := Option.some.inj (h.oldest.symm.trans hlast)
    obtain rfl := Option.some.inj (h.held.symm.trans hheld)
    rfl
  have horderly : s.Orderly cj queue (.lock (.fetch worker 0 .delivered)) := by
    intro _ _ p hlast _
    obtain rfl := Option.some.inj (h.oldest.symm.trans hlast)
    exact ⟨rfl, payload, job, h.held, h.read⟩
  have hfetched : (s.step cj queue (.lock (.take worker 0))).Orderly cj queue
      (.lock (.fetch worker 0 .delivered)) := by
    unfold Orderly
    rw [show (s.step cj queue (.lock (.take worker 0))).core.db = s.core.db from hdb]
    exact horderly
  refine ⟨⟨⟨htake, hworker, trivial⟩, ⟨hfetch, hworker, hsame⟩, ⟨hprepare, hworker, trivial⟩,
    trivial⟩, ⟨trivial, hfetched, trivial, trivial⟩, ?_⟩
  change Line.mk _ _ _ (handedOut cj queue (s.core.step cj queue (.take worker 0)).db worker
    .delivered ++ s.handed) _ = _
  rw [hout]
  rfl

def leave (worker : String) : List Event := letGo worker ++ [.free worker 0]

theorem leave_line (htyped : WellTyped s.core.db) (halive : worker ∉ s.dead)
    (hphase : s.core.phase worker 0 = .processing job) (hqueue : job.queue = queue)
    (hlock : s.core.db.str (.sequentialLock queue) = some worker)
    (hnone : aloft queue s.core.db worker = []) :
    let es := (leave worker).map Label.lock
    (lineMachine cj queue).Legal s es ∧ (lineMachine cj queue).Throughout (Orderly cj queue) s es ∧
      (lineMachine cj queue).run s es =
        { s with
          core :=
            { db := s.core.db.del (.sequentialLock queue)
              sema := Function.update s.core.sema worker false
              held := Function.update s.core.held worker false
              phase := Function.update s.core.phase worker
                (Function.update (s.core.phase worker) 0 .idle) } } := by
  obtain ⟨⟨hrelease, hunlock, -⟩, hrun⟩ :=
    @run_letGo cj queue worker job s.core htyped hphase hqueue
    hlock
  have hworker : ∀ w ∈ some worker, w ∉ s.dead := by
    rintro w ⟨⟩
    exact halive
  have hcore : (s.core.step cj queue (.release worker 0)).step cj queue
      (.unlock worker 0 .delivered) = _ := hrun
  have hfreeing : ((s.core.step cj queue (.release worker 0)).step cj queue
      (.unlock worker 0 .delivered)).phase worker 0 = .freeing := by
    rw [hcore]
    simp
  refine ⟨⟨⟨hrelease, hworker, trivial⟩, ⟨hunlock, hworker, trivial⟩,
    ⟨hfreeing, hworker, trivial⟩, trivial⟩, ⟨hnone, trivial, trivial, trivial⟩, ?_⟩
  change Line.mk (((s.core.step cj queue (.release worker 0)).step cj queue
    (.unlock worker 0 .delivered)).step cj queue (.free worker 0)) s.dead s.arrived s.handed
    s.finished = _
  rw [hcore]
  simp [State.step, State.putBack, State.goto]

variable {job' : Job}

/-- The first job is handed out while the second waits. -/
structure FirstOut (queue : String) (job job' : Job) (s : Line) : Prop where
  typed : WellTyped s.core.db
  dead : s.dead = []
  phase : s.core.phase "w" 0 = .processing job
  lock : s.core.db.str (.sequentialLock queue) = some "w"
  line : s.core.db.list (.queue queue) = [job'.marshal]
  flight : s.core.db.list (.inFlight "w") = [job.marshal]
  arrived : s.arrived = [job'.id, job.id]
  handed : s.handed = [job.id]
  finished : s.finished = []

def firstOut (job job' : Job) : List Label :=
  [.enqueue job, .enqueue job'] ++ (receive "w").map .lock

theorem Two.firstOut (h : Two queue job job') :
    (lineMachine cj queue).Legal .init (firstOut job job') ∧
      (lineMachine cj queue).Throughout (Orderly cj queue) .init (firstOut job job') ∧
      FirstOut queue job job' ((lineMachine cj queue).run .init (firstOut job job')) := by
  have hmoved := @moved_enqueueNow queue job.marshal _ WellTyped.empty
  have hmoved' := @moved_enqueueNow queue job'.marshal _ hmoved.typed
  obtain ⟨s₂, hs₂⟩ : ∃ s₂ : Line, s₂ = (Line.init.step cj queue (.enqueue job)).step cj queue
    (.enqueue job') := ⟨_, rfl⟩
  have hdb : s₂.core.db = ((enqueueNow queue job'.marshal).run
      ((enqueueNow queue job.marshal).run fun _ => none).db).db := by rw [hs₂]; rfl
  have hline : s₂.core.db.list (.queue queue) = [job'.marshal, job.marshal] := by
    rw [hdb, hmoved'.line, hmoved.line]
    rfl
  have hoffered : Offered cj queue "w" job.marshal job s₂.core := by
    refine ⟨hdb ▸ hmoved'.typed, by rw [hs₂]; rfl, by rw [hs₂]; rfl, ?_, by rw [hline]; rfl,
      (h.held _).1, h.read.1, h.names.1⟩
    rw [hdb, hmoved'.lock, hmoved.lock]
    rfl
  have hid : ownID queue job.marshal = some job.id := by rw [ownID_marshal, if_pos h.names.1]
  have hdead : s₂.dead = [] := by rw [hs₂]; rfl
  obtain ⟨hlegal, horderly, hrun⟩ := receive_line hoffered (hdead ▸ List.not_mem_nil) hid
  have hcore := hoffered.receive.2
  have hend : (lineMachine cj queue).run .init (Line.firstOut job job') =
      (lineMachine cj queue).run s₂ ((receive "w").map .lock) := by rw [hs₂]; rfl
  refine ⟨⟨h.names.1, h.names.2, ?_⟩, ⟨trivial, trivial, ?_⟩, ?_⟩
  · change (lineMachine cj queue).Legal ((Line.init.step cj queue (.enqueue job)).step cj queue
      (.enqueue job')) _
    rw [← hs₂]
    exact hlegal
  · change (lineMachine cj queue).Throughout _ ((Line.init.step cj queue (.enqueue job)).step cj queue
      (.enqueue job')) _
    rw [← hs₂]
    exact horderly
  · rw [hend, hrun, hcore]
    refine ⟨fetched_typed hoffered.typed, hdead, by simp, fetched_lock _, ?_, ?_, ?_, ?_, ?_⟩
    · rw [fetched_queue, hline]
      rfl
    · simp only [fetched, Db.list_write, reduceCtorEq, if_false, if_true, Db.listOf_ofList]
      rw [hdb, hmoved'.flights, hmoved.flights]
      rfl
    · change s₂.arrived = _
      rw [hs₂]
      rfl
    · change job.id :: s₂.handed = _
      rw [hs₂]
      rfl
    · change s₂.finished = _
      rw [hs₂]
      rfl

theorem Two.secondOut (h : Two queue job job') (htyped : WellTyped s.core.db) (hdead : s.dead = [])
    (hphase : s.core.phase "w" 0 = .processing job)
    (hlock : s.core.db.str (.sequentialLock queue) = some "w")
    (hlast : (s.core.db.list (.queue queue)).getLast? = some job'.marshal)
    (hflight : s.core.db.list (.inFlight "w") = []) :
    let es := (leave "w").map Label.lock ++ (receive "w").map Label.lock
    (lineMachine cj queue).Legal s es ∧ (lineMachine cj queue).Throughout (Orderly cj queue) s es ∧
      ∃ core, core.phase "w" 0 = .processing job' ∧
        (lineMachine cj queue).run s es = { s with core := core, handed := job'.id :: s.handed } := by
  have hnone : aloft queue s.core.db "w" = [] := by
    unfold aloft
    rw [hflight]
    rfl
  have halive : "w" ∉ s.dead := hdead ▸ List.not_mem_nil
  obtain ⟨hlegal, horderly, hrun⟩ := @leave_line cj queue "w" s job htyped halive hphase h.names.1
    hlock hnone
  obtain ⟨s₁, hs₁⟩ : ∃ s₁, s₁ = (lineMachine cj queue).run s ((leave "w").map .lock) := ⟨_, rfl⟩
  rw [← hs₁] at hrun
  have hoffered : Offered cj queue "w" job'.marshal job' s₁.core := by
    rw [hrun]
    exact ⟨htyped.del _, by simp, by simp, by simp, by simpa using hlast, (h.held _).2, h.read.2,
      h.names.2⟩
  have hid : ownID queue job'.marshal = some job'.id := by rw [ownID_marshal, if_pos h.names.2]
  obtain ⟨hlegal', horderly', hrun'⟩ := receive_line hoffered (by rw [hrun]; exact halive) hid
  intro es
  rw [Machine.legal_append, Machine.throughout_append, Machine.run_append, ← hs₁]
  refine ⟨⟨hlegal, hlegal'⟩, ⟨horderly, horderly'⟩,
    (lockMachine cj queue).run s₁.core (receive "w"), ?_, ?_⟩
  · rw [hoffered.receive.2]
    simp
  · rw [hrun', hrun]

def goOn (job job' : Job) (e : Label) : List Label :=
  firstOut job job' ++ e :: ((leave "w").map Label.lock ++ (receive "w").map Label.lock)

theorem Two.goOn (h : Two queue job job') {e : Label} {db : Line → Db Key} {line : List String}
    (hcore : ∀ s : Line, (s.step cj queue e).core = { s.core with db := db s })
    (hdead : ∀ s : Line, (s.step cj queue e).dead = s.dead)
    (hpermits : ∀ s, FirstOut queue job job' s → (lineMachine cj queue).permits s e)
    (hmoved : ∀ s, FirstOut queue job job' s → Moved queue s.core.db (db s) line
      fun v => if v = "w" then (s.core.db.list (.inFlight v)).erase job.marshal
        else s.core.db.list (.inFlight v))
    (hlast : line.getLast? = some job'.marshal) :
    ∃ s core, FirstOut queue job job' s ∧ core.phase "w" 0 = .processing job' ∧
      (lineMachine cj queue).Legal .init (goOn job job' e) ∧
      (s.Orderly cj queue e →
        (lineMachine cj queue).Throughout (Orderly cj queue) .init (goOn job job' e)) ∧
      (lineMachine cj queue).run .init (goOn job job' e) =
        { s.step cj queue e with
          core := core
          handed := job'.id :: (s.step cj queue e).handed } := by
  obtain ⟨hlegal, horderly, hfirst⟩ := @Two.firstOut cj queue job job' h
  generalize hs : (lineMachine cj queue).run .init (Line.firstOut job job') = s at hfirst
  have hmoved := hmoved s hfirst
  generalize hs' : (lineMachine cj queue).step s e = s'
  have hcore : s'.core = { s.core with db := db s } := hs' ▸ hcore s
  have hdead : s'.dead = s.dead := hs' ▸ hdead s
  have hflight := hmoved.flights "w"
  rw [if_pos rfl, hfirst.flight, List.erase_cons_head] at hflight
  obtain ⟨hlegal', horderly', core, hphase, hrun⟩ := @Two.secondOut cj queue s' job job' h
    (by rw [hcore]; exact hmoved.typed) (hdead.trans hfirst.dead)
    (by rw [hcore]; exact hfirst.phase) (by rw [hcore]; exact hmoved.lock.trans hfirst.lock)
    (by rw [hcore]; exact (congrArg _ hmoved.line).trans hlast) (by rw [hcore]; exact hflight)
  refine ⟨s, core, hfirst, hphase, ?_, fun he => ?_, ?_⟩
  · rw [Line.goOn, Machine.legal_append, hs, Machine.legal_cons, hs']
    exact ⟨hlegal, hpermits s hfirst, hlegal'⟩
  · rw [Line.goOn, Machine.throughout_append, hs]
    refine ⟨horderly, he, ?_⟩
    rw [hs']
    exact horderly'
  · rw [Line.goOn, Machine.run_append, hs, Machine.run_cons, hs', hrun]
    rw [show s.step cj queue e = s' from hs']

theorem Two.overtaken (h : Two queue job job') :
    ∃ es, (lineMachine cj queue).Legal .init es ∧
      ((lineMachine cj queue).run .init es).core.phase "w" 0 = .processing job' ∧
      ((lineMachine cj queue).run .init es).arrived = [job'.id, job.id] ∧
      ((lineMachine cj queue).run .init es).handed = [job'.id] ∧
      ((lineMachine cj queue).run .init es).finished = [] := by
  have hid : ownID queue job.marshal = some job.id := by rw [ownID_marshal, if_pos h.names.1]
  have hin : ∀ {s : Line}, FirstOut queue job job' s →
      job.marshal ∈ s.core.db.list (.inFlight "w") := by
    intro s hfirst
    rw [hfirst.flight]
    exact List.mem_singleton_self _
  obtain ⟨s, core, hfirst, hphase, hlegal, -, hrun⟩ := @Two.goOn cj queue job job' h
    (.requeue "w" job.marshal job.marshal)
    (fun s => ((requeueJob "w" queue job.marshal job.marshal).run s.core.db).db)
    [job.marshal, job'.marshal] (fun _ => rfl) (fun _ => rfl) (fun _ _ => ⟨job.id, hid, hid⟩)
    (fun s hfirst => by
      have hmoved := @moved_requeueJob queue "w" job.marshal s.core.db hfirst.typed job.marshal
      rw [if_pos (hin hfirst), hfirst.line] at hmoved
      exact hmoved) rfl
  refine ⟨_, hlegal, ?_⟩
  rw [hrun]
  refine ⟨hphase, hfirst.arrived, ?_, hfirst.finished⟩
  simp only [Line.step, Line.exec, hin hfirst, if_true, hfirst.handed, List.tail_cons]

theorem Two.acknowledged (h : Two queue job job') :
    ∃ es, (lineMachine cj queue).Legal .init es ∧
      (lineMachine cj queue).Throughout (Orderly cj queue) .init es ∧
      ((lineMachine cj queue).run .init es).handed = [job'.id, job.id] := by
  obtain ⟨s, core, hfirst, -, hlegal, horderly, hrun⟩ := @Two.goOn cj queue job job' h
    (.finish "w" job.marshal (.ack job.id none))
    (fun s => (((Ending.ack job.id none).script "w" job.marshal).run s.core.db).db)
    [job'.marshal] (fun _ => rfl) (fun _ => rfl) (fun _ _ => trivial)
    (fun s hfirst => by
      have hmoved := @moved_finish queue "w" job.marshal s.core.db hfirst.typed (.ack job.id none)
      rw [hfirst.line] at hmoved
      exact hmoved) rfl
  refine ⟨_, hlegal, horderly trivial, ?_⟩
  rw [hrun]
  change job'.id :: s.handed = _
  rw [hfirst.handed]

theorem interrupted_overtaken : ∃ es, (lineMachine .plain "q").Legal .init es ∧
    ((lineMachine .plain "q").run .init es).core.phase "w" 0 = .processing (Job.plain "b" "q") ∧
    ((lineMachine .plain "q").run .init es).arrived = ["b", "a"] ∧
    ((lineMachine .plain "q").run .init es).handed = ["b"] ∧
    ((lineMachine .plain "q").run .init es).finished = [] :=
  @Two.overtaken .plain "q" _ _ (two_plain "q")

theorem sequential_in_order_acknowledged : ∃ es, (lineMachine .plain "q").Legal .init es ∧
    ((lineMachine .plain "q").run .init es).handed = ["b", "a"] ∧
    (((lineMachine .plain "q").run .init es).finished = ["b", "a"] ∨
      ((lineMachine .plain "q").run .init es).finished = ["a"]) := by
  obtain ⟨es, hlegal, horderly, hhanded⟩ := @Two.acknowledged .plain "q" _ _ (two_plain "q")
  have hboth : ((lineMachine .plain "q").run .init es).handed = ["b", "a"] := hhanded
  refine ⟨es, hlegal, hboth, ?_⟩
  obtain ⟨-, heq | ⟨id, heq⟩, -⟩ := sequential_in_order .plain "q" es hlegal horderly
  · exact Or.inl (heq.symm.trans hboth)
  · rw [hboth] at heq
    exact Or.inr (List.cons.inj heq).2.symm

end Overtaking

end Line

end Sequential

end Senna
