import Senna.Job.Normal
import Senna.System.Machine
import Senna.Worker.Script

/-!
# Sequential queues: one job at a time

A sequential queue is guarded twice. Between workers there is a lock in Redis, which a worker that
holds it may take again. Within a worker there is a semaphore with room for one goroutine.
`fetchFromSequentialQueue` takes the semaphore, then the lock together with a job; on every path
on which it returns no job it gives back what it has. `ReleaseSequentialLock`, deferred by
`processJob`, gives back the lock and then the semaphore.

The machine here is one sequential queue with any number of workers and goroutines. A label is one
step of one goroutine: a step on the semaphore, or one script call, which may be delivered, fail,
or take effect with its reply lost. All the rest of the system is one label, `other`, which may do
anything to the keyspace but touch the lock.

**Exclusion.** A goroutine that has a job of the queue, or is about to get one, holds the lock
(`Phase.Locks`), and a worker's semaphore is taken exactly while one of its goroutines is between
the two ends (`Exclusive.sema`). So two goroutines with a job are of the same worker, and of one
worker there is only one.

The period that is exclusive ends with the script of `ReleaseSequentialLock`, not with its return:
once the script has run, another worker may fetch while the first goroutine has yet to give back
its semaphore.
-/

namespace Senna

open Redis

namespace Sequential

/-! ### Goroutines -/

/-- Where a goroutine is. -/
inductive Phase where
  /-- Not in the code of this queue. -/
  | idle
  /-- It has the semaphore and is about to call the fetch script. -/
  | fetching
  /-- It has a job and is in `prepareFetchedJob`. -/
  | preparing (payload : String) (job : Job)
  /-- It has a payload that it could not read. -/
  | discarding (payload : String)
  /-- `prepareFetchedJob` has failed, and the lock is to be released. -/
  | abandoning
  /-- It is about to give back the semaphore and to return without a job. -/
  | draining
  /-- `fetchFromSequentialQueue` has returned the job. -/
  | processing (job : Job)
  /-- In `ReleaseSequentialLock`, before the script. -/
  | unlocking
  /-- In `ReleaseSequentialLock`, after the script. -/
  | freeing

def Phase.Locks : Phase → Prop
  | .preparing _ _ | .processing _ | .unlocking => True
  | _ => False

def Phase.Busy : Phase → Prop
  | .processing _ | .unlocking => True
  | _ => False

/-- Between the return of `fetchFromSequentialQueue` with a job and the end of
`ReleaseSequentialLock`. -/
def Phase.InWindow : Phase → Prop
  | .processing _ | .unlocking | .freeing => True
  | _ => False

/-- How `prepareFetchedJob` goes. -/
inductive Preparation where
  /-- There is no marker, or it is trusted. -/
  | accepted
  /-- The payload is to be replaced by one without its marker. -/
  | sanitized (payload : String) (call : Call)
  /-- The trust key could not be read. -/
  | failed

theorem Phase.Busy.locks {p : Phase} (h : p.Busy) : p.Locks := by
  cases p <;> first | exact h.elim | trivial

theorem Phase.Busy.ne_idle {p : Phase} (h : p.Busy) : p ≠ .idle := by
  rintro rfl
  exact h

/-- One sequential queue with its workers. -/
structure State where
  db : Db Key
  /-- Whether the semaphore of a worker is taken. -/
  sema : String → Bool
  /-- Whether a worker has noted the lock as its own, for renewal. -/
  held : String → Bool
  /-- The goroutines of a worker are numbered. -/
  phase : String → ℕ → Phase

/-- A label of the machine; most are steps of a goroutine of a worker. -/
inductive Event where
  | take (worker : String) (i : ℕ)
  | fetch (worker : String) (i : ℕ) (call : Call)
  | discard (worker : String) (i : ℕ) (call : Call)
  | prepare (worker : String) (i : ℕ) (how : Preparation)
  | abandon (worker : String) (i : ℕ) (call : Call)
  | drain (worker : String) (i : ℕ)
  | release (worker : String) (i : ℕ)
  | unlock (worker : String) (i : ℕ) (call : Call)
  | free (worker : String) (i : ℕ)
  /-- `RenewSequentialLocks`. -/
  | renew (worker : String)
  /-- The lock expires. -/
  | expire
  /-- Anything else in the system. -/
  | other (db : Db Key)

section Steps

variable (cj : Cjson) (queue : String)

def State.init : State := ⟨fun _ => none, fun _ => false, fun _ => false, fun _ _ => .idle⟩

def State.goto (s : State) (worker : String) (i : ℕ) (phase : Phase) : State :=
  { s with
    phase := Function.update s.phase worker (Function.update (s.phase worker) i phase) }

/-- The fetch script and what `fetchFromSequentialQueue` makes of its reply. -/
def State.fetch (s : State) (worker : String) (i : ℕ) (call : Call) : State :=
  let out := (sequentialFetch cj queue worker).run s.db
  let s' := { s with db := call.effect s.db out.db }
  match call, out with
  | .delivered, .ok (.job payload) _ =>
    match unmarshalJob payload with
    | some job => s'.goto worker i (.preparing payload job)
    | none => s'.goto worker i (.discarding payload)
  | _, _ => s'.goto worker i .draining

/-- `prepareFetchedJob`; then the lock is noted as held and the job returned. -/
def State.prepare (s : State) (worker : String) (i : ℕ) (payload : String) (job : Job) :
    Preparation → State
  | .accepted =>
    { s with held := Function.update s.held worker true }.goto worker i (.processing job)
  | .sanitized sanitized call =>
    let out := (sanitizeJobFinalization worker payload sanitized).run s.db
    let s' := { s with db := call.effect s.db out.db }
    if call = .delivered ∧ out.value? = some 1 then
      { s' with held := Function.update s.held worker true }.goto worker i (.processing job)
    else s'.goto worker i .abandoning
  | .failed => s.goto worker i .abandoning

def State.putBack (s : State) (worker : String) (i : ℕ) : State :=
  { s with sema := Function.update s.sema worker false }.goto worker i .idle

def State.step (s : State) : Event → State
  | .take worker i =>
    if s.sema worker then s
    else { s with sema := Function.update s.sema worker true }.goto worker i .fetching
  | .fetch worker i call => s.fetch cj queue worker i call
  | .discard worker i call =>
    match s.phase worker i with
    | .discarding payload =>
      { s with
        db := call.effect s.db ((discardSequentialFetch queue worker payload).run s.db).db }.goto
        worker i .draining
    | _ => s
  | .prepare worker i how =>
    match s.phase worker i with
    | .preparing payload job => s.prepare worker i payload job how
    | _ => s
  | .abandon worker i call =>
    { s with db := call.effect s.db ((releaseSequentialLock queue worker).run s.db).db }.goto
      worker i .draining
  | .drain worker i => s.putBack worker i
  | .release worker i =>
    match s.phase worker i with
    | .processing job =>
      -- The queue of the job was read before its handler ran.
      if job.queue = queue then
        { s with held := Function.update s.held worker false }.goto worker i .unlocking
      else s.goto worker i .idle
    | _ => s
  | .unlock worker i call =>
    { s with db := call.effect s.db ((releaseSequentialLock queue worker).run s.db).db }.goto
      worker i .freeing
  | .free worker i => s.putBack worker i
  -- Renewing sets the lifetime of the lock only, whoever holds it by then.
  | .renew _ => s
  | .expire => { s with db := s.db.del (.sequentialLock queue) }
  | .other db => { s with db := db }

/-- Where a goroutine must be for a step, and what is assumed of the surroundings: what is fetched
from the queue names the queue, the lock does not expire while a goroutine of its holder needs it,
and nothing else touches the lock. -/
def State.Permits (s : State) : Event → Prop
  | .take worker i => s.phase worker i = .idle
  | .fetch worker i _ => s.phase worker i = .fetching ∧
      ∀ payload db job, (sequentialFetch cj queue worker).run s.db = .ok (.job payload) db →
        unmarshalJob payload = some job → job.queue = queue
  | .discard worker i _ => ∃ payload, s.phase worker i = .discarding payload
  | .prepare worker i _ => ∃ payload job, s.phase worker i = .preparing payload job
  | .abandon worker i _ => s.phase worker i = .abandoning
  | .drain worker i => s.phase worker i = .draining
  | .release worker i => ∃ job, s.phase worker i = .processing job
  | .unlock worker i _ => s.phase worker i = .unlocking
  | .free worker i => s.phase worker i = .freeing
  | .renew worker => s.held worker = true
  | .expire => ∀ worker i, s.db.str (.sequentialLock queue) = some worker →
      ¬ (s.phase worker i).Locks
  | .other db => WellTyped db ∧
      db.str (.sequentialLock queue) = s.db.str (.sequentialLock queue)

end Steps

def lockMachine (cj : Cjson) (queue : String) : Machine State Event where
  permits := State.Permits cj queue
  step := State.step cj queue

/-! ### The lock -/

section Lock

variable {cj : Cjson} {db : Db Key} {queue worker : String}

/-- The keyspace has its types, and every other worker that had the lock still has it. -/
structure Respects (queue worker : String) (db db' : Db Key) : Prop where
  typed : WellTyped db'
  lock : ∀ holder, holder ≠ worker → db.str (.sequentialLock queue) = some holder →
    db'.str (.sequentialLock queue) = some holder

theorem Respects.refl (h : WellTyped db) : Respects queue worker db db := ⟨h, fun _ _ h => h⟩

theorem Respects.effect {db' : Db Key} (hdb : WellTyped db) (h : Respects queue worker db db')
    (call : Call) : Respects queue worker db (call.effect db db') := by
  cases call with
  | failed => exact .refl hdb
  | delivered => exact h
  | lost => exact h

theorem respects_sequentialFetch (h : WellTyped db) :
    Respects queue worker db ((sequentialFetch cj queue worker).run db).db ∧
      ∀ payload db', (sequentialFetch cj queue worker).run db = .ok (.job payload) db' →
        db'.str (.sequentialLock queue) = some worker := by
  rw [run_sequentialFetch (h _) (h _) (h _)]
  split
  · exact ⟨.refl h, fun payload db' hrun => by cases hrun⟩
  · next hfree =>
    have hmine : ∀ holder, holder ≠ worker → db.str (.sequentialLock queue) ≠ some holder :=
      fun _ hne hlock => hne (own_of_not_locked hfree hlock)
    cases (db.list (.queue queue)).getLast? with
    | none => exact ⟨.refl h, fun payload db' hrun => by cases hrun⟩
    | some payload =>
      have hmoved : ∀ payload', WellTyped
          ((db.putList (.queue queue) (db.list (.queue queue)).dropLast).putList (.inFlight worker)
            (payload' :: db.list (.inFlight worker))) :=
        fun _ => (h.putList rfl _).putList rfl _
      dsimp only
      cases held cj (trustedIn db) payload with
      | none =>
        refine ⟨⟨hmoved _, fun holder hne hlock => ?_⟩, fun payload db' hrun => by cases hrun⟩
        exact absurd hlock (hmine holder hne)
      | some payload' =>
        refine ⟨⟨(hmoved _).putStr rfl _, fun holder hne hlock => ?_⟩, ?_⟩
        · exact absurd hlock (hmine holder hne)
        · rintro payload db' ⟨⟩
          simp

theorem respects_discardSequentialFetch (h : WellTyped db) (payload : String) :
    Respects queue worker db ((discardSequentialFetch queue worker payload).run db).db := by
  rw [run_discardSequentialFetch h]
  have hlist : ∀ l, WellTyped (db.putList (.inFlight worker) l) := fun l => h.putList rfl l
  by_cases hin : payload ∈ db.list (.inFlight worker) <;>
    by_cases hlock : db.str (.sequentialLock queue) = some worker <;>
    simp only [hin, hlock, if_true, if_false]
  · refine ⟨(hlist _).del _, fun holder hne hholder => ?_⟩
    exact absurd (Option.some.inj (hholder.symm.trans hlock)) hne
  · exact ⟨hlist _, fun holder _ hholder => by simpa using hholder⟩
  · refine ⟨h.del _, fun holder hne hholder => ?_⟩
    exact absurd (Option.some.inj (hholder.symm.trans hlock)) hne
  · exact .refl h

theorem respects_releaseSequentialLock (h : WellTyped db) :
    Respects queue worker db ((releaseSequentialLock queue worker).run db).db := by
  rw [run_releaseSequentialLock h]
  split
  · next hlock =>
    refine ⟨h.del _, fun holder hne hholder => ?_⟩
    exact absurd (Option.some.inj (hholder.symm.trans hlock)) hne
  · exact .refl h

theorem lock_sanitizeJobFinalization (h : WellTyped db) (payload sanitized : String) :
    WellTyped ((sanitizeJobFinalization worker payload sanitized).run db).db ∧
      ((sanitizeJobFinalization worker payload sanitized).run db).db.str (.sequentialLock queue) =
        db.str (.sequentialLock queue) := by
  rw [run_sanitizeJobFinalization h]
  split
  · exact ⟨h.putList rfl _, by simp⟩
  · exact ⟨h, rfl⟩

end Lock

/-! ### Exclusion -/

theorem phase_goto (s : State) (worker worker' : String) (i i' : ℕ) (p : Phase) :
    (s.goto worker i p).phase worker' i' =
      if worker' = worker ∧ i' = i then p else s.phase worker' i' := by
  unfold State.goto
  by_cases hw : worker' = worker
  · subst hw
    by_cases hi : i' = i <;> simp [hi]
  · simp [hw]

def Phase.Names (queue : String) : Phase → Prop
  | .preparing _ job | .processing job => job.queue = queue
  | _ => True

/-- **The invariant.** -/
structure Exclusive (queue : String) (s : State) : Prop where
  typed : WellTyped s.db
  /-- Of a worker there is one goroutine at a time. -/
  one : ∀ worker i j, s.phase worker i ≠ .idle → s.phase worker j ≠ .idle → i = j
  /-- It has the semaphore. -/
  sema : ∀ worker, s.sema worker = true ↔ ∃ i, s.phase worker i ≠ .idle
  /-- A goroutine with a job has the lock. -/
  lock : ∀ worker i, (s.phase worker i).Locks → s.db.str (.sequentialLock queue) = some worker
  names : ∀ worker i, (s.phase worker i).Names queue

namespace Exclusive

variable {cj : Cjson} {queue worker : String} {s : State} {i : ℕ}

theorem init (queue : String) : Exclusive queue State.init where
  typed := .empty
  one := fun _ _ _ h => absurd rfl h
  sema := fun _ => ⟨fun h => (Bool.false_ne_true h).elim, fun ⟨_, h⟩ => absurd rfl h⟩
  lock := fun _ _ h => h.elim
  names := fun _ _ => trivial

variable (h : Exclusive queue s)

include h

theorem move (p : Phase) (hphase : s.phase worker i ≠ .idle)
    (hp : p ≠ .idle) {db : Db Key} (hdb : Respects queue worker s.db db) (held : String → Bool)
    (hlock : p.Locks → db.str (.sequentialLock queue) = some worker) (hnames : p.Names queue) :
    Exclusive queue ({ s with db := db, held := held }.goto worker i p) := by
  have hnonidle : ∀ worker' i', ({ s with db := db, held := held }.goto worker i p).phase worker' i' ≠
      .idle ↔ s.phase worker' i' ≠ .idle := by
    intro worker' i'
    rw [phase_goto]
    split
    · next hsame =>
      obtain ⟨rfl, rfl⟩ := hsame
      exact ⟨fun _ => hphase, fun _ => hp⟩
    · rfl
  exact
    { typed := hdb.typed
      one := fun worker' j k hj hk =>
        h.one worker' j k ((hnonidle _ _).mp hj) ((hnonidle _ _).mp hk)
      sema := fun worker' => (h.sema worker').trans (exists_congr fun j => (hnonidle worker' j).symm)
      lock := by
        intro worker' j hlocks
        rw [phase_goto] at hlocks
        split at hlocks
        · next hsame => exact hsame.1 ▸ hlock hlocks
        · next hother =>
          -- Another goroutine with the lock is of another worker.
          have hholds := h.lock worker' j hlocks
          have hidle : s.phase worker' j ≠ .idle := by
            intro hidle
            rw [hidle] at hlocks
            exact hlocks
          refine hdb.lock worker' (fun hworker => ?_) hholds
          subst hworker
          exact hother ⟨rfl, h.one worker' j i hidle hphase⟩
      names := by
        intro worker' j
        rw [phase_goto]
        split
        · exact hnames
        · exact h.names worker' j }

theorem putBack (hphase : s.phase worker i ≠ .idle) : Exclusive queue (s.putBack worker i) := by
  have hstay : ∀ worker' j, (s.putBack worker i).phase worker' j ≠ .idle →
      s.phase worker' j ≠ .idle ∧ (s.putBack worker i).phase worker' j = s.phase worker' j ∧
        worker' ≠ worker := by
    -- the goroutine was the worker's only busy one, so who is busy now is another's
    intro worker' j hj
    rw [State.putBack, phase_goto] at hj ⊢
    split at hj
    · exact absurd rfl hj
    · next hother =>
      rw [if_neg hother]
      refine ⟨hj, rfl, ?_⟩
      rintro rfl
      exact hother ⟨rfl, h.one worker' j i hj hphase⟩
  exact
    { typed := h.typed
      one := fun worker' j k hj hk => h.one worker' j k (hstay _ _ hj).1 (hstay _ _ hk).1
      sema := by
        intro worker'
        by_cases hworker : worker' = worker
        · subst hworker
          refine ⟨fun htrue => ?_, fun ⟨j, hj⟩ => absurd rfl (hstay _ _ hj).2.2⟩
          simp [State.putBack, State.goto] at htrue
        · have hsame : (s.putBack worker i).sema worker' = s.sema worker' := by
            simp [State.putBack, State.goto, hworker]
          rw [hsame, h.sema worker']
          refine exists_congr fun j => ?_
          rw [State.putBack, phase_goto, if_neg fun hboth => hworker hboth.1]
      lock := by
        intro worker' j hlocks
        have hidle : (s.putBack worker i).phase worker' j ≠ .idle := by
          intro hidle
          rw [hidle] at hlocks
          exact hlocks
        rw [(hstay _ _ hidle).2.1] at hlocks
        exact h.lock worker' j hlocks
      names := by
        intro worker' j
        rw [State.putBack, phase_goto]
        split
        · trivial
        · exact h.names worker' j }

theorem take : Exclusive queue (s.step cj queue (.take worker i)) := by
  change Exclusive queue (if s.sema worker then s
    else { s with sema := Function.update s.sema worker true }.goto worker i .fetching)
  split
  · exact h
  · next hfree =>
    have hidle : ∀ j, s.phase worker j = .idle := by
      intro j
      by_contra hj
      exact hfree ((h.sema worker).mpr ⟨j, hj⟩)
    have hmoved : ∀ worker' j, (({ s with sema := Function.update s.sema worker true } : State).goto
        worker i .fetching).phase worker' j =
          if worker' = worker ∧ j = i then .fetching else s.phase worker' j :=
      fun worker' j => phase_goto _ _ _ _ _ _
    exact
      { typed := h.typed
        one := by
          intro worker' j k hj hk
          rw [hmoved] at hj hk
          by_cases hworker : worker' = worker
          · subst hworker
            -- Every goroutine but the new one is idle.
            have hself : ∀ l, (if worker' = worker' ∧ l = i then Phase.fetching
                else s.phase worker' l) ≠ .idle → l = i := by
              intro l hl
              by_contra hne
              rw [if_neg fun hboth => hne hboth.2] at hl
              exact hl (hidle l)
            exact (hself j hj).trans (hself k hk).symm
          · rw [if_neg fun hboth => hworker hboth.1] at hj hk
            exact h.one worker' j k hj hk
        sema := by
          intro worker'
          by_cases hworker : worker' = worker
          · subst hworker
            refine ⟨fun _ => ⟨i, ?_⟩, fun _ => by simp [State.goto]⟩
            rw [hmoved, if_pos ⟨rfl, rfl⟩]
            exact Phase.noConfusion
          · have hsame : (({ s with sema := Function.update s.sema worker true } : State).goto
                worker i .fetching).sema worker' = s.sema worker' := by
              simp [State.goto, hworker]
            rw [hsame, h.sema worker']
            refine exists_congr fun j => ?_
            rw [hmoved, if_neg fun hboth => hworker hboth.1]
        lock := by
          intro worker' j hlocks
          rw [hmoved] at hlocks
          split at hlocks
          · exact hlocks.elim
          · exact h.lock worker' j hlocks
        names := by
          intro worker' j
          rw [hmoved]
          split
          · trivial
          · exact h.names worker' j }

theorem fetch (hphase : s.phase worker i = .fetching)
    (hnames : ∀ payload db job, (sequentialFetch cj queue worker).run s.db = .ok (.job payload) db →
      unmarshalJob payload = some job → job.queue = queue) (call : Call) :
    Exclusive queue (s.fetch cj queue worker i call) := by
  have hne : s.phase worker i ≠ .idle := hphase ▸ nofun
  obtain ⟨hrespects, hjob⟩ := @respects_sequentialFetch cj s.db queue worker h.typed
  have heffect := hrespects.effect h.typed call
  unfold State.fetch
  dsimp only
  split
  · next payload db hrun =>
    have hdb : Call.effect s.db ((sequentialFetch cj queue worker).run s.db).db .delivered = db := by
      rw [hrun]
      rfl
    split
    · next job hread =>
      exact h.move (.preparing payload job) hne nofun heffect _ (fun _ => hdb ▸ hjob payload db hrun)
        (hnames payload db job hrun hread)
    · exact h.move (.discarding payload) hne nofun heffect _ False.elim trivial
  · exact h.move .draining hne nofun heffect _ False.elim trivial

theorem prepare {payload : String} {job : Job}
    (hphase : s.phase worker i = .preparing payload job) (how : Preparation) :
    Exclusive queue (s.prepare worker i payload job how) := by
  have hne : s.phase worker i ≠ .idle := hphase ▸ nofun
  have hlock : s.db.str (.sequentialLock queue) = some worker :=
    h.lock worker i (by rw [hphase]; trivial)
  have hqueue : job.queue = queue := by
    have hnames := h.names worker i
    rw [hphase] at hnames
    exact hnames
  cases how with
  | accepted => exact h.move (.processing job) hne nofun (.refl h.typed) _ (fun _ => hlock) hqueue
  | failed => exact h.move .abandoning hne nofun (.refl h.typed) s.held False.elim trivial
  | sanitized sanitized call =>
    obtain ⟨htyped, hsame⟩ :=
      @lock_sanitizeJobFinalization s.db queue worker h.typed payload sanitized
    have hrespects : Respects queue worker s.db
        ((sanitizeJobFinalization worker payload sanitized).run s.db).db :=
      ⟨htyped, fun _ _ hholder => hsame.trans hholder⟩
    have heffect := hrespects.effect h.typed call
    unfold State.prepare
    dsimp only
    split
    · next hok =>
      refine h.move (.processing job) hne nofun heffect _ (fun _ => ?_) hqueue
      rw [hok.1]
      exact hsame.trans hlock
    · exact h.move .abandoning hne nofun heffect s.held False.elim trivial

/-- **What every step preserves.** -/
theorem step {e : Event} (he : s.Permits cj queue e) : Exclusive queue (s.step cj queue e) := by
  cases e with
  | take worker i => exact h.take
  | fetch worker i call => exact h.fetch he.1 he.2 call
  | discard worker i call =>
    obtain ⟨payload, hphase⟩ := he
    have hrespects := (@respects_discardSequentialFetch s.db queue worker h.typed payload).effect
      h.typed call
    simp only [State.step, hphase]
    exact h.move .draining (hphase ▸ nofun) nofun hrespects s.held False.elim trivial
  | prepare worker i how =>
    obtain ⟨payload, job, hphase⟩ := he
    simp only [State.step, hphase]
    exact h.prepare hphase how
  | abandon worker i call =>
    have hphase : s.phase worker i ≠ .idle := by rw [show s.phase worker i = _ from he]; nofun
    exact h.move .draining hphase nofun ((respects_releaseSequentialLock h.typed).effect h.typed call)
      s.held False.elim trivial
  | drain worker i | free worker i =>
    have hphase : s.phase worker i ≠ .idle := by rw [show s.phase worker i = _ from he]; nofun
    exact h.putBack hphase
  | release worker i =>
    obtain ⟨job, hphase⟩ := he
    have hlock : s.db.str (.sequentialLock queue) = some worker :=
      h.lock worker i (by rw [hphase]; trivial)
    have hqueue : job.queue = queue := by
      have hnames := h.names worker i
      rw [hphase] at hnames
      exact hnames
    simp only [State.step, hphase, hqueue, if_true]
    exact h.move .unlocking (hphase ▸ nofun) nofun (.refl h.typed) _ (fun _ => hlock) trivial
  | unlock worker i call =>
    have hphase : s.phase worker i ≠ .idle := by rw [show s.phase worker i = _ from he]; nofun
    exact h.move .freeing hphase nofun ((respects_releaseSequentialLock h.typed).effect h.typed call)
      s.held False.elim trivial
  | renew worker => exact h
  | expire =>
    -- the lock expires only when its worker has no goroutine that relies on it
    refine { h with typed := h.typed.del _, lock := fun worker i hlocks => ?_ }
    exact absurd hlocks (he worker i (h.lock worker i hlocks))
  | other db =>
    refine { h with typed := he.1, lock := fun worker i hlocks => ?_ }
    exact he.2.trans (h.lock worker i hlocks)

end Exclusive

/-- **One job at a time.** In every run, the goroutines that were given a job and whose
`ReleaseSequentialLock` has not yet run its script are one at most; and a worker's semaphore is
taken exactly while one of its goroutines is between taking and giving it back. -/
theorem sequential_exclusive (cj : Cjson) (queue : String) (es : List Event)
    (legal : (lockMachine cj queue).Legal .init es) :
    let s := (lockMachine cj queue).run .init es
    (∀ worker worker' i i', (s.phase worker i).Busy → (s.phase worker' i').Busy →
      worker = worker' ∧ i = i') ∧
    ∀ worker, (s.sema worker = true ↔ ∃ i, s.phase worker i ≠ .idle) ∧
      ∀ i i', s.phase worker i ≠ .idle → s.phase worker i' ≠ .idle → i = i' := by
  intro s
  have h : Exclusive queue s := legal.invariant (fun s e h he => h.step he) (.init queue)
  refine ⟨fun worker worker' i i' hbusy hbusy' => ?_, fun worker => ⟨h.sema worker, h.one worker⟩⟩
  -- Both have the lock, so they are of one worker; and of that one there is only one.
  have hlock := h.lock worker i hbusy.locks
  have hlock' := h.lock worker' i' hbusy'.locks
  obtain rfl : worker = worker' := Option.some.inj (hlock.symm.trans hlock')
  exact ⟨rfl, h.one worker i i' hbusy.ne_idle hbusy'.ne_idle⟩

/-! ### After the script of the release -/

section Overlap

variable {cj : Cjson} {queue worker payload : String} {job : Job} {s : State}

def receive (worker : String) : List Event :=
  [.take worker 0, .fetch worker 0 .delivered, .prepare worker 0 .accepted]

def fetched (queue worker payload : String) (db : Db Key) : Db Key :=
  ((db.putList (.queue queue) (db.list (.queue queue)).dropLast).putList (.inFlight worker)
    (payload :: db.list (.inFlight worker))).putStr (.sequentialLock queue) worker

theorem fetched_lock (db : Db Key) :
    (fetched queue worker payload db).str (.sequentialLock queue) = some worker := by
  simp [fetched]

theorem fetched_queue (db : Db Key) : (fetched queue worker payload db).list (.queue queue) =
    (db.list (.queue queue)).dropLast := by
  simp [fetched]

theorem fetched_typed {db : Db Key} (h : WellTyped db) :
    WellTyped (fetched queue worker payload db) :=
  ((h.putList rfl _).putList rfl _).putStr rfl _

/-- What it takes for a worker to get a job: it does not have the semaphore yet, nobody has the
lock, and the oldest payload is one of the queue. -/
structure Offered (cj : Cjson) (queue worker payload : String) (job : Job) (s : State) : Prop where
  typed : WellTyped s.db
  idle : s.phase worker 0 = .idle
  free : s.sema worker = false
  lock : s.db.str (.sequentialLock queue) = none
  oldest : (s.db.list (.queue queue)).getLast? = some payload
  held : held cj (trustedIn s.db) payload = some payload
  read : unmarshalJob payload = some job
  names : job.queue = queue

theorem Offered.sequentialFetch (h : Offered cj queue worker payload job s) :
    (Senna.sequentialFetch cj queue worker).run s.db =
      .ok (.job payload) (fetched queue worker payload s.db) := by
  rw [run_sequentialFetch (h.typed _) (h.typed _) (h.typed _),
    if_neg fun hlocked => hlocked.1 h.lock, h.oldest]
  dsimp only
  rw [h.held]
  rfl

theorem Offered.receive (h : Offered cj queue worker payload job s) :
    (lockMachine cj queue).Legal s (receive worker) ∧
      (lockMachine cj queue).run s (receive worker) =
        { db := fetched queue worker payload s.db
          sema := Function.update s.sema worker true
          held := Function.update s.held worker true
          phase := Function.update s.phase worker
            (Function.update (s.phase worker) 0 (.processing job)) } := by
  have htake : s.step cj queue (.take worker 0) =
      { s with sema := Function.update s.sema worker true }.goto worker 0 .fetching := by
    simp [State.step, h.free]
  obtain ⟨s₁, hs₁⟩ : ∃ s₁ : State,
      s₁ = { s with sema := Function.update s.sema worker true }.goto worker 0 .fetching := ⟨_, rfl⟩
  have hdb : s₁.db = s.db := by rw [hs₁]; rfl
  have hphase : s₁.phase worker 0 = .fetching := by rw [hs₁, phase_goto]; simp
  have hrun := hdb ▸ h.sequentialFetch
  have hfetch : s₁.step cj queue (.fetch worker 0 .delivered) =
      { s₁ with db := fetched queue worker payload s₁.db }.goto worker 0 (.preparing payload job) := by
    simp only [State.step, State.fetch, hrun, h.read, Call.effect, Outcome.db]
  have hprepare : ∀ s₂ : State, s₂.phase worker 0 = .preparing payload job →
      s₂.step cj queue (.prepare worker 0 .accepted) =
        { s₂ with held := Function.update s₂.held worker true }.goto worker 0
          (.processing job) := by
    intro s₂ hpreparing
    simp only [State.step, hpreparing, State.prepare]
  constructor
  · refine ⟨h.idle, ?_⟩
    change (lockMachine cj queue).Legal (s.step cj queue (.take worker 0)) _
    rw [htake, ← hs₁]
    refine ⟨⟨hphase, fun payload' db' job' hrun' hread' => ?_⟩, ⟨payload, job, ?_⟩, trivial⟩
    · cases hrun.symm.trans hrun'
      cases h.read.symm.trans hread'
      exact h.names
    · change (s₁.step cj queue (.fetch worker 0 .delivered)).phase worker 0 = _
      rw [hfetch, phase_goto]
      simp
  · change ((s.step cj queue (.take worker 0)).step cj queue (.fetch worker 0 .delivered)).step cj
      queue (.prepare worker 0 .accepted) = _
    rw [htake, ← hs₁, hfetch, hprepare _ (by rw [phase_goto]; simp), hs₁]
    simp [State.goto]

/-- After the script of the release, the goroutine has yet to give back its semaphore. -/
def letGo (worker : String) : List Event := [.release worker 0, .unlock worker 0 .delivered]

theorem run_letGo (htyped : WellTyped s.db) (hphase : s.phase worker 0 = .processing job)
    (hqueue : job.queue = queue) (hlock : s.db.str (.sequentialLock queue) = some worker) :
    (lockMachine cj queue).Legal s (letGo worker) ∧
      (lockMachine cj queue).run s (letGo worker) =
        { db := s.db.del (.sequentialLock queue)
          sema := s.sema
          held := Function.update s.held worker false
          phase := Function.update s.phase worker
            (Function.update (s.phase worker) 0 .freeing) } := by
  have hrelease : s.step cj queue (.release worker 0) =
      { s with held := Function.update s.held worker false }.goto worker 0 .unlocking := by
    simp only [State.step, hphase, hqueue, if_true]
  constructor
  · refine ⟨⟨job, hphase⟩, ?_, trivial⟩
    change (s.step cj queue (.release worker 0)).phase worker 0 = _
    rw [hrelease, phase_goto]
    simp
  · change (s.step cj queue (.release worker 0)).step cj queue (.unlock worker 0 .delivered) = _
    rw [hrelease]
    simp [State.step, State.goto, Call.effect, run_releaseSequentialLock htyped, hlock]

/-- Two jobs on the queue, one worker that has let go of the first, and another that gets the
second. -/
def overlapRun (queue : String) (job job' : Job) : List Event :=
  .other (Db.putList (fun _ => none) (.queue queue) [job'.marshal, job.marshal]) ::
    (receive "w" ++ letGo "w" ++ receive "v")

variable {job' : Job}

/-- Two jobs of the queue whose payloads are read back and have no marker. -/
structure Two (queue : String) (job job' : Job) : Prop where
  read : unmarshalJob job.marshal = some job ∧ unmarshalJob job'.marshal = some job'
  ids : job.id ≠ "" ∧ job'.id ≠ ""
  unmarked : job.finalization = none ∧ job'.finalization = none
  names : job.queue = queue ∧ job'.queue = queue

theorem Two.held (h : Two queue job job') (trusted : String → Option String) :
    Senna.held cj trusted job.marshal = some job.marshal ∧
      Senna.held cj trusted job'.marshal = some job'.marshal :=
  ⟨held_marshal h.ids.1 fun _ hf => absurd (h.unmarked.1.symm.trans hf) nofun,
    held_marshal h.ids.2 fun _ hf => absurd (h.unmarked.2.symm.trans hf) nofun⟩

theorem two_plain (queue : String) : Two queue (Job.plain "a" queue) (Job.plain "b" queue) where
  read := ⟨unmarshalJob_plain _ _, unmarshalJob_plain _ _⟩
  ids := ⟨show "a" ≠ "" by decide, show "b" ≠ "" by decide⟩
  unmarked := ⟨rfl, rfl⟩
  names := ⟨rfl, rfl⟩

theorem Two.overlap (h : Two queue job job') :
    (lockMachine cj queue).Legal .init (overlapRun queue job job') ∧
      ((lockMachine cj queue).run .init (overlapRun queue job job')).phase "w" 0 = .freeing ∧
      ((lockMachine cj queue).run .init (overlapRun queue job job')).phase "v" 0 =
        .processing job' := by
  obtain ⟨s₀, hs₀⟩ : ∃ s₀ : State, s₀ =
    State.init.step cj queue
      (.other (Db.putList (fun _ => none) (.queue queue) [job'.marshal, job.marshal])) :=
      ⟨_, rfl⟩
  have htyped : WellTyped s₀.db := hs₀ ▸ WellTyped.empty.putList rfl _
  have hlist : s₀.db.list (.queue queue) = [job'.marshal, job.marshal] := by simp [hs₀, State.step]
  have hlock : s₀.db.str (.sequentialLock queue) = none := by
    rw [hs₀]
    rfl
  have hidle : s₀.phase = (fun _ _ => .idle) ∧ s₀.sema = fun _ => false := hs₀ ▸ ⟨rfl, rfl⟩
  have hfirst : Offered cj queue "w" job.marshal job s₀ :=
    ⟨htyped, by rw [hidle.1], by rw [hidle.2], hlock, by rw [hlist]; rfl, (h.held _).1, h.read.1,
      h.names.1⟩
  obtain ⟨hlegal₁, hrun₁⟩ := hfirst.receive
  obtain ⟨s₁, hs₁⟩ : ∃ s₁, s₁ = (lockMachine cj queue).run s₀ (receive "w") := ⟨_, rfl⟩
  rw [← hs₁] at hrun₁
  obtain ⟨hlegal₂, hrun₂⟩ := @run_letGo cj queue "w" job s₁ (hrun₁ ▸ fetched_typed htyped)
    (by simp [hrun₁]) h.names.1 (hrun₁ ▸ fetched_lock _)
  obtain ⟨s₂, hs₂⟩ : ∃ s₂, s₂ = (lockMachine cj queue).run s₁ (letGo "w") := ⟨_, rfl⟩
  rw [← hs₂] at hrun₂
  have hsecond : Offered cj queue "v" job'.marshal job' s₂ := by
    refine ⟨?_, ?_, ?_, ?_, ?_, (h.held _).2, h.read.2, h.names.2⟩
    · rw [hrun₂, hrun₁]
      exact (fetched_typed htyped).del _
    · simp [hrun₂, hrun₁, hidle.1]
    · simp [hrun₂, hrun₁, hidle.2]
    · simp [hrun₂]
    · simp [hrun₂, hrun₁, fetched_queue, hlist]
  obtain ⟨hlegal₃, hrun₃⟩ := hsecond.receive
  have hrun : (lockMachine cj queue).run .init (overlapRun queue job job') =
      (lockMachine cj queue).run s₂ (receive "v") := by
    rw [overlapRun, Machine.run_cons, Machine.run_append, Machine.run_append, hs₂, hs₁, hs₀]
    rfl
  refine ⟨⟨⟨WellTyped.empty.putList rfl _, rfl⟩, ?_⟩, ?_⟩
  · change (lockMachine cj queue).Legal (State.step cj queue .init (.other _)) _
    rw [← hs₀, Machine.legal_append, Machine.legal_append, Machine.run_append, ← hs₁, ← hs₂]
    exact ⟨⟨hlegal₁, hlegal₂⟩, hlegal₃⟩
  · rw [hrun, hrun₃]
    simp [hrun₂]

theorem two_in_window : ∃ es, (lockMachine .plain "q").Legal .init es ∧
    (((lockMachine .plain "q").run .init es).phase "w" 0).InWindow ∧
    (((lockMachine .plain "q").run .init es).phase "v" 0).InWindow := by
  obtain ⟨hlegal, hfreeing, hprocessing⟩ := @Two.overlap .plain "q" _ _ (two_plain "q")
  generalize overlapRun "q" _ _ = es at hlegal hfreeing hprocessing
  refine ⟨es, hlegal, ?_, ?_⟩
  · rw [hfreeing]
    trivial
  · rw [hprocessing]
    trivial

theorem sequential_exclusive_overlap : ∃ es, (lockMachine .plain "q").Legal .init es ∧
    (((lockMachine .plain "q").run .init es).phase "v" 0).Busy ∧
    ∀ worker i, (((lockMachine .plain "q").run .init es).phase worker i).Busy →
      worker = "v" ∧ i = 0 := by
  obtain ⟨hlegal, -, hprocessing⟩ := @Two.overlap .plain "q" _ _ (two_plain "q")
  generalize overlapRun "q" _ _ = es at hlegal hprocessing
  have hbusy : (((lockMachine .plain "q").run .init es).phase "v" 0).Busy := by
    rw [hprocessing]
    trivial
  refine ⟨es, hlegal, hbusy, fun worker i h => ?_⟩
  exact (sequential_exclusive .plain "q" es hlegal).1 worker "v" i 0 h hbusy

end Overlap

end Sequential

end Senna
