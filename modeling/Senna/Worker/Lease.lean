import Senna.Worker.Sequential

/-!
# Keeping a sequential lock

The lock of a sequential queue has a lifetime, and `Sequential` assumes that it does not expire
while a goroutine of its holder needs it. Here there is a clock, and that is proved. The fetch
script sets the lock with `PX`. Once the job is prepared, every tick of `sequentialLockRenewer`
renews the lock, with `GET` and then `PEXPIRE` if the worker is the holder. The two are not atomic:
by the time of the second the lock may be another worker's, which then gets a longer life.

**The lock outlives the job** if its lifetime covers the preparation of a job, one interval of the
ticker, and the delays of a renewal and of the script of the release (`Covers`). All workers have
the same settings, the commands of a renewal do not fail, and the renewer runs: after
`ShutdownTimeout` it is stopped, whatever still holds a lock.
-/

namespace Senna

open Redis

namespace Sequential

namespace Lease

/-! ### The machine with a clock -/

/-- `durationMilliseconds`, which is also what `PExpire` makes of a duration in nanoseconds. -/
def durationMilliseconds (d : ℕ) : ℕ :=
  let ms := d / 1000000
  if ms ≤ 0 then 1 else ms

/-- The settings of the lock, in nanoseconds, and how fast the workers are. -/
structure Timing where
  /-- `SequentialLockTTL`. -/
  ttl : ℕ
  /-- `SequentialLockRenewInterval`. -/
  interval : ℕ
  /-- The time `prepareFetchedJob` takes at most. -/
  prep : ℕ
  /-- How late a renewal or the script of the release is at most. -/
  late : ℕ

/-- One sequential queue in time. -/
structure Timed where
  base : State
  /-- In nanoseconds. -/
  clock : ℕ
  /-- When the lifetime of the lock was last set. -/
  refreshed : ℕ
  /-- When a goroutine came to where it is, or its worker last set the lifetime. -/
  began : String → ℕ → ℕ
  /-- Whether a worker has found itself the holder and is about to send `PEXPIRE`. -/
  extending : String → Bool

/-- A label: an event of the queue, a command of a renewal, which may begin at any time, or time
that passes. -/
inductive Label where
  | act (e : Event)
  | get (worker : String)
  | pexpire (worker : String)
  | advance (d : ℕ)

def claims (cj : Cjson) (queue : String) (db : Db Key) : Event → Bool
  | .fetch worker _ call =>
    match call, (sequentialFetch cj queue worker).run db with
    | .failed, _ => false
    | _, .ok (.job _) _ => true
    | _, _ => false
  | _ => false

def mover : Event → Option (String × ℕ)
  | .take worker i | .fetch worker i _ | .discard worker i _ | .prepare worker i _
  | .abandon worker i _ | .drain worker i | .release worker i | .unlock worker i _
  | .free worker i => some (worker, i)
  | _ => none

section Steps

variable (cj : Cjson) (queue : String) (pace : Timing)

def Timed.init : Timed := ⟨.init, 0, 0, fun _ _ => 0, fun _ => false⟩

def Timed.Due (s : Timed) : Prop :=
  s.base.db.str (.sequentialLock queue) ≠ none ∧
    s.refreshed / 1000000 + durationMilliseconds pace.ttl ≤ s.clock / 1000000

/-- How long a goroutine with the lock stays in a phase, or waits for the next renewal. -/
def Timing.pause : Phase → ℕ
  | .preparing _ _ => pace.prep
  | .processing _ => pace.interval + pace.late
  | _ => pace.late

def Timing.slack : Phase → ℕ
  | .processing _ => pace.prep
  | .unlocking => pace.prep + (pace.interval + pace.late)
  | _ => 0

/-- The lifetime of a lock, less the millisecond that the clock of Redis may be ahead. -/
def Timing.Covers : Prop :=
  pace.prep + pace.interval + 2 * pace.late + 1000000 ≤ durationMilliseconds pace.ttl * 1000000

def Timed.step (s : Timed) : Label → Timed
  | .act e =>
    { s with
      base := s.base.step cj queue e
      refreshed := if claims cj queue s.base.db e then s.clock else s.refreshed
      began := fun worker i => if mover e = (worker, i) then s.clock else s.began worker i }
  | .get worker =>
    let holder := s.base.db.str (.sequentialLock queue)
    { s with extending := Function.update s.extending worker (holder = some worker) }
  -- Whoever has the lock by now; if there is none, there is no lifetime either.
  | .pexpire worker =>
    { s with
      refreshed := s.clock
      began := fun worker' i => if worker' = worker then s.clock else s.began worker' i
      extending := Function.update s.extending worker false }
  | .advance d => { s with clock := s.clock + d }

/-- A lock whose time has come is removed before anything else happens, and time passes only as
far as every goroutine with the lock, and its renewer, is on time. -/
def Timed.Permits (s : Timed) : Label → Prop
  | .act .expire => s.Due queue pace
  | .act e => ¬ s.Due queue pace ∧ s.base.Permits cj queue e
  | .get _ => ¬ s.Due queue pace
  | .pexpire worker => ¬ s.Due queue pace ∧ s.extending worker = true
  | .advance d => ∀ worker i, (s.base.phase worker i).Locks →
      s.clock + d ≤ s.began worker i + pace.pause (s.base.phase worker i)

def timedMachine : Machine Timed Label where
  permits := Timed.Permits cj queue pace
  step := Timed.step cj queue

end Steps

/-! ### The events that matter -/

section Base

variable {cj : Cjson} {queue : String} {pace : Timing} {s : State} {e : Event}

variable (pace) in
def Timing.Follows (q p : Phase) : Prop :=
  q.Locks ∧ pace.slack q + pace.pause q ≤ pace.slack p

theorem phase_step (he : s.Permits cj queue e) :
    (mover e = none ∧ (s.step cj queue e).phase = s.phase) ∨
      ∃ worker i p, mover e = (worker, i) ∧ (s.step cj queue e).phase = (s.goto worker i p).phase ∧
        (p.Locks → claims cj queue s.db e = true ∨ pace.Follows (s.phase worker i) p) := by
  -- the phases with the lock are entered by a fetch that claims it, or from one another
  cases e with
  | take worker i =>
    refine Or.inr ⟨worker, i, ?_⟩
    simp only [State.step]
    split
    · exact ⟨.idle, rfl, by rw [← show s.phase worker i = _ from he]; simp [State.goto], False.elim⟩
    · exact ⟨.fetching, rfl, rfl, False.elim⟩
  | fetch worker i call =>
    refine Or.inr ⟨worker, i, ?_⟩
    simp only [State.step, State.fetch]
    split
    · next payload db hrun =>
      split
      · exact ⟨_, rfl, rfl, fun _ => Or.inl (by simp only [claims, hrun])⟩
      · exact ⟨_, rfl, rfl, False.elim⟩
    · exact ⟨_, rfl, rfl, False.elim⟩
  | discard worker i call =>
    obtain ⟨payload, hphase⟩ := he
    simp only [State.step, hphase]
    exact Or.inr ⟨worker, i, _, rfl, rfl, False.elim⟩
  | prepare worker i how =>
    obtain ⟨payload, job, hphase⟩ := he
    refine Or.inr ⟨worker, i, ?_⟩
    simp only [State.step, hphase]
    cases how with
    | accepted => exact ⟨_, rfl, rfl, fun _ => Or.inr ⟨trivial, (Nat.zero_add _).le⟩⟩
    | failed => exact ⟨_, rfl, rfl, False.elim⟩
    | sanitized sanitized call =>
      simp only [State.prepare]
      split
      · exact ⟨_, rfl, rfl, fun _ => Or.inr ⟨trivial, (Nat.zero_add _).le⟩⟩
      · exact ⟨_, rfl, rfl, False.elim⟩
  | release worker i =>
    obtain ⟨job, hphase⟩ := he
    refine Or.inr ⟨worker, i, ?_⟩
    simp only [State.step, hphase]
    split
    · exact ⟨_, rfl, rfl, fun _ => Or.inr ⟨trivial, le_rfl⟩⟩
    · exact ⟨_, rfl, rfl, False.elim⟩
  | abandon worker i call | drain worker i | unlock worker i call | free worker i =>
    exact Or.inr ⟨worker, i, _, rfl, rfl, False.elim⟩
  | _ => exact Or.inl ⟨rfl, rfl⟩

end Base

/-! ### The lock is kept -/

section Kept

variable (queue : String) (pace : Timing)

/-- **The invariant.** Whoever needs the lock is on time, and so was whoever set its lifetime. -/
structure Kept (s : Timed) : Prop where
  exclusive : Exclusive queue s.base
  refreshed : s.refreshed ≤ s.clock
  covered : ∀ worker i, (s.base.phase worker i).Locks →
    s.clock ≤ s.began worker i + pace.pause (s.base.phase worker i) ∧
      s.began worker i ≤ s.refreshed + pace.slack (s.base.phase worker i)

variable {queue pace} {cj : Cjson} {s : Timed} {e : Event}

namespace Kept

theorem init : Kept queue pace Timed.init := ⟨.init queue, le_rfl, fun _ _ h => h.elim⟩

variable (h : Kept queue pace s)

include h

theorem not_due (hcover : pace.Covers) {worker : String} {i : ℕ}
    (hlocks : (s.base.phase worker i).Locks) : ¬ s.Due queue pace := by
  rintro ⟨-, hdue⟩
  unfold Timing.Covers at hcover
  obtain ⟨hpause, hslack⟩ := h.covered worker i hlocks
  have hneed : s.clock ≤ s.refreshed + (pace.prep + pace.interval + 2 * pace.late) := by
    cases hphase : s.base.phase worker i <;>
      simp only [hphase, Timing.pause, Timing.slack] at hpause hslack <;> omega
  omega

theorem act (he : s.base.Permits cj queue e) : Kept queue pace (s.step cj queue (.act e)) := by
  have hle := h.refreshed
  have hrefreshed : s.refreshed ≤ (s.step cj queue (.act e)).refreshed ∧
      (s.step cj queue (.act e)).refreshed ≤ s.clock := by
    simp only [Timed.step]
    split_ifs <;> omega
  refine ⟨h.exclusive.step he, hrefreshed.2, fun worker i hlocks => ?_⟩
  simp only [Timed.step] at hlocks hrefreshed ⊢
  obtain ⟨hmover, hphase⟩ | ⟨worker', j, p, hmover, hphase, hp⟩ := @phase_step cj queue pace _ _ he
  · rw [hphase] at hlocks ⊢
    have hcovered := h.covered worker i hlocks
    rw [hmover, if_neg (Option.some_ne_none _).symm]
    omega
  · rw [hphase, phase_goto] at hlocks ⊢
    by_cases hsame : worker = worker' ∧ i = j
    · obtain ⟨rfl, rfl⟩ := hsame
      simp only [hmover, and_self, if_true] at hlocks ⊢
      obtain hclaims | ⟨hold, hnext⟩ := hp hlocks
      · rw [if_pos hclaims]
        exact ⟨Nat.le_add_right _ _, Nat.le_add_right _ _⟩
      · have hcovered := h.covered worker i hold
        omega
    · rw [if_neg hsame] at hlocks ⊢
      have hcovered := h.covered worker i hlocks
      have hother : mover e ≠ (worker, i) := by
        rintro heq
        cases hmover.symm.trans heq
        exact hsame ⟨rfl, rfl⟩
      rw [if_neg hother]
      omega

theorem pexpire (worker : String) : Kept queue pace (s.step cj queue (.pexpire worker)) := by
  have hle := h.refreshed
  refine ⟨h.exclusive, le_rfl, fun worker' i hlocks => ?_⟩
  have hcovered := h.covered worker' i hlocks
  simp only [Timed.step] at hcovered ⊢
  split_ifs
  · exact ⟨Nat.le_add_right _ _, Nat.le_add_right _ _⟩
  · omega

/-- **What every label preserves**, and which of them are events of the queue. -/
theorem step (hcover : pace.Covers) {l : Label} (hl : s.Permits cj queue pace l) :
    Kept queue pace (s.step cj queue l) ∧
      ∃ es, (lockMachine cj queue).Legal s.base es ∧
        (s.step cj queue l).base = (lockMachine cj queue).run s.base es := by
  cases l with
  | act e =>
    have he : s.base.Permits cj queue e := by
      cases e with
      | expire => exact fun worker i _ hlocks => h.not_due hcover hlocks hl
      | _ => exact hl.2
    exact ⟨h.act he, [e], ⟨he, trivial⟩, rfl⟩
  | get worker => exact ⟨⟨h.exclusive, h.refreshed, h.covered⟩, [], trivial, rfl⟩
  | pexpire worker => exact ⟨h.pexpire worker, [], trivial, rfl⟩
  | advance d =>
    exact ⟨⟨h.exclusive, Nat.le_add_right_of_le h.refreshed, fun worker i hlocks =>
      ⟨hl worker i hlocks, (h.covered worker i hlocks).2⟩⟩, [], trivial, rfl⟩

end Kept

end Kept

/-- **A sequential lock outlives the job.** From the fetch script to the script of the release the
lock is there and its time has not come; and a run with a clock is a run of the queue without. -/
theorem lock_outlives_job (cj : Cjson) (queue : String) (pace : Timing) (hcover : pace.Covers)
    (ls : List Label) (legal : (timedMachine cj queue pace).Legal .init ls) :
    let s := (timedMachine cj queue pace).run .init ls
    (∀ worker i, (s.base.phase worker i).Locks →
      s.base.db.str (.sequentialLock queue) = some worker ∧ ¬ s.Due queue pace) ∧
    ∃ es, (lockMachine cj queue).Legal .init es ∧ s.base = (lockMachine cj queue).run .init es := by
  intro s
  obtain ⟨es, hlegal, hkept, hsame⟩ := legal.simulate
    (R := fun s t => Kept queue pace s ∧ s.base = t)
    (fun s t l hR hl => by
      obtain ⟨h, rfl⟩ := hR
      obtain ⟨hnext, es, hes, hbase⟩ := h.step hcover hl
      exact ⟨es, hes, hnext, hbase⟩) ⟨.init, rfl⟩
  exact ⟨fun worker i hlocks =>
    ⟨hkept.exclusive.lock worker i hlocks, hkept.not_due hcover hlocks⟩, es, hlegal, hsame⟩

def defaultPace : Timing := ⟨30000000000, 10000000000, 1000000000, 1000000000⟩

def offer (payload : String) : Event := .other (Db.putList (fun _ => none) (.queue "q") [payload])

def tenSeconds (payload : String) : List Label :=
  (offer payload :: receive "w").map .act ++ [.advance 10000000000]

theorem lock_outlives_tenSeconds :
    ((timedMachine .plain "q" defaultPace).run .init
      (tenSeconds (Job.plain "a" "q").marshal)).base.db.str (.sequentialLock "q") = some "w" := by
  have hread := unmarshalJob_plain "a" "q"
  have hheld (trusted : String → Option String) := (@Two.held .plain _ _ _ (two_plain "q") trusted).1
  generalize (Job.plain "a" "q").marshal = payload at hread hheld ⊢
  have hoffered : Offered .plain "q" "w" payload (Job.plain "a" "q")
      (State.init.step .plain "q" (offer payload)) :=
    ⟨WellTyped.empty.putList rfl _, rfl, rfl, rfl, by simp [State.step, offer], hheld _, hread, rfl⟩
  obtain ⟨⟨htake, hfetch, hprepare, -⟩, hrun⟩ := hoffered.receive
  have hphase (worker : String) (i : ℕ) := (congrFun (congrFun (congrArg State.phase hrun) worker)
    i).trans (show _ = if worker = "w" ∧ i = 0 then .processing (Job.plain "a" "q") else .idle by
      by_cases hworker : worker = "w" <;> by_cases hi : i = 0 <;>
        simp [hworker, hi, State.step, State.init, offer])
  have hdue (s : Timed) (h : s.clock = 0) : ¬ s.Due "q" defaultPace := fun hdue => by
    simpa [h, durationMilliseconds, defaultPace] using hdue.2
  have hcover : defaultPace.Covers := by unfold Timing.Covers; decide
  refine ((lock_outlives_job .plain "q" defaultPace hcover (tenSeconds payload) ⟨⟨hdue _ rfl,
    WellTyped.empty.putList rfl _, rfl⟩, ⟨hdue _ rfl, htake⟩, ⟨hdue _ rfl, hfetch⟩,
    ⟨hdue _ rfl, hprepare⟩, fun worker i hlocks => ?_, trivial⟩).1 "w" 0 ?_).1
  · -- no other goroutine has the lock, and this one waits for its renewal
    have hself := (congrArg Phase.Locks (hphase worker i)).mp hlocks
    refine Nat.le_add_left_of_le (le_of_le_of_eq ?_ (congrArg defaultPace.pause
      (hphase worker i)).symm)
    split at hself
    · next hw =>
      rw [if_pos hw]
      exact (by decide : 0 + 10000000000 ≤ 10000000000 + 1000000000)
    · exact hself.elim
  · exact (congrArg Phase.Locks (hphase "w" 0)).mpr trivial

end Lease

end Sequential

end Senna
