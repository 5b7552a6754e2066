import Mathlib.Logic.Function.Basic
import Senna.Job.Normal
import Senna.System.Machine
import Senna.Worker.Script

/-!
# Heartbeats and the recovery of orphans

Which worker is dead is told from a hash: each worker writes the time there at every tick of its
heartbeat ticker, and `requeueOrphanedJobs` takes every in-flight list whose worker it does not
find in the hash with a time at most 60 s ago. The two sides never meet: the hash is written by one
goroutine of the worker and read once per pass, the lists are filled by the other goroutines and
looked at later.

**The system.** `Fleet` has any number of worker processes with their `Run` loops, one clock, the
hash and the keyspace. One label is one Redis command, one reading of the clock or one event of a
process, so a run is any interleaving. A pass is in three steps: `HGETALL`, reading the clock, and
then any number of `HDEL` and `requeue_orphaned` calls. The marker that finalizing writes into a
payload does not matter here, so what a closing script finds in flight is any text.

**What is assumed of a worker** is in `Fleet.Permits`: while its `Run` has not returned, its ticker
fires every `rate` of at most 60 s.

**What goes wrong.** `robbed` records the workers whose list was taken while they were processing
jobs. The ticker fires for the first time one `rate` after the start, and the worker fetches before
that (`startup_robbed`). The heartbeat goroutine removes the entry as soon as the context is
cancelled, and the jobs that `Run` still waits for go on (`shutdown_robbed`).

**What holds.** If a worker finds its jobs while everyone can see it, takes its entry back only when
it has no job, and its heartbeats arrive in time (`Fleet.Timely`), it is never robbed
(`orphans_only`). A fetch that finds nothing is free, as the first ones after a start are. The
invariant is `Covered`: every worker with a job is `Seen`, in the hash and in every pass under way.
-/

namespace Senna.Orphans

open Redis

/-! ### Heartbeats -/

/-- An entry of the hash, by what a pass makes of it. -/
inductive Beat where
  /-- An entry with `beat_at`, in seconds. -/
  | beatAt (unix : ℤ)
  /-- An entry without it. -/
  | legacy
  /-- An entry that is not JSON. -/
  | undecodable
  deriving DecidableEq

def workerHeartbeatTimeout : ℤ := 60

def unix (now : ℕ) : ℤ := (now / 10 ^ 9 : ℕ)

def Fresh (now beatAt : ℤ) : Prop := now - beatAt ≤ workerHeartbeatTimeout

instance (now beatAt : ℤ) : Decidable (Fresh now beatAt) := inferInstanceAs (Decidable (_ ≤ _))

/-- The worker of an entry goes into `activeWorkers`. -/
def Beat.isActive (now : ℤ) : Beat → Bool
  | .beatAt t => Fresh now t
  | .legacy | .undecodable => false

/-- The worker of an entry goes into `staleWorkers`. -/
def Beat.isStale (now : ℤ) : Beat → Bool
  | .beatAt t => ¬ Fresh now t
  | .legacy => true
  | .undecodable => false

/-! ### Processes and passes -/

/-- Where the `Run` of a worker is. -/
inductive Phase where
  | off
  | running
  /-- The context is cancelled, and `Run` waits for its goroutines. -/
  | stopping
  deriving DecidableEq

/-- A worker process. -/
structure Process where
  phase : Phase
  /-- The heartbeat goroutine of this `Run` has not returned. -/
  beating : Bool
  /-- `HeartbeatRate`, in nanoseconds. -/
  rate : ℕ
  /-- When the ticker was started or last fired. -/
  lastTick : ℕ
  /-- A tick waits in the ticker's channel. -/
  due : Bool
  /-- `recordHeartbeat` has read the clock, and its `HSET` is to come. -/
  pending : Option ℤ
  /-- The payloads that the goroutines are processing. -/
  jobs : List String
  /-- Heartbeat goroutines of earlier runs that have not removed the entry yet. -/
  late : ℕ

def Process.idle : Process := ⟨.off, false, 0, 0, false, none, [], 0⟩

/-- A pass of `requeueOrphanedJobs` after its `HGETALL`. -/
structure Pass where
  /-- The reply of `HGETALL`. -/
  workers : String → Option Beat
  /-- The time the entries are compared with, once it was read. -/
  now : Option ℤ

/-- `activeWorkers[v]`. -/
def Pass.active (p : Pass) (v : String) : Bool :=
  match p.now, p.workers v with
  | some now, some beat => beat.isActive now
  | _, _ => false

/-- `v` is among `staleWorkers`. -/
def Pass.stale (p : Pass) (v : String) : Bool :=
  match p.now, p.workers v with
  | some now, some beat => beat.isStale now
  | _, _ => false

/-- The scripts that take a job out of flight. -/
inductive Closing where
  | ack (jobID : String) (unique : Option String)
  | dead (jobID : String) (unique : Option String) (score : ℤ) (data : String)
  | retry (jobID : String) (score : ℤ) (data : String)
  | requeue (queue data : String)

def Closing.run (worker payload : String) (db : Db Key) : Closing → Db Key
  | .ack jobID unique => ((ackJob worker jobID unique payload).run db).db
  | .dead jobID unique score data =>
    ((moveToDeadJob worker jobID unique payload score data).run db).db
  | .retry jobID score data => ((retryJob worker jobID payload score data).run db).db
  | .requeue queue data => ((requeueJob worker queue payload data).run db).db

/-! ### The system -/

/-- The workers and what they share. -/
structure Fleet where
  /-- The clock, in nanoseconds. -/
  now : ℕ
  db : Db Key
  /-- The hash of heartbeats. -/
  beats : String → Option Beat
  procs : String → Process
  /-- The pass that the reaper of a worker is in. -/
  pass : String → Option Pass
  /-- The workers whose list was taken while they were processing jobs. -/
  robbed : List String

/-- A step of the system. -/
inductive Label where
  | advance (d : ℕ)
  /-- `Run` is called. -/
  | start (w : String) (rate : ℕ)
  | tick (w : String)
  /-- `recordHeartbeat` reads the clock. -/
  | readClock (w : String)
  /-- The `HSET` of `recordHeartbeat`. -/
  | recordHeartbeat (w : String)
  | removeHeartbeat (w : String)
  /-- The same, after `Run` has returned. -/
  | removeLate (w : String)
  /-- The context is cancelled. -/
  | stop (w : String)
  /-- `Run` returns, with all jobs done or after `ShutdownTimeout`. -/
  | exit (w : String)
  /-- The process dies. -/
  | crash (w : String)
  | enqueue (queue data : String)
  | fetch (w queue : String)
  | sequentialFetch (w queue : String)
  /-- A job is taken out of flight; `held` is its payload as it is then. -/
  | close (w payload held : String) (how : Closing)
  /-- `processJob` returns and leaves the job in flight. -/
  | leave (w payload : String)
  /-- `HGETALL`, by the reaper of a worker. -/
  | readHeartbeats (r : String)
  /-- The reaper reads the clock. -/
  | judge (r : String)
  /-- `HDEL` of a stale entry. -/
  | removeStale (r v : String)
  /-- `requeue_orphaned` on the list of a worker that is not active. -/
  | reap (r v : String)
  | endPass (r : String)

namespace Fleet

section Steps

variable (cj : Cjson) (s : Fleet)

def setProc (w : String) (p : Process) : Fleet := { s with procs := Function.update s.procs w p }

def setBeat (w : String) (beat : Option Beat) : Fleet :=
  { s with beats := Function.update s.beats w beat }

def setPass (r : String) (p : Option Pass) : Fleet := { s with pass := Function.update s.pass r p }

@[simp] theorem procs_setProc_self (w : String) (p : Process) : (s.setProc w p).procs w = p := by
  simp [setProc]

@[simp] theorem pass_setPass_self (r : String) (p : Option Pass) : (s.setPass r p).pass r = p := by
  simp [setPass]

def fetched (w : String) : Outcome Key FetchReply → Fleet
  | .ok (.job payload) db =>
    ({ s with db := db } : Fleet).setProc w
      { s.procs w with jobs := payload :: (s.procs w).jobs }
  | out => { s with db := out.db }

def step : Label → Fleet
  | .advance d => { s with now := s.now + d }
  | .start w rate =>
    s.setProc w ⟨.running, true, rate, s.now, false, none, [], (s.procs w).late⟩
  | .tick w => s.setProc w { s.procs w with lastTick := s.now, due := true }
  | .readClock w => s.setProc w { s.procs w with due := false, pending := some (unix s.now) }
  | .recordHeartbeat w =>
    match (s.procs w).pending with
    | none => s
    | some t =>
      (s.setBeat w (some (.beatAt t))).setProc w { s.procs w with pending := none }
  | .removeHeartbeat w => (s.setBeat w none).setProc w { s.procs w with beating := false }
  | .removeLate w => (s.setBeat w none).setProc w { s.procs w with late := (s.procs w).late - 1 }
  | .stop w => s.setProc w { s.procs w with phase := .stopping }
  | .exit w =>
    -- what the goroutines that are left do is not processing by this `Run` any more
    s.setProc w { Process.idle with late := (s.procs w).late + if (s.procs w).beating then 1 else 0 }
  | .crash w => (s.setProc w .idle).setPass w none
  | .enqueue queue data => { s with db := ((enqueueNow queue data).run s.db).db }
  | .fetch w queue => s.fetched w ((fetchJob cj queue w).run s.db)
  | .sequentialFetch w queue => s.fetched w ((sequentialFetch cj queue w).run s.db)
  | .close w payload held how =>
    ({ s with db := how.run w held s.db } : Fleet).setProc w
      { s.procs w with jobs := (s.procs w).jobs.erase payload }
  | .leave w payload => s.setProc w { s.procs w with jobs := (s.procs w).jobs.erase payload }
  | .readHeartbeats r => s.setPass r (some ⟨s.beats, none⟩)
  | .judge r => s.setPass r ((s.pass r).map fun p => { p with now := some (unix s.now) })
  | .removeStale _ v => s.setBeat v none
  | .reap _ v =>
    { s with
      db := ((requeueOrphaned cj v).run s.db).db
      robbed := if (s.procs v).jobs = [] then s.robbed else v :: s.robbed }
  | .endPass r => s.setPass r none

/-- The longest `HeartbeatRate` that is considered, 60 s. -/
def maxRate : ℕ := 60 * 10 ^ 9

def Permits : Label → Prop
  | .advance d =>
    -- the ticker of a worker never fires late
    ∀ w, (s.procs w).beating = true → s.now + d ≤ (s.procs w).lastTick + (s.procs w).rate
  | .start w rate => (s.procs w).phase = .off ∧ 0 < rate ∧ rate ≤ maxRate
  | .tick w =>
    (s.procs w).beating = true ∧ s.now = (s.procs w).lastTick + (s.procs w).rate
  | .readClock w =>
    (s.procs w).phase = .running ∧ (s.procs w).due = true ∧ (s.procs w).pending = none
  | .recordHeartbeat w => (s.procs w).pending ≠ none
  | .removeHeartbeat w =>
    (s.procs w).phase = .stopping ∧ (s.procs w).beating = true ∧ (s.procs w).pending = none
  | .removeLate w => 0 < (s.procs w).late
  | .stop w => (s.procs w).phase = .running
  | .exit w => (s.procs w).phase = .stopping
  | .fetch w _ | .sequentialFetch w _ => (s.procs w).phase ≠ .off
  | .close w payload _ _ | .leave w payload => payload ∈ (s.procs w).jobs
  | .readHeartbeats r => (s.procs r).phase ≠ .off ∧ s.pass r = none
  | .judge r => ∃ p, s.pass r = some p ∧ p.now = none
  | .removeStale r v => ∃ p, s.pass r = some p ∧ p.stale v = true
  | .reap r v => ∃ p, s.pass r = some p ∧ p.now ≠ none ∧ p.active v = false
  | .crash _ | .enqueue _ _ | .endPass _ => True

end Steps

end Fleet

/-- The system, with a `cjson` library for the scripts. -/
def fleet (cj : Cjson) : Machine Fleet Label where
  permits := Fleet.Permits
  step := Fleet.step cj

/-! ### When a worker is seen -/

def Pass.Counts (now : ℤ) (v : String) (p : Pass) : Prop :=
  ∃ t, p.workers v = some (.beatAt t) ∧ Fresh (p.now.getD now) t

/-- A worker can be seen to be alive: its entry is recent, what it is about to write is recent, and
every pass under way counts it. -/
structure Seen (s : Fleet) (v : String) : Prop where
  recorded : ∃ t, s.beats v = some (.beatAt t) ∧ Fresh (unix s.now) t
  pending : ∀ t ∈ (s.procs v).pending, Fresh (unix s.now) t
  passes : ∀ r p, s.pass r = some p → p.Counts (unix s.now) v

def Fleet.Busy (s : Fleet) (v : String) : Prop := (s.procs v).jobs ≠ []

/-- What is asked of the steps: a worker fetches where there is a job only while it is seen, takes
its entry back only when it is not busy, and no time passes over a busy worker that makes its
heartbeat old, in the hash or in a pass that has yet to read the clock. -/
def Fleet.Timely (s : Fleet) : Label → Prop
  | .advance d => ∀ v, s.Busy v →
      (∀ t, s.beats v = some (.beatAt t) → Fresh (unix (s.now + d)) t) ∧
      (∀ t ∈ (s.procs v).pending, Fresh (unix (s.now + d)) t) ∧
      ∀ r p, s.pass r = some p → p.now = none → ∀ t, p.workers v = some (.beatAt t) →
        Fresh (unix (s.now + d)) t
  | .fetch w queue => s.db.list (.queue queue) ≠ [] → Seen s w
  | .sequentialFetch w queue =>
    s.db.list (.queue queue) ≠ [] →
      (∀ holder, s.db.str (.sequentialLock queue) = some holder → holder = w) → Seen s w
  | .removeHeartbeat w | .removeLate w => ¬ s.Busy w
  | _ => True

/-- Every busy worker is seen, and nobody was robbed. -/
structure Covered (s : Fleet) : Prop where
  seen : ∀ v, s.Busy v → Seen s v
  robbed : s.robbed = []

/-! ### What a pass does to a worker that is seen -/

section Passes

variable {p : Pass} {v : String} {now : ℤ}

theorem Pass.Counts.active (h : p.Counts now v) (hjudged : p.now ≠ none) :
    p.active v = true ∧ p.stale v = false := by
  obtain ⟨t, hbeat, hfresh⟩ := h
  cases hnow : p.now with
  | none => exact absurd hnow hjudged
  | some n =>
    rw [hnow, Option.getD_some] at hfresh
    simp [Pass.active, Pass.stale, hnow, hbeat, Beat.isActive, Beat.isStale, hfresh]

theorem Pass.Counts.judge (h : p.Counts now v) (hnow : p.now = none) :
    Pass.Counts now v { p with now := some now } := by
  obtain ⟨t, hbeat, hfresh⟩ := h
  rw [hnow] at hfresh
  exact ⟨t, hbeat, hfresh⟩

end Passes

/-! ### One step -/

section Step

variable {cj : Cjson} {s s' : Fleet} {v w : String}

theorem Seen.mono (h : Seen s v) (hnow : s'.now = s.now) (hbeat : s'.beats v = s.beats v)
    (hpending : ∀ t ∈ (s'.procs v).pending, t ∈ (s.procs v).pending ∨ Fresh (unix s.now) t)
    (hpass : ∀ r p, s'.pass r = some p → s.pass r = some p ∨ p.Counts (unix s.now) v) :
    Seen s' v := by
  constructor
  · rw [hbeat, hnow]
    exact h.recorded
  · intro t ht
    rw [hnow]
    obtain ht | hfresh := hpending t ht
    · exact h.pending t ht
    · exact hfresh
  · intro r p hp
    rw [hnow]
    obtain hp | hcounts := hpass r p hp
    · exact h.passes r p hp
    · exact hcounts

theorem fresh_self (now : ℤ) : Fresh now now := by
  unfold Fresh workerHeartbeatTimeout
  omega

section

variable (h : Covered s)

include h

theorem Covered.setProc {p : Process}
    (hw : p.jobs ≠ [] → Seen (s.setProc w p) w) : Covered (s.setProc w p) where
  seen v hv := by
    by_cases hvw : v = w
    · subst hvw
      refine hw fun hnil => hv ?_
      rw [Fleet.procs_setProc_self, hnil]
    · have hsame : (s.setProc w p).procs v = s.procs v := Function.update_of_ne hvw _ _
      have hbusy : s.Busy v := by
        intro hnil
        apply hv
        rw [hsame]
        exact hnil
      refine (h.seen v hbusy).mono rfl rfl (fun t ht => ?_) fun r q hq => Or.inl hq
      rw [hsame] at ht
      exact Or.inl ht
  robbed := h.robbed

theorem Covered.setProc_of_busy {p : Process} (hjobs : p.jobs ≠ [] → s.Busy w)
    (hpending : ∀ t ∈ p.pending, t ∈ (s.procs w).pending ∨ Fresh (unix s.now) t) :
    Covered (s.setProc w p) := by
  refine h.setProc fun hbusy => ?_
  refine (h.seen w (hjobs hbusy)).mono rfl rfl (fun t ht => ?_) fun r q hq => Or.inl hq
  rw [Fleet.procs_setProc_self] at ht
  exact hpending t ht

theorem Covered.setBeat {beat : Option Beat}
    (hw : s.Busy w → ∃ t, beat = some (.beatAt t) ∧ Fresh (unix s.now) t) :
    Covered (s.setBeat w beat) where
  seen v hv := by
    have hseen := h.seen v hv
    by_cases hvw : v = w
    · subst hvw
      refine ⟨?_, hseen.pending, hseen.passes⟩
      show ∃ t, Function.update s.beats v beat v = some (.beatAt t) ∧ Fresh (unix s.now) t
      rw [Function.update_self]
      exact hw hv
    · exact hseen.mono rfl (Function.update_of_ne hvw _ _) (fun t ht => Or.inl ht)
        fun r q hq => Or.inl hq
  robbed := h.robbed

theorem Covered.setPass {r : String} {p : Option Pass}
    (hp : ∀ q ∈ p, ∀ v, s.Busy v → q.Counts (unix s.now) v) : Covered (s.setPass r p) where
  seen v hv := by
    refine (h.seen v hv).mono rfl rfl (fun t ht => Or.inl ht) fun r' q hq => ?_
    by_cases hr : r' = r
    · subst hr
      rw [Fleet.pass_setPass_self] at hq
      exact Or.inr (hp q hq v hv)
    · exact Or.inl ((Function.update_of_ne hr _ _).symm.trans hq)
  robbed := h.robbed

theorem Covered.setDb (db : Db Key) : Covered { s with db := db } where
  seen v hv := (h.seen v hv).mono rfl rfl (fun _ ht => Or.inl ht) fun _ _ hq => Or.inl hq
  robbed := h.robbed

theorem Covered.fetched {out : Outcome Key FetchReply}
    (hseen : ∀ payload db, out = .ok (.job payload) db → Seen s w) :
    Covered (s.fetched w out) := by
  cases out with
  | error cause db => exact h.setDb db
  | ok reply db =>
    cases reply with
    | empty | locked => exact h.setDb db
    | job payload =>
      refine (h.setDb db).setProc fun _ => ?_
      refine (hseen payload db rfl).mono rfl rfl (fun t ht => ?_) fun r q hq => Or.inl hq
      rw [Fleet.procs_setProc_self] at ht
      exact Or.inl ht

end

theorem busy_of_erase {payload : String} (h : (s.procs w).jobs.erase payload ≠ []) : s.Busy w := by
  intro hnil
  rw [hnil] at h
  exact h rfl

theorem Covered.step (h : Covered s) {l : Label} (hpermits : s.Permits l) (htimely : s.Timely l) :
    Covered (s.step cj l) := by
  cases l with
  | advance d =>
    refine ⟨fun v hv => ?_, h.robbed⟩
    obtain ⟨hrecorded, hpending, hpasses⟩ := htimely v hv
    have hseen := h.seen v hv
    constructor
    · obtain ⟨t, hbeat, -⟩ := hseen.recorded
      exact ⟨t, hbeat, hrecorded t hbeat⟩
    · exact hpending
    · intro r p hp
      obtain ⟨t, hbeat, hfresh⟩ := hseen.passes r p hp
      refine ⟨t, hbeat, ?_⟩
      -- a pass that has read the clock does not care about the time that passes
      cases hnow : p.now with
      | none => exact hpasses r p hp hnow t hbeat
      | some n =>
        rw [hnow] at hfresh
        exact hfresh
  | start w rate | exit w => exact h.setProc fun hbusy => absurd rfl hbusy
  | tick w | stop w => exact h.setProc_of_busy id fun t ht => Or.inl ht
  | readClock w =>
    refine h.setProc_of_busy id fun t ht => Or.inr ?_
    rw [← Option.some.inj ht]
    exact fresh_self _
  | recordHeartbeat w =>
    cases hpending : (s.procs w).pending with
    | none => exact absurd hpending hpermits
    | some t =>
      simp only [Fleet.step, hpending]
      have hbeat : Covered (s.setBeat w (some (.beatAt t))) :=
        h.setBeat fun hbusy => ⟨t, rfl, (h.seen w hbusy).pending t hpending⟩
      exact hbeat.setProc_of_busy id fun t' ht' => absurd ht' (Option.some_ne_none t').symm
  | removeHeartbeat w | removeLate w =>
    have hbeat : Covered (s.setBeat w none) := h.setBeat fun hbusy => absurd hbusy htimely
    exact hbeat.setProc_of_busy id fun t ht => Or.inl ht
  | crash w =>
    have hproc : Covered (s.setProc w .idle) := h.setProc fun hbusy => absurd rfl hbusy
    exact hproc.setPass fun q hq => absurd hq (Option.some_ne_none q).symm
  | enqueue queue data => exact h.setDb _
  | fetch w queue =>
    refine h.fetched fun payload db hjob => ?_
    obtain ⟨-, hfull⟩ | ⟨hempty, -⟩ := fetchJob_cases hjob
    · exact htimely hfull
    · cases hempty
  | sequentialFetch w queue =>
    refine h.fetched fun payload db hjob => ?_
    obtain ⟨-, hfull, hown⟩ | ⟨hempty, -⟩ | ⟨hlocked, -⟩ := sequentialFetch_cases hjob
    · exact htimely hfull hown
    · cases hempty
    · cases hlocked
  | close w payload held how =>
    have hdb : Covered { s with db := how.run w held s.db } := h.setDb _
    exact hdb.setProc_of_busy busy_of_erase fun t ht => Or.inl ht
  | leave w payload => exact h.setProc_of_busy busy_of_erase fun t ht => Or.inl ht
  | readHeartbeats r =>
    refine h.setPass fun q hq v hv => ?_
    obtain ⟨t, hbeat, hfresh⟩ := (h.seen v hv).recorded
    rw [← Option.some.inj hq]
    exact ⟨t, hbeat, hfresh⟩
  | judge r =>
    obtain ⟨p, hp, hnow⟩ := hpermits
    refine h.setPass fun q hq v hv => ?_
    rw [hp] at hq
    rw [← Option.some.inj hq]
    exact ((h.seen v hv).passes r p hp).judge hnow
  | removeStale r v =>
    obtain ⟨p, hp, hstale⟩ := hpermits
    refine h.setBeat fun hbusy => ?_
    have hjudged : p.now ≠ none := by
      intro hnone
      simp [Pass.stale, hnone] at hstale
    have hcounts := ((h.seen v hbusy).passes r p hp).active hjudged
    exact absurd (hcounts.2.symm.trans hstale) Bool.false_ne_true
  | reap r v =>
    obtain ⟨p, hp, hjudged, hactive⟩ := hpermits
    have hidle : (s.procs v).jobs = [] := by
      by_contra hbusy
      have hcounts := ((h.seen v hbusy).passes r p hp).active hjudged
      exact absurd (hcounts.1.symm.trans hactive) (by decide)
    refine ⟨fun v' hv' => (h.seen v' hv').mono rfl rfl (fun t ht => Or.inl ht)
      fun r q hq => Or.inl hq, ?_⟩
    show (if (s.procs v).jobs = [] then s.robbed else v :: s.robbed) = []
    rw [if_pos hidle]
    exact h.robbed
  | endPass r => exact h.setPass fun q hq => absurd hq (Option.some_ne_none q).symm

end Step

/-! ### All runs -/

/-- A fleet of which no worker runs; the hash and the keyspace may hold anything. -/
def Fleet.initial (now : ℕ) (db : Db Key) (beats : String → Option Beat) : Fleet where
  now := now
  db := db
  beats := beats
  procs := fun _ => .idle
  pass := fun _ => none
  robbed := []

/-- **Orphan recovery takes only orphans**, in every run in which workers find jobs while they are
seen, take their entry back when they are not busy, and heartbeats arrive in time. -/
theorem orphans_only (cj : Cjson) (now : ℕ) (db : Db Key) (beats : String → Option Beat)
    (ls : List Label) (hlegal : (fleet cj).Legal (.initial now db beats) ls)
    (htimely : (fleet cj).Throughout Fleet.Timely (.initial now db beats) ls) :
    ((fleet cj).run (.initial now db beats) ls).robbed = [] := by
  have hinit : Covered (.initial now db beats) := ⟨fun v hv => absurd rfl hv, rfl⟩
  have hstep : ∀ s l, Covered s → (fleet cj).permits s l → s.Timely l →
      Covered ((fleet cj).step s l) := fun s l h hl ht => h.step hl ht
  exact (hlegal.invariant_throughout hstep htimely hinit).robbed

/-! ### Three runs -/

section Runs

def tenSeconds : ℕ := 10 * 10 ^ 9

def waiting (p : String) : Db Key :=
  (Db.putSet (fun _ => none) .queues {"default"}).putList (.queue "default") [p]

theorem wellTyped_waiting (p : String) : WellTyped (waiting p) :=
  (WellTyped.empty.putSet rfl _).putList rfl _

theorem enqueue_waiting (p : String) :
    ((enqueueNow "default" p).run (fun _ => none)).db = waiting p := by
  rw [run_enqueueNow WellTyped.empty]
  rfl

/-- The job is in flight at worker `a`. -/
def taken (p : String) : Db Key :=
  ((waiting p).putList (.queue "default") []).putList (.inFlight "a") [p]

theorem fetch_waiting {p : String} (hheld : ∀ trusted, held .plain trusted p = some p) :
    (fetchJob .plain "default" "a").run (waiting p) = .ok (.job p) (taken p) := by
  have htyped := wellTyped_waiting p
  have hqueue : (waiting p).list (.queue "default") = [p] := by simp [waiting]
  have hnone : (waiting p).list (.inFlight "a") = [] := rfl
  rw [run_fetchJob (htyped _) (htyped _), hqueue]
  simp only [List.getLast?_singleton, hheld, hnone]
  rfl

def sample : String := (Job.plain "j" "default").marshal

theorem held_sample (trusted : String → Option String) : held .plain trusted sample = some sample :=
  held_marshal (by decide) fun f hf => absurd hf (Option.some_ne_none f).symm

theorem list_requeueOrphaned_taken (p : String) :
    ((requeueOrphaned .plain "a").run (taken p)).db.list (.inFlight "a") = [] := by
  have htyped : WellTyped (taken p) :=
    ((wellTyped_waiting p).putList rfl []).putList rfl [p]
  rw [run_requeueOrphaned htyped]
  simp

def quiet (p : String) : Fleet := .initial 0 (waiting p) fun _ => none

/-- Worker `a` fetches right after its start, and the reaper of `b` makes a pass. -/
def startupRun : List Label :=
  [.start "a" tenSeconds, .fetch "a" "default", .start "b" tenSeconds, .readHeartbeats "b",
    .judge "b", .reap "b" "a"]

def blank : Fleet := .initial 0 (fun _ => none) fun _ => none

/-- Worker `a` fetches right after its start and finds nothing. Its first heartbeat is ten seconds
later, and then a client enqueues a job. -/
def beatRun (p : String) : List Label :=
  [.start "a" tenSeconds, .fetch "a" "default", .advance tenSeconds, .tick "a", .readClock "a",
    .recordHeartbeat "a", .enqueue "default" p]

/-- Worker `a` when `Run` has started it at a time. -/
def started (now : ℕ) : Process := ⟨.running, true, tenSeconds, now, false, none, [], 0⟩

/-- Worker `a` takes the job. -/
def takes (s : Fleet) (p : String) : Fleet :=
  ({ s with db := taken p } : Fleet).setProc "a" { s.procs "a" with jobs := p :: (s.procs "a").jobs }

theorem step_fetch {p : String} (hheld : ∀ trusted, held .plain trusted p = some p) {s : Fleet}
    (hdb : s.db = waiting p) : (fleet .plain).step s (.fetch "a" "default") = takes s p := by
  show s.fetched "a" ((fetchJob .plain "default" "a").run s.db) = takes s p
  rw [hdb, fetch_waiting hheld]
  rfl

/-- **A worker that fetches before its first tick is robbed**: its list is taken although the
process is alive and no tick is overdue. -/
theorem startup_robbed :
    (fleet .plain).Legal (quiet sample) startupRun ∧
      ((fleet .plain).run (quiet sample) startupRun).robbed = ["a"] ∧
      (((fleet .plain).run (quiet sample) startupRun).procs "a").jobs = [sample] ∧
      ((fleet .plain).run (quiet sample) startupRun).db.list (.inFlight "a") = [] := by
  obtain ⟨p, hp⟩ : ∃ p, p = sample := ⟨_, rfl⟩
  have hheld : ∀ trusted, held .plain trusted p = some p := hp ▸ held_sample
  rw [← hp]
  have hfetch := step_fetch hheld (s := (quiet p).setProc "a" (started 0)) rfl
  have hstart : (fleet .plain).step (quiet p) (.start "a" tenSeconds) =
      (quiet p).setProc "a" (started 0) := rfl
  simp only [startupRun, Machine.legal_cons, Machine.legal_nil, Machine.run_cons, Machine.run_nil,
    hstart, hfetch]
  refine ⟨⟨⟨rfl, by decide, by decide⟩, fun h => Phase.noConfusion h,
    ⟨rfl, by decide, by decide⟩, ⟨fun h => Phase.noConfusion h, rfl⟩, ⟨_, rfl, rfl⟩,
    ⟨_, rfl, Option.some_ne_none _, rfl⟩, trivial⟩, rfl, rfl, ?_⟩
  exact list_requeueOrphaned_taken p

theorem legal_beatRun (p : String) : (fleet .plain).Legal blank (beatRun p) := by
  refine ⟨⟨rfl, by decide, by decide⟩, fun h => Phase.noConfusion h, fun w hw => ?_, ⟨rfl, rfl⟩,
    ⟨rfl, rfl, rfl⟩, Option.some_ne_none _, trivial, trivial⟩
  by_cases ha : w = "a"
  · subst ha
    exact Nat.le_refl _
  · -- the other processes are not started
    have hidle : ((fleet .plain).step blank (.start "a" tenSeconds)).procs w = .idle :=
      Function.update_of_ne ha _ _
    rw [show ((fleet .plain).step ((fleet .plain).step blank (.start "a" tenSeconds))
      (.fetch "a" "default")).procs w = .idle from hidle] at hw
    cases hw

def beaten (p : String) : Fleet := (fleet .plain).run blank (beatRun p)

theorem db_beaten (p : String) : (beaten p).db = waiting p := enqueue_waiting p

/-- Worker `a` is stopped while it has the job. -/
def shutdownRun : List Label :=
  [.fetch "a" "default", .stop "a", .removeHeartbeat "a", .start "b" tenSeconds,
    .readHeartbeats "b", .judge "b", .reap "b" "a"]

/-- **A worker that is stopped is robbed of the jobs it still waits for**, although its heartbeat is
recent. -/
theorem shutdown_robbed :
    (fleet .plain).Legal blank (beatRun sample ++ shutdownRun) ∧
      ((fleet .plain).run blank (beatRun sample ++ shutdownRun)).robbed = ["a"] ∧
      (((fleet .plain).run blank (beatRun sample ++ shutdownRun)).procs "a").jobs = [sample] ∧
      ((fleet .plain).run blank (beatRun sample ++ shutdownRun)).db.list (.inFlight "a") = [] := by
  obtain ⟨p, hp⟩ : ∃ p, p = sample := ⟨_, rfl⟩
  have hheld : ∀ trusted, held .plain trusted p = some p := hp ▸ held_sample
  rw [← hp, Machine.legal_append, Machine.run_append]
  change ((fleet .plain).Legal blank (beatRun p) ∧ (fleet .plain).Legal (beaten p) shutdownRun) ∧
    ((fleet .plain).run (beaten p) shutdownRun).robbed = ["a"] ∧
    (((fleet .plain).run (beaten p) shutdownRun).procs "a").jobs = [p] ∧
    ((fleet .plain).run (beaten p) shutdownRun).db.list (.inFlight "a") = []
  have hfetch := step_fetch hheld (s := beaten p) (db_beaten p)
  simp only [shutdownRun, Machine.legal_cons, Machine.legal_nil, Machine.run_cons, Machine.run_nil,
    hfetch]
  refine ⟨⟨legal_beatRun p, fun h => Phase.noConfusion h, rfl, ⟨rfl, rfl, rfl⟩,
    ⟨rfl, by decide, by decide⟩, ⟨fun h => Phase.noConfusion h, rfl⟩, ⟨_, rfl, rfl⟩,
    ⟨_, rfl, Option.some_ne_none _, rfl⟩, trivial⟩, rfl, rfl, ?_⟩
  exact list_requeueOrphaned_taken p

/-- Worker `a` works while the reaper of `b` recovers what `z` has left. -/
def recoveryRun : List Label :=
  [.fetch "a" "default", .start "b" tenSeconds, .readHeartbeats "b", .judge "b", .reap "b" "z"]

theorem orphans_only_recoveryRun :
    (fleet .plain).Legal blank (beatRun sample ++ recoveryRun) ∧
      ((fleet .plain).run blank (beatRun sample ++ recoveryRun)).robbed = [] := by
  obtain ⟨p, hp⟩ : ∃ p, p = sample := ⟨_, rfl⟩
  have hheld : ∀ trusted, held .plain trusted p = some p := hp ▸ held_sample
  rw [← hp]
  have hfetch := step_fetch hheld (s := beaten p) (db_beaten p)
  have hlegal : (fleet .plain).Legal blank (beatRun p ++ recoveryRun) := by
    rw [Machine.legal_append]
    change (fleet .plain).Legal blank (beatRun p) ∧ (fleet .plain).Legal (beaten p) recoveryRun
    simp only [recoveryRun, Machine.legal_cons, Machine.legal_nil, hfetch]
    exact ⟨legal_beatRun p, fun h => Phase.noConfusion h, ⟨rfl, by decide, by decide⟩,
      ⟨fun h => Phase.noConfusion h, rfl⟩, ⟨_, rfl, rfl⟩, ⟨_, rfl, Option.some_ne_none _, rfl⟩,
      trivial⟩
  have htimely : (fleet .plain).Throughout Fleet.Timely blank (beatRun p ++ recoveryRun) := by
    rw [Machine.throughout_append]
    refine ⟨⟨trivial, fun hfull => absurd rfl hfull, fun v hv => ?_, trivial, trivial, trivial,
      trivial, trivial⟩, fun _ => ?_, trivial, trivial, trivial, trivial, trivial⟩
    · -- nobody is busy yet
      refine absurd ?_ hv
      by_cases ha : v = "a"
      · subst ha
        rfl
      · have hidle : ((fleet .plain).step blank (.start "a" tenSeconds)).procs v = .idle :=
          Function.update_of_ne ha _ _
        exact congrArg Process.jobs hidle
    · -- the heartbeat is recorded, and no pass is under way
      exact ⟨⟨unix (beaten p).now, rfl, fresh_self _⟩,
        fun t ht => absurd ht (Option.some_ne_none t).symm,
        fun r q hq => absurd hq (Option.some_ne_none q).symm⟩
  exact ⟨hlegal, orphans_only .plain 0 (fun _ => none) (fun _ => none) (beatRun p ++ recoveryRun)
    hlegal htimely⟩

end Runs

end Senna.Orphans
