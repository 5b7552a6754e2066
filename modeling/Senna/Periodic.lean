import Mathlib.Algebra.Order.Group.Nat
import Mathlib.Data.List.FinRange
import Senna.Job
import Senna.Redis.Checked
import Senna.System.Machine

/-!
# Periodic jobs

A scheduler has a list of entries, each with a cron schedule. Every few seconds it goes through
them (`checkAndEnqueue`): an entry whose schedule has the minute the pass began in is enqueued, if
nobody has enqueued it for that minute before. What is known about that is kept in Redis. The
script `periodic_enqueue.lua` takes the **slot** of the minute and pushes the job in one step, and
does nothing if the slot is taken. Slots expire after an hour.

A slot is named after the entry and the minute, and an entry is named after its job type, unless an
option of `Register` gives it another name. So **there is one slot for all entries with one name**,
and in a minute that several of them have, the first one takes it (`Slot.step`, for a name and a
minute). An entry whose arguments cannot be written is never enqueued and takes no slot.

The machine has any number of schedulers with the same entries. A pass reads the clock once, and
then takes one step for each entry, at any later time. The log is what was enqueued: which entry,
and for which minute. Points in time are nanoseconds since the epoch.
-/

namespace Senna

namespace Periodic

open Redis

/-! ### Times -/

def second : ℤ := 1000000000

def minute : ℤ := 60 * second

/-- `periodicSlotTTL`. -/
def slotTTL : ℤ := 60 * minute

/-- `Truncate(time.Minute)`. The zero time, which it counts from, is the start of a minute. -/
def truncateMinute (t : ℤ) : ℤ := t - t % minute

theorem truncateMinute_le (t : ℤ) : truncateMinute t ≤ t := by
  unfold truncateMinute minute second
  omega

theorem truncateMinute_emod (t : ℤ) : truncateMinute t % minute = 0 := by
  unfold truncateMinute minute second
  omega

def millis (t : ℤ) : ℤ := t / 1000000

/-! ### Entries -/

/-- `cron.Schedule`. The expressions have no field for seconds, so a schedule has whole seconds
only. -/
structure Schedule where
  fires : ℤ → Bool
  whole : ∀ t, fires t = true → t % second = 0
  /-- `Next`, with nothing for the zero time. -/
  next : ℤ → Option ℤ
  next_eq : ∀ t u, next t = some u ↔
    t < u ∧ fires u = true ∧ ∀ v, t < v → fires v = true → u ≤ v

/-- `periodic.Job`. -/
structure Entry where
  name : String
  cronExpr : String
  jobType : String
  /-- What `encoding/json` writes for the arguments, or its error. -/
  args : Except String Args
  queue : String
  retry : ℤ
  schedule : Schedule

/-- `Option`: any function that changes an entry. -/
abbrev Opt := Entry → Entry

def withQueue (queue : String) : Opt := fun job => { job with queue := queue }

def withRetry (n : ℤ) : Opt := fun job => { job with retry := n }

def withArgs (args : Except String Args) : Opt := fun job => { job with args := args }

/-- The entries of a scheduler. -/
structure Scheduler where
  jobs : List Entry

/-- The error of `Register`, with the expression and the parser's error. -/
structure InvalidCron where
  cronExpr : String
  err : String

def Scheduler.register (parse : String → Except String Schedule) (s : Scheduler)
    (cronExpr jobType : String) (opts : List Opt) : Except InvalidCron Scheduler :=
  match parse cronExpr with
  | .error err => .error ⟨cronExpr, err⟩
  | .ok schedule =>
    let job : Entry := ⟨jobType, cronExpr, jobType, .ok none, "default", 25, schedule⟩
    .ok ⟨s.jobs ++ [opts.foldl (fun job opt => opt job) job]⟩

def shouldEnqueue (now : ℤ) (job : Entry) : Bool :=
  job.schedule.next (truncateMinute now - second) = some (truncateMinute now)

theorem shouldEnqueue_eq (now : ℤ) (job : Entry) :
    shouldEnqueue now job = job.schedule.fires (truncateMinute now) := by
  have hminute := truncateMinute_emod now
  rw [shouldEnqueue, Bool.eq_iff_iff, decide_eq_true_iff, job.schedule.next_eq]
  constructor
  · rintro ⟨-, hfires, -⟩
    exact hfires
  · intro hfires
    refine ⟨by unfold second; omega, hfires, fun v hv hfires' => ?_⟩
    -- there is no whole second in between
    have hwhole := job.schedule.whole v hfires'
    unfold minute second at *
    omega

def marshalJob (job : Entry) (id : String) (now : Time) : Except String String :=
  job.args.map fun args =>
    Job.marshal { Job.zero with
      id := id, type := job.jobType, queue := job.queue, args := args, retry := job.retry,
      createdAt := now, enqueuedAt := now }

/-- The schedule of an entry has a minute, and the job of the entry can be written. -/
def Entry.Due (job : Entry) (m : ℤ) : Prop :=
  job.schedule.fires m = true ∧ ∃ args, job.args = .ok args

/-! ### Slots -/

/-- The keys of the scheduler. -/
inductive Key where
  /-- `periodicSlotKey`, by the name of the entry and the Unix time of the minute. -/
  | slot (name : String) (minuteTS : ℤ)
  | queues
  | queue (name : String)
  deriving DecidableEq

def Key.kind : Key → KeyType
  | .slot _ _ => .string
  | .queues => .set
  | .queue _ => .list

def WellTyped (db : Db Key) : Prop := ∀ k, db.HasType k k.kind

def periodicSlotKey (job : Entry) (now : ℤ) : Key := .slot job.name (truncateMinute now / second)

def periodicEnqueue (lock : Key) (lockValue queue data : String) : Script Key ℕ := do
  expect "periodic lock" lock .string
  let lockType ← type lock
  if lockType = .string then pure 0
  else do
    expect "queues" .queues .set
    expect "queue" (.queue queue) .list
    let claimed ← setNX lock lockValue
    if claimed then do
      let _ ← sadd .queues queue
      lpush (.queue queue) data
      pure 1
    else pure 0

def pushed (db : Db Key) (lock : Key) (queue data : String) : Db Key :=
  ((db.putStr lock "1").putSet .queues (insert queue (db.members .queues))).putList (.queue queue)
    (data :: db.list (.queue queue))

theorem WellTyped.pushed {db : Db Key} (h : WellTyped db) (name : String) (ts : ℤ)
    (queue data : String) : WellTyped (pushed db (.slot name ts) queue data) := by
  intro k
  refine (((h k).write ?_).write ?_).write ?_
  · rintro rfl
    exact Or.inr rfl
  · rintro rfl
    exact Db.typeOf_ofSet _
  · rintro rfl
    exact Db.typeOf_ofList _

theorem run_periodicEnqueue {db : Db Key} (h : WellTyped db) (name : String) (ts : ℤ)
    (queue data : String) :
    (periodicEnqueue (.slot name ts) "1" queue data).run db =
      if db (.slot name ts) = none then .ok 1 (pushed db (.slot name ts) queue data)
      else .ok 0 db := by
  unfold periodicEnqueue
  have hslot : db.HasType (.slot name ts) .string := h (.slot name ts)
  have hqueues : db.HasType .queues .set := h .queues
  have hqueue : db.HasType (.queue queue) .list := h (.queue queue)
  rw [run_expect_bind hslot, run_type_bind]
  by_cases hfree : db (.slot name ts) = none
  · have hset : (db.putStr (.slot name ts) "1").HasType .queues .set :=
      hqueues.write fun heq => Key.noConfusion heq
    have hlist : ((db.putStr (.slot name ts) "1").putSet .queues
        (insert queue ((db.putStr (.slot name ts) "1").members .queues))).HasType
        (.queue queue) .list :=
      (hqueue.write fun heq => Key.noConfusion heq).write fun heq => Key.noConfusion heq
    rw [if_neg (by rw [hfree]; exact fun heq => KeyType.noConfusion heq), if_pos hfree,
      run_expect_bind hqueues, run_expect_bind hqueue,
      Script.run_bind_ok (run_setNX hfree "1"), if_pos rfl,
      Script.run_bind_ok (run_sadd hset queue), Script.run_bind_ok (run_lpush hlist data)]
    simp [pushed]
  · have hstring : Db.typeOf (db (.slot name ts)) = .string := by
      rcases hslot with hnone | hstring
      · exact absurd (Db.typeOf_eq_none hnone) hfree
      · exact hstring
    rw [if_pos hstring, if_neg hfree]
    rfl

/-! ### The machine -/

/-- A `checkAndEnqueue` under way: the time it has read, and the entries it has not come to. -/
structure Pass (n : ℕ) where
  now : ℤ
  remaining : List (Fin n)

/-- The clock, the keyspace with the deadlines of its keys in milliseconds, and the pass each
scheduler is in. -/
structure World (n : ℕ) where
  clock : ℤ
  db : Db Key
  deadline : Key → ℤ
  passes : String → Option (Pass n)
  /-- The entries that were enqueued, with their minutes. -/
  log : List (Fin n × ℤ)
  /-- The times of the passes that are over. -/
  completed : List ℤ

/-- What can happen. -/
inductive Event where
  | tick (d : ℕ)
  /-- A scheduler begins a pass. -/
  | check (scheduler : String)
  /-- It comes to the next entry, with an ID and a time for the job. -/
  | visit (scheduler id : String) (now : Time)
  /-- Its pass is over. -/
  | finish (scheduler : String)
  /-- Redis removes a slot. -/
  | expire (name : String) (minuteTS : ℤ)
  /-- Anything else, with the keyspace it leaves. -/
  | elsewhere (db : Db Key)

/-- The entry with a number. -/
abbrev Scheduler.entry (S : Scheduler) (i : Fin S.jobs.length) : Entry := S.jobs.get i

section Machine

variable (S : Scheduler)

/-- The state of all schedulers with the entries of one. -/
abbrev State := World S.jobs.length

variable {S} (s : State S)

/-- The world after an entry was enqueued: its slot has a deadline, and the log grows. -/
def World.push (i : Fin S.jobs.length) (now : ℤ) (db : Db Key) : State S :=
  { s with
    db := db
    deadline := Function.update s.deadline (periodicSlotKey (S.entry i) now)
      (millis s.clock + millis slotTTL)
    log := s.log ++ [(i, truncateMinute now)] }

def World.claimed (i : Fin S.jobs.length) (now : ℤ) : Outcome Key ℕ → State S
  | .ok 1 db => s.push i now db
  | out => { s with db := out.db }

def World.claimAndEnqueue (i : Fin S.jobs.length) (now : ℤ) (id : String) (createdAt : Time) :
    State S :=
  match marshalJob (S.entry i) id createdAt with
  | .error _ => s
  | .ok data => s.claimed i now
    ((periodicEnqueue (periodicSlotKey (S.entry i) now) "1" (S.entry i).queue data).run s.db)

/-- The part of `checkAndEnqueue` for one entry. -/
def World.visit (i : Fin S.jobs.length) (now : ℤ) (id : String) (createdAt : Time) : State S :=
  if shouldEnqueue now (S.entry i) then s.claimAndEnqueue i now id createdAt else s

def World.setPass (scheduler : String) (p : Option (Pass S.jobs.length)) : State S :=
  { s with passes := Function.update s.passes scheduler p }

def World.step (s : State S) : Event → State S
  | .tick d => { s with clock := s.clock + d }
  | .check scheduler => s.setPass scheduler (some ⟨s.clock, List.finRange S.jobs.length⟩)
  | .visit scheduler id createdAt =>
    match s.passes scheduler with
    | some ⟨now, i :: rest⟩ => (s.visit i now id createdAt).setPass scheduler (some ⟨now, rest⟩)
    | _ => s
  | .finish scheduler =>
    match s.passes scheduler with
    | some ⟨now, []⟩ => { s.setPass scheduler none with completed := now :: s.completed }
    | _ => s
  | .expire name ts => { s with db := s.db.del (.slot name ts) }
  | .elsewhere db => { s with db := db }

/-- A scheduler is in one pass at a time, a slot expires when its deadline has come, and nobody
else touches slots. -/
def World.Permits (s : State S) : Event → Prop
  | .tick _ => True
  | .check scheduler => s.passes scheduler = none
  | .visit scheduler _ _ => ∃ now i rest, s.passes scheduler = some ⟨now, i :: rest⟩
  | .finish scheduler => ∃ now, s.passes scheduler = some ⟨now, []⟩
  | .expire name ts => s.deadline (.slot name ts) ≤ millis s.clock
  | .elsewhere db => WellTyped db ∧ ∀ name ts, db (.slot name ts) = s.db (.slot name ts)

def World.Prompt (s : State S) : Event → Prop
  | .visit scheduler _ _ =>
    ∀ p ∈ s.passes scheduler, s.clock < truncateMinute p.now + slotTTL
  | _ => True

/-- Before the first pass. -/
structure Start : Prop where
  typed : WellTyped s.db
  slots : ∀ name ts, s.db (.slot name ts) = none
  passes : ∀ scheduler, s.passes scheduler = none
  log : s.log = []
  completed : s.completed = []

end Machine

def machine (S : Scheduler) : Machine (State S) Event where
  permits := World.Permits
  step := World.step

/-! ### A name and a minute -/

section Slots

variable {S : Scheduler}

def claims (s : State S) (name : String) (m : ℤ) : ℕ :=
  s.log.countP fun x => (S.entry x.1).name = name ∧ x.2 = m

/-- **The slot of a name and a minute** says whether a job was enqueued, for an hour at least. -/
structure Slot (s : State S) (name : String) (m : ℤ) : Prop where
  taken : s.db (.slot name (m / second)) ≠ none →
    claims s name m = 1 ∧ millis (m + slotTTL) ≤ s.deadline (.slot name (m / second))
  free : s.db (.slot name (m / second)) = none →
    claims s name m = 0 ∨ claims s name m = 1 ∧ m + slotTTL ≤ s.clock
  /-- Of an entry with the minute that a pass has come to, a job was enqueued. -/
  visited : ∀ scheduler p, s.passes scheduler = some p → truncateMinute p.now = m →
    ∀ i, (S.entry i).name = name → (S.entry i).Due m → i ∉ p.remaining → 0 < claims s name m
  completed : ∀ now ∈ s.completed, truncateMinute now = m →
    ∀ i, (S.entry i).name = name → (S.entry i).Due m → 0 < claims s name m

/-- What holds besides. -/
structure Sound (s : State S) : Prop where
  typed : WellTyped s.db
  past : ∀ scheduler p, s.passes scheduler = some p → p.now ≤ s.clock
  due : ∀ x ∈ s.log, (S.entry x.1).Due x.2

theorem Start.sound {s : State S} (h : Start s) : Sound s where
  typed := h.typed
  past scheduler p hp := by rw [h.passes] at hp; cases hp
  due x hx := by rw [h.log] at hx; cases hx

theorem Start.slot {s : State S} (h : Start s) (name : String) (m : ℤ) : Slot s name m where
  taken htaken := absurd (h.slots name _) htaken
  free _ := Or.inl (by rw [claims, h.log]; rfl)
  visited scheduler p hp := by rw [h.passes] at hp; cases hp
  completed now hnow := by rw [h.completed] at hnow; cases hnow

theorem visit_cases {s : State S} (htyped : WellTyped s.db) (i : Fin S.jobs.length) (now : ℤ)
    (id : String) (createdAt : Time) :
    s.visit i now id createdAt = s ∧
        (¬ (S.entry i).Due (truncateMinute now) ∨
          s.db (periodicSlotKey (S.entry i) now) ≠ none) ∨
      (S.entry i).Due (truncateMinute now) ∧ s.db (periodicSlotKey (S.entry i) now) = none ∧
        ∃ data, s.visit i now id createdAt = s.push i now
          (pushed s.db (periodicSlotKey (S.entry i) now) (S.entry i).queue data) := by
  rw [World.visit, shouldEnqueue_eq]
  split
  · next hfires =>
    rw [World.claimAndEnqueue, marshalJob]
    cases hargs : (S.entry i).args with
    | error e =>
      refine Or.inl ⟨rfl, Or.inl ?_⟩
      rintro ⟨-, args, hok⟩
      cases hargs.symm.trans hok
    | ok args =>
      dsimp only [Except.map]
      rw [periodicSlotKey, run_periodicEnqueue htyped]
      split
      · next hfree => exact Or.inr ⟨⟨hfires, args, hargs⟩, hfree, _, rfl⟩
      · next htaken => exact Or.inl ⟨rfl, Or.inr htaken⟩
  · next hnot => exact Or.inl ⟨rfl, Or.inl fun hdue => hnot hdue.1⟩

/-! ### One step -/

variable {s : State S} {name : String} {m : ℤ}

theorem slot_pushed (db : Db Key) (lock : Key) (queue data : String) (ts : ℤ) :
    pushed db lock queue data (.slot name ts) =
      if Key.slot name ts = lock then some (.string "1") else db (.slot name ts) := by
  simp [pushed, Db.write_apply]

theorem slot_eq_periodicSlotKey_iff (name : String) (hm : m % minute = 0) (job : Entry) (now : ℤ) :
    Key.slot name (m / second) = periodicSlotKey job now ↔
      job.name = name ∧ truncateMinute now = m := by
  have hm' := truncateMinute_emod now
  rw [periodicSlotKey, Key.slot.injEq, eq_comm]
  refine and_congr_right fun _ => ?_
  unfold minute second at *
  omega

theorem claims_push (i : Fin S.jobs.length) (now : ℤ) (db : Db Key) :
    claims (s.push i now db) name m = claims s name m +
      if (S.entry i).name = name ∧ truncateMinute now = m then 1 else 0 := by
  unfold claims World.push
  rw [List.countP_append]
  simp [List.countP_cons]

variable {scheduler : String}

theorem passes_setPass {scheduler' : String} {p : Option (Pass S.jobs.length)}
    {q : Pass S.jobs.length} (h : (s.setPass scheduler p).passes scheduler' = some q) :
    q ∈ p ∨ s.passes scheduler' = some q := by
  change Function.update s.passes scheduler p scheduler' = some q at h
  rw [Function.update_apply] at h
  split at h
  · exact Or.inl h
  · exact Or.inr h

theorem Sound.setPass (h : Sound s) {p : Option (Pass S.jobs.length)}
    (hp : ∀ q ∈ p, q.now ≤ s.clock) : Sound (s.setPass scheduler p) where
  typed := h.typed
  past scheduler' q hq := (passes_setPass hq).elim (hp q) (h.past scheduler' q)
  due := h.due

theorem Slot.setPass (h : Slot s name m) {p : Option (Pass S.jobs.length)}
    (hp : ∀ q ∈ p, truncateMinute q.now = m → ∀ i, (S.entry i).name = name →
      (S.entry i).Due m → i ∉ q.remaining → 0 < claims s name m) :
    Slot (s.setPass scheduler p) name m where
  taken := h.taken
  free := h.free
  visited scheduler' q hq := (passes_setPass hq).elim (hp q) (h.visited scheduler' q)
  completed := h.completed

theorem Sound.push (h : Sound s) {i : Fin S.jobs.length} {now : ℤ}
    (hdue : (S.entry i).Due (truncateMinute now)) (queue data : String) :
    Sound (s.push i now (pushed s.db (periodicSlotKey (S.entry i) now) queue data)) where
  typed := h.typed.pushed _ _ _ _
  past := h.past
  due x hx := by
    rcases List.mem_append.mp hx with hold | hnew
    · exact h.due x hold
    · obtain rfl := List.mem_singleton.mp hnew
      exact hdue

theorem Slot.push (hm : m % minute = 0) (h : Slot s name m) {i : Fin S.jobs.length} {now : ℤ}
    (hpast : now ≤ s.clock) (hprompt : s.clock < truncateMinute now + slotTTL)
    (hfree : s.db (periodicSlotKey (S.entry i) now) = none) (queue data : String) :
    Slot (s.push i now (pushed s.db (periodicSlotKey (S.entry i) now) queue data)) name m := by
  set s' := s.push i now (pushed s.db (periodicSlotKey (S.entry i) now) queue data) with hs'
  have hclaims : claims s' name m = claims s name m + _ := claims_push i now _
  have hmono : 0 < claims s name m → 0 < claims s' name m := by omega
  have hkey := slot_eq_periodicSlotKey_iff name hm (S.entry i) now
  have hslot : s'.db (.slot name (m / second)) = _ := slot_pushed _ _ queue data _
  have hdeadline : s'.deadline (.slot name (m / second)) = _ := Function.update_apply ..
  refine ⟨?_, ?_, fun scheduler p hp htime j hname hdue hj =>
    hmono (h.visited scheduler p hp htime j hname hdue hj),
    fun now hnow htime j hname hdue => hmono (h.completed now hnow htime j hname hdue)⟩
  · intro htaken
    by_cases hours : (S.entry i).name = name ∧ truncateMinute now = m
    · rw [if_pos hours] at hclaims
      rw [← hkey.mpr hours] at hfree
      rw [hdeadline, if_pos (hkey.mpr hours)]
      have hle := truncateMinute_le now
      rw [hours.2] at hprompt hle
      constructor
      · -- a slot that was taken before is free again only after the hour
        rcases h.free hfree with hzero | ⟨-, hlate⟩ <;> omega
      · unfold slotTTL millis minute second at *
        omega
    · rw [if_neg hours] at hclaims
      rw [hslot, if_neg (mt hkey.mp hours)] at htaken
      rw [hdeadline, if_neg (mt hkey.mp hours), hclaims]
      exact h.taken htaken
  · intro hfree'
    by_cases hours : (S.entry i).name = name ∧ truncateMinute now = m
    · rw [hslot, if_pos (hkey.mpr hours)] at hfree'
      cases hfree'
    · rw [hslot, if_neg (mt hkey.mp hours)] at hfree'
      rw [if_neg hours] at hclaims
      rw [hclaims]
      exact h.free hfree'

theorem Slot.visit (hm : m % minute = 0) (hsound : Sound s) (h : Slot s name m)
    {now : ℤ} {i : Fin S.jobs.length} {rest : List (Fin S.jobs.length)}
    (hpass : s.passes scheduler = some ⟨now, i :: rest⟩)
    (hprompt : s.clock < truncateMinute now + slotTTL) (id : String) (createdAt : Time) :
    Sound ((s.visit i now id createdAt).setPass scheduler (some ⟨now, rest⟩)) ∧
      Slot ((s.visit i now id createdAt).setPass scheduler (some ⟨now, rest⟩)) name m := by
  have hpast : now ≤ s.clock := hsound.past scheduler _ hpass
  have hbefore : ∀ j, truncateMinute now = m → (S.entry j).name = name →
      (S.entry j).Due m → j ∉ rest → j ≠ i → 0 < claims s name m := by
    intro j htime hname hdue hj hne
    refine h.visited scheduler _ hpass htime j hname hdue ?_
    exact fun hmem => (List.mem_cons.mp hmem).elim hne hj
  rcases visit_cases hsound.typed i now id createdAt with
    ⟨hsame, hwhy⟩ | ⟨hdue, hfree, data, hpushed⟩
  · rw [hsame]
    refine ⟨hsound.setPass ?_, h.setPass ?_⟩
    · rintro q ⟨⟩
      exact hpast
    · rintro q ⟨⟩ htime j hname hdue hj
      by_cases hne : j = i
      · -- the entry the pass has come to has the minute, so its slot was taken
        subst hne
        rcases hwhy with hnot | htaken
        · exact absurd (htime ▸ hdue) hnot
        · rw [periodicSlotKey, htime, hname] at htaken
          exact (h.taken htaken).1.symm ▸ Nat.one_pos
      · exact hbefore j htime hname hdue hj hne
  · rw [hpushed]
    refine ⟨(hsound.push hdue _ _).setPass ?_, (h.push hm hpast hprompt hfree _ _).setPass ?_⟩
    · rintro q ⟨⟩
      exact hpast
    · rintro q ⟨⟩ htime j hname hdue hj
      rw [claims_push]
      by_cases hne : j = i
      · subst hne
        rw [if_pos ⟨hname, htime⟩]
        exact Nat.succ_pos _
      · exact Nat.add_pos_left (hbefore j htime hname hdue hj hne) _

/-- **Every label keeps the slot of every name and minute**, if passes come to their entries
within an hour. -/
theorem Slot.step (hm : m % minute = 0) (hsound : Sound s) (h : Slot s name m) {e : Event}
    (hp : s.Permits e) (hprompt : s.Prompt e) : Sound (s.step e) ∧ Slot (s.step e) name m := by
  cases e with
  | tick d =>
    have hlater : s.clock ≤ s.clock + d := Int.le_add_of_nonneg_right (Int.natCast_nonneg d)
    refine ⟨⟨hsound.typed, fun scheduler p hp => (hsound.past scheduler p hp).trans hlater,
      hsound.due⟩, h.taken, fun hfree => ?_, h.visited, h.completed⟩
    exact (h.free hfree).imp_right fun ⟨hone, hlate⟩ => ⟨hone, hlate.trans hlater⟩
  | check scheduler =>
    refine ⟨hsound.setPass ?_, h.setPass ?_⟩
    · rintro q ⟨⟩
      exact le_rfl
    · rintro q ⟨⟩ - i - - hi
      exact absurd (List.mem_finRange i) hi
  | visit scheduler id createdAt =>
    obtain ⟨now, i, rest, hpass⟩ := hp
    simp only [World.step, hpass]
    exact h.visit hm hsound hpass (hprompt _ hpass) id createdAt
  | finish scheduler =>
    -- the pass has no entry left, so it has visited them all
    obtain ⟨now, hpass⟩ := hp
    simp only [World.step, hpass]
    have hsound' : Sound (s.setPass scheduler none) := hsound.setPass nofun
    have hslot : Slot (s.setPass scheduler none) name m := h.setPass nofun
    refine ⟨⟨hsound'.typed, hsound'.past, hsound'.due⟩,
      ⟨hslot.taken, hslot.free, hslot.visited, fun t ht htime i hname hdue => ?_⟩⟩
    rcases List.mem_cons.mp ht with rfl | hold
    · exact h.visited scheduler _ hpass htime i hname hdue List.not_mem_nil
    · exact h.completed t hold htime i hname hdue
  | expire name' ts =>
    refine ⟨⟨fun k => (hsound.typed k).write fun _ => Or.inl rfl, hsound.past, hsound.due⟩, ?_⟩
    by_cases hkey : Key.slot name (m / second) = .slot name' ts
    · refine ⟨fun htaken => ?_, fun _ => ?_, h.visited, h.completed⟩
      · refine absurd ?_ htaken
        change s.db.del (.slot name' ts) _ = none
        rw [hkey]
        exact Db.write_self _ _ _
      · by_cases hfree : s.db (.slot name (m / second)) = none
        · exact h.free hfree
        · obtain ⟨hone, hdeadline⟩ := h.taken hfree
          refine Or.inr ⟨hone, ?_⟩
          have hdue : s.deadline (.slot name (m / second)) ≤ millis s.clock := hkey ▸ hp
          change m + slotTTL ≤ s.clock
          unfold slotTTL millis minute second at *
          omega
    · have hother : s.db.del (.slot name' ts) (.slot name (m / second)) =
          s.db (.slot name (m / second)) := by
        rw [Db.del, Db.write_apply, if_neg hkey]
      exact ⟨fun htaken => h.taken (hother ▸ htaken), fun hfree => h.free (hother ▸ hfree),
        h.visited, h.completed⟩
  | elsewhere db =>
    obtain ⟨htyped, hslots⟩ := hp
    exact ⟨⟨htyped, hsound.past, hsound.due⟩, fun htaken => h.taken (hslots _ _ ▸ htaken),
      fun hfree => h.free (hslots _ _ ▸ hfree), h.visited, h.completed⟩

/-- **One job for a name and a minute**, and that only if an entry with the name has the minute. -/
theorem Slot.claims_le (h : Slot s name m) : claims s name m ≤ 1 := by
  by_cases hslot : s.db (.slot name (m / second)) = none
  · have := h.free hslot
    omega
  · exact (h.taken hslot).1.le

theorem slot_of_legal (name : String) {es : List Event} (hm : m % minute = 0) (hstart : Start s)
    (legal : (machine S).Legal s es) (hprompt : (machine S).Throughout World.Prompt s es) :
    Sound ((machine S).run s es) ∧ Slot ((machine S).run s es) name m :=
  legal.invariant_throughout (I := fun s => Sound s ∧ Slot s name m)
    (fun _ _ h hp hprompt => h.2.step hm h.1 hp hprompt) hprompt ⟨hstart.sound, hstart.slot name m⟩

end Slots

/-! ### Once per matching minute -/

section Once

variable {S : Scheduler} {s : State S} {i : Fin S.jobs.length} {m : ℤ}

def Alone (i : Fin S.jobs.length) (m : ℤ) : Prop :=
  ∀ j, j ≠ i → (S.entry j).name = (S.entry i).name → ¬ (S.entry j).Due m

theorem count_log_eq_claims (hsound : Sound s) (halone : Alone i m) :
    s.log.count (i, m) = claims s (S.entry i).name m := by
  unfold claims List.count
  refine List.countP_congr fun x hx => ?_
  have hdue := hsound.due x hx
  obtain ⟨j, m'⟩ := x
  simp only [beq_iff_eq, Prod.mk.injEq, decide_eq_true_eq]
  constructor
  · rintro ⟨rfl, rfl⟩
    exact ⟨rfl, rfl⟩
  · rintro ⟨hname, rfl⟩
    refine ⟨?_, rfl⟩
    by_contra hne
    exact halone j hne hname hdue

/-- **Once per matching minute.** An entry with arguments that can be written, which shares no minute
with another such entry of its name, is enqueued once in every minute its schedule has and a pass has
begun in, and never in another one. -/
theorem enqueued_once_per_minute (es : List Event) (hstart : Start s)
    (legal : (machine S).Legal s es) (hprompt : (machine S).Throughout World.Prompt s es)
    (hm : m % minute = 0) (hargs : ∃ args, (S.entry i).args = .ok args) (halone : Alone i m) :
    let s' := (machine S).run s es
    ((S.entry i).schedule.fires m = false → s'.log.count (i, m) = 0) ∧
      ((S.entry i).schedule.fires m = true → s'.log.count (i, m) ≤ 1 ∧
        ∀ now ∈ s'.completed, truncateMinute now = m → s'.log.count (i, m) = 1) := by
  intro s'
  obtain ⟨hsound, hslot⟩ := slot_of_legal (S.entry i).name hm hstart legal hprompt
  refine ⟨fun hnot => ?_, fun hfires => ?_⟩
  · refine List.count_eq_zero.mpr fun hmem => ?_
    rw [(hsound.due _ hmem).1] at hnot
    cases hnot
  · rw [count_log_eq_claims hsound halone]
    have hle := hslot.claims_le
    refine ⟨hle, fun now hnow htime => ?_⟩
    have hpos := hslot.completed now hnow htime i rfl ⟨hfires, hargs⟩
    omega

end Once

/-! ### Two entries with one job type -/

/-- `* * * * *`. -/
def everyMinute : Schedule where
  fires t := t % minute = 0
  whole t h := by
    have hminute := of_decide_eq_true h
    unfold minute second at *
    omega
  next t := some ((t / minute + 1) * minute)
  next_eq t u := by
    simp only [Option.some.injEq, decide_eq_true_eq]
    unfold minute second
    constructor
    · rintro rfl
      refine ⟨by omega, by omega, fun v hv hv' => by omega⟩
    · rintro ⟨hlt, hu, hleast⟩
      have := hleast ((t / 60000000000 + 1) * 60000000000) (by omega) (by omega)
      omega

/-- `1-59/2 * * * *`. -/
def oddMinutes : Schedule where
  fires t := t % (2 * minute) = minute
  whole t h := by
    have hminute := of_decide_eq_true h
    unfold minute second at *
    omega
  next t := some (((t - minute) / (2 * minute) + 1) * (2 * minute) + minute)
  next_eq t u := by
    simp only [Option.some.injEq, decide_eq_true_eq]
    unfold minute second
    constructor
    · rintro rfl
      refine ⟨by omega, by omega, fun v hv hv' => by omega⟩
    · rintro ⟨hlt, hu, hleast⟩
      have := hleast (((t - 60000000000) / 120000000000 + 1) * 120000000000 + 60000000000)
        (by omega) (by omega)
      omega

def parse (cronExpr : String) : Except String Schedule :=
  if cronExpr = "* * * * *" then .ok everyMinute else .error "unknown expression"

def mailEntry (cronExpr : String) (schedule : Schedule) (language : String) : Entry :=
  ⟨"Mail", cronExpr, "Mail", .ok (some [("language", .str language)]), "default", 25, schedule⟩

def mailScheduler (cronExpr : String) (schedule : Schedule) : Scheduler :=
  ⟨[mailEntry "* * * * *" everyMinute "de", mailEntry cronExpr schedule "en"]⟩

def idle (S : Scheduler) : State S := ⟨0, fun _ => none, fun _ => 0, fun _ => none, [], []⟩

theorem start_idle (S : Scheduler) : Start (idle S) :=
  ⟨fun _ => Or.inl rfl, fun _ _ => rfl, fun _ => rfl, rfl, rfl⟩

section Mail

variable (cronExpr : String) (schedule : Schedule)

def firstMail : Fin (mailScheduler cronExpr schedule).jobs.length := ⟨0, Nat.succ_pos _⟩

def secondMail : Fin (mailScheduler cronExpr schedule).jobs.length :=
  ⟨1, Nat.succ_lt_succ (Nat.succ_pos _)⟩

end Mail

def twoPasses : List Event :=
  [.check "a", .check "b", .visit "b" "1" .zero, .visit "a" "2" .zero, .visit "a" "3" .zero,
    .finish "a", .visit "b" "4" .zero, .finish "b"]

theorem enqueued_once_per_minute_twoPasses :
    ((machine (mailScheduler "1-59/2 * * * *" oddMinutes)).run (idle _) twoPasses).log.count
      (firstMail _ _, 0) = 1 := by
  have halone : Alone (firstMail "1-59/2 * * * *" oddMinutes) 0 := by
    intro j hne _ hdue
    obtain ⟨_ | _ | n, hn⟩ := j
    · exact hne rfl
    · exact Bool.noConfusion hdue.1
    · exact absurd hn (Nat.not_lt_of_le (Nat.le_add_left 2 n))
  have honce := enqueued_once_per_minute twoPasses
    (start_idle (mailScheduler "1-59/2 * * * *" oddMinutes)) (i := firstMail _ _)
    ⟨rfl, rfl, ⟨_, _, _, rfl⟩, ⟨_, _, _, rfl⟩, ⟨_, _, _, rfl⟩, ⟨_, rfl⟩, ⟨_, _, _, rfl⟩, ⟨_, rfl⟩,
      trivial⟩
    ⟨trivial, trivial, by rintro p ⟨⟩; decide, by rintro p ⟨⟩; decide, by rintro p ⟨⟩; decide,
      trivial, by rintro p ⟨⟩; decide, trivial, trivial⟩
    (m := 0) rfl ⟨_, rfl⟩ halone
  exact (honce.2 rfl).2 0 List.mem_cons_self rfl

def twoEntryPass : List Event :=
  [.check "a", .visit "a" "1" .zero, .visit "a" "2" .zero, .finish "a"]

/-- **The second of two entries with one job type is not enqueued.** A scheduler for one language
registers another one for the same minutes. A pass goes through both entries, in a minute both of
them have, and the slot is taken when it comes to the second. -/
theorem second_entry_not_enqueued :
    Scheduler.register parse ⟨[mailEntry "* * * * *" everyMinute "de"]⟩ "* * * * *" "Mail"
        [withArgs (.ok (some [("language", .str "en")]))] =
          .ok (mailScheduler "* * * * *" everyMinute) ∧
      Start (idle (mailScheduler "* * * * *" everyMinute)) ∧
      (machine (mailScheduler "* * * * *" everyMinute)).Legal (idle _) twoEntryPass ∧
      (machine (mailScheduler "* * * * *" everyMinute)).Throughout World.Prompt (idle _)
        twoEntryPass ∧
      0 ∈ ((machine (mailScheduler "* * * * *" everyMinute)).run (idle _) twoEntryPass).completed ∧
      ((mailScheduler "* * * * *" everyMinute).entry (secondMail _ _)).schedule.fires
        (truncateMinute 0) = true ∧
      ((machine (mailScheduler "* * * * *" everyMinute)).run (idle _) twoEntryPass).log.count
        (secondMail _ _, truncateMinute 0) = 0 := by
  refine ⟨rfl, start_idle _, ⟨rfl, ⟨_, _, _, rfl⟩, ⟨_, _, _, rfl⟩, ⟨_, rfl⟩, trivial⟩,
    ⟨trivial, by rintro p ⟨⟩; decide, by rintro p ⟨⟩; decide, trivial, trivial⟩,
    List.mem_cons_self, rfl, ?_⟩
  -- only the first entry is in the log
  change [(firstMail "* * * * *" everyMinute, 0)].count (secondMail _ _, truncateMinute 0) = 0
  decide

/-- Two schedulers begin a pass in one minute, and the second one comes to the entry an hour
later, when the slot has expired. -/
def latePass : List Event :=
  [.check "a", .check "b", .visit "a" "1" .zero, .tick 3600000000000, .expire "Mail" 0,
    .visit "b" "2" .zero]

theorem late_pass_enqueues_again :
    (machine (mailScheduler "1-59/2 * * * *" oddMinutes)).Legal (idle _) latePass ∧
      ((machine (mailScheduler "1-59/2 * * * *" oddMinutes)).run (idle _) latePass).log.count
        (firstMail _ _, truncateMinute 0) = 2 := by
  refine ⟨⟨rfl, rfl, ⟨_, _, _, rfl⟩, trivial, ?_, ⟨_, _, _, rfl⟩, trivial⟩, ?_⟩
  · change millis 0 + millis slotTTL ≤ millis 3600000000000
    decide
  · change [(firstMail "1-59/2 * * * *" oddMinutes, 0), (firstMail _ _, 0)].count
      (firstMail _ _, truncateMinute 0) = 2
    decide

end Periodic

end Senna
