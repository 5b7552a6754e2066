import Senna.Ratelimit.Bucket
import Senna.Ratelimit.Concurrent
import Senna.Ratelimit.Leaky
import Senna.Ratelimit.Points
import Senna.Ratelimit.Window
import Senna.System.Double

/-!
# Who gets through

`Acquire` of the limiters, and the callers that run a function behind it: `runWithinLimit`,
`WithinLimitCost`, `WithinLimitEstimate` and `RateLimitMiddlewareWithReschedule`.

Under `PolicyRaise`, `Acquire` repeats its script until it is admitted, and gives up with an error.
Under `PolicySkip` it asks once, and a refusal is a wait time without an error. **The callers know a
refusal by nothing but a positive wait time** (`runs_iff`). The script gives the wait in
microseconds, and it becomes a Go duration by a multiplication in 64 bits that wraps around
(`retryIn`). So a wait of more than 292 years may let a refused request go on.

The scripts are here in the arithmetic they have, doubles, and in any state of Redis. There is room
for such a wait behind all of the four that compute one: the longest duration in microseconds is not
a double, and the next double is longer. Behind the points limiter the cost makes the wait, and the
cost is the caller's.
-/

namespace Senna.Ratelimit.Gate

open Redis

/-! ### Acquire -/

inductive Policy where
  | raise | skip
  deriving DecidableEq, Repr

/-- An `int64`. -/
def wrap (n : ℤ) : ℤ := n.bmod (2 ^ 64)

/-- `time.Duration(us) * time.Microsecond`. -/
def duration (us : ℤ) : ℤ := wrap (wrap us * 1000)

/-- What a script answers: whether the request is admitted, a count or level, and how long to wait
in microseconds. -/
abbrev Reply := ℤ × ℚ × ℚ

/-- One round of the loop of `Acquire`: what the script runs on, whether the deadline comes before
the end of the wait, and whether the context ends first. -/
structure Round (σ : Type) where
  state : σ
  late : Bool
  done : Bool

inductive Failure where
  /-- The script, or reading its reply, fails. -/
  | script
  /-- `OverLimitError`, with its `RetryIn`. -/
  | overLimit (retryIn : ℤ)
  /-- `RetryableError` of the middleware, with its `RetryIn`. -/
  | retryable (retryIn : ℤ)
  | context
  deriving DecidableEq, Repr

/-- What `Acquire` returns. -/
inductive Acquired where
  /-- A lease and no wait. -/
  | granted
  /-- No lease, a wait time, and no error. -/
  | refused (waitTime : ℤ)
  | failed (error : Failure)
  deriving DecidableEq, Repr

/-- The loop of `Acquire`, as long as the rounds go; `retryIn` is the wait time of a reply. -/
def acquire {σ : Type} (script : σ → Option Reply) (retryIn : Reply → ℤ)
    (policy : Policy) : List (Round σ) → Option Acquired
  | [] => none
  | r :: rs =>
    match script r.state with
    | none => some (.failed .script)
    | some reply =>
      if reply.1 = 1 then some .granted
      else if policy = .skip then some (.refused (retryIn reply))
      else if r.late then some (.failed (.overLimit (retryIn reply)))
      else if r.done then some (.failed .context)
      else acquire script retryIn policy rs

/-! ### The callers -/

inductive Caller where
  | runWithinLimit
  | withinLimitCost
  | withinLimitEstimate
  | rateLimitMiddlewareWithReschedule
  deriving DecidableEq, Repr

def Caller.refusal : Caller → ℤ → Failure
  | .rateLimitMiddlewareWithReschedule, d => .retryable d
  | _, d => .overLimit d

/-- What a caller does with the result of `Acquire`: it runs its function, or returns an error. -/
def Caller.call (c : Caller) : Acquired → Option Failure
  | .failed error => some error
  | .refused waitTime => if waitTime > 0 then some (c.refusal waitTime) else none
  | .granted => none

def Caller.Runs (c : Caller) (a : Option Acquired) : Prop := ∃ r, a = some r ∧ c.call r = none

def Slips {σ : Type} (script : σ → Option Reply) (retryIn : Reply → ℤ) (policy : Policy)
    (rounds : List (Round σ)) : Prop :=
  policy = .skip ∧ ∃ r reply, rounds.head? = some r ∧ script r.state = some reply ∧ reply.1 ≠ 1 ∧
    retryIn reply ≤ 0

section Gate

variable {σ : Type} {script : σ → Option Reply} {retryIn : Reply → ℤ} {policy : Policy}
  {rounds : List (Round σ)}

theorem acquire_cons (r : Round σ) (rs : List (Round σ)) :
    (∃ reply, script r.state = some reply ∧ reply.1 = 1 ∧
      acquire script retryIn policy (r :: rs) = some .granted) ∨
    (policy = .skip ∧ ∃ reply, script r.state = some reply ∧ reply.1 ≠ 1 ∧
      acquire script retryIn policy (r :: rs) = some (.refused (retryIn reply))) ∨
    (∃ f, acquire script retryIn policy (r :: rs) = some (.failed f)) ∨
    (policy = .raise ∧
      acquire script retryIn policy (r :: rs) = acquire script retryIn policy rs) := by
  rw [acquire]
  cases script r.state with
  | none => exact Or.inr (Or.inr (Or.inl ⟨_, rfl⟩))
  | some reply =>
    by_cases hone : reply.1 = 1
    · exact Or.inl ⟨reply, rfl, hone, if_pos hone⟩
    · dsimp only
      rw [if_neg hone]
      cases policy with
      | skip => exact Or.inr (Or.inl ⟨rfl, reply, rfl, hone, rfl⟩)
      | raise =>
        refine Or.inr (Or.inr ?_)
        rw [if_neg nofun]
        cases r.late with
        | true => exact Or.inl ⟨_, rfl⟩
        | false =>
          cases r.done with
          | true => exact Or.inl ⟨_, rfl⟩
          | false => exact Or.inr ⟨rfl, rfl⟩

theorem skip_of_refused {d : ℤ} (h : acquire script retryIn policy rounds = some (.refused d)) :
    policy = .skip ∧ ∃ r reply, rounds.head? = some r ∧ script r.state = some reply ∧
      reply.1 ≠ 1 ∧ retryIn reply = d := by
  induction rounds with
  | nil => cases h
  | cons r rs ih =>
    obtain ⟨reply, -, -, hround⟩ | ⟨hskip, reply, hscript, hone, hround⟩ | ⟨f, hround⟩ |
      ⟨hraise, hround⟩ := @acquire_cons σ script retryIn policy r rs
    · cases hround.symm.trans h
    · cases hround.symm.trans h
      exact ⟨hskip, r, reply, rfl, hscript, hone, rfl⟩
    · cases hround.symm.trans h
    · have hskip := (ih (hround.symm.trans h)).1
      rw [hraise] at hskip
      cases hskip

/-- **Who gets through.** -/
theorem runs_iff (c : Caller) : c.Runs (acquire script retryIn policy rounds) ↔
    acquire script retryIn policy rounds = some .granted ∨
      Slips script retryIn policy rounds := by
  constructor
  · rintro ⟨r, hr, hcall⟩
    cases r with
    | granted => exact Or.inl hr
    | failed error => cases hcall
    | refused d =>
      obtain ⟨hskip, r, reply, hhead, hscript, hone, rfl⟩ := skip_of_refused hr
      refine Or.inr ⟨hskip, r, reply, hhead, hscript, hone, ?_⟩
      by_contra hpos
      rw [Caller.call, if_pos (not_le.mp hpos)] at hcall
      cases hcall
  · rintro (hgranted | ⟨rfl, r, reply, hhead, hscript, hone, hwait⟩)
    · exact ⟨.granted, hgranted, rfl⟩
    · obtain ⟨rs, rfl⟩ := List.head?_eq_some_iff.mp hhead
      refine ⟨.refused (retryIn reply), ?_, ?_⟩
      · rw [acquire, hscript]
        exact (if_neg hone).trans (if_pos rfl)
      · rw [Caller.call, if_neg (not_lt.mpr hwait)]

theorem exists_of_granted (h : acquire script retryIn policy rounds = some .granted) :
    ∃ r ∈ rounds, ∃ reply, script r.state = some reply ∧ reply.1 = 1 := by
  induction rounds with
  | nil => cases h
  | cons r rs ih =>
    obtain ⟨reply, hscript, hone, -⟩ | ⟨-, reply, -, -, hround⟩ | ⟨f, hround⟩ | ⟨-, hround⟩ :=
      @acquire_cons σ script retryIn policy r rs
    · exact ⟨r, List.mem_cons_self, reply, hscript, hone⟩
    · cases hround.symm.trans h
    · cases hround.symm.trans h
    · obtain ⟨r', hmem, hadmitted⟩ := ih (hround.symm.trans h)
      exact ⟨r', List.mem_cons_of_mem r hmem, hadmitted⟩

theorem granted_of_runs_iff (c : Caller) :
    (c.Runs (acquire script retryIn policy rounds) →
      acquire script retryIn policy rounds = some .granted) ↔
    ¬ Slips script retryIn policy rounds := by
  rw [runs_iff]
  constructor
  · rintro h ⟨rfl, r, reply, hhead, hreply, hone, hwait⟩
    have hgranted := h (Or.inr ⟨rfl, r, reply, hhead, hreply, hone, hwait⟩)
    obtain ⟨rs, rfl⟩ := List.head?_eq_some_iff.mp hhead
    rw [acquire, hreply] at hgranted
    dsimp only at hgranted
    rw [if_neg hone, if_pos rfl] at hgranted
    cases hgranted
  · intro hslips h
    exact h.resolve_right hslips

theorem slips_iff {refused : Prop} [Decidable refused] {a b wait : ℚ} (r : Round σ)
    (rs : List (Round σ))
    (h : script r.state = some (if refused then (0, a, wait) else (1, b, 0))) :
    Slips script retryIn policy (r :: rs) ↔
      policy = .skip ∧ refused ∧ retryIn (0, a, wait) ≤ 0 := by
  constructor
  · rintro ⟨hskip, r', reply, hhead, hreply, hone, hwait⟩
    obtain rfl := Option.some.inj hhead
    obtain rfl := Option.some.inj (h.symm.trans hreply)
    by_cases hrefused : refused
    · rw [if_pos hrefused] at hwait
      exact ⟨hskip, hrefused, hwait⟩
    · rw [if_neg hrefused] at hone
      exact absurd rfl hone
  · rintro ⟨hskip, hrefused, hwait⟩
    rw [if_pos hrefused] at h
    exact ⟨hskip, r, _, rfl, h, (by decide : (0 : ℤ) ≠ 1), hwait⟩

end Gate

/-! ### The scripts, in doubles -/

section Scripts

-- How an operation rounds. Exact numbers, with the identity, are those of the other modules.
variable (fl : ℚ → ℚ)

/-- `now_us`. -/
def now (clock : ℕ) : ℚ := fl (fl (fl (time clock).1 * 1000000) + fl (time clock).2)

/-- `retry_in_us` of `bucket.lua`. -/
def bucketWait (l : Bucket.BucketLimiter) (clock : ℕ) : ℚ :=
  let windowUs := fl l.windowUs
  let nowUs := now fl clock
  let bucketTs := fl (⌊fl (nowUs / windowUs)⌋ * windowUs)
  fl (fl (bucketTs + windowUs) - nowUs)

/-- What `bucket.lua` answers, with a counter in Redis. -/
def bucketReply (l : Bucket.BucketLimiter) (s : ℕ × ℤ) : Option Reply :=
  let current := fl (s.2 + 1 : ℤ)
  some (if current > fl l.limit then (0, fl (current - 1), bucketWait fl l s.1)
    else (1, current, 0))

/-- The scores that `window.lua` leaves in the set. -/
def windowScores (l : Window.WindowLimiter) (s : ℕ × List ℚ) : List ℚ :=
  s.2.filter (fl (now fl s.1 - fl l.windowUs) < ·)

/-- `retry_in_us` of `window.lua`. -/
def windowWait (l : Window.WindowLimiter) (s : ℕ × List ℚ) : ℚ :=
  let windowUs := fl l.windowUs
  match (windowScores fl l s).min? with
  | some oldest =>
    let retryInUs := fl (fl (oldest + windowUs) - now fl s.1)
    if retryInUs < 0 then 0 else retryInUs
  | none => windowUs

/-- What `window.lua` answers, with a set of scores in Redis. -/
def windowReply (l : Window.WindowLimiter) (s : ℕ × List ℚ) : Option Reply :=
  let count := fl (windowScores fl l s).length
  some (if count ≥ fl l.limit then (0, count, windowWait fl l s)
    else (1, fl (count + 1), 0))

/-- The level that `leaky.lua` computes. -/
def leakyLevel (l : Leaky.LeakyLimiter) (s : ℕ × Leaky.Bucket) : ℚ :=
  let nowUs := now fl s.1
  let level := fl (s.2.level.getD 0)
  let lastDrip := (s.2.lastDrip.map fun t => fl t).getD nowUs
  let elapsedUs := fl (nowUs - lastDrip)
  let drained := fl (fl (elapsedUs * fl l.capacity) / fl l.drainTimeUs)
  max 0 (fl (level - drained))

/-- `wait_time_us` of `leaky.lua`. -/
def leakyWait (l : Leaky.LeakyLimiter) (level : ℚ) : ℤ :=
  let overfill := fl (fl (level + 1) - fl l.capacity)
  ⌈fl (fl (overfill * fl l.drainTimeUs) / fl l.capacity)⌉

/-- What `leaky.lua` answers, with the fields of a hash in Redis. -/
def leakyReply (l : Leaky.LeakyLimiter) (s : ℕ × Leaky.Bucket) : Option Reply :=
  let level := leakyLevel fl l s
  some (if fl (level + 1) > fl l.capacity then (0, level, leakyWait fl l level)
    else (1, fl (level + 1), 0))

/-- The points that `points_check.lua` computes. -/
def pointsAvailable (l : Points.PointsLimiter) (s : ℕ × Points.Balance) : ℚ :=
  let nowUs := now fl s.1
  let capacity := fl l.capacity
  let points := (s.2.points.map fl).getD capacity
  let lastRefill := (s.2.lastRefill.map fun t => fl t).getD nowUs
  let elapsedUs := fl (nowUs - lastRefill)
  let refilled := fl (fl (elapsedUs * capacity) / fl l.refillTimeUs)
  min capacity (fl (points + refilled))

/-- `wait_time_us` of `points_check.lua`. -/
def pointsWait (l : Points.PointsLimiter) (cost : ℤ) (points : ℚ) : ℤ :=
  let needed := fl (fl cost - points)
  ⌈fl (fl (needed * fl l.refillTimeUs) / fl l.capacity)⌉

/-- What `points_check.lua` answers, with the fields of a hash in Redis. -/
def pointsReply (l : Points.PointsLimiter) (cost : ℤ) (s : ℕ × Points.Balance) :
    Option Reply :=
  let points := pointsAvailable fl l s
  if fl cost ≤ 0 then none
  else some (if points < fl cost then (0, points, pointsWait fl l cost points)
    else (1, fl (points - fl cost), 0))

end Scripts

/-- `reclaim`, and then the script that takes a slot. -/
def concurrentReply (l : ConcurrentLimiter) (s : String × ℕ × Store) : Option Reply :=
  let (lockID, clock, store) := s
  let store := (concurrentReclaim (milliseconds l.lockTimeout) l.ttlSeconds clock store).2
  let (acquired, locks) := (concurrentAcquire lockID l.ttlSeconds clock store).1
  some (acquired, locks, 0)

/-! ### Exact numbers -/

-- With nothing rounded, the answers are those of the scripts in the other modules.

theorem now_id (clock : ℕ) : now id clock = nowUs clock := by simp [now, nowUs]

theorem bucketReply_id (l : Bucket.BucketLimiter) (ttl : ℤ) (clock : ℕ) (key : Bucket.Key) :
    bucketReply id l (clock, key.content.getD 0) =
      let reply := (Bucket.bucket l.limit l.windowUs ttl clock key).1
      some (reply.1, (reply.2.1 : ℚ), (reply.2.2 : ℚ)) := by
  have hwait : bucketWait id l clock =
      (Bucket.bucketTs l.windowUs clock + l.windowUs - nowUs clock : ℤ) := by
    obtain ⟨n, hn⟩ := Int.eq_ofNat_of_zero_le l.windowUs_pos.le
    simp only [bucketWait, now_id, id, Bucket.bucketTs, hn]
    rw [Int.cast_natCast, Rat.floor_intCast_div_natCast]
    push_cast
    rfl
  simp only [bucketReply, Bucket.bucket, hwait, id, gt_iff_lt, Int.cast_lt]
  split
  · simp
  · rfl

theorem min?_scores (z : List (String × ℤ)) :
    (z.map fun e => (e.2 : ℚ)).min? = (zfirst z).map fun e => (e.2 : ℚ) := by
  cases h : zfirst z with
  | none =>
    have hlength := List.length_insertionSort zle z
    rw [List.head?_eq_none_iff.mp h] at hlength
    rw [List.length_eq_zero_iff.mp hlength.symm]
    rfl
  | some e =>
    rw [Option.map_some, List.min?_eq_some_iff]
    refine ⟨List.mem_map_of_mem (mem_of_zfirst h), fun _ hb => ?_⟩
    obtain ⟨x, hx, rfl⟩ := List.mem_map.mp hb
    exact_mod_cast zfirst_le h x hx

theorem windowReply_id (l : Window.WindowLimiter) (member : String) (ttl : ℤ) (clock : ℕ)
    (key : Window.Key) :
    windowReply id l (clock, key.content.map fun e => (e.2 : ℚ)) =
      let reply := (Window.window l.limit l.windowUs member ttl clock key).1
      some (reply.1, (reply.2.1 : ℚ), (reply.2.2 : ℚ)) := by
  have hscores : windowScores id l (clock, key.content.map fun e => (e.2 : ℚ)) =
      (zremrange key.content (nowUs clock - l.windowUs)).map fun e => (e.2 : ℚ) := by
    simp only [windowScores, now_id, id, zremrange, List.filter_map]
    congr 2
    funext e
    simp only [Function.comp]
    norm_cast
  simp only [windowReply, windowWait, hscores, min?_scores, now_id, Window.window,
    Cell.content_put, id, List.length_map]
  norm_cast
  split
  · cases zfirst (zremrange key.content (nowUs clock - l.windowUs)) with
    | none => rfl
    | some oldest =>
      simp only [Option.map_some]
      norm_cast
  · simp

theorem leakyReply_id (l : Leaky.LeakyLimiter) (ttl : ℤ) (clock : ℕ) (key : Leaky.Key) :
    leakyReply id l (clock, key.content) =
      let reply := (Leaky.leaky l.capacity l.drainTimeUs ttl clock key).1
      some (reply.1, reply.2.1, (reply.2.2 : ℚ)) := by
  have hlevel : leakyLevel id l (clock, key.content) =
      Leaky.level l.capacity l.drainTimeUs clock key.content := by
    simp only [leakyLevel, Leaky.level, now_id, id]
    cases key.content.lastDrip <;> simp
  simp only [leakyReply, Leaky.leaky, hlevel, id]
  split <;> rfl

theorem pointsReply_id (l : Points.PointsLimiter) (cost ttl : ℤ) (clock : ℕ) (key : Points.Key) :
    pointsReply id l cost (clock, key.content) =
      (Points.pointsCheck l.capacity l.refillTimeUs cost ttl clock key).1.toOption.map
        fun reply => (reply.1, reply.2.1, (reply.2.2 : ℚ)) := by
  have hpoints : pointsAvailable id l (clock, key.content) =
      Points.available l.capacity l.refillTimeUs clock key.content := by
    simp only [pointsAvailable, Points.available, now_id, id]
    cases key.content.lastRefill <;> cases key.content.points <;> simp
  simp only [pointsReply, Points.pointsCheck, hpoints, id]
  by_cases hcost : cost ≤ 0
  · simp [hcost, Except.toOption]
  · simp only [hcost, Int.cast_nonpos, if_false]
    split <;> rfl

/-! ### The five limiters -/

/-- How Redis makes an integer of a number that a script returns. An integer of 64 bits stays what
it is; what becomes of others is left open. -/
structure Conversion where
  int : ℚ → ℤ
  int_eq : ∀ n : ℤ, -2 ^ 63 ≤ n → n < 2 ^ 63 → int n = n

section Limiters

variable (cv : Conversion)

def retryIn (reply : Reply) : ℤ := duration (cv.int reply.2.2)

def acquireBucket (l : Bucket.BucketLimiter) :
    Policy → List (Round (ℕ × ℤ)) → Option Acquired :=
  acquire (bucketReply Double.round l) (retryIn cv)

def acquireWindow (l : Window.WindowLimiter) :
    Policy → List (Round (ℕ × List ℚ)) → Option Acquired :=
  acquire (windowReply Double.round l) (retryIn cv)

def acquireLeaky (l : Leaky.LeakyLimiter) :
    Policy → List (Round (ℕ × Leaky.Bucket)) → Option Acquired :=
  acquire (leakyReply Double.round l) (retryIn cv)

def acquirePoints (l : Points.PointsLimiter) (cost : ℤ) (policy : Policy)
    (rounds : List (Round (ℕ × Points.Balance))) : Option Acquired :=
  if cost ≤ 0 then some (.failed .script)
  else acquire (pointsReply Double.round l cost) (retryIn cv) policy rounds

end Limiters

def waitTimeout (d : ℤ) : ℤ := if d = 0 then 5000000000 else d

def acquireConcurrent (l : ConcurrentLimiter) (timeout : ℤ) :
    Policy → List (Round (String × ℕ × Store)) → Option Acquired :=
  acquire (concurrentReply l) fun _ => waitTimeout timeout

/-! ### The waits -/

def maxWaitUs : ℤ := 9223372036854775

theorem duration_pos {us : ℤ} (hpos : 0 < us) (hle : us ≤ maxWaitUs) : 0 < duration us := by
  unfold maxWaitUs at hle
  have hsmall : wrap us = us := Int.bmod_eq_of_le (by omega) (by omega)
  have hlarge : wrap (us * 1000) = us * 1000 := Int.bmod_eq_of_le (by omega) (by omega)
  rw [duration, hsmall, hlarge]
  omega

theorem lt_of_duration_le {cv : Conversion} {wait : ℤ} (hpos : 0 < wait)
    (h : duration (cv.int wait) ≤ 0) : maxWaitUs < wait := by
  by_contra hle
  have hmax : maxWaitUs < 2 ^ 63 := by decide
  rw [cv.int_eq wait (by omega) (by omega)] at h
  exact absurd h (duration_pos hpos (by omega)).not_ge

theorem ceil_share_pos {x span capacity : ℚ} (hx : 0 < x) (hspan : 0 < span)
    (hcapacity : 0 < capacity) :
    0 < ⌈Double.round (Double.round (x * Double.round span) / Double.round capacity)⌉ :=
  Int.ceil_pos.mpr (Double.round_pos (div_pos
    (Double.round_pos (mul_pos hx (Double.round_pos hspan))) (Double.round_pos hcapacity)))

theorem leakyWait_pos {l : Leaky.LeakyLimiter} (hcapacity : 1 ≤ l.capacity) {level : ℚ}
    (h : Double.round (level + 1) > Double.round l.capacity) :
    0 < leakyWait Double.round l level :=
  ceil_share_pos (Double.round_pos (sub_pos.mpr h)) (Int.cast_pos.mpr (spanUs_pos l.drainTime))
    (Int.cast_pos.mpr hcapacity)

theorem pointsWait_pos {l : Points.PointsLimiter} (hcapacity : 1 ≤ l.capacity) {cost : ℤ}
    {points : ℚ} (h : points < Double.round cost) : 0 < pointsWait Double.round l cost points :=
  ceil_share_pos (Double.round_pos (sub_pos.mpr h)) (Int.cast_pos.mpr (spanUs_pos l.refillTime))
    (Int.cast_pos.mpr hcapacity)

theorem waitTimeout_pos {timeout : ℤ} (hnonneg : 0 ≤ timeout) : 0 < waitTimeout timeout := by
  unfold waitTimeout
  split <;> omega

/-! ### Denied requests -/

def firstRequest : List (Round (ℕ × Points.Balance)) := [⟨(0, ⟨none, none⟩), false, false⟩]

def dropFraction : Conversion where
  int x := ⌊x⌋
  int_eq n _ _ := Int.floor_intCast n

end Senna.Ratelimit.Gate
