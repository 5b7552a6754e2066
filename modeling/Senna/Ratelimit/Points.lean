import Mathlib.Data.Rat.Floor
import Senna.Ratelimit.Clock
import Senna.Redis.Expiring
import Senna.System.Machine
import Senna.System.Metering

/-!
# The points limiter

`ratelimit/points.go` with `points_check.lua` and `points_adjust.lua`, in exact arithmetic. The key
is a hash with a balance and the time of the last refill. A check refills the balance for the time
since then and takes its cost, if it can; a caller that has only estimated its cost adjusts the
balance later.

**An adjustment writes the balance and not the time.** If the key has expired in the meantime, it
comes back with a balance and no time; until the next admission such a balance is not refilled at
all. So the balance that a check finds is not always what the budget would allow, but it is never
more (`Metered.available_le`): the balance is charged as if it were refilled since the time the key
was created (`since`). Then an expiry adds nothing, a refund adds what it says, and the bound for
every interval is `Metering.Budget.spent_le`.
-/

namespace Senna.Ratelimit.Points

open Redis Metering

/-! ### The scripts -/

/-- What the instances of one limiter name share. -/
structure PointsLimiter where
  name : String
  capacity : ℤ
  /-- A Go duration: nanoseconds. -/
  refillTime : ℤ

def PointsLimiter.refillTimeUs (l : PointsLimiter) : ℤ := spanUs l.refillTime

/-- The fields of the hash. -/
structure Balance where
  points : Option ℚ
  lastRefill : Option ℤ
  deriving DecidableEq, Inhabited

abbrev Key := Cell Balance

def available (capacity refillTimeUs : ℤ) (clock : ℕ) (balance : Balance) : ℚ :=
  let nowUs := nowUs clock
  let points := balance.points.getD capacity
  let lastRefill := balance.lastRefill.getD nowUs
  let elapsedUs := nowUs - lastRefill
  let refilled : ℚ := elapsedUs * capacity / refillTimeUs
  min capacity (points + refilled)

def availablePoints (capacity refillTimeUs : ℤ) (clock : ℕ) (balance : Balance) : ℚ :=
  let nowUs := nowUs clock
  let points := balance.points.getD capacity
  let lastRefillUs := balance.lastRefill.getD 0
  let lastRefillUs := if lastRefillUs = 0 then nowUs else lastRefillUs
  let elapsedUs := nowUs - lastRefillUs
  let refilled : ℚ := elapsedUs * capacity / refillTimeUs
  min capacity (points + refilled)

def waitTimeUs (capacity refillTimeUs cost : ℤ) (points : ℚ) : ℤ :=
  let needed := cost - points
  ⌈needed * refillTimeUs / capacity⌉

/-- `points_check.lua`. Returns whether the cost was taken, the points, and how long to wait. -/
def pointsCheck (capacity refillTimeUs cost ttl : ℤ) (clock : ℕ) (key : Key) :
    Except String (ℤ × ℚ × ℤ) × Key :=
  if cost ≤ 0 then (.error "points cost must be positive", key)
  else
    let points := available capacity refillTimeUs clock key.content
    if points < cost then (.ok (0, points, waitTimeUs capacity refillTimeUs cost points), key)
    else
      let points := points - cost
      let key := key.put { key.content with points := some points, lastRefill := some (nowUs clock) }
      (.ok (1, points, 0), key.expireAt (lapse clock ttl))

def pointsAdjust (diff maxRefund capacity ttl : ℤ) (clock : ℕ) (key : Key) :
    Except String ℚ × Key :=
  if diff > maxRefund then (.error "points refund exceeds acquired estimate", key)
  else
    let current := key.content.points.getD 0
    let newPoints := max 0 (min (capacity : ℚ) (current + diff))
    let key := key.put { key.content with points := some newPoints }
    (.ok newPoints, key.expireAt (lapse clock ttl))

def pointsUsed (l : PointsLimiter) (estimate actual : ℤ) (clock : ℕ) (key : Key) :
    Except String Unit × Key :=
  if actual < 0 then
    (.error ("points limiter " ++ l.name ++
      ": actual usage must be non-negative: invalid points usage"), key)
  else
    let diff := estimate - actual
    if diff = 0 then (.ok (), key)
    else
      let (reply, key) := pointsAdjust diff estimate l.capacity (ttlSeconds l.refillTimeUs) clock key
      (reply.map fun _ => (), key)

/-! ### The limiter as a machine -/

/-- Points that were taken, or given back. -/
structure Record where
  time : ℕ
  cost : ℤ
  refund : ℤ
  deriving DecidableEq, Repr

/-- One limiter name, with the costs that were admitted and the refunds that were granted. -/
structure World where
  clock : ℕ
  key : Key
  log : List Record

def World.init : World := ⟨0, .absent, []⟩

inductive Event where
  | tick (d : ℕ)
  | check (cost : ℤ)
  | used (estimate actual : ℤ)
  | expire
  deriving DecidableEq, Repr

namespace World

variable (l : PointsLimiter)

def check (s : World) (cost : ℤ) : Except String (ℤ × ℚ × ℤ) × Key :=
  pointsCheck l.capacity l.refillTimeUs cost (ttlSeconds l.refillTimeUs) s.clock s.key

def step (s : World) : Event → World
  | .tick d => { s with clock := s.clock + d }
  | .check cost =>
    match s.check l cost with
    | (.ok (1, _, _), key) => { s with key, log := ⟨s.clock, cost, 0⟩ :: s.log }
    | (_, key) => { s with key }
  | .used estimate actual =>
    match pointsUsed l estimate actual s.clock s.key with
    | (.ok _, key) => { s with key, log := ⟨s.clock, 0, max 0 (estimate - actual)⟩ :: s.log }
    | (_, key) => { s with key }
  | .expire => { s with key := .absent }

def Permits (s : World) : Event → Prop
  | .expire => s.key.Due (nowMs s.clock)
  | _ => True

instance (s : World) : DecidablePred s.Permits
  | .expire => inferInstanceAs (Decidable (s.key.Due (nowMs s.clock)))
  | .tick _ | .check _ | .used _ _ => inferInstanceAs (Decidable True)

end World

def machine (l : PointsLimiter) : Machine World Event where
  permits := World.Permits
  step := World.step l

instance (l : PointsLimiter) (s : World) (e : Event) : Decidable ((machine l).permits s e) :=
  inferInstanceAs (Decidable (s.Permits e))

/-! ### What the scripts do -/

section Cases

variable {capacity refillTimeUs : ℤ} {clock : ℕ} {balance : Balance}

theorem available_le_capacity : available capacity refillTimeUs clock balance ≤ capacity :=
  min_le_left _ _

theorem available_default : available capacity refillTimeUs clock default = capacity := by
  simp [available, show (default : Balance) = ⟨none, none⟩ from rfl]

theorem available_of_some {v : ℚ} {last : ℕ} (hpoints : balance.points = some v)
    (hlast : balance.lastRefill = some (last : ℤ)) :
    available capacity refillTimeUs clock balance =
      min (capacity : ℚ) (v + (capacity / refillTimeUs : ℚ) * (clock - last)) := by
  simp only [available, nowUs_eq, hpoints, hlast, Option.getD_some]
  congr 2
  push_cast
  ring

theorem available_of_none {v : ℚ} (hpoints : balance.points = some v)
    (hlast : balance.lastRefill = none) :
    available capacity refillTimeUs clock balance = min (capacity : ℚ) v := by
  simp [available, hpoints, hlast]

end Cases

variable {l : PointsLimiter} {s : World}

def PointsLimiter.rate (l : PointsLimiter) : ℚ := l.capacity / l.refillTimeUs

theorem PointsLimiter.rate_nonneg (hcapacity : 1 ≤ l.capacity) : 0 ≤ l.rate := by
  have hspan := spanUs_pos l.refillTime
  unfold rate refillTimeUs
  positivity

theorem PointsLimiter.capacity_le_of_span (l : PointsLimiter) (hcapacity : 1 ≤ l.capacity) {d : ℤ}
    (hd : l.refillTimeUs ≤ d) : (l.capacity : ℚ) ≤ l.rate * d := by
  have hspan : (0 : ℚ) < l.refillTimeUs := by exact_mod_cast spanUs_pos l.refillTime
  have helapsed : (l.refillTimeUs : ℚ) ≤ d := by exact_mod_cast hd
  calc (l.capacity : ℚ) = l.rate * l.refillTimeUs := by unfold rate; field_simp
    _ ≤ l.rate * d := mul_le_mul_of_nonneg_left helapsed (l.rate_nonneg hcapacity)

def World.available (l : PointsLimiter) (s : World) : ℚ :=
  Points.available l.capacity l.refillTimeUs s.clock s.key.content

/-- **The outcomes of a check.** -/
theorem World.check_cases (l : PointsLimiter) (s : World) (cost : ℤ) :
    (cost ≤ 0 ∧ s.check l cost = (.error "points cost must be positive", s.key)) ∨
    (0 < cost ∧ s.available l < cost ∧ s.check l cost =
      (.ok (0, s.available l, waitTimeUs l.capacity l.refillTimeUs cost (s.available l)), s.key)) ∨
    (0 < cost ∧ cost ≤ s.available l ∧ s.check l cost =
      (.ok (1, s.available l - cost, 0),
        (s.key.put ⟨some (s.available l - cost), some (s.clock : ℤ)⟩).expireAt
          (lapse s.clock (ttlSeconds l.refillTimeUs)))) := by
  unfold World.check pointsCheck
  rw [nowUs_eq]
  change (_ ∧ (if _ then _ else if s.available l < cost then _ else _) = _) ∨ _
  by_cases hcost : cost ≤ 0
  · exact Or.inl ⟨hcost, if_pos hcost⟩
  · refine Or.inr ?_
    by_cases hlow : s.available l < cost
    · exact Or.inl ⟨not_le.mp hcost, hlow, (if_neg hcost).trans (if_pos hlow)⟩
    · exact Or.inr ⟨not_le.mp hcost, not_lt.mp hlow, (if_neg hcost).trans (if_neg hlow)⟩

def adjusted (l : PointsLimiter) (diff : ℤ) (balance : Balance) : Balance :=
  { balance with points := some (max 0 (min (l.capacity : ℚ) (balance.points.getD 0 + diff))) }

/-- **The outcomes of an adjustment.** A refund is never more than was estimated. -/
theorem pointsUsed_cases (l : PointsLimiter) (estimate actual : ℤ) (clock : ℕ) (key : Key) :
    (∃ text, pointsUsed l estimate actual clock key = (.error text, key)) ∨
    (estimate = actual ∧ pointsUsed l estimate actual clock key = (.ok (), key)) ∨
    pointsUsed l estimate actual clock key =
      (.ok (), (key.put (adjusted l (estimate - actual) key.content)).expireAt
        (lapse clock (ttlSeconds l.refillTimeUs))) := by
  unfold pointsUsed
  by_cases hactual : actual < 0
  · exact Or.inl ⟨_, if_pos hactual⟩
  · rw [if_neg hactual]
    refine Or.inr ?_
    by_cases hdiff : estimate - actual = 0
    · exact Or.inl ⟨by omega, if_pos hdiff⟩
    · refine Or.inr ?_
      dsimp only
      rw [if_neg hdiff, pointsAdjust, if_neg (by omega)]
      rfl

/-! ### The budget -/

def Record.entry (r : Record) : Entry ℚ := ⟨r.time, r.cost, r.refund⟩

/-- The balance is covered by a budget. While there is no key, all of the capacity is left. Else
the balance counts as refilled since some time, which is the time of the last refill if there is
one; the lifetime of the key started no earlier. -/
inductive Metered (l : PointsLimiter) (s : World) : Prop where
  | absent (hcontent : s.key.content = default)
      (budget : Budget (l.capacity : ℚ) l.rate s.clock l.capacity (s.log.map Record.entry))
  | holds (v : ℚ) (since : ℕ) (hpoints : s.key.content.points = some v)
      (hlast : s.key.content.lastRefill = none ∨ s.key.content.lastRefill = some (since : ℤ))
      (hnonneg : 0 ≤ v) (hle : v ≤ l.capacity) (hsince : since ≤ s.clock)
      (hdeadline : ∀ t ∈ s.key.deadline, lapse since (ttlSeconds l.refillTimeUs) ≤ t)
      (budget : Budget (l.capacity : ℚ) l.rate s.clock
        (min (l.capacity : ℚ) (v + l.rate * (s.clock - since))) (s.log.map Record.entry))

theorem Metered.available_le (h : Metered l s) (hcapacity : 1 ≤ l.capacity) :
    0 ≤ s.available l ∧ ∃ left, s.available l ≤ left ∧
      Budget (l.capacity : ℚ) l.rate s.clock left (s.log.map Record.entry) := by
  have hpos : (0 : ℚ) ≤ l.capacity := by exact_mod_cast zero_le_one.trans hcapacity
  cases h with
  | absent hcontent budget =>
    rw [World.available, hcontent, available_default]
    exact ⟨hpos, _, le_rfl, budget⟩
  | holds v since hpoints hlast hnonneg hle hsince hdeadline budget =>
    have hrefill : 0 ≤ l.rate * ((s.clock : ℚ) - since) :=
      mul_nonneg (l.rate_nonneg hcapacity) (sub_nonneg.mpr (Nat.cast_le.mpr hsince))
    obtain hlast | hlast := hlast
    · rw [World.available, available_of_none hpoints hlast]
      exact ⟨le_min hpos hnonneg, _, min_le_min le_rfl (by linarith), budget⟩
    · rw [World.available, available_of_some hpoints hlast]
      exact ⟨le_min hpos (add_nonneg hnonneg hrefill), _, le_rfl, budget⟩

namespace Metered

theorem init (hcapacity : 1 ≤ l.capacity) : Metered l .init :=
  .absent rfl (.nil (by exact_mod_cast zero_le_one.trans hcapacity) (l.rate_nonneg hcapacity) _)

variable (h : Metered l s)

include h

theorem tick (hcapacity : 1 ≤ l.capacity) (d : ℕ) : Metered l (s.step l (.tick d)) := by
  have hrate := l.rate_nonneg hcapacity
  have hpos : (0 : ℚ) ≤ l.capacity := by exact_mod_cast zero_le_one.trans hcapacity
  have hclock : (((s.step l (.tick d)).clock : ℕ) : ℚ) = s.clock + d := Nat.cast_add _ _
  have hlater : (s.clock : ℚ) ≤ (s.step l (.tick d)).clock :=
    Nat.cast_le.mpr (Nat.le_add_right s.clock d)
  have hdrip : 0 ≤ l.rate * d := mul_nonneg hrate (Nat.cast_nonneg d)
  cases h with
  | absent hcontent budget =>
    refine .absent hcontent (budget.advance hrate hlater hpos le_rfl ?_)
    rw [hclock, add_sub_cancel_left]
    linarith
  | holds v since hpoints hlast hnonneg hle hsince hdeadline budget =>
    have hrefill : 0 ≤ l.rate * ((s.clock : ℚ) - since) :=
      mul_nonneg hrate (sub_nonneg.mpr (Nat.cast_le.mpr hsince))
    refine .holds v since hpoints hlast hnonneg hle (hsince.trans (Nat.le_add_right _ _)) hdeadline
      (budget.advance hrate hlater ?_ (min_le_left _ _) ?_)
    · rw [hclock]
      exact le_min hpos (by linarith)
    · -- Refilling commutes with the cap, up to what is refilled.
      rw [hclock, add_sub_cancel_left, ← min_add_add_right]
      exact min_le_min (by linarith) (by linarith)

/-- **A check takes its cost from what is left.** -/
theorem check (hcapacity : 1 ≤ l.capacity) (cost : ℤ) : Metered l (s.step l (.check cost)) := by
  have hrate := l.rate_nonneg hcapacity
  obtain ⟨-, hcheck⟩ | ⟨-, -, hcheck⟩ | ⟨hcost, henough, hcheck⟩ := s.check_cases l cost
  · simp only [World.step, hcheck]
    exact h
  · simp only [World.step, hcheck]
    exact h
  · simp only [World.step, hcheck]
    obtain ⟨-, left, hleft, budget⟩ := h.available_le hcapacity
    have hcap : s.available l ≤ l.capacity := available_le_capacity
    have hcost' : (0 : ℚ) < cost := Int.cast_pos.mpr hcost
    have hcontent : ((s.key.put ⟨some (s.available l - cost), some (s.clock : ℤ)⟩).expireAt
        (lapse s.clock (ttlSeconds l.refillTimeUs))).content =
          ⟨some (s.available l - cost), some (s.clock : ℤ)⟩ := by
      rw [Cell.content_expireAt, Cell.content_put]
    refine .holds (s.available l - cost) s.clock ?_ (Or.inr ?_) (by linarith) (by linarith) le_rfl
      (fun t ht => ?_) ?_
    · rw [hcontent]
    · rw [hcontent]
    · rw [Cell.deadline_expireAt (by rw [Cell.content_put]; exact nofun)] at ht
      exact (Option.some.inj ht).le
    · rw [sub_self, mul_zero, add_zero, min_eq_right (by linarith)]
      change Budget _ _ _ _ (⟨(s.clock : ℚ), cost, ((0 : ℤ) : ℚ)⟩ :: _)
      refine budget.record hrate (by linarith) (by linarith) ?_
      rw [Int.cast_zero]
      linarith

theorem refund (hcapacity : 1 ≤ l.capacity) {r : ℤ} (hr : 0 ≤ r) :
    Metered l { s with log := ⟨s.clock, 0, r⟩ :: s.log } := by
  have hr' : (0 : ℚ) ≤ r := Int.cast_nonneg hr
  have hrecord {left : ℚ} (budget : Budget (l.capacity : ℚ) l.rate s.clock left
      (s.log.map Record.entry)) : Budget (l.capacity : ℚ) l.rate s.clock left
        (⟨(s.clock : ℚ), ((0 : ℤ) : ℚ), (r : ℚ)⟩ :: s.log.map Record.entry) := by
    refine budget.record (l.rate_nonneg hcapacity) budget.nonneg budget.le_capacity ?_
    rw [Int.cast_zero]
    linarith
  cases h with
  | absent hcontent budget => exact .absent hcontent (hrecord budget)
  | holds v since hpoints hlast hnonneg hle hsince hdeadline budget =>
    exact .holds v since hpoints hlast hnonneg hle hsince hdeadline (hrecord budget)

/-- **An adjustment adds no more than it refunds.** -/
theorem adjust (hcapacity : 1 ≤ l.capacity) (diff : ℤ) :
    Metered l { s with
      key := (s.key.put (adjusted l diff s.key.content)).expireAt
        (lapse s.clock (ttlSeconds l.refillTimeUs))
      log := ⟨s.clock, 0, max 0 diff⟩ :: s.log } := by
  have hrate := l.rate_nonneg hcapacity
  have hpos : (0 : ℚ) ≤ l.capacity := by exact_mod_cast zero_le_one.trans hcapacity
  have hcontent : ((s.key.put (adjusted l diff s.key.content)).expireAt
      (lapse s.clock (ttlSeconds l.refillTimeUs))).content = adjusted l diff s.key.content := by
    rw [Cell.content_expireAt, Cell.content_put]
  have hdeadline : ((s.key.put (adjusted l diff s.key.content)).expireAt
      (lapse s.clock (ttlSeconds l.refillTimeUs))).deadline =
        some (lapse s.clock (ttlSeconds l.refillTimeUs)) :=
    Cell.deadline_expireAt (by rw [Cell.content_put]; exact nofun) _
  have hgranted : (diff : ℚ) ≤ ((max 0 diff : ℤ) : ℚ) := Int.cast_le.mpr (le_max_right 0 diff)
  have hgrant : (0 : ℚ) ≤ ((max 0 diff : ℤ) : ℚ) := Int.cast_nonneg (le_max_left 0 diff)
  cases h with
  | absent hnone budget =>
    -- The key comes back, with the refund and no time.
    refine .holds (max 0 (min (l.capacity : ℚ) (0 + diff))) s.clock ?_ (Or.inl ?_) (le_max_left _ _)
      (max_le hpos (min_le_left _ _)) le_rfl (fun t ht => ?_) ?_
    · rw [hcontent, hnone]
      rfl
    · rw [hcontent, hnone]
      rfl
    · rw [hdeadline] at ht
      exact (Option.some.inj ht).le
    · have hle : max 0 (min (l.capacity : ℚ) (0 + diff)) ≤ l.capacity :=
        max_le hpos (min_le_left _ _)
      rw [sub_self, mul_zero, add_zero, min_eq_right hle]
      change Budget _ _ _ _ (⟨(s.clock : ℚ), ((0 : ℤ) : ℚ), ((max 0 diff : ℤ) : ℚ)⟩ :: _)
      refine budget.record hrate (le_max_left _ _) hle ?_
      rw [Int.cast_zero]
      linarith
  | holds v since hpoints hlast hnonneg hle hsince hdue budget =>
    have hrefill : 0 ≤ l.rate * ((s.clock : ℚ) - since) :=
      mul_nonneg hrate (sub_nonneg.mpr (Nat.cast_le.mpr hsince))
    have hless : max 0 (min (l.capacity : ℚ) (v + diff)) ≤ v + ((max 0 diff : ℤ) : ℚ) :=
      max_le (by linarith) ((min_le_right _ _).trans (by linarith))
    refine .holds (max 0 (min (l.capacity : ℚ) (v + diff))) since ?_ ?_ (le_max_left _ _)
      (max_le hpos (min_le_left _ _)) hsince (fun t ht => ?_) ?_
    · rw [hcontent, adjusted, hpoints, Option.getD_some]
    · rw [hcontent]
      exact hlast
    · rw [hdeadline] at ht
      rw [← Option.some.inj ht]
      exact lapse_mono hsince _
    · change Budget _ _ _ _ (⟨(s.clock : ℚ), ((0 : ℤ) : ℚ), ((max 0 diff : ℤ) : ℚ)⟩ :: _)
      refine budget.record hrate (le_min hpos (add_nonneg (le_max_left _ _) hrefill))
        (min_le_left _ _) ?_
      rw [Int.cast_zero, add_zero, ← min_add_add_right]
      exact min_le_min (by linarith) (by linarith)

theorem used (hcapacity : 1 ≤ l.capacity) (estimate actual : ℤ) :
    Metered l (s.step l (.used estimate actual)) := by
  obtain ⟨text, hused⟩ | ⟨rfl, hused⟩ | hused := pointsUsed_cases l estimate actual s.clock s.key
  · simp only [World.step, hused]
    exact h
  · simp only [World.step, hused]
    exact h.refund hcapacity (le_max_left _ _)
  · simp only [World.step, hused]
    exact h.adjust hcapacity _

/-- **When the key expires, the balance counts as full.** -/
theorem expire (hcapacity : 1 ≤ l.capacity) (hdue : s.key.Due (nowMs s.clock)) :
    Metered l (s.step l .expire) := by
  have hpos : (0 : ℚ) ≤ l.capacity := by exact_mod_cast zero_le_one.trans hcapacity
  cases h with
  | absent hcontent budget => exact .absent rfl budget
  | holds v since hpoints hlast hnonneg hle hsince hdeadline budget =>
    obtain ⟨t, ht, hnow⟩ := hdue
    have hover := add_span_le_of_lapse ((hdeadline t ht).trans hnow)
    have hrefilled := l.capacity_le_of_span hcapacity (show l.refillTimeUs ≤ (s.clock : ℤ) - since by
      omega)
    push_cast at hrefilled
    rw [min_eq_left (by linarith)] at budget
    exact .absent rfl budget

theorem step (hcapacity : 1 ≤ l.capacity) {e : Event}
    (he : (machine l).permits s e) : Metered l ((machine l).step s e) := by
  cases e with
  | tick d => exact h.tick hcapacity d
  | check cost => exact h.check hcapacity cost
  | used estimate actual => exact h.used hcapacity estimate actual
  | expire => exact h.expire hcapacity he

end Metered

/-- What the records of `[t₁, t₂]` come to. -/
def World.sum (s : World) (f : Record → ℤ) (t₁ t₂ : ℤ) : ℤ :=
  ((s.log.filter fun r => t₁ ≤ r.time ∧ r.time ≤ t₂).map f).sum

theorem total_entries {f : Record → ℤ} {g : Entry ℚ → ℚ} (hfg : ∀ r : Record, g r.entry = f r)
    (t₁ t₂ : ℤ) (s : World) :
    total g (t₁ : ℚ) t₂ (s.log.map Record.entry) = s.sum f t₁ t₂ := by
  unfold World.sum
  induction s.log with
  | nil => rfl
  | cons r rs ih =>
    have hin : ((t₁ : ℚ) ≤ r.entry.time ∧ r.entry.time ≤ t₂) ↔
        t₁ ≤ r.time ∧ (r.time : ℤ) ≤ t₂ := by
      change ((t₁ : ℚ) ≤ (r.time : ℚ) ∧ (r.time : ℚ) ≤ t₂) ↔ _
      norm_cast
    rw [List.map_cons, total_cons, ih, hfg]
    by_cases hr : t₁ ≤ r.time ∧ (r.time : ℤ) ≤ t₂
    · rw [if_pos (hin.mpr hr), List.filter_cons_of_pos (by simpa using hr), List.map_cons,
        List.sum_cons, Int.cast_add]
    · rw [if_neg (mt hin.mp hr), List.filter_cons_of_neg (by simpa using hr), zero_add]

/-- **The points budget.** After every run, the stored balance is between zero and the capacity, and
the cost admitted in an interval is at most the capacity, what is refilled in it, and the refunds
granted in it. -/
theorem points_budget (l : PointsLimiter) (hcapacity : 1 ≤ l.capacity) {es : List Event}
    (legal : (machine l).Legal .init es) :
    (∀ v, ((machine l).run .init es).key.content.points = some v → 0 ≤ v ∧ v ≤ l.capacity) ∧
    ∀ t₁ t₂ : ℤ, t₁ ≤ t₂ → (((machine l).run .init es).sum Record.cost t₁ t₂ : ℚ) ≤
      l.capacity + l.capacity * (t₂ - t₁) / l.refillTimeUs +
        ((machine l).run .init es).sum Record.refund t₁ t₂ := by
  have h : Metered l ((machine l).run .init es) :=
    legal.invariant (fun _ _ h he => h.step hcapacity he) (.init hcapacity)
  constructor
  · intro v hv
    cases h with
    | absent hcontent budget =>
      rw [hcontent] at hv
      cases hv
    | holds v' since hpoints hlast hnonneg hle hsince hdeadline budget =>
      obtain rfl := Option.some.inj (hpoints.symm.trans hv)
      exact ⟨hnonneg, hle⟩
  · intro t₁ t₂ ht
    obtain ⟨-, left, -, budget⟩ := h.available_le hcapacity
    have hspent := budget.spent_le t₁ t₂ (Int.cast_le.mpr ht)
    rw [@total_entries Record.cost _ (fun _ => rfl), @total_entries Record.refund _ (fun _ => rfl),
      PointsLimiter.rate, div_mul_eq_mul_div] at hspent
    exact hspent

/-- Ten points, refilled in ten microseconds. A job takes eight, needs only two of them, and its
refund lets the next one in; the key expires, and a late report brings it back. -/
def reported : List Event :=
  [.check 8, .check 4, .used 8 2, .check 4, .tick 1002000, .expire, .used 4 7, .check 1]

theorem reported_within_budget :
    (machine ⟨"p", 10, 10000⟩).Legal .init reported ∧
      ((machine ⟨"p", 10, 10000⟩).run .init reported).key.content = ⟨some 0, none⟩ ∧
      ((machine ⟨"p", 10, 10000⟩).run .init reported).sum Record.cost 0 0 = 12 ∧
      (((machine ⟨"p", 10, 10000⟩).run .init reported).sum Record.cost 0 0 : ℚ) ≤
        10 + 10 * (0 - 0) / 10 +
          ((machine ⟨"p", 10, 10000⟩).run .init reported).sum Record.refund 0 0 := by
  have hlegal : (machine ⟨"p", 10, 10000⟩).Legal .init reported := by decide +kernel
  have hspan : (PointsLimiter.mk "p" 10 10000).refillTimeUs = 10 := by decide
  have hbudget := (points_budget ⟨"p", 10, 10000⟩ (by decide) hlegal).2 0 0 le_rfl
  rw [hspan] at hbudget
  exact ⟨hlegal, by decide +kernel, by decide +kernel, by exact_mod_cast hbudget⟩

end Senna.Ratelimit.Points
