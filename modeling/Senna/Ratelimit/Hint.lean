import Senna.Ratelimit.Bucket
import Senna.Ratelimit.Leaky
import Senna.Ratelimit.Points
import Senna.Ratelimit.Window

/-!
# The retry hints

A call that is refused is told how long to wait. **The hint is exact**: the same call is refused
until then, and at that time it is admitted, if no other call comes in between (`Exact`). What else
may happen in between is not excluded: time passes, keys expire, and `Remaining` prunes the set of
the window limiter.

The four limiters compute their hints in four ways, and each inverts its own test.

* The bucket limiter waits for the end of the aligned window. The counter of the next one does not
  exist.
* The window limiter waits until its oldest member has left the window. The set has no more than
  `limit` members, so one less is enough; members with equal scores leave together.
* The leaky bucket drains at its rate, so the wait is what is too much divided by the rate, rounded
  up to microseconds.
* The balance of the points limiter is refilled at its rate, so the wait is what is missing divided
  by the rate. That is so as long as every balance was written by a check: one that was written by
  an adjustment after the key has expired has no time, and is not refilled.

All four follow from one rule, `Exact.of_iff`: find what stays true as long as nobody calls, and
show that then the call is admitted from the hinted time on.
-/

namespace Senna.Ratelimit

open Redis Metering

/-! ### Exact hints -/

section Exact

variable {σ α : Type}

/-- From a state in which a call was just refused, in every run without calls: the call is refused
until `wait` is over, and admitted at that time. -/
structure Exact (M : Machine σ α) (clock : σ → ℕ) (Calls : α → Prop) (Admits : σ → Prop) (s : σ)
    (wait : ℤ) : Prop where
  pos : 0 < wait
  refused : ∀ es, M.Legal s es → (∀ e ∈ es, ¬ Calls e) →
    (clock (M.run s es) : ℤ) < clock s + wait → ¬ Admits (M.run s es)
  admitted : ∀ es, M.Legal s es → (∀ e ∈ es, ¬ Calls e) →
    (clock (M.run s es) : ℤ) = clock s + wait → Admits (M.run s es)

variable {M : Machine σ α} {clock : σ → ℕ} {Calls : α → Prop} {Admits : σ → Prop} {s : σ} {wait : ℤ}

/-- **The rule.** Something stays true while nobody calls, and with it the call is admitted from the
hinted time on. -/
theorem Exact.of_iff {I : σ → Prop} (hpos : 0 < wait) (hinit : I s)
    (hstep : ∀ u e, I u → M.permits u e → ¬ Calls e → I (M.step u e))
    (hiff : ∀ u, I u → (Admits u ↔ (clock s : ℤ) + wait ≤ clock u)) :
    Exact M clock Calls Admits s wait := by
  have hidle {es : List α} (legal : M.Legal s es) (hquiet : ∀ e ∈ es, ¬ Calls e) :
      I (M.run s es) :=
    legal.invariant_throughout (P := fun _ e => ¬ Calls e) hstep (M.throughout_of_forall s hquiet)
      hinit
  refine ⟨hpos, fun es legal hquiet hlt hadmits => ?_, fun es legal hquiet heq => ?_⟩
  · exact absurd ((hiff _ (hidle legal hquiet)).mp hadmits) hlt.not_ge
  · exact (hiff _ (hidle legal hquiet)).mpr heq.ge

end Exact

/-! ### The bucket limiter -/

namespace Bucket

variable {l : BucketLimiter}

theorem separates_bucketTs (l : BucketLimiter) :
    Separates l (bucketTs l.windowUs) (fun _ => True) where
  lower := fun _ _ => trivial
  same := id
  inj := fun _ _ => id

theorem admits_iff {s : World ℤ} (h : Counted l (bucketTs l.windowUs) (fun _ => True) s) :
    (s.call l (bucketTs l.windowUs)).1.1 = 1 ↔ (s.count l : ℤ) < l.limit := by
  have hcurrent := h.current trivial
  rw [← hcurrent]
  obtain ⟨hfull, hreply, -⟩ | ⟨hroom, hreply, -⟩ := s.call_cases l (bucketTs l.windowUs)
  · rw [hreply]
    exact ⟨fun hone => absurd hone (show (0 : ℤ) ≠ 1 by decide), fun hlt => absurd hfull hlt.not_ge⟩
  · rw [hreply]
    exact ⟨fun _ => hroom, fun _ => rfl⟩

theorem exact_hint (hlimit : 1 ≤ l.limit) {s : World ℤ}
    (h : Counted l (bucketTs l.windowUs) (fun _ => True) s)
    (hrefused : (s.call l (bucketTs l.windowUs)).1.1 ≠ 1) :
    Exact (machine l (bucketTs l.windowUs)) World.clock (· = .call)
      (fun u => (u.call l (bucketTs l.windowUs)).1.1 = 1)
      (s.step l (bucketTs l.windowUs) .call) (s.call l (bucketTs l.windowUs)).1.2.2 := by
  have hkey := separates_bucketTs l
  have hfull := not_lt.mp (mt (admits_iff h).mpr hrefused)
  obtain ⟨-, hreply, -⟩ | ⟨-, hreply, -⟩ := s.call_cases l (bucketTs l.windowUs)
  swap
  · exact absurd (congrArg (·.1) hreply) hrefused
  have hadmitted : (s.step l (bucketTs l.windowUs) .call).admitted = s.admitted := if_neg hrefused
  have hend := lt_bucketTs_add l.windowUs_pos s.clock
  have hwait : (s.call l (bucketTs l.windowUs)).1.2.2 =
      bucketTs l.windowUs s.clock + l.windowUs - s.clock := congrArg (·.2.2) hreply
  refine .of_iff (I := fun u => Counted l (bucketTs l.windowUs) (fun _ => True) u ∧
    s.clock ≤ u.clock ∧ u.admitted = s.admitted) ?_ ⟨h.call hkey, le_rfl, hadmitted⟩ ?_ ?_
  · rw [hwait]
    omega
  · rintro u e ⟨hu, hle, hsame⟩ he hcalls
    refine ⟨hu.step hkey he, ?_⟩
    cases e with
    | tick d => exact ⟨hle.trans (Nat.le_add_right _ _), hsame⟩
    | call => exact absurd rfl hcalls
    | expire k => exact ⟨hle, hsame⟩
  · rintro u ⟨hu, hle, hsame⟩
    change _ ↔ (s.clock : ℤ) + (s.call l (bucketTs l.windowUs)).1.2.2 ≤ u.clock
    rw [admits_iff hu, hwait, add_sub_cancel]
    constructor
    · -- In the same window the count is the same.
      intro hroom
      by_contra hlt
      have hwindow := bucketTs_eq l.windowUs_pos hle (not_le.mp hlt)
      have hcount : u.count l = s.count l := by
        unfold World.count
        rw [hsame, hwindow]
      rw [hcount] at hroom
      exact absurd hfull hroom.not_ge
    · -- In a later window nothing was admitted yet.
      intro hover
      have hlater : bucketTs l.windowUs s.clock < bucketTs l.windowUs u.clock := by
        have hstart := lt_bucketTs_add l.windowUs_pos u.clock
        by_contra hge
        have hmono := bucketTs_mono l.windowUs_pos hle
        omega
      have hzero := h.count_eq_zero hlater
      have hcount : u.count l = 0 := by
        rw [← hzero]
        unfold World.count
        rw [hsame]
      rw [hcount]
      exact_mod_cast hlimit

end Bucket

/-! ### The leaky bucket -/

namespace Leaky

variable {l : LeakyLimiter} {s : World}

theorem LeakyLimiter.rate_pos (hcapacity : 1 ≤ l.capacity) : 0 < l.rate := by
  have hspan := spanUs_pos l.drainTime
  unfold rate drainTimeUs
  positivity

theorem waitTimeUs_eq (l : LeakyLimiter) (level : ℚ) :
    waitTimeUs l.capacity l.drainTimeUs level = ⌈(level + 1 - l.capacity) / l.rate⌉ := by
  rw [waitTimeUs, LeakyLimiter.rate, div_div_eq_mul_div]

/-- While nobody calls, the bucket drains from the level it had. -/
structure Draining (l : LeakyLimiter) (s u : World) : Prop where
  stored : Stored l u
  clock : s.clock ≤ u.clock
  level : u.level l = max 0 (s.level l - l.rate * (u.clock - s.clock))

theorem Draining.step (hcapacity : 1 ≤ l.capacity) {u : World} (h : Draining l s u) {e : Event}
    (he : (machine l).permits u e) (hcalls : e ≠ .call) : Draining l s ((machine l).step u e) := by
  cases e with
  | tick d =>
    have hdrip : 0 ≤ l.rate * d := mul_nonneg (l.rate_nonneg hcapacity) (Nat.cast_nonneg d)
    refine ⟨h.stored.tick d, h.clock.trans (Nat.le_add_right _ _), ?_⟩
    have hclock : ((((machine l).step u (.tick d)).clock : ℕ) : ℚ) = u.clock + d := Nat.cast_add _ _
    change (u.step l (.tick d)).level l = _
    rw [h.stored.level_tick hcapacity d, h.level, max_zero_max_zero_sub hdrip, hclock]
    congr 1
    ring
  | call => exact absurd rfl hcalls
  | expire =>
    refine ⟨.absent rfl, h.clock, ?_⟩
    have hempty := h.stored.drained_of_due hcapacity he
    have hgone : ((machine l).step u .expire).level l = 0 := level_default
    exact hgone.trans (hempty.symm.trans h.level)

theorem exact_hint (hcapacity : 1 ≤ l.capacity) (hstored : Stored l s)
    (hrefused : (s.call l).1.1 ≠ 1) :
    Exact (machine l) World.clock (· = .call) (fun u => (u.call l).1.1 = 1) (s.step l .call)
      (s.call l).1.2.2 := by
  have hrate := LeakyLimiter.rate_pos hcapacity
  have hcap : (1 : ℚ) ≤ l.capacity := by exact_mod_cast hcapacity
  obtain ⟨hfull, hcall⟩ | ⟨-, hcall⟩ := s.call_cases l
  swap
  · exact absurd (congrArg (·.1.1) hcall) hrefused
  have hwait : (s.call l).1.2.2 = ⌈(s.level l + 1 - l.capacity) / l.rate⌉ := by
    rw [hcall]
    exact waitTimeUs_eq l _
  -- The refused call has changed nothing.
  have hsame : s.step l .call = s := by
    have hstep : s.step l .call = { s with
        key := (s.call l).2
        admitted := if (s.call l).1.1 = 1 then s.clock :: s.admitted else s.admitted } := rfl
    rw [hstep, if_neg hrefused, hcall]
  rw [hsame, hwait]
  refine .of_iff (I := Draining l s) ?_ ⟨hstored, le_rfl, ?_⟩
    (fun u e hu he hcalls => hu.step hcapacity he hcalls) fun u hu => ?_
  · exact Int.ceil_pos.mpr (div_pos (by linarith) hrate)
  · rw [sub_self, mul_zero, sub_zero]
    exact (max_eq_right level_nonneg).symm
  · -- The call is refused as long as what has drained is less than what was too much.
    have hlater : (u.call l).1.1 = 1 ↔ u.level l + 1 ≤ l.capacity := by
      obtain ⟨hover, hcall'⟩ | ⟨hroom, hcall'⟩ := u.call_cases l
      · rw [hcall']
        exact ⟨fun hone => absurd hone (show (0 : ℤ) ≠ 1 by decide),
          fun hle => absurd hover hle.not_gt⟩
      · rw [hcall']
        exact ⟨fun _ => hroom, fun _ => rfl⟩
    have hdeficit : u.level l + 1 ≤ l.capacity ↔
        s.level l + 1 - l.capacity ≤ l.rate * ((u.clock - s.clock : ℤ) : ℚ) := by
      rw [hu.level]
      push_cast
      constructor
      · intro hroom
        have hle := le_max_right 0 (s.level l - l.rate * (u.clock - s.clock))
        linarith
      · intro hdrained
        have hmax : max 0 (s.level l - l.rate * (u.clock - s.clock)) ≤ l.capacity - 1 :=
          max_le (by linarith) (by linarith)
        linarith
    rw [hlater, hdeficit, ← not_lt, ← lt_ceil_div_iff hrate, not_lt]
    exact ⟨fun h => by linarith, fun h => by linarith⟩

end Leaky

/-! ### The points limiter -/

namespace Points

variable {l : PointsLimiter} {s : World}

theorem PointsLimiter.rate_pos (hcapacity : 1 ≤ l.capacity) : 0 < l.rate := by
  have hspan := spanUs_pos l.refillTime
  unfold rate refillTimeUs
  positivity

theorem waitTimeUs_eq (l : PointsLimiter) (cost : ℤ) (points : ℚ) :
    waitTimeUs l.capacity l.refillTimeUs cost points = ⌈(cost - points) / l.rate⌉ := by
  rw [waitTimeUs, PointsLimiter.rate, div_div_eq_mul_div]

def Event.Calls : Event → Prop
  | .check _ | .used _ _ => True
  | _ => False

/-- Every balance was written by a check: the key does not exist, or it holds a balance with its
time, at which its lifetime started. -/
inductive Checked (l : PointsLimiter) (s : World) : Prop where
  | absent (h : s.key.content = default)
  | holds (v : ℚ) (last : ℕ) (hpoints : s.key.content.points = some v)
      (hlast : s.key.content.lastRefill = some (last : ℤ)) (hnonneg : 0 ≤ v) (hle : last ≤ s.clock)
      (hdeadline : ∀ t ∈ s.key.deadline, lapse last (ttlSeconds l.refillTimeUs) ≤ t)

namespace Checked

/-- **Time passes, and the balance is refilled at its rate** up to the capacity. -/
theorem available_tick (h : Checked l s) (hcapacity : 1 ≤ l.capacity) (d : ℕ) :
    (s.step l (.tick d)).available l = min (l.capacity : ℚ) (s.available l + l.rate * d) := by
  have hdrip : 0 ≤ l.rate * d := mul_nonneg (l.rate_nonneg hcapacity) (Nat.cast_nonneg d)
  cases h with
  | absent h =>
    change available _ _ _ s.key.content = _
    rw [World.available, h, available_default, available_default, min_eq_left (by linarith)]
  | holds v last hpoints hlast hnonneg hle hdeadline =>
    have hnow : s.available l = min (l.capacity : ℚ) (v + l.rate * (s.clock - last)) := by
      rw [World.available, available_of_some hpoints hlast, PointsLimiter.rate]
    have hlater : (s.step l (.tick d)).available l =
        min (l.capacity : ℚ) (v + l.rate * (s.clock - last) + l.rate * d) := by
      change available _ _ (s.clock + d) s.key.content = _
      rw [available_of_some hpoints hlast, PointsLimiter.rate]
      congr 1
      push_cast
      ring
    rw [hlater, hnow, min_min_add hdrip]

/-- **When the key expires, the balance has been refilled.** -/
theorem full_of_due (h : Checked l s) (hcapacity : 1 ≤ l.capacity)
    (hdue : s.key.Due (nowMs s.clock)) : s.available l = l.capacity := by
  cases h with
  | absent h => rw [World.available, h, available_default]
  | holds v last hpoints hlast hnonneg hle hdeadline =>
    rw [World.available, available_of_some hpoints hlast]
    obtain ⟨t, ht, hnow⟩ := hdue
    have hover := add_span_le_of_lapse ((hdeadline t ht).trans hnow)
    have hrefilled := l.capacity_le_of_span hcapacity (show l.refillTimeUs ≤ (s.clock : ℤ) - last by
      omega)
    push_cast at hrefilled
    change min (l.capacity : ℚ) (v + l.rate * _) = _
    exact min_eq_left (by linarith)

theorem step (h : Checked l s) {e : Event} (hused : ∀ estimate actual, e ≠ .used estimate actual) :
    Checked l ((machine l).step s e) := by
  cases e with
  | tick d =>
    cases h with
    | absent h => exact .absent h
    | holds v last hpoints hlast hnonneg hle hdeadline =>
      exact .holds v last hpoints hlast hnonneg (hle.trans (Nat.le_add_right _ _)) hdeadline
  | check cost =>
    change Checked l (s.step l (.check cost))
    obtain ⟨-, hcheck⟩ | ⟨-, -, hcheck⟩ | ⟨-, henough, hcheck⟩ := s.check_cases l cost
    · simp only [World.step, hcheck]
      exact h
    · simp only [World.step, hcheck]
      exact h
    · simp only [World.step, hcheck]
      refine .holds (s.available l - cost) s.clock ?_ ?_ (by linarith) le_rfl fun t ht => ?_
      · rw [Cell.content_expireAt, Cell.content_put]
      · rw [Cell.content_expireAt, Cell.content_put]
      · rw [Cell.deadline_expireAt (by rw [Cell.content_put]; rintro ⟨⟩)] at ht
        exact (Option.some.inj ht).le
  | used estimate actual => exact absurd rfl (hused estimate actual)
  | expire => exact .absent rfl

end Checked

/-- While nobody calls, the balance is refilled from what it was. -/
structure Refilling (l : PointsLimiter) (s u : World) : Prop where
  checked : Checked l u
  clock : s.clock ≤ u.clock
  available : u.available l = min (l.capacity : ℚ) (s.available l + l.rate * (u.clock - s.clock))

theorem Refilling.step (hcapacity : 1 ≤ l.capacity) {u : World} (h : Refilling l s u) {e : Event}
    (he : (machine l).permits u e) (hcalls : ¬ e.Calls) :
    Refilling l s ((machine l).step u e) := by
  refine ⟨h.checked.step ?_, ?_, ?_⟩
  · rintro estimate actual rfl
    exact hcalls trivial
  · cases e with
    | tick d => exact h.clock.trans (Nat.le_add_right _ _)
    | expire => exact h.clock
    | _ => exact absurd trivial hcalls
  · cases e with
    | tick d =>
      have hdrip : 0 ≤ l.rate * d := mul_nonneg (l.rate_nonneg hcapacity) (Nat.cast_nonneg d)
      have hclock : ((((machine l).step u (.tick d)).clock : ℕ) : ℚ) = u.clock + d :=
        Nat.cast_add _ _
      change (u.step l (.tick d)).available l = _
      rw [h.checked.available_tick hcapacity d, h.available, min_min_add hdrip, hclock]
      congr 1
      ring
    | expire =>
      have hfull := h.checked.full_of_due hcapacity he
      have hgone : ((machine l).step u .expire).available l = l.capacity := available_default
      exact hgone.trans (hfull.symm.trans h.available)
    | _ => exact absurd trivial hcalls

theorem exact_hint {cost : ℤ} (hcost : cost ≤ l.capacity) (hchecked : Checked l s) {points : ℚ}
    {wait : ℤ} (hrefused : (s.check l cost).1 = .ok (0, points, wait)) :
    Exact (machine l) World.clock Event.Calls (fun u => ∃ left, (u.check l cost).1 = .ok (1, left, 0))
      (s.step l (.check cost)) wait := by
  obtain ⟨-, hcheck⟩ | ⟨hpos, hlow, hcheck⟩ | ⟨-, -, hcheck⟩ := s.check_cases l cost
  · rw [hcheck] at hrefused
    cases hrefused
  swap
  · rw [hcheck] at hrefused
    cases hrefused
  have hcapacity : 1 ≤ l.capacity := by omega
  have hrate := PointsLimiter.rate_pos hcapacity
  have hcap : (cost : ℚ) ≤ l.capacity := by exact_mod_cast hcost
  have hwait : wait = ⌈(cost - s.available l) / l.rate⌉ := by
    rw [hcheck] at hrefused
    cases hrefused
    exact waitTimeUs_eq l _ _
  -- The refused check has changed nothing.
  have hsame : s.step l (.check cost) = s := by simp only [World.step, hcheck]
  rw [hsame, hwait]
  refine .of_iff (I := Refilling l s) ?_ ⟨hchecked, le_rfl, ?_⟩
    (fun u e hu he hcalls => hu.step hcapacity he hcalls) fun u hu => ?_
  · exact Int.ceil_pos.mpr (div_pos (by linarith) hrate)
  · rw [sub_self, mul_zero, add_zero]
    exact (min_eq_right available_le_capacity).symm
  · -- The check is refused as long as what was refilled is less than what was missing.
    have hlater : (∃ left, (u.check l cost).1 = .ok (1, left, 0)) ↔ cost ≤ u.available l := by
      obtain ⟨hnot, -⟩ | ⟨-, hlow', hcheck'⟩ | ⟨-, henough, hcheck'⟩ := u.check_cases l cost
      · omega
      · rw [hcheck']
        constructor
        · rintro ⟨left, ⟨⟩⟩
        · exact fun hle => absurd hlow' hle.not_gt
      · rw [hcheck']
        exact ⟨fun _ => henough, fun _ => ⟨_, rfl⟩⟩
    have hdeficit : (cost : ℚ) ≤ u.available l ↔
        cost - s.available l ≤ l.rate * ((u.clock - s.clock : ℤ) : ℚ) := by
      rw [hu.available, le_min_iff]
      push_cast
      exact ⟨fun h => by linarith [h.2], fun h => ⟨hcap, by linarith⟩⟩
    rw [hlater, hdeficit, ← not_lt, ← lt_ceil_div_iff hrate, not_lt]
    exact ⟨fun h => by linarith, fun h => by linarith⟩

end Points

/-! ### The window limiter -/

namespace Window

variable {l : WindowLimiter} {s : World}

def World.recent (l : WindowLimiter) (s : World) : List Admission :=
  s.admitted.filter fun a => (s.clock : ℤ) - l.windowUs < a.time

theorem admits_iff (h : Faithful l s) (member : String) :
    (s.call l member).1.1 = 1 ↔ ((s.recent l).length : ℤ) < l.limit := by
  have hcount : (kept l.windowUs s.clock s.key).length = (s.recent l).length := h.count_eq
  rw [← hcount]
  obtain ⟨hfull, wait, -, -, hcall⟩ | ⟨hroom, hcall⟩ := s.call_cases l member
  · rw [hcall]
    exact ⟨fun hone => absurd hone (show (0 : ℤ) ≠ 1 by decide), fun hlt => absurd hfull hlt.not_ge⟩
  · rw [hcall]
    exact ⟨fun _ => hroom, fun _ => rfl⟩

theorem Faithful.recent_le (h : Faithful l s) (hlimit : 0 ≤ l.limit) :
    ((s.recent l).length : ℤ) ≤ l.limit := by
  have hle := h.sparse.length_filter_le hlimit
    (S := fun t => (s.clock : ℤ) - l.windowUs < t ∧ t ≤ s.clock) (by omega)
  rw [List.filter_map, List.length_map] at hle
  have hsame : s.recent l = s.admitted.filter ((fun t : ℤ =>
      decide ((s.clock : ℤ) - l.windowUs < t ∧ t ≤ s.clock)) ∘ fun a => (a.time : ℤ)) := by
    refine List.filter_congr fun a ha => ?_
    have hpast := h.past a ha
    simp [hpast]
  rw [hsame]
  exact hle

/-- **The hint is the time that the oldest member has left in the window.** -/
theorem wait_eq (hlimit : 1 ≤ l.limit) (h : Faithful l s) {member : String}
    (hrefused : (s.call l member).1.1 ≠ 1) :
    ∃ oldest ∈ s.recent l, (∀ a ∈ s.recent l, oldest.time ≤ a.time) ∧
      (s.call l member).1.2.2 = oldest.time + l.windowUs - s.clock ∧
      (s.call l member).2 = s.key.put (kept l.windowUs s.clock s.key) := by
  have hfull := not_lt.mp (mt (admits_iff h member).mpr hrefused)
  have hcount : (kept l.windowUs s.clock s.key).length = (s.recent l).length := h.count_eq
  rw [← hcount] at hfull
  cases hfirst : zfirst (kept l.windowUs s.clock s.key) with
  | none =>
    -- The set is not empty.
    have hnil : (kept l.windowUs s.clock s.key).insertionSort zle = [] :=
      List.head?_eq_none_iff.mp hfirst
    have hlength := List.length_insertionSort zle (kept l.windowUs s.clock s.key)
    rw [hnil, List.length_nil] at hlength
    rw [← hlength] at hfull
    exact absurd (hlimit.trans hfull) (by decide)
  | some e =>
    obtain ⟨hmem, hscore⟩ := List.mem_filter.mp (mem_of_zfirst hfirst)
    obtain ⟨oldest, holdest, rfl⟩ := List.mem_map.mp (h.stored hmem)
    have hin : (s.clock : ℤ) - l.windowUs < oldest.time := of_decide_eq_true hscore
    refine ⟨oldest, List.mem_filter.mpr ⟨holdest, decide_eq_true hin⟩, fun a ha => ?_, ?_⟩
    · obtain ⟨hadmitted, hrecent⟩ := List.mem_filter.mp ha
      have hkept : a.entry ∈ kept l.windowUs s.clock s.key :=
        List.mem_filter.mpr ⟨h.recent a hadmitted (of_decide_eq_true hrecent), hrecent⟩
      exact Int.ofNat_le.mp (zfirst_le hfirst _ hkept)
    · have hpos : ¬ (oldest.time : ℤ) + l.windowUs - s.clock < 0 := by omega
      simp only [World.call, window, nowUs_eq, Cell.content_put]
      rw [show zremrange s.key.content (s.clock - l.windowUs) = kept l.windowUs s.clock s.key from
        rfl, if_pos hfull, hfirst]
      exact ⟨if_neg hpos, rfl⟩

theorem exact_hint (hlimit : 1 ≤ l.limit) (h : Faithful l s) {member : String}
    (hrefused : (s.call l member).1.1 ≠ 1) (member' : String) :
    Exact (machine l) World.clock (fun e => ∃ m, e = .call m) (fun u => (u.call l member').1.1 = 1)
      (s.step l (.call member)) (s.call l member).1.2.2 := by
  obtain ⟨oldest, holdest, hmin, hwait, hkey⟩ := wait_eq hlimit h hrefused
  have hin : (s.clock : ℤ) - l.windowUs < oldest.time :=
    of_decide_eq_true (List.mem_filter.mp holdest).2
  have hfull := not_lt.mp (mt (admits_iff h member).mpr hrefused)
  have hstep : s.step l (.call member) =
      { s with key := s.key.put (kept l.windowUs s.clock s.key) } := by
    rw [World.step_call, if_neg hrefused, hkey]
  rw [hstep, hwait]
  refine .of_iff (I := fun u => Faithful l u ∧ s.clock ≤ u.clock ∧ u.admitted = s.admitted) (by omega)
    ⟨h.prune le_rfl, le_rfl, rfl⟩ ?_ ?_
  · rintro u e ⟨hu, hle, hsame⟩ he hcalls
    refine ⟨hu.step he, ?_⟩
    cases e with
    | tick d => exact ⟨hle.trans (Nat.le_add_right _ _), hsame⟩
    | call m => exact absurd ⟨m, rfl⟩ hcalls
    | readTime | prune bound | expire => exact ⟨hle, hsame⟩
  · rintro u ⟨hu, hle, hsame⟩
    change _ ↔ (s.clock : ℤ) + (oldest.time + l.windowUs - s.clock) ≤ u.clock
    rw [admits_iff hu, add_sub_cancel]
    constructor
    · -- Until the oldest leaves, all that counted still counts.
      intro hroom
      by_contra hlt
      have hsub : (s.recent l).length ≤ (u.recent l).length := by
        unfold World.recent
        rw [hsame, ← List.countP_eq_length_filter, ← List.countP_eq_length_filter]
        refine List.countP_mono_left fun a ha hrecent => decide_eq_true ?_
        have hlater := hmin a (List.mem_filter.mpr ⟨ha, hrecent⟩)
        omega
      exact absurd (hfull.trans (Int.ofNat_le.mpr hsub)) hroom.not_ge
    · -- Then it is one of those that counted and do not count any more.
      intro hover
      have hrest : u.recent l =
          (s.recent l).filter fun a => (u.clock : ℤ) - l.windowUs < a.time := by
        unfold World.recent
        rw [hsame, List.filter_filter]
        refine List.filter_congr fun a _ => ?_
        rw [← Bool.decide_and]
        exact decide_eq_decide.mpr ⟨fun h => ⟨h, by omega⟩, fun h => h.1⟩
      have hless : (u.recent l).length < (s.recent l).length := by
        rw [hrest]
        refine List.length_filter_lt_length_iff_exists.mpr ⟨oldest, holdest, ?_⟩
        rw [decide_eq_true_iff]
        omega
      have hmax := h.recent_le (zero_le_one.trans hlimit)
      omega

end Window

/-! ### All four -/

/-- **Retry hints are exact.** In every state that a limiter gets into, if a call is refused with a
hint, the hint is positive, the call is refused until then and admitted at that time, if there is no
other call. For the points limiter that is so for a cost that is not more than the capacity, after
runs without adjustments. -/
theorem retry_hints_exact :
    (∀ (l : Bucket.BucketLimiter) (es : List (Bucket.Event ℤ)), 1 ≤ l.limit →
      (Bucket.machine l (Bucket.bucketTs l.windowUs)).Legal .init es →
      let s := (Bucket.machine l (Bucket.bucketTs l.windowUs)).run .init es
      (s.call l (Bucket.bucketTs l.windowUs)).1.1 ≠ 1 →
      Exact (Bucket.machine l (Bucket.bucketTs l.windowUs)) Bucket.World.clock (· = .call)
        (fun u => (u.call l (Bucket.bucketTs l.windowUs)).1.1 = 1)
        (s.step l (Bucket.bucketTs l.windowUs) .call)
        (s.call l (Bucket.bucketTs l.windowUs)).1.2.2) ∧
    (∀ (l : Window.WindowLimiter) (es : List Window.Event), 1 ≤ l.limit →
      (Window.machine l).Legal .init es →
      let s := (Window.machine l).run .init es
      ∀ member, (s.call l member).1.1 ≠ 1 → ∀ member',
      Exact (Window.machine l) Window.World.clock (fun e => ∃ m, e = .call m)
        (fun u => (u.call l member').1.1 = 1) (s.step l (.call member))
        (s.call l member).1.2.2) ∧
    (∀ (l : Leaky.LeakyLimiter) (es : List Leaky.Event), 1 ≤ l.capacity →
      (Leaky.machine l).Legal .init es →
      let s := (Leaky.machine l).run .init es
      (s.call l).1.1 ≠ 1 →
      Exact (Leaky.machine l) Leaky.World.clock (· = .call) (fun u => (u.call l).1.1 = 1)
        (s.step l .call) (s.call l).1.2.2) ∧
    (∀ (l : Points.PointsLimiter) (es : List Points.Event) (cost : ℤ), cost ≤ l.capacity →
      (∀ e ∈ es, ∀ estimate actual, e ≠ .used estimate actual) →
      let s := (Points.machine l).run .init es
      ∀ points wait, (s.check l cost).1 = .ok (0, points, wait) →
      Exact (Points.machine l) Points.World.clock Points.Event.Calls
        (fun u => ∃ left, (u.check l cost).1 = .ok (1, left, 0)) (s.step l (.check cost)) wait) := by
  refine ⟨?_, ?_, ?_, ?_⟩
  · intro l es hlimit legal s hrefused
    have hkey := Bucket.separates_bucketTs l
    exact Bucket.exact_hint hlimit (legal.invariant (fun _ _ h he => h.step hkey he) .init) hrefused
  · intro l es hlimit legal s member hrefused member'
    exact Window.exact_hint hlimit (legal.invariant (fun _ _ h he => h.step he) (.init l)) hrefused _
  · intro l es hcapacity legal s hrefused
    have hmetered : Leaky.Metered l s :=
      legal.invariant (fun _ _ h he => h.step hcapacity he) (.init hcapacity)
    exact Leaky.exact_hint hcapacity hmetered.stored hrefused
  · intro l es cost hcost hchecks s points wait hrefused
    have hchecked : Points.Checked l s :=
      ((Points.machine l).throughout_of_forall .init hchecks).invariant
        (fun _ _ h he => h.step he) (.absent rfl)
    exact Points.exact_hint hcost hchecked hrefused

def rareBucket : Bucket.BucketLimiter := ⟨1, 2000⟩

def rareWindow : Window.WindowLimiter := ⟨1, 2000⟩

def slowBucket : Leaky.LeakyLimiter := ⟨2, 3000⟩

def tenPoints : Points.PointsLimiter := ⟨"p", 10, 10000⟩

theorem refused_calls_wait :
    Exact (Bucket.machine rareBucket (Bucket.bucketTs rareBucket.windowUs)) Bucket.World.clock
      (· = .call) (fun u => (u.call rareBucket (Bucket.bucketTs rareBucket.windowUs)).1.1 = 1)
      ((Bucket.machine rareBucket (Bucket.bucketTs rareBucket.windowUs)).run .init [.call, .call])
      2 ∧
    Exact (Window.machine rareWindow) Window.World.clock (fun e => ∃ m, e = .call m)
      (fun u => (u.call rareWindow "c").1.1 = 1)
      ((Window.machine rareWindow).run .init [.call "a", .call "b"]) 2 ∧
    Exact (Leaky.machine slowBucket) Leaky.World.clock (· = .call)
      (fun u => (u.call slowBucket).1.1 = 1)
      ((Leaky.machine slowBucket).run .init [.call, .call, .call]) 2 ∧
    Exact (Points.machine tenPoints) Points.World.clock Points.Event.Calls
      (fun u => ∃ left, (u.check tenPoints 4).1 = .ok (1, left, 0))
      ((Points.machine tenPoints).run .init [.check 8, .check 4]) 2 := by
  refine ⟨?_, ?_, ?_, ?_⟩
  · have hexact := retry_hints_exact.1 rareBucket [.call] (by decide) (by decide) (by decide)
    have hwait : (((Bucket.machine rareBucket (Bucket.bucketTs rareBucket.windowUs)).run .init
        [.call]).call rareBucket (Bucket.bucketTs rareBucket.windowUs)).1.2.2 = 2 := by decide
    rw [hwait] at hexact
    exact hexact
  · have hexact := retry_hints_exact.2.1 rareWindow [.call "a"] (by decide) (by decide) "b"
      (by decide) "c"
    have hwait : (((Window.machine rareWindow).run .init [.call "a"]).call rareWindow "b").1.2.2 =
        2 := by decide
    rw [hwait] at hexact
    exact hexact
  · have hexact := retry_hints_exact.2.2.1 slowBucket [.call, .call] (by decide)
      (by decide +kernel) (by decide +kernel)
    have hwait : (((Leaky.machine slowBucket).run .init [.call, .call]).call slowBucket).1.2.2 =
        2 := by decide +kernel
    rw [hwait] at hexact
    exact hexact
  · exact retry_hints_exact.2.2.2 tenPoints [.check 8] 4 (by decide) (by simp) 2 2
      (by decide +kernel)

end Senna.Ratelimit
