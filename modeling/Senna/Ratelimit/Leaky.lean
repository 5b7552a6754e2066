import Mathlib.Data.Rat.Floor
import Senna.Ratelimit.Clock
import Senna.Redis.Expiring
import Senna.System.Machine
import Senna.System.Metering

/-!
# The leaky-bucket limiter

`ratelimit/leaky.go` and `leaky.lua`, in exact arithmetic. The key is a hash with the level of the
bucket and the time it was computed. Every call drains the bucket for the time since then, and is
admitted if there is room for one more; **the new level is written only on admission**, and the key
is given a new lifetime with it.

What is left of the bucket, `capacity - level`, is a budget that is refilled at the rate
`capacity / drainTimeUs`, and an admitted call spends one of it. So the bound on the calls of every
interval is `Metering.Budget.spent_le`. When the key expires, the bucket has run empty
(`Stored.drained_of_due`), so with and without the key the script computes the same
(`replies_eq`).
-/

namespace Senna.Ratelimit.Leaky

open Redis Metering

/-! ### The script -/

/-- What the instances of one limiter name share. -/
structure LeakyLimiter where
  capacity : ℤ
  /-- A Go duration: nanoseconds. -/
  drainTime : ℤ

def LeakyLimiter.drainTimeUs (l : LeakyLimiter) : ℤ := spanUs l.drainTime

/-- The fields of the hash. -/
structure Bucket where
  level : Option ℚ
  lastDrip : Option ℤ
  deriving DecidableEq, Inhabited

abbrev Key := Cell Bucket

def level (capacity drainTimeUs : ℤ) (clock : ℕ) (bucket : Bucket) : ℚ :=
  let nowUs := nowUs clock
  let level := bucket.level.getD 0
  let lastDrip := bucket.lastDrip.getD nowUs
  let elapsedUs := nowUs - lastDrip
  let drained : ℚ := elapsedUs * capacity / drainTimeUs
  max 0 (level - drained)

def waitTimeUs (capacity drainTimeUs : ℤ) (level : ℚ) : ℤ :=
  let overfill := (level + 1) - capacity
  ⌈overfill * drainTimeUs / capacity⌉

/-- `leaky.lua`. Returns whether the call is admitted, the level, and how long to wait. -/
def leaky (capacity drainTimeUs ttl : ℤ) (clock : ℕ) (key : Key) : (ℤ × ℚ × ℤ) × Key :=
  let level := level capacity drainTimeUs clock key.content
  if level + 1 > capacity then ((0, level, waitTimeUs capacity drainTimeUs level), key)
  else
    let key := key.put ⟨some (level + 1), some (nowUs clock)⟩
    ((1, level + 1, 0), key.expireAt (lapse clock ttl))

/-! ### The limiter as a machine -/

/-- One limiter name, with the time of every call that was admitted. -/
structure World where
  clock : ℕ
  key : Key
  admitted : List ℕ

def World.init : World := ⟨0, .absent, []⟩

inductive Event where
  | tick (d : ℕ)
  | call
  | expire
  deriving DecidableEq, Repr

namespace World

variable (l : LeakyLimiter)

def call (s : World) : (ℤ × ℚ × ℤ) × Key :=
  leaky l.capacity l.drainTimeUs (ttlSeconds l.drainTimeUs) s.clock s.key

def step (s : World) : Event → World
  | .tick d => { s with clock := s.clock + d }
  | .call =>
    let (reply, key) := s.call l
    { s with key, admitted := if reply.1 = 1 then s.clock :: s.admitted else s.admitted }
  | .expire => { s with key := .absent }

def Permits (s : World) : Event → Prop
  | .expire => s.key.Due (nowMs s.clock)
  | _ => True

instance (s : World) : DecidablePred s.Permits
  | .expire => inferInstanceAs (Decidable (s.key.Due (nowMs s.clock)))
  | .tick _ | .call => inferInstanceAs (Decidable True)

def level (s : World) : ℚ := Leaky.level l.capacity l.drainTimeUs s.clock s.key.content

end World

def machine (l : LeakyLimiter) : Machine World Event where
  permits := World.Permits
  step := World.step l

instance (l : LeakyLimiter) (s : World) (e : Event) : Decidable ((machine l).permits s e) :=
  inferInstanceAs (Decidable (s.Permits e))

def replies (l : LeakyLimiter) (s : World) : List Event → List (ℤ × ℚ × ℤ)
  | [] => []
  | .call :: es => (s.call l).1 :: replies l (s.step l .call) es
  | e :: es => replies l (s.step l e) es

/-! ### The level -/

section Level

variable {capacity drainTimeUs : ℤ} {clock clock' : ℕ} {bucket : Bucket}

theorem level_nonneg : 0 ≤ level capacity drainTimeUs clock bucket := le_max_left _ _

theorem level_default : level capacity drainTimeUs clock default = 0 := by
  simp [level, show (default : Bucket) = ⟨none, none⟩ from rfl]

theorem level_mk (v : ℚ) (last : ℕ) :
    level capacity drainTimeUs clock ⟨some v, some last⟩ =
      max 0 (v - (capacity / drainTimeUs : ℚ) * (clock - last)) := by
  simp only [level, nowUs_eq, Option.getD_some]
  congr 2
  push_cast
  ring

end Level

variable {l : LeakyLimiter} {s s' : World}

def LeakyLimiter.rate (l : LeakyLimiter) : ℚ := l.capacity / l.drainTimeUs

theorem LeakyLimiter.rate_nonneg (hcapacity : 1 ≤ l.capacity) : 0 ≤ l.rate := by
  have hspan := spanUs_pos l.drainTime
  unfold rate drainTimeUs
  positivity

/-- **The two outcomes.** -/
theorem World.call_cases (l : LeakyLimiter) (s : World) :
    ((l.capacity : ℚ) < s.level l + 1 ∧
      s.call l = ((0, s.level l, waitTimeUs l.capacity l.drainTimeUs (s.level l)), s.key)) ∨
    (s.level l + 1 ≤ l.capacity ∧
      s.call l = ((1, s.level l + 1, 0), (s.key.put ⟨some (s.level l + 1), some s.clock⟩).expireAt
        (lapse s.clock (ttlSeconds l.drainTimeUs)))) := by
  unfold World.call leaky
  rw [nowUs_eq]
  change ((l.capacity : ℚ) < s.level l + 1 ∧ (if s.level l + 1 > l.capacity then _ else _) = _) ∨ _
  by_cases hfull : s.level l + 1 > l.capacity
  · exact Or.inl ⟨hfull, if_pos hfull⟩
  · exact Or.inr ⟨not_lt.mp hfull, if_neg hfull⟩

/-! ### The key -/

/-- The key does not exist; or it holds a level, and its lifetime started when the level was
written. -/
inductive Stored (l : LeakyLimiter) (s : World) : Prop where
  | absent (h : s.key.content = default)
  | holds (v : ℚ) (last : ℕ) (hcontent : s.key.content = ⟨some v, some last⟩) (hnonneg : 0 ≤ v)
      (hcapacity : v ≤ l.capacity) (hlast : last ≤ s.clock)
      (hdeadline : ∀ t ∈ s.key.deadline, lapse last (ttlSeconds l.drainTimeUs) ≤ t)

namespace Stored

theorem level_le (h : Stored l s) (hcapacity : 1 ≤ l.capacity) : s.level l ≤ l.capacity := by
  have hrate := l.rate_nonneg hcapacity
  have hpos : (0 : ℚ) ≤ l.capacity := by exact_mod_cast zero_le_one.trans hcapacity
  cases h with
  | absent h =>
    rw [World.level, h, level_default]
    exact hpos
  | holds v last hcontent hnonneg hle hlast hdeadline =>
    rw [World.level, hcontent, level_mk]
    have helapsed : (0 : ℚ) ≤ s.clock - last := sub_nonneg.mpr (Nat.cast_le.mpr hlast)
    have hdrained := mul_nonneg hrate helapsed
    unfold LeakyLimiter.rate at hdrained
    exact max_le hpos (by linarith)

/-- **Time passes, and the bucket drains at its rate** until it is empty. -/
theorem level_tick (h : Stored l s) (hcapacity : 1 ≤ l.capacity) (d : ℕ) :
    (s.step l (.tick d)).level l = max 0 (s.level l - l.rate * d) := by
  have hdrip : 0 ≤ l.rate * d := mul_nonneg (l.rate_nonneg hcapacity) (Nat.cast_nonneg d)
  cases h with
  | absent h =>
    change level _ _ _ s.key.content = _
    rw [World.level, h, level_default, level_default, max_eq_left (by linarith)]
  | holds v last hcontent hnonneg hle hlast hdeadline =>
    have hlevel : s.level l = max 0 (v - l.rate * (s.clock - last)) := by
      rw [World.level, hcontent, level_mk, LeakyLimiter.rate]
    have hlater : (s.step l (.tick d)).level l =
        max 0 (v - l.rate * (s.clock - last) - l.rate * d) := by
      change level _ _ (s.clock + d) s.key.content = _
      rw [hcontent, level_mk, LeakyLimiter.rate]
      congr 1
      push_cast
      ring
    rw [hlater, hlevel, max_zero_max_zero_sub hdrip]

theorem tick (h : Stored l s) (d : ℕ) : Stored l (s.step l (.tick d)) := by
  cases h with
  | absent h => exact .absent h
  | holds v last hcontent hnonneg hle hlast hdeadline =>
    exact .holds v last hcontent hnonneg hle (hlast.trans (Nat.le_add_right _ _)) hdeadline

/-- **When the key expires, the bucket has run empty.** -/
theorem drained_of_due (h : Stored l s) (hcapacity : 1 ≤ l.capacity)
    (hdue : s.key.Due (nowMs s.clock)) : s.level l = 0 := by
  cases h with
  | absent h => rw [World.level, h, level_default]
  | holds v last hcontent hnonneg hle hlast hdeadline =>
    rw [World.level, hcontent, level_mk]
    obtain ⟨t, ht, hnow⟩ := hdue
    have hover := add_span_le_of_lapse ((hdeadline t ht).trans hnow)
    have hpos : (0 : ℚ) < l.drainTimeUs := by exact_mod_cast spanUs_pos l.drainTime
    have hcap : (0 : ℚ) ≤ l.capacity := by exact_mod_cast zero_le_one.trans hcapacity
    have helapsed : (l.drainTimeUs : ℚ) ≤ s.clock - last := by
      have hint : l.drainTimeUs ≤ (s.clock : ℤ) - last := by omega
      exact_mod_cast hint
    -- A whole drain time has passed.
    have hdrained : (l.capacity : ℚ) ≤ l.capacity / l.drainTimeUs * (s.clock - last) := by
      calc (l.capacity : ℚ) = l.capacity / l.drainTimeUs * l.drainTimeUs := by field_simp
        _ ≤ l.capacity / l.drainTimeUs * (s.clock - last) :=
          mul_le_mul_of_nonneg_left helapsed (div_nonneg hcap hpos.le)
    exact max_eq_left (by linarith)

end Stored

/-! ### The budget -/

def spending (t : ℕ) : Entry ℚ := ⟨t, 1, 0⟩

/-- What is left of the bucket is a budget for the calls. -/
structure Metered (l : LeakyLimiter) (s : World) : Prop where
  stored : Stored l s
  budget : Budget (l.capacity : ℚ) l.rate s.clock (l.capacity - s.level l) (s.admitted.map spending)

namespace Metered

theorem init (hcapacity : 1 ≤ l.capacity) : Metered l .init := by
  have hpos : (0 : ℚ) ≤ l.capacity := by exact_mod_cast zero_le_one.trans hcapacity
  refine ⟨.absent rfl, ?_⟩
  have hlevel : World.init.level l = 0 := level_default
  rw [hlevel, sub_zero]
  exact .nil hpos (l.rate_nonneg hcapacity) _

theorem call (h : Metered l s) (hcapacity : 1 ≤ l.capacity) : Metered l (s.step l .call) := by
  have hstep : s.step l .call = { s with
      key := (s.call l).2
      admitted := if (s.call l).1.1 = 1 then s.clock :: s.admitted else s.admitted } := rfl
  rw [hstep]
  obtain ⟨-, hcall⟩ | ⟨hroom, hcall⟩ := s.call_cases l
  · rw [hcall, if_neg (show (0 : ℤ) ≠ 1 by decide)]
    exact h
  · rw [hcall, if_pos rfl]
    have hnonneg : 0 ≤ s.level l := level_nonneg
    have hcontent : ((s.key.put ⟨some (s.level l + 1), some (s.clock : ℤ)⟩).expireAt
        (lapse s.clock (ttlSeconds l.drainTimeUs))).content =
          ⟨some (s.level l + 1), some (s.clock : ℤ)⟩ := by
      rw [Cell.content_expireAt, Cell.content_put]
    refine ⟨.holds _ s.clock hcontent (by linarith) hroom le_rfl fun t ht => ?_, ?_⟩
    · rw [Cell.deadline_expireAt (by rw [Cell.content_put]; exact nofun)] at ht
      exact (Option.some.inj ht).le
    · -- The level is one higher.
      have hlevel : level l.capacity l.drainTimeUs s.clock
          ⟨some (s.level l + 1), some (s.clock : ℤ)⟩ = s.level l + 1 := by
        rw [level_mk, sub_self, mul_zero, sub_zero, max_eq_right (by linarith)]
      change Budget _ _ _ (_ - level _ _ _ _) (spending s.clock :: _)
      rw [hcontent, hlevel]
      refine h.budget.record (l.rate_nonneg hcapacity) ?_ ?_ ?_ <;> linarith

theorem step (h : Metered l s) (hcapacity : 1 ≤ l.capacity) {e : Event}
    (he : (machine l).permits s e) : Metered l ((machine l).step s e) := by
  cases e with
  | tick d =>
    have hdrip : 0 ≤ l.rate * d := mul_nonneg (l.rate_nonneg hcapacity) (Nat.cast_nonneg d)
    have htick := h.stored.level_tick hcapacity d
    have hnow : 0 ≤ s.level l := level_nonneg
    have hslow : s.level l - l.rate * d ≤ (s.step l (.tick d)).level l := by
      rw [htick]
      exact le_max_right _ _
    have hclock : (((s.step l (.tick d)).clock : ℕ) : ℚ) = s.clock + d := Nat.cast_add _ _
    have hfull := h.stored.level_le hcapacity
    have hnonneg : 0 ≤ (s.step l (.tick d)).level l := level_nonneg
    change Metered l (s.step l (.tick d))
    refine ⟨h.stored.tick d, h.budget.advance (l.rate_nonneg hcapacity) ?_ ?_ ?_ ?_⟩
    · exact Nat.cast_le.mpr (Nat.le_add_right s.clock d)
    · rw [htick, sub_nonneg]
      exact max_le (by linarith) (by linarith)
    · linarith
    · rw [hclock, add_sub_cancel_left]
      linarith
  | call => exact h.call hcapacity
  | expire =>
    refine ⟨.absent rfl, ?_⟩
    have hlevel : ((machine l).step s .expire).level l = s.level l :=
      level_default.trans (h.stored.drained_of_due hcapacity he).symm
    rw [hlevel]
    exact h.budget

end Metered

/-! ### Expiry -/

/-- Two states that a call cannot tell apart: the keys hold the same, or the first is gone and in
the second the bucket has run empty. -/
structure Alike (l : LeakyLimiter) (s s' : World) : Prop where
  clock : s.clock = s'.clock
  stored : Stored l s'
  content : s.key.content = s'.key.content ∨ s.key.content = default ∧ s'.level l = 0

namespace Alike

theorem level_eq (h : Alike l s s') : s.level l = s'.level l := by
  obtain hsame | ⟨hgone, hempty⟩ := h.content
  · rw [World.level, World.level, h.clock, hsame]
  · rw [hempty, World.level, hgone, level_default]

theorem call (h : Alike l s s') (hcapacity : 1 ≤ l.capacity) (hmetered : Metered l s') :
    (s.call l).1 = (s'.call l).1 ∧ Alike l (s.step l .call) (s'.step l .call) := by
  have hstored := (hmetered.call hcapacity).stored
  have hlevel := h.level_eq
  obtain ⟨hfull, hcall⟩ | ⟨hroom, hcall⟩ := s.call_cases l
  · obtain ⟨-, hcall'⟩ | ⟨hroom', -⟩ := s'.call_cases l
    · refine ⟨by rw [hcall, hcall', hlevel], h.clock, hstored, ?_⟩
      change (s.call l).2.content = (s'.call l).2.content ∨
        (s.call l).2.content = default ∧ level _ _ s'.clock (s'.call l).2.content = 0
      rw [hcall, hcall']
      exact h.content
    · rw [hlevel] at hfull
      exact absurd hroom' hfull.not_ge
  · obtain ⟨hfull', -⟩ | ⟨-, hcall'⟩ := s'.call_cases l
    · rw [hlevel] at hroom
      exact absurd hroom hfull'.not_ge
    · refine ⟨by rw [hcall, hcall', hlevel], h.clock, hstored, Or.inl ?_⟩
      change (s.call l).2.content = (s'.call l).2.content
      rw [hcall, hcall', hlevel, h.clock]
      simp only [Cell.content_expireAt, Cell.content_put]

end Alike

theorem replies_eq (hcapacity : 1 ≤ l.capacity) {es : List Event} (h : Alike l s s')
    (hmetered : Metered l s) (hmetered' : Metered l s') (legal : (machine l).Legal s es) :
    replies l s es = replies l s' (es.filter (· ≠ .expire)) := by
  induction es generalizing s s' with
  | nil => rfl
  | cons e es ih =>
    obtain ⟨he, hrest⟩ := legal
    have hnext := hmetered.step hcapacity he
    cases e with
    | tick d =>
      have hnext' := @Metered.step l s' hmetered' hcapacity (.tick d) trivial
      refine ih ⟨congrArg (· + d) h.clock, hnext'.stored, ?_⟩ hnext hnext' hrest
      obtain hsame | ⟨hgone, hempty⟩ := h.content
      · exact Or.inl hsame
      · refine Or.inr ⟨hgone, ?_⟩
        have hdrip : 0 ≤ l.rate * d := mul_nonneg (l.rate_nonneg hcapacity) (Nat.cast_nonneg d)
        change (s'.step l (.tick d)).level l = 0
        rw [h.stored.level_tick hcapacity d, hempty, max_eq_left (by linarith)]
    | call =>
      have hnext' := @Metered.step l s' hmetered' hcapacity .call trivial
      obtain ⟨hreply, halike⟩ := h.call hcapacity hmetered'
      exact congrArg₂ List.cons hreply (ih halike hnext hnext' hrest)
    | expire =>
      -- The key is gone, and the bucket had run empty.
      refine ih ⟨h.clock, h.stored, Or.inr ⟨rfl, ?_⟩⟩ hnext hmetered' hrest
      rw [← h.level_eq]
      exact hmetered.stored.drained_of_due hcapacity he

/-- The number of calls admitted in `[t₁, t₂]`. -/
def World.count (s : World) (t₁ t₂ : ℤ) : ℕ :=
  (s.admitted.filter fun t : ℕ => t₁ ≤ (t : ℤ) ∧ (t : ℤ) ≤ t₂).length

theorem total_spending (t₁ t₂ : ℤ) (s : World) :
    total Entry.spent (t₁ : ℚ) t₂ (s.admitted.map spending) = s.count t₁ t₂ ∧
      total Entry.granted (t₁ : ℚ) t₂ (s.admitted.map spending) = 0 := by
  unfold World.count
  induction s.admitted with
  | nil => exact ⟨rfl, rfl⟩
  | cons t ts ih =>
    have hin : ((t₁ : ℚ) ≤ (spending t).time ∧ (spending t).time ≤ t₂) ↔ t₁ ≤ t ∧ (t : ℤ) ≤ t₂ := by
      change ((t₁ : ℚ) ≤ (t : ℚ) ∧ (t : ℚ) ≤ t₂) ↔ _
      norm_cast
    rw [List.map_cons, total_cons, total_cons, ih.1, ih.2]
    by_cases ht : t₁ ≤ t ∧ (t : ℤ) ≤ t₂
    · rw [if_pos (hin.mpr ht), if_pos (hin.mpr ht), List.filter_cons_of_pos (by simpa using ht),
        List.length_cons, Nat.cast_add, Nat.cast_one]
      exact ⟨add_comm _ _, add_zero _⟩
    · rw [if_neg (mt hin.mp ht), if_neg (mt hin.mp ht), List.filter_cons_of_neg (by simpa using ht)]
      exact ⟨zero_add _, add_zero _⟩

/-- **The leaky bucket.** After every run, the stored level is between zero and the capacity; in
every interval at most the capacity and what drains in it is admitted; and the replies are those of
the run in which the key never expires. -/
theorem leaky_rate (l : LeakyLimiter) (hcapacity : 1 ≤ l.capacity) {es : List Event}
    (legal : (machine l).Legal .init es) :
    (∀ v, ((machine l).run .init es).key.content.level = some v → 0 ≤ v ∧ v ≤ l.capacity) ∧
    (∀ t₁ t₂ : ℤ, t₁ ≤ t₂ → (((machine l).run .init es).count t₁ t₂ : ℚ) ≤
      l.capacity + l.capacity * (t₂ - t₁) / l.drainTimeUs) ∧
    replies l .init es = replies l .init (es.filter (· ≠ .expire)) := by
  have hinit : Metered l .init := .init hcapacity
  have h : Metered l ((machine l).run .init es) :=
    legal.invariant (fun _ _ h he => h.step hcapacity he) hinit
  refine ⟨fun v hv => ?_, fun t₁ t₂ ht => ?_, ?_⟩
  · cases h.stored with
    | absent habsent =>
      rw [habsent] at hv
      cases hv
    | holds v' last hcontent hnonneg hle hlast hdeadline =>
      rw [hcontent] at hv
      obtain rfl := Option.some.inj hv
      exact ⟨hnonneg, hle⟩
  · have hspent := h.budget.spent_le t₁ t₂ (Int.cast_le.mpr ht)
    obtain ⟨hcount, hnone⟩ := total_spending t₁ t₂ ((machine l).run .init es)
    rw [hcount, hnone, add_zero, LeakyLimiter.rate, div_mul_eq_mul_div] at hspent
    exact hspent
  · exact replies_eq hcapacity ⟨rfl, .absent rfl, Or.inl rfl⟩ hinit hinit legal

/-- A bucket for one, which drains in a microsecond. The key expires in between. -/
def emptied : List Event := [.call, .call, .tick 1, .call, .tick 1002000, .expire, .call]

theorem emptied_within_rate :
    (machine ⟨1, 1000⟩).Legal .init emptied ∧
      ((machine ⟨1, 1000⟩).run .init emptied).admitted = [1002001, 1, 0] ∧
      (((machine ⟨1, 1000⟩).run .init emptied).count 0 1 : ℚ) ≤ 1 + 1 * (1 - 0) / 1 := by
  have hlegal : (machine ⟨1, 1000⟩).Legal .init emptied := by decide +kernel
  have hdrain : (LeakyLimiter.mk 1 1000).drainTimeUs = 1 := by decide
  have hrate := (leaky_rate ⟨1, 1000⟩ (by decide) hlegal).2.1 0 1 (by decide)
  rw [hdrain] at hrate
  exact ⟨hlegal, by decide +kernel, by exact_mod_cast hrate⟩

end Senna.Ratelimit.Leaky
