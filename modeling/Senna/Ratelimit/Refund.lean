import Senna.Ratelimit.Points

/-!
# Refunds

A caller that has used fewer points than it has acquired gives the rest back with `PointsUsed`.
**A refund can lower the balance.** The script adds to the stored balance, and takes a missing one
for zero, where a check takes it for full. So when the key has expired since the estimate was
acquired, the refund replaces a full balance by the refund alone. It writes no time with it, so this
balance is not refilled before the next admission; and it gives the key a new lifetime, so a second
refund keeps the low balance alive where the key would have expired.

Otherwise a refund does what it should (`Harmless`): if the key is still there at the later time
without the refund, or has a time of its last refill, or if the refund fills the balance, or has
expired in its turn. These are all the cases in which it does (`refund_le_balance`).

The comparison is between two keys at a later time: the one after the refund and the one without it,
both as the server shows them then (`Redis.Cell.shown`).
-/

namespace Senna.Ratelimit.Points

open Redis Metering

variable {l : PointsLimiter} {s : World}

/-! ### The stored balance -/

/-- What is stored, in every state: a balance between zero and the capacity; and with a time of the
last refill there is a balance, and a lifetime that started no earlier. -/
structure Stored (l : PointsLimiter) (s : World) : Prop where
  points : ∀ v, s.key.content.points = some v → 0 ≤ v ∧ v ≤ max 0 (l.capacity : ℚ)
  refill : ∀ r, s.key.content.lastRefill = some r → 1 ≤ l.capacity ∧
    s.key.content.points ≠ none ∧ ∃ last : ℕ, r = last ∧ last ≤ s.clock ∧
      ∀ t ∈ s.key.deadline, lapse last (ttlSeconds l.refillTimeUs) ≤ t

namespace Stored

theorem absent (h : s.key = .absent) : Stored l s := by
  refine ⟨fun v hv => ?_, fun r hr => ?_⟩
  · rw [h] at hv
    cases hv
  · rw [h] at hr
    cases hr

theorem tick (h : Stored l s) (d : ℕ) : Stored l { s with clock := s.clock + d } := by
  refine ⟨h.points, fun r hr => ?_⟩
  obtain ⟨hcapacity, hpoints, last, hlast, hle, hdeadline⟩ := h.refill r hr
  exact ⟨hcapacity, hpoints, last, hlast, hle.trans (Nat.le_add_right _ _), hdeadline⟩

theorem admitOne {cost : ℤ} (hcost : 0 < cost) (henough : (cost : ℚ) ≤ s.available l)
    (log : List Record) :
    Stored l { s with
      key := (s.key.put ⟨some (s.available l - cost), some (s.clock : ℤ)⟩).expireAt
        (lapse s.clock (ttlSeconds l.refillTimeUs))
      log := log } := by
  have hcap : s.available l ≤ l.capacity := available_le_capacity
  have hcost' : (0 : ℚ) < cost := Int.cast_pos.mpr hcost
  have hcapacity : 1 ≤ l.capacity := by
    have hpos : (0 : ℚ) < l.capacity := by linarith
    exact_mod_cast hpos
  refine ⟨fun v hv => ?_, fun r hr => ?_⟩
  · rw [Cell.content_expireAt, Cell.content_put] at hv
    obtain rfl := Option.some.inj hv
    exact ⟨by linarith, le_max_of_le_right (by linarith)⟩
  · rw [Cell.content_expireAt, Cell.content_put] at hr
    refine ⟨hcapacity, ?_, s.clock, (Option.some.inj hr).symm, le_rfl, fun t ht => ?_⟩
    · rw [Cell.content_expireAt, Cell.content_put]
      exact nofun
    · rw [Cell.deadline_expireAt (by rw [Cell.content_put]; exact nofun)] at ht
      exact (Option.some.inj ht).le

theorem adjust (h : Stored l s) (diff : ℤ) (log : List Record) :
    Stored l { s with
      key := (s.key.put (adjusted l diff s.key.content)).expireAt
        (lapse s.clock (ttlSeconds l.refillTimeUs))
      log := log } := by
  refine ⟨fun v hv => ?_, fun r hr => ?_⟩
  · rw [Cell.content_expireAt, Cell.content_put] at hv
    obtain rfl := Option.some.inj hv
    exact ⟨le_max_left _ _, max_le_max le_rfl (min_le_left _ _)⟩
  · rw [Cell.content_expireAt, Cell.content_put] at hr
    obtain ⟨hcapacity, -, last, hlast, hle, -⟩ := h.refill r hr
    refine ⟨hcapacity, ?_, last, hlast, hle, fun t ht => ?_⟩
    · rw [Cell.content_expireAt, Cell.content_put]
      exact nofun
    · rw [Cell.deadline_expireAt (by rw [Cell.content_put]; exact nofun)] at ht
      rw [← Option.some.inj ht]
      exact lapse_mono hle _

theorem step (h : Stored l s) (e : Event) : Stored l ((machine l).step s e) := by
  cases e with
  | tick d => exact h.tick d
  | check cost =>
    change Stored l (s.step l (.check cost))
    obtain ⟨-, hcheck⟩ | ⟨-, -, hcheck⟩ | ⟨hcost, henough, hcheck⟩ := s.check_cases l cost
    · simp only [World.step, hcheck]
      exact h
    · simp only [World.step, hcheck]
      exact h
    · simp only [World.step, hcheck]
      exact admitOne hcost henough _
  | used estimate actual =>
    change Stored l (s.step l (.used estimate actual))
    obtain ⟨text, hused⟩ | ⟨-, hused⟩ | hused := pointsUsed_cases l estimate actual s.clock s.key
    · simp only [World.step, hused]
      exact h
    · simp only [World.step, hused]
      exact ⟨h.points, h.refill⟩
    · simp only [World.step, hused]
      exact h.adjust _ _
  | expire => exact absent rfl

theorem shown (h : Stored l s) : Stored l { s with key := s.key.shown (nowMs s.clock) } := by
  unfold Cell.shown
  split
  · exact absent rfl
  · exact h

end Stored

/-! ### The balance at a later time -/

/-- `AvailablePoints` takes a time of zero for none. -/
def normal (balance : Balance) : Balance :=
  if balance.lastRefill = some 0 then { balance with lastRefill := none } else balance

theorem availablePoints_eq (capacity refillTimeUs : ℤ) (clock : ℕ) (balance : Balance) :
    availablePoints capacity refillTimeUs clock balance =
      available capacity refillTimeUs clock (normal balance) := by
  unfold availablePoints available normal
  cases hlast : balance.lastRefill with
  | none => simp [hlast]
  | some r =>
    by_cases hr : r = 0
    · simp [hr]
    · simp [hr, hlast]

/-- The fields as one of the two readers takes them: the balance as it is, the time perhaps for
none if it is zero. -/
structure Reads (f : Balance → Balance) : Prop where
  points : ∀ b, (f b).points = b.points
  last : ∀ b, (f b).lastRefill = b.lastRefill ∨
    b.lastRefill = some 0 ∧ (f b).lastRefill = none
  same : ∀ b b', b.lastRefill = b'.lastRefill → (f b).lastRefill = (f b').lastRefill

theorem reads_id : Reads id := ⟨fun _ => rfl, fun _ => Or.inl rfl, fun _ _ h => h⟩

theorem reads_normal : Reads normal := by
  refine ⟨fun b => ?_, fun b => ?_, fun b b' h => ?_⟩
  · unfold normal
    split <;> rfl
  · unfold normal
    split
    · next hzero => exact Or.inr ⟨hzero, rfl⟩
    · exact Or.inl rfl
  · unfold normal
    rw [h]
    split
    · rfl
    · exact h

variable {f : Balance → Balance}

theorem Reads.apply_default (hf : Reads f) : f default = default := by
  have hpoints := hf.points default
  have hlast : (f default).lastRefill = none := by
    obtain hlast | ⟨hzero, -⟩ := hf.last default
    · exact hlast
    · cases hzero
  cases hdefault : f default with
  | mk points lastRefill =>
    rw [hdefault] at hpoints hlast
    rw [show points = none from hpoints, show lastRefill = none from hlast]
    rfl

def balanceAt (l : PointsLimiter) (f : Balance → Balance) (key : Key) (t : ℕ) : ℚ :=
  available l.capacity l.refillTimeUs t (f (key.shown (nowMs t)).content)

theorem balanceAt_le (f : Balance → Balance) (key : Key) (t : ℕ) :
    balanceAt l f key t ≤ l.capacity := available_le_capacity

theorem balanceAt_of_due (hf : Reads f) {key : Key} {t : ℕ}
    (hdue : key.Due (nowMs t)) : balanceAt l f key t = l.capacity := by
  rw [balanceAt, Cell.shown, if_pos hdue]
  change available _ _ _ (f default) = _
  rw [hf.apply_default, available_default]

theorem balanceAt_of_not_due {key : Key} {t : ℕ}
    (hdue : ¬ key.Due (nowMs t)) :
    balanceAt l f key t = available l.capacity l.refillTimeUs t (f key.content) := by
  rw [balanceAt, Cell.shown, if_neg hdue]

theorem available_mono {capacity refillTimeUs : ℤ} {t : ℕ} {b b' : Balance} {v v' : ℚ}
    (hpoints : b.points = some v) (hpoints' : b'.points = some v') (hle : v ≤ v')
    (hlast : b'.lastRefill = b.lastRefill) :
    available capacity refillTimeUs t b ≤ available capacity refillTimeUs t b' := by
  unfold available
  rw [hpoints, hpoints', hlast, Option.getD_some, Option.getD_some]
  exact min_le_min le_rfl (by gcongr)

/-! ### The key after a refund -/

def refunded (l : PointsLimiter) (diff : ℤ) (clock : ℕ) (key : Key) : Key :=
  (key.put (adjusted l diff key.content)).expireAt (lapse clock (ttlSeconds l.refillTimeUs))

theorem due_refunded {diff now : ℤ} {clock : ℕ} {key : Key} :
    (refunded l diff clock key).Due now ↔ lapse clock (ttlSeconds l.refillTimeUs) ≤ now := by
  have hdeadline : (refunded l diff clock key).deadline =
      some (lapse clock (ttlSeconds l.refillTimeUs)) :=
    Cell.deadline_expireAt (by rw [Cell.content_put]; exact nofun) _
  simp [Cell.Due, hdeadline]

theorem content_refunded (diff : ℤ) (clock : ℕ) (key : Key) :
    (refunded l diff clock key).content = adjusted l diff key.content := by
  rw [refunded, Cell.content_expireAt, Cell.content_put]

/-- What has to be so for a refund to be harmless at a later time: nothing is refunded; or the key
is still there at that time without the refund; or it has a time of its last refill; or the refund
fills the balance; or the lifetime that the refund gives to the key is over. -/
def Harmless (l : PointsLimiter) (diff : ℤ) (clock : ℕ) (key : Key) (t : ℕ) : Prop :=
  diff = 0 ∨ (key.content.points ≠ none ∧ ¬ key.Due (nowMs t)) ∨
    (∃ r, r ≠ 0 ∧ key.content.lastRefill = some r) ∨
    (l.capacity : ℚ) ≤ key.content.points.getD 0 + diff ∨
    lapse clock (ttlSeconds l.refillTimeUs) ≤ nowMs t

section Refunded

variable {f : Balance → Balance} {diff : ℤ} {t : ℕ}

theorem Stored.le_refunded (h : Stored l s) (hf : Reads f) (hdiff : 0 ≤ diff) {v : ℚ}
    (hpoints : s.key.content.points = some v) (clock : ℕ) :
    available l.capacity l.refillTimeUs t (f s.key.content) ≤
      available l.capacity l.refillTimeUs t (f (refunded l diff clock s.key).content) := by
  obtain ⟨hnonneg, hle⟩ := h.points v hpoints
  have hdiff' : (0 : ℚ) ≤ diff := Int.cast_nonneg hdiff
  have hmore : v ≤ max 0 (min (l.capacity : ℚ) (v + diff)) := by
    obtain hzero | hcapacity := le_max_iff.mp hle
    · exact le_max_of_le_left hzero
    · exact le_max_of_le_right (le_min hcapacity (by linarith))
  rw [content_refunded]
  refine available_mono ((hf.points _).trans hpoints) ?_ hmore (hf.same _ _ rfl)
  rw [hf.points, adjusted, hpoints, Option.getD_some]

theorem Stored.refunded_full (h : Stored l s) (hf : Reads f) (ht : s.clock ≤ t)
    (hfull : (l.capacity : ℚ) ≤ s.key.content.points.getD 0 + diff) (clock : ℕ) :
    available l.capacity l.refillTimeUs t (f (refunded l diff clock s.key).content) =
      l.capacity := by
  have hpoints :
      (f (refunded l diff clock s.key).content).points = some (max 0 (l.capacity : ℚ)) := by
    rw [hf.points, content_refunded, adjusted, min_eq_left hfull]
  have hcap : (l.capacity : ℚ) ≤ max 0 (l.capacity : ℚ) := le_max_right _ _
  cases hlast : (f (refunded l diff clock s.key).content).lastRefill with
  | none => rw [available_of_none hpoints hlast, min_eq_left hcap]
  | some r =>
    have hr : s.key.content.lastRefill = some r := by
      obtain hsame | ⟨-, hnone⟩ := hf.last (refunded l diff clock s.key).content
      · rw [hlast, content_refunded] at hsame
        exact hsame.symm
      · rw [hlast] at hnone
        cases hnone
    obtain ⟨hcapacity, -, last, rfl, hle, -⟩ := h.refill r hr
    have hrefill : 0 ≤ l.rate * ((t : ℚ) - last) :=
      mul_nonneg (l.rate_nonneg hcapacity) (sub_nonneg.mpr (Nat.cast_le.mpr (hle.trans ht)))
    rw [available_of_some hpoints hlast]
    change min (l.capacity : ℚ) (_ + l.rate * _) = _
    exact min_eq_left (by linarith)

theorem Stored.refunded_refilled (h : Stored l s) (hf : Reads f) {r : ℤ} (hr : r ≠ 0)
    (hlast : s.key.content.lastRefill = some r) (hdue : s.key.Due (nowMs t)) (clock : ℕ) :
    available l.capacity l.refillTimeUs t (f (refunded l diff clock s.key).content) =
      l.capacity := by
  obtain ⟨hcapacity, -, last, rfl, -, hdeadline⟩ := h.refill r hlast
  have hlast' : (f (refunded l diff clock s.key).content).lastRefill = some (last : ℤ) := by
    have hsame : (refunded l diff clock s.key).content.lastRefill = some (last : ℤ) := by
      rw [content_refunded]
      exact hlast
    obtain hread | ⟨hzero, -⟩ := hf.last (refunded l diff clock s.key).content
    · exact hread.trans hsame
    · exact absurd (Option.some.inj (hsame.symm.trans hzero)) hr
  obtain ⟨d, hd, hnow⟩ := hdue
  have hover := add_span_le_of_lapse ((hdeadline d hd).trans hnow)
  have hrefilled := l.capacity_le_of_span hcapacity (show l.refillTimeUs ≤ (t : ℤ) - last by omega)
  push_cast at hrefilled
  have hpoints := hf.points (refunded l diff clock s.key).content
  rw [content_refunded] at hpoints
  rw [available_of_some (by rw [content_refunded]; exact hpoints) hlast']
  have hnonneg : 0 ≤ max 0 (min (l.capacity : ℚ) (s.key.content.points.getD 0 + diff)) :=
    le_max_left _ _
  change min (l.capacity : ℚ) (_ + l.rate * _) = _
  exact min_eq_left (by linarith)

/-- **A harmless refund never lowers the balance.** -/
theorem Stored.balanceAt_le_refunded (h : Stored l s) (hf : Reads f) (hdiff : 0 ≤ diff)
    (ht : s.clock ≤ t) {clock : ℕ} (hharmless : Harmless l diff clock s.key t) (hne : diff ≠ 0) :
    balanceAt l f s.key t ≤ balanceAt l f (refunded l diff clock s.key) t := by
  by_cases hdue' : (refunded l diff clock s.key).Due (nowMs t)
  · rw [balanceAt_of_due hf hdue']
    exact balanceAt_le _ _ _
  rw [balanceAt_of_not_due hdue']
  obtain hzero | ⟨hpoints, hdue⟩ | ⟨r, hr, hlast⟩ | hfull | hover := hharmless
  · exact absurd hzero hne
  · obtain ⟨v, hv⟩ := Option.ne_none_iff_exists'.mp hpoints
    rw [balanceAt_of_not_due hdue]
    exact h.le_refunded hf hdiff hv clock
  · by_cases hdue : s.key.Due (nowMs t)
    · rw [h.refunded_refilled hf hr hlast hdue]
      exact balanceAt_le _ _ _
    · obtain ⟨v, hv⟩ := Option.ne_none_iff_exists'.mp (h.refill r hlast).2.1
      rw [balanceAt_of_not_due hdue]
      exact h.le_refunded hf hdiff hv clock
  · rw [h.refunded_full hf ht hfull]
    exact balanceAt_le _ _ _
  · exact absurd (due_refunded.mpr hover) hdue'

/-- **Every other refund does**: without it the balance is full, and with it the balance is the
refund on top of what was stored, never refilled. -/
theorem Stored.refunded_lt_balanceAt (h : Stored l s) (hdiff : 0 ≤ diff) {clock : ℕ}
    (hharmless : ¬ Harmless l diff clock s.key t) :
    balanceAt l normal (refunded l diff clock s.key) t < balanceAt l normal s.key t := by
  simp only [Harmless, not_or, not_and, not_not, not_exists, not_le] at hharmless
  obtain ⟨-, hgone, htime, hless, hover⟩ := hharmless
  have hlast : (normal s.key.content).lastRefill = none := by
    obtain hsame | ⟨-, hnone⟩ := reads_normal.last s.key.content
    · cases hr : s.key.content.lastRefill with
      | none => exact hsame.trans hr
      | some r =>
        have hzero : r = 0 := by
          by_contra hne
          exact htime r hne hr
        rw [normal, if_pos (by rw [hr, hzero])]
    · exact hnone
  have hwithout : balanceAt l normal s.key t = l.capacity := by
    by_cases hdue : s.key.Due (nowMs t)
    · exact balanceAt_of_due reads_normal hdue
    · have hpoints : (normal s.key.content).points = none := by
        rw [reads_normal.points]
        by_contra hsome
        exact hdue (hgone hsome)
      rw [balanceAt_of_not_due hdue]
      simp [available, hpoints, hlast]
  have hpoints : 0 ≤ s.key.content.points.getD 0 := by
    cases hv : s.key.content.points with
    | none => exact le_rfl
    | some v => exact (h.points v hv).1
  have hdiff' : (0 : ℚ) ≤ diff := Int.cast_nonneg hdiff
  rw [hwithout, balanceAt_of_not_due (fun hdue => absurd (due_refunded.mp hdue) (not_le.mpr hover)),
    available_of_none (v := max 0 (min (l.capacity : ℚ) (s.key.content.points.getD 0 + diff)))
      (by rw [reads_normal.points, content_refunded]; rfl)
      (by rw [reads_normal.same _ s.key.content (by rw [content_refunded]; rfl), hlast])]
  rw [min_eq_right hless.le, max_eq_right (by linarith)]
  exact min_lt_of_right_lt hless

end Refunded

theorem pointsUsed_refund {estimate actual : ℤ} (hactual : 0 ≤ actual) (clock : ℕ) (key : Key) :
    (pointsUsed l estimate actual clock key).2 =
      if estimate - actual = 0 then key else refunded l (estimate - actual) clock key := by
  unfold pointsUsed
  rw [if_neg (by omega)]
  dsimp only
  split
  · rfl
  · rw [pointsAdjust, if_neg (by omega)]
    rfl

theorem balanceAt_shown {clock t : ℕ} (ht : clock ≤ t) (key : Key) :
    balanceAt l f (key.shown (nowMs clock)) t = balanceAt l f key t := by
  rw [balanceAt, balanceAt, Cell.shown_shown _ (nowMs_mono ht)]

section PointsUsed

variable (h : Stored l s) {estimate actual : ℤ} (hactual : 0 ≤ actual) (hle : actual ≤ estimate)
  {t : ℕ} (ht : s.clock ≤ t)

include h hactual hle ht

theorem Stored.balanceAt_le_pointsUsed (hf : Reads f)
    (hharmless : Harmless l (estimate - actual) s.clock (s.key.shown (nowMs s.clock)) t) :
    balanceAt l f s.key t ≤ balanceAt l f
      (pointsUsed l estimate actual s.clock (s.key.shown (nowMs s.clock))).2 t := by
  rw [← balanceAt_shown ht, pointsUsed_refund hactual]
  split
  · exact le_rfl
  · next hne => exact h.shown.balanceAt_le_refunded hf (by omega) ht hharmless hne

theorem Stored.harmless_of_balanceAt_le
    (hbalance : balanceAt l normal s.key t ≤ balanceAt l normal
      (pointsUsed l estimate actual s.clock (s.key.shown (nowMs s.clock))).2 t) :
    Harmless l (estimate - actual) s.clock (s.key.shown (nowMs s.clock)) t := by
  by_contra hharmless
  rw [← balanceAt_shown ht, pointsUsed_refund hactual, if_neg fun hzero => hharmless (Or.inl hzero)]
    at hbalance
  exact absurd hbalance (not_le.mpr (h.shown.refunded_lt_balanceAt (by omega) hharmless))

end PointsUsed

theorem stored_run (l : PointsLimiter) (es : List Event) : Stored l ((machine l).run .init es) :=
  ((machine l).throughout_of_forall .init fun _ _ => trivial).invariant
    (fun _ e h _ => h.step e) (.absent rfl)

/-- **When a refund does not lower the balance.** After every run, for every refund and every later
time: the balance that a check finds with the refund is at least what it finds without, and so is
the balance that `AvailablePoints` reports, exactly if the refund is harmless at that time. -/
theorem refund_le_balance (l : PointsLimiter) (es : List Event) {estimate actual : ℤ}
    (hactual : 0 ≤ actual) (hle : actual ≤ estimate) :
    let s := (machine l).run .init es
    let key := s.key.shown (nowMs s.clock)
    let key' := (pointsUsed l estimate actual s.clock key).2
    ∀ t, s.clock ≤ t →
      (available l.capacity l.refillTimeUs t (s.key.shown (nowMs t)).content ≤
          available l.capacity l.refillTimeUs t (key'.shown (nowMs t)).content ∧
        availablePoints l.capacity l.refillTimeUs t (s.key.shown (nowMs t)).content ≤
          availablePoints l.capacity l.refillTimeUs t (key'.shown (nowMs t)).content ↔
        Harmless l (estimate - actual) s.clock key t) := by
  have hstored := stored_run l es
  generalize (machine l).run .init es = s at hstored
  intro s key key' t ht
  rw [availablePoints_eq, availablePoints_eq]
  change balanceAt l id s.key t ≤ balanceAt l id key' t ∧
    balanceAt l normal s.key t ≤ balanceAt l normal key' t ↔ _
  constructor
  · exact fun hboth => hstored.harmless_of_balanceAt_le hactual hle ht hboth.2
  · exact fun hharmless => ⟨hstored.balanceAt_le_pointsUsed hactual hle ht reads_id hharmless,
      hstored.balanceAt_le_pointsUsed hactual hle ht reads_normal hharmless⟩

/-- A job takes eight of ten points. They are refilled in ten microseconds, and the key lives for a
second. -/
def lateReport : List Event := [.check 8, .tick 1002000, .expire]

theorem early_refund_raises :
    (let s := (machine ⟨"p", 10, 10000⟩).run .init [.check 8]
     let key' := (pointsUsed ⟨"p", 10, 10000⟩ 8 2 s.clock (s.key.shown (nowMs s.clock))).2
     available 10 10 0 (s.key.shown (nowMs 0)).content = 2 ∧
       available 10 10 0 (key'.shown (nowMs 0)).content = 8 ∧
       available 10 10 0 (s.key.shown (nowMs 0)).content ≤
         available 10 10 0 (key'.shown (nowMs 0)).content) := by
  refine ⟨by decide +kernel, by decide +kernel, ?_⟩
  have hraises := @refund_le_balance ⟨"p", 10, 10000⟩ [.check 8] 8 2 (by decide) (by decide) 0
    (by decide +kernel)
  exact (hraises.mpr (Or.inr (Or.inl ⟨by decide +kernel, by decide +kernel⟩))).1

/-- **Reported after the key has expired, it makes ten points six**, and they stay six. -/
theorem late_refund_lowers :
    (machine ⟨"p", 10, 10000⟩).Legal .init lateReport ∧
      (let s := (machine ⟨"p", 10, 10000⟩).run .init lateReport
       let key' := (pointsUsed ⟨"p", 10, 10000⟩ 8 2 s.clock (s.key.shown (nowMs s.clock))).2
       ∀ t ∈ [s.clock, s.clock + 500000],
         available 10 10 t (s.key.shown (nowMs t)).content = 10 ∧
           available 10 10 t (key'.shown (nowMs t)).content = 6 ∧
           availablePoints 10 10 t (s.key.shown (nowMs t)).content = 10 ∧
           availablePoints 10 10 t (key'.shown (nowMs t)).content = 6) := by
  exact ⟨by decide +kernel, by decide +kernel⟩

end Senna.Ratelimit.Points
