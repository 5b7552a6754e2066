import Mathlib.Algebra.Order.Ring.Int
import Senna.Ratelimit.Clock
import Senna.Redis.Expiring
import Senna.System.Machine

/-!
# The bucket limiter

`ratelimit/bucket.go` and `bucket.lua`: one counter for each aligned window. A call counts itself
first and takes itself back if that was too much. A key here is the counter of the window that the
clock is in.

The machine has all the counters of one limiter name. What tells them apart is left open: at every
time there is a key, `bucketKey`, which the script makes from the start of the window. **As long as
different windows have different keys** (`Separates`), the counter of the current window is the
number of calls that were admitted in it (`Counted.current`): the counters of the windows to come
do not exist yet, and a counter does not expire in its own window, because its lifetime is not
shorter than the window and starts again with every call.
-/

namespace Senna.Ratelimit.Bucket

open Redis

/-- What the instances of one limiter name share. -/
structure BucketLimiter where
  limit : ℤ
  /-- A Go duration: nanoseconds. -/
  interval : ℤ

def BucketLimiter.windowUs (l : BucketLimiter) : ℤ := spanUs l.interval

theorem BucketLimiter.windowUs_pos (l : BucketLimiter) : 0 < l.windowUs := spanUs_pos l.interval

/-- The counter of a window. -/
abbrev Key := Cell (Option ℤ)

def bucketTs (windowUs : ℤ) (clock : ℕ) : ℤ := nowUs clock / windowUs * windowUs

/-- `bucket.lua`. Returns whether the call is admitted, the counter, and how long to wait. -/
def bucket (limit windowUs ttl : ℤ) (clock : ℕ) (key : Key) : (ℤ × ℤ × ℤ) × Key :=
  let current := key.content.getD 0 + 1
  let key := (key.put (some current)).expireAt (lapse clock ttl)
  if current > limit then
    let key := key.put (some (current - 1))
    let resetAt := bucketTs windowUs clock + windowUs
    let retryInUs := resetAt - nowUs clock
    ((0, current - 1, retryInUs), key)
  else ((1, current, 0), key)

section Window

variable {windowUs : ℤ} (hwindow : 0 < windowUs) {t t' : ℕ}

include hwindow

theorem bucketTs_le (t : ℕ) : bucketTs windowUs t ≤ t := by
  rw [bucketTs, nowUs_eq]
  exact Int.ediv_mul_le _ hwindow.ne'

theorem lt_bucketTs_add (t : ℕ) : (t : ℤ) < bucketTs windowUs t + windowUs := by
  have hlt := Int.lt_ediv_add_one_mul_self (t : ℤ) hwindow
  rw [add_mul, one_mul] at hlt
  rwa [bucketTs, nowUs_eq]

theorem bucketTs_mono (h : t ≤ t') : bucketTs windowUs t ≤ bucketTs windowUs t' := by
  rw [bucketTs, bucketTs, nowUs_eq, nowUs_eq]
  exact Int.mul_le_mul_of_nonneg_right (Int.ediv_le_ediv hwindow (Int.ofNat_le.mpr h)) hwindow.le

theorem le_of_bucketTs_lt (h : bucketTs windowUs t < bucketTs windowUs t') : t ≤ t' := by
  by_contra hlt
  exact absurd (bucketTs_mono hwindow (not_le.mp hlt).le) h.not_ge

theorem bucketTs_eq (hle : t ≤ t') (hlt : (t' : ℤ) < bucketTs windowUs t + windowUs) :
    bucketTs windowUs t' = bucketTs windowUs t := by
  have hmono := bucketTs_mono hwindow hle
  have hstart := bucketTs_le hwindow t'
  rw [bucketTs, bucketTs] at *
  -- The starts are multiples of the window.
  have hquot : nowUs t' / windowUs < nowUs t / windowUs + 1 := by
    by_contra hge
    have hmul := Int.mul_le_mul_of_nonneg_right (not_lt.mp hge) hwindow.le
    rw [add_mul, one_mul] at hmul
    omega
  have hquot' : nowUs t / windowUs ≤ nowUs t' / windowUs := by
    by_contra hlt'
    exact absurd (Int.mul_lt_mul_of_pos_right (not_le.mp hlt') hwindow) hmono.not_gt
  rw [show nowUs t' / windowUs = nowUs t / windowUs by omega]

end Window

/-! ### The limiter as a machine -/

/-- One limiter name, with all its counters and the time of every call that was admitted. -/
structure World (κ : Type) where
  clock : ℕ
  counters : κ → Key
  admitted : List ℕ

inductive Event (κ : Type) where
  | tick (d : ℕ)
  | call
  | expire (k : κ)
  deriving DecidableEq, Repr

variable {κ : Type}

def World.init : World κ := ⟨0, fun _ => .absent, []⟩

namespace World

variable (l : BucketLimiter) (bucketKey : ℕ → κ)

def call (s : World κ) : (ℤ × ℤ × ℤ) × Key :=
  bucket l.limit l.windowUs (ttlSeconds l.windowUs) s.clock (s.counters (bucketKey s.clock))

def count (s : World κ) : ℕ :=
  (s.admitted.filter fun t => bucketTs l.windowUs t = bucketTs l.windowUs s.clock).length

def Permits (s : World κ) : Event κ → Prop
  | .expire k => (s.counters k).Due (nowMs s.clock)
  | _ => True

instance (s : World κ) : DecidablePred s.Permits
  | .expire k => inferInstanceAs (Decidable ((s.counters k).Due (nowMs s.clock)))
  | .tick _ | .call => inferInstanceAs (Decidable True)

variable [DecidableEq κ]

def step (s : World κ) : Event κ → World κ
  | .tick d => { s with clock := s.clock + d }
  | .call =>
    let (reply, key) := s.call l bucketKey
    { s with
      counters := Function.update s.counters (bucketKey s.clock) key
      admitted := if reply.1 = 1 then s.clock :: s.admitted else s.admitted }
  | .expire k => { s with counters := Function.update s.counters k .absent }

end World

def machine [DecidableEq κ] (l : BucketLimiter) (bucketKey : ℕ → κ) :
    Machine (World κ) (Event κ) where
  permits := World.Permits
  step := World.step l bucketKey

instance [DecidableEq κ] (l : BucketLimiter) (bucketKey : ℕ → κ) (s : World κ) (e : Event κ) :
    Decidable ((machine l bucketKey).permits s e) :=
  inferInstanceAs (Decidable (s.Permits e))

/-! ### The counter of the current window -/

/-- Up to some time, windows have the same key exactly if they are the same. -/
structure Separates (l : BucketLimiter) (bucketKey : ℕ → κ) (Before : ℕ → Prop) : Prop where
  lower : ∀ {t t' : ℕ}, t ≤ t' → Before t' → Before t
  same : ∀ {t t' : ℕ}, bucketTs l.windowUs t = bucketTs l.windowUs t' → bucketKey t = bucketKey t'
  inj : ∀ {t t' : ℕ}, Before t → Before t' → bucketKey t = bucketKey t' →
    bucketTs l.windowUs t = bucketTs l.windowUs t'

variable {l : BucketLimiter} {bucketKey : ℕ → κ} {Before : ℕ → Prop} {s : World κ}

/-- **The invariant.** -/
structure Counted (l : BucketLimiter) (bucketKey : ℕ → κ) (Before : ℕ → Prop) (s : World κ) :
    Prop where
  past : ∀ t ∈ s.admitted, t ≤ s.clock
  /-- The counter of the current window is what was admitted in it. -/
  current : Before s.clock → (s.counters (bucketKey s.clock)).content.getD 0 = s.count l
  /-- Its lifetime started in the window. -/
  deadline : Before s.clock → ∀ d ∈ (s.counters (bucketKey s.clock)).deadline,
    ∃ t : ℕ, bucketTs l.windowUs t = bucketTs l.windowUs s.clock ∧
      lapse t (ttlSeconds l.windowUs) ≤ d
  /-- The windows to come have no counters. -/
  future : ∀ t, Before t → bucketTs l.windowUs s.clock < bucketTs l.windowUs t →
    s.counters (bucketKey t) = .absent

theorem World.call_cases (l : BucketLimiter) (bucketKey : ℕ → κ) (s : World κ) :
    (l.limit ≤ (s.counters (bucketKey s.clock)).content.getD 0 ∧
      (s.call l bucketKey).1 = (0, (s.counters (bucketKey s.clock)).content.getD 0,
        bucketTs l.windowUs s.clock + l.windowUs - s.clock) ∧
      (s.call l bucketKey).2.content = some ((s.counters (bucketKey s.clock)).content.getD 0) ∧
      (s.call l bucketKey).2.deadline = some (lapse s.clock (ttlSeconds l.windowUs))) ∨
    ((s.counters (bucketKey s.clock)).content.getD 0 < l.limit ∧
      (s.call l bucketKey).1 = (1, (s.counters (bucketKey s.clock)).content.getD 0 + 1, 0) ∧
      (s.call l bucketKey).2.content = some ((s.counters (bucketKey s.clock)).content.getD 0 + 1) ∧
      (s.call l bucketKey).2.deadline = some (lapse s.clock (ttlSeconds l.windowUs))) := by
  have hput (c : Key) (n : ℤ) : c.put (some n) = { c with content := some n } := if_neg nofun
  have hexpire (c : Key) (n t : ℤ) :
      ({ c with content := some n } : Key).expireAt t = ⟨some n, some t⟩ := if_neg nofun
  simp only [World.call, bucket, hput, hexpire, nowUs_eq]
  by_cases hover : (s.counters (bucketKey s.clock)).content.getD 0 + 1 > l.limit
  · refine Or.inl ⟨by omega, ?_⟩
    rw [if_pos hover, add_sub_cancel_right]
    exact ⟨rfl, rfl, rfl⟩
  · refine Or.inr ⟨by omega, ?_⟩
    rw [if_neg hover]
    exact ⟨rfl, rfl, rfl⟩

namespace Counted

theorem init : Counted l bucketKey Before .init where
  past := fun _ h => absurd h List.not_mem_nil
  current := fun _ => rfl
  deadline := fun _ _ h => absurd h (Option.not_mem_none _)
  future := fun _ _ _ => rfl

theorem count_eq_zero (h : Counted l bucketKey Before s) {t : ℕ}
    (hlater : bucketTs l.windowUs s.clock < bucketTs l.windowUs t) :
    ({ s with clock := t } : World κ).count l = 0 := by
  refine List.length_eq_zero_iff.mpr (List.filter_eq_nil_iff.mpr fun a ha heq => ?_)
  have hle := bucketTs_mono l.windowUs_pos (h.past a ha)
  have heq : bucketTs l.windowUs a = bucketTs l.windowUs t := of_decide_eq_true heq
  exact absurd (hlater.trans_le (heq.symm.le.trans hle)) (lt_irrefl _)

theorem tick (h : Counted l bucketKey Before s) (hkey : Separates l bucketKey Before) (d : ℕ) :
    Counted l bucketKey Before { s with clock := s.clock + d } := by
  have hle := Nat.le_add_right s.clock d
  have hpast : ∀ t ∈ s.admitted, t ≤ s.clock + d := fun t ht => (h.past t ht).trans hle
  obtain hlater | hsame := (bucketTs_mono l.windowUs_pos hle).lt_or_eq
  · -- A new window.
    refine ⟨hpast, fun hb => ?_, fun hb t ht => ?_, fun t ht hlt => ?_⟩
    · rw [h.count_eq_zero hlater]
      change (s.counters (bucketKey (s.clock + d))).content.getD 0 = 0
      rw [h.future _ hb hlater]
      rfl
    · change t ∈ (s.counters (bucketKey (s.clock + d))).deadline at ht
      rw [h.future _ hb hlater] at ht
      cases ht
    · exact h.future t ht (hlater.trans hlt)
  · have hsameKey : bucketKey s.clock = bucketKey (s.clock + d) := hkey.same hsame
    have hcount : ({ s with clock := s.clock + d } : World κ).count l = s.count l := by
      unfold World.count
      rw [← hsame]
    refine ⟨hpast, fun hb => ?_, fun hb => ?_, fun t ht hlt => ?_⟩
    · rw [hcount, ← h.current (hkey.lower hle hb), hsameKey]
    · change ∀ t ∈ (s.counters (bucketKey (s.clock + d))).deadline, ∃ t' : ℕ,
        bucketTs l.windowUs t' = bucketTs l.windowUs (s.clock + d) ∧ _
      rw [← hsameKey, ← hsame]
      exact h.deadline (hkey.lower hle hb)
    · exact h.future t ht (lt_of_eq_of_lt hsame hlt)

/-- **A counter does not expire in its window.** -/
theorem not_due (h : Counted l bucketKey Before s) (hb : Before s.clock) :
    ¬ (s.counters (bucketKey s.clock)).Due (nowMs s.clock) := by
  rintro ⟨d, hd, hnow⟩
  obtain ⟨t, hsame, hlapse⟩ := h.deadline hb d hd
  have hover := add_span_le_of_lapse (hlapse.trans hnow)
  have hstart := bucketTs_le l.windowUs_pos t
  have hend := lt_bucketTs_add l.windowUs_pos s.clock
  omega

variable [DecidableEq κ]

theorem call (h : Counted l bucketKey Before s) (hkey : Separates l bucketKey Before) :
    Counted l bucketKey Before (s.step l bucketKey .call) := by
  have hfuture : ∀ t, Before t → bucketTs l.windowUs s.clock < bucketTs l.windowUs t →
      (s.step l bucketKey .call).counters (bucketKey t) = .absent := by
    intro t ht hlt
    have hnow := hkey.lower (le_of_bucketTs_lt l.windowUs_pos hlt) ht
    change Function.update s.counters (bucketKey s.clock) _ (bucketKey t) = _
    rw [Function.update_of_ne fun heq => hlt.ne (hkey.inj ht hnow heq).symm]
    exact h.future t ht hlt
  have hcounter : (s.step l bucketKey .call).counters (bucketKey s.clock) =
      (s.call l bucketKey).2 := Function.update_self _ _ _
  have hadmitted : (s.step l bucketKey .call).admitted =
      if (s.call l bucketKey).1.1 = 1 then s.clock :: s.admitted else s.admitted := rfl
  have hdeadline : (s.call l bucketKey).2.deadline =
      some (lapse s.clock (ttlSeconds l.windowUs)) := by
    obtain ⟨-, -, -, hdeadline⟩ | ⟨-, -, -, hdeadline⟩ := s.call_cases l bucketKey <;>
      exact hdeadline
  refine ⟨fun t ht => ?_, fun hb => ?_, fun _ d hd => ⟨s.clock, rfl, ?_⟩, hfuture⟩
  · rw [hadmitted] at ht
    split at ht
    · obtain rfl | ht := List.mem_cons.mp ht
      · exact le_rfl
      · exact h.past t ht
    · exact h.past t ht
  · have hcurrent := h.current hb
    change ((s.step l bucketKey .call).counters (bucketKey s.clock)).content.getD 0 =
      ((s.step l bucketKey .call).admitted.filter fun t =>
        bucketTs l.windowUs t = bucketTs l.windowUs s.clock).length
    rw [hcounter, hadmitted]
    obtain ⟨-, hreply, hcontent, -⟩ | ⟨-, hreply, hcontent, -⟩ := s.call_cases l bucketKey
    · rw [hcontent, hreply, if_neg (show (0 : ℤ) ≠ 1 by decide)]
      exact hcurrent
    · rw [hcontent, hreply, if_pos rfl, List.filter_cons_of_pos (by simp), List.length_cons,
        Nat.cast_add, Nat.cast_one, Option.getD_some, hcurrent]
      rfl
  · change d ∈ ((s.step l bucketKey .call).counters (bucketKey s.clock)).deadline at hd
    rw [hcounter, hdeadline] at hd
    exact (Option.some.inj hd).le

theorem expire (h : Counted l bucketKey Before s) {k : κ}
    (hdue : (s.counters k).Due (nowMs s.clock)) :
    Counted l bucketKey Before (s.step l bucketKey (.expire k)) := by
  have hother (hb : Before s.clock) : (s.step l bucketKey (.expire k)).counters
      (bucketKey s.clock) = s.counters (bucketKey s.clock) := by
    refine Function.update_of_ne ?_ _ _
    rintro rfl
    exact h.not_due hb hdue
  refine ⟨h.past, fun hb => ?_, fun hb => ?_, fun t ht hlt => ?_⟩
  · change ((s.step l bucketKey (.expire k)).counters (bucketKey s.clock)).content.getD 0 = _
    rw [hother hb]
    exact h.current hb
  · change ∀ d ∈ ((s.step l bucketKey (.expire k)).counters (bucketKey s.clock)).deadline, _
    rw [hother hb]
    exact h.deadline hb
  · change Function.update s.counters k .absent (bucketKey t) = .absent
    by_cases hk : bucketKey t = k
    · rw [hk, Function.update_self]
    · rw [Function.update_of_ne hk]
      exact h.future t ht hlt

theorem step (h : Counted l bucketKey Before s) (hkey : Separates l bucketKey Before) {e : Event κ}
    (he : (machine l bucketKey).permits s e) :
    Counted l bucketKey Before ((machine l bucketKey).step s e) := by
  cases e with
  | tick d => exact h.tick hkey d
  | call => exact h.call hkey
  | expire k => exact h.expire he

end Counted

end Senna.Ratelimit.Bucket
