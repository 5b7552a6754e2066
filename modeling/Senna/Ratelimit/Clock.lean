import Mathlib.Data.Int.Notation
import Mathlib.Tactic.Common

/-!
# Durations and the clock of the limiters

All limiters take their time from the `TIME` command of the server, so there is one clock for all
processes; it counts microseconds. What an instance brings along is a Go duration, in nanoseconds,
and the lifetime of its keys in whole seconds.

**A key lives at least as long as what it remembers matters.** The bucket, window, leaky and points
limiters give their key twice their span, rounded down to seconds but at least one
(`ttlSeconds`), and that is never less than the span (`le_ttlSeconds`). The server keeps deadlines
in milliseconds and removes a key when the deadline is over (`lapse`), so nothing is lost to
rounding either (`add_ttl_le_of_lapse`).
-/

namespace Senna.Ratelimit

/-! ### Durations -/

def milliseconds (d : ℤ) : ℤ := d.tdiv 1000000

def microseconds (d : ℤ) : ℤ := d.tdiv 1000

/-- The span of a limiter in microseconds, at least one: `windowUs`, `drainTimeUs` and
`refillTimeUs`. -/
def spanUs (d : ℤ) : ℤ := if microseconds d < 1 then 1 else microseconds d

theorem spanUs_pos (d : ℤ) : 0 < spanUs d := by
  unfold spanUs
  split <;> omega

def ttlSeconds (us : ℤ) : ℤ :=
  let ttl := (us * 2).tdiv 1000000
  if ttl < 1 then 1 else ttl

/-- **The lifetime of the key is no shorter than the span.** -/
theorem le_ttlSeconds (us : ℤ) : us ≤ ttlSeconds us * 1000000 := by
  unfold ttlSeconds
  by_cases hus : 0 ≤ us
  · have hdiv : (us * 2).tdiv 1000000 = us * 2 / 1000000 :=
      Int.tdiv_eq_ediv_of_nonneg (by omega)
    simp only [hdiv]
    split <;> omega
  · dsimp only
    split <;> omega

/-! ### The clock -/

def time (clock : ℕ) : ℕ × ℕ := (clock / 1000000, clock % 1000000)

def nowMs (clock : ℕ) : ℤ := (time clock).1 * 1000 + ((time clock).2 / 1000 : ℕ)

theorem nowMs_eq (clock : ℕ) : nowMs clock = (clock / 1000 : ℕ) := by
  simp only [nowMs, time]
  omega

theorem nowMs_mono {clock clock' : ℕ} (h : clock ≤ clock') : nowMs clock ≤ nowMs clock' := by
  rw [nowMs_eq, nowMs_eq]
  omega

/-- The deadline `EXPIRE` sets. -/
def expiry (clock : ℕ) (ttl : ℤ) : ℤ := nowMs clock + ttl * 1000

def nowUs (clock : ℕ) : ℤ := (time clock).1 * 1000000 + (time clock).2

theorem nowUs_eq (clock : ℕ) : nowUs clock = clock := by
  simp only [nowUs, time]
  omega

def lapse (clock : ℕ) (ttl : ℤ) : ℤ := expiry clock ttl + 1

theorem add_ttl_le_of_lapse {clock now : ℕ} {ttl : ℤ} (h : lapse clock ttl ≤ nowMs now) :
    (clock : ℤ) + ttl * 1000000 ≤ now := by
  unfold lapse expiry at h
  rw [nowMs_eq, nowMs_eq] at h
  omega

/-- **When a key is taken for expired, its span has passed** since the deadline was set. -/
theorem add_span_le_of_lapse {clock now : ℕ} {us : ℤ}
    (h : lapse clock (ttlSeconds us) ≤ nowMs now) : (clock : ℤ) + us ≤ now := by
  have hover := add_ttl_le_of_lapse h
  have hspan := le_ttlSeconds us
  omega

theorem lapse_mono {clock clock' : ℕ} (h : clock ≤ clock') (ttl : ℤ) :
    lapse clock ttl ≤ lapse clock' ttl := by
  have hms := nowMs_mono h
  unfold lapse expiry
  omega

end Senna.Ratelimit
