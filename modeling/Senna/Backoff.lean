import Mathlib.Tactic.Linarith
import Mathlib.Tactic.Ring
import Senna.System.Arith
import Senna.Worker.Result

/-!
# Backoff functions

`ExponentialBackoff` and `DefaultBackoff` on the 64-bit integers they compute with: an attempt is an
`int`, a delay is a `time.Duration`, the number of nanoseconds.

The delay of `DefaultBackoff` grows with the fourth power of the attempt and soon leaves the range
of a duration. Every operation that could overflow is preceded by a test, and a test that fails
makes the delay the longest one. In unbounded integers (`defaultBackoff`, which the worker's model
uses) the tests add up to one comparison of the polynomial with the limit (`defaultBackoff_eq`). The
computation on machine integers follows it step by step (`Follows`), and the tests keep it exact.

`ExponentialBackoff` doubles the base once for every attempt, until half the maximum is passed. The
body of its loop keeps `backoff ≤ maxBackoff`, and doubles a positive number, so the loop ends
within 63 iterations whatever the attempt is.
-/

namespace Senna

/-! ### The default delay in unbounded integers -/

section Unbounded

variable {a b : ℤ}

theorem checkedMulDurationSeconds_eq (hb : 0 ≤ b) :
    checkedMulDurationSeconds a b = if a * b ≤ maxDurationSeconds then some (a * b) else none := by
  unfold checkedMulDurationSeconds
  by_cases hzero : a = 0 ∨ b = 0
  · have hmul : a * b = 0 := Int.mul_eq_zero.mpr hzero
    rw [if_pos hzero, hmul, if_pos (by decide)]
  · have hpos : 0 < b := by omega
    have htest : a > maxDurationSeconds / b ↔ ¬ a * b ≤ maxDurationSeconds := by
      rw [gt_iff_lt, ← not_le, Int.le_ediv_iff_mul_le hpos]
    rw [if_neg hzero]
    simp only [htest, ite_not]

theorem checkedAddDurationSeconds_eq (a b : ℤ) :
    checkedAddDurationSeconds a b = if a + b ≤ maxDurationSeconds then some (a + b) else none := by
  unfold checkedAddDurationSeconds
  have htest : a > maxDurationSeconds - b ↔ ¬ a + b ≤ maxDurationSeconds := by omega
  simp only [htest, ite_not]

/-- The seconds of `DefaultBackoff`, before the limit. -/
def delaySeconds (attempt : ℤ) : ℤ := attempt ^ 4 + 10 * attempt + 15

theorem bind_test {m n : ℤ} (hmn : m ≤ n) {f : ℤ → Option ℤ}
    (hf : f m = if n ≤ maxDurationSeconds then some n else none) :
    ((if m ≤ maxDurationSeconds then some m else none) >>= f) =
      if n ≤ maxDurationSeconds then some n else none := by
  by_cases hm : m ≤ maxDurationSeconds
  · rw [if_pos hm]
    exact hf
  · rw [if_neg hm, if_neg fun hn => hm (hmn.trans hn)]
    rfl

/-- **One comparison.** A test fails only if the whole sum is past the limit. -/
theorem defaultBackoffSeconds_eq (ha : 0 ≤ a) :
    defaultBackoffSeconds a =
      if delaySeconds a ≤ maxDurationSeconds then some (delaySeconds a) else none := by
  have hsquare : 0 ≤ a * a := Int.mul_nonneg ha ha
  have hsquares : a * a ≤ a * a * (a * a) := sq (a * a) ▸ Int.le_self_sq (a * a)
  have hsum : a * a * (a * a) + a * 10 + 15 = delaySeconds a := by
    unfold delaySeconds
    ring
  rw [defaultBackoffSeconds, checkedMulDurationSeconds_eq ha]
  refine bind_test (by omega) ?_
  rw [checkedMulDurationSeconds_eq hsquare]
  refine bind_test (by omega) ?_
  rw [checkedMulDurationSeconds_eq (by decide)]
  refine bind_test (by omega) ?_
  rw [checkedAddDurationSeconds_eq]
  refine bind_test (by omega) ?_
  rw [checkedAddDurationSeconds_eq, hsum]

/-- **Saturation.** The delay is that of the polynomial if it fits, and the longest one otherwise. -/
theorem defaultBackoff_eq (attempt : ℤ) :
    defaultBackoff attempt =
      if delaySeconds (max attempt 0) * 10 ^ 9 ≤ maxDuration
      then delaySeconds (max attempt 0) * 10 ^ 9 else maxDuration := by
  have hmax : (if attempt < 0 then 0 else attempt) = max attempt 0 := by
    split <;> omega
  -- whole seconds fit if their nanoseconds do
  have hfits : delaySeconds (max attempt 0) * 10 ^ 9 ≤ maxDuration ↔
      delaySeconds (max attempt 0) ≤ maxDurationSeconds := by
    rw [maxDurationSeconds, Int.le_ediv_iff_mul_le (by decide)]
  rw [defaultBackoff, hmax, defaultBackoffSeconds_eq (le_max_right _ _)]
  by_cases h : delaySeconds (max attempt 0) ≤ maxDurationSeconds
  · rw [if_pos h, if_pos (hfits.mpr h)]
  · rw [if_neg h, if_neg (mt hfits.mp h)]

theorem delaySeconds_mono (ha : 0 ≤ a) (hab : a ≤ b) : delaySeconds a ≤ delaySeconds b := by
  have hpow : a ^ 4 ≤ b ^ 4 := pow_le_pow_left₀ ha hab 4
  unfold delaySeconds
  omega

theorem le_defaultBackoff (attempt : ℤ) : 15 * 10 ^ 9 ≤ defaultBackoff attempt := by
  have hzero : 15 ≤ delaySeconds (max attempt 0) := delaySeconds_mono le_rfl (le_max_right _ _)
  rw [defaultBackoff_eq]
  split
  · omega
  · decide

theorem defaultBackoff_mono (hab : a ≤ b) : defaultBackoff a ≤ defaultBackoff b := by
  have hdelay : delaySeconds (max a 0) ≤ delaySeconds (max b 0) :=
    delaySeconds_mono (le_max_right _ _) (max_le_max_right 0 hab)
  rw [defaultBackoff_eq, defaultBackoff_eq]
  split <;> split <;> omega

end Unbounded

namespace Backoff

open Arith

/-! ### `DefaultBackoff` on machine integers -/

def maxDuration : Int64 := Int64.ofInt Senna.maxDuration

def maxDurationSeconds : Int64 := Int64.ofInt Senna.maxDurationSeconds

def checkedMulDurationSeconds (a b : Int64) : OptionT Arith Int64 :=
  if a = 0 ∨ b = 0 then return 0
  else do
    let limit ← div maxDurationSeconds b
    if a > limit then failure else mul a b

def checkedAddDurationSeconds (a b : Int64) : OptionT Arith Int64 := do
  let limit ← sub maxDurationSeconds b
  if a > limit then failure else add a b

def defaultBackoffSeconds (attempt : Int64) : OptionT Arith Int64 := do
  let squared ← checkedMulDurationSeconds attempt attempt
  let fourth ← checkedMulDurationSeconds squared squared
  let linear ← checkedMulDurationSeconds attempt 10
  let secs ← checkedAddDurationSeconds fourth linear
  checkedAddDurationSeconds secs 15

def defaultBackoff (attempt : Int64) : Arith Int64 := do
  let attempt := if attempt < 0 then 0 else attempt
  match ← (defaultBackoffSeconds attempt).run with
  | none => return maxDuration
  | some secs => mul secs 1000000000

/-- A computation that runs exactly, to the integer that is computed without bounds. -/
def Follows (p : OptionT Arith Int64) (o : Option ℤ) : Prop :=
  ∃ r : Option Int64, p.run.Runs r 0 ∧ r.map Int64.toInt = o

section Follows

variable {a b : Int64}

theorem follows_failure : Follows failure none := ⟨none, runs_pure none, rfl⟩

theorem follows_lift {p : Arith Int64} {x : Int64} {n : ℤ} (h : p.Runs x 0) (hx : x.toInt = n) :
    Follows (OptionT.lift p) (some n) := by
  refine ⟨some x, ?_, congrArg some hx⟩
  show (p >>= fun x => pure (some x)).Runs (some x) 0
  exact h.seq (runs_pure (some x))

theorem Follows.bind {p : OptionT Arith Int64} {o : Option ℤ} {f : Int64 → OptionT Arith Int64}
    {g : ℤ → Option ℤ} (hp : Follows p o)
    (hf : ∀ x : Int64, o = some x.toInt → Follows (f x) (g x.toInt)) :
    Follows (p >>= f) (o >>= g) := by
  obtain ⟨r, hr, rfl⟩ := hp
  have hbind {r' : Option Int64} (h : (r.elim (pure none) fun x => (f x).run).Runs r' 0) :
      (p >>= f).run.Runs r' 0 := by
    rw [OptionT.run_bind]
    exact hr.seq h
  cases r with
  | none => exact ⟨none, hbind (runs_pure none), rfl⟩
  | some x =>
    obtain ⟨r', hr', heq⟩ := hf x rfl
    exact ⟨r', hbind hr', heq⟩

theorem toInt_maxDurationSeconds : maxDurationSeconds.toInt = Senna.maxDurationSeconds := by decide

theorem follows_test {p q : Arith Int64} {limit : Int64} {bound n : ℤ} (hp : p.Runs limit 0)
    (hlimit : limit.toInt = bound)
    (hq : a.toInt ≤ bound → ∃ result, q.Runs result 0 ∧ result.toInt = n) :
    Follows (do let limit ← p; if a > limit then failure else q)
      (if a.toInt > bound then none else some n) := by
  refine (follows_lift hp hlimit).bind
    (g := fun bound => if a.toInt > bound then none else some n) fun limit' heq => ?_
  have hbound : bound = limit'.toInt := Option.some.inj heq
  by_cases htest : a > limit'
  · rw [if_pos htest, if_pos (Int64.lt_iff_toInt_lt.mp htest)]
    exact follows_failure
  · have hle : a.toInt ≤ limit'.toInt := Int64.le_iff_toInt_le.mp (Int64.not_lt.mp htest)
    obtain ⟨result, hruns, hresult⟩ := hq (hbound ▸ hle)
    rw [if_neg htest, if_neg (Int.not_lt.mpr hle)]
    exact follows_lift hruns hresult

theorem follows_checkedMul (ha : 0 ≤ a.toInt) (hb : 0 ≤ b.toInt) :
    Follows (checkedMulDurationSeconds a b)
      (Senna.checkedMulDurationSeconds a.toInt b.toInt) := by
  have hzero : (a = 0 ∨ b = 0) ↔ (a.toInt = 0 ∨ b.toInt = 0) := by
    rw [← Int64.toInt_inj, ← Int64.toInt_inj]
    rfl
  unfold checkedMulDurationSeconds Senna.checkedMulDurationSeconds
  by_cases h : a = 0 ∨ b = 0
  · rw [if_pos h, if_pos (hzero.mp h)]
    exact ⟨some 0, runs_pure (some 0), rfl⟩
  · have hne : ¬ (a.toInt = 0 ∨ b.toInt = 0) := mt hzero.mpr h
    have hpos : 0 < b.toInt := by omega
    rw [if_neg h, if_neg hne]
    refine follows_test (runs_div hpos) ?_ fun hle => ?_
    · rw [Arith.toInt_div hpos, toInt_maxDurationSeconds, Int.tdiv_eq_ediv_of_nonneg (by decide)]
    · have hmul : a.toInt * b.toInt ≤ Senna.maxDurationSeconds :=
        (Int.le_ediv_iff_mul_le hpos).mp hle
      have hnonneg : 0 ≤ a.toInt * b.toInt := Int.mul_nonneg ha hb
      have hmax : Senna.maxDurationSeconds < 2 ^ 63 := by decide
      exact ⟨a * b, runs_mul (by omega) (by omega), Arith.toInt_mul (by omega) (by omega)⟩

theorem follows_checkedAdd (ha : 0 ≤ a.toInt) (hb : 0 ≤ b.toInt) :
    Follows (checkedAddDurationSeconds a b)
      (Senna.checkedAddDurationSeconds a.toInt b.toInt) := by
  have hmax : Senna.maxDurationSeconds < 2 ^ 63 := by decide
  have hpos : 0 ≤ Senna.maxDurationSeconds := by decide
  have htoInt := toInt_maxDurationSeconds
  have hb' := b.toInt_lt
  refine follows_test (runs_sub (by omega) (by omega)) ?_ fun hle => ?_
  · rw [Arith.toInt_sub (by omega) (by omega), htoInt]
  · exact ⟨a + b, runs_add (by omega) (by omega), Arith.toInt_add (by omega) (by omega)⟩

theorem follows_defaultBackoffSeconds (ha : 0 ≤ a.toInt) :
    Follows (defaultBackoffSeconds a) (Senna.defaultBackoffSeconds a.toInt) := by
  have hmul {x y z : ℤ} (hx : 0 ≤ x) (hy : 0 ≤ y)
      (hz : Senna.checkedMulDurationSeconds x y = some z) : 0 ≤ z := by
    rw [checkedMulDurationSeconds_eq hy] at hz
    obtain ⟨-, heq⟩ := Option.ite_none_right_eq_some.mp hz
    exact Option.some.inj heq ▸ Int.mul_nonneg hx hy
  have hadd {x y z : ℤ} (hx : 0 ≤ x) (hy : 0 ≤ y)
      (hz : Senna.checkedAddDurationSeconds x y = some z) : 0 ≤ z := by
    rw [checkedAddDurationSeconds_eq] at hz
    obtain ⟨-, heq⟩ := Option.ite_none_right_eq_some.mp hz
    exact Option.some.inj heq ▸ Int.add_nonneg hx hy
  refine (follows_checkedMul ha ha).bind fun squared hsquared => ?_
  have hsquared₀ := hmul ha ha hsquared
  refine (follows_checkedMul hsquared₀ hsquared₀).bind fun fourth hfourth => ?_
  have hfourth₀ := hmul hsquared₀ hsquared₀ hfourth
  refine (follows_checkedMul ha (by decide)).bind fun linear hlinear => ?_
  have hlinear₀ := hmul ha (by decide) hlinear
  refine (follows_checkedAdd hfourth₀ hlinear₀).bind fun secs hsecs => ?_
  exact follows_checkedAdd (hadd hfourth₀ hlinear₀ hsecs) (by decide)

end Follows

/-- **The machine computes the default delay exactly.** -/
theorem runs_defaultBackoff (attempt : Int64) :
    ∃ d, (defaultBackoff attempt).Runs d 0 ∧ d.toInt = Senna.defaultBackoff attempt.toInt := by
  generalize ha : (if attempt < 0 then 0 else attempt) = a
  have hcast : a.toInt = if attempt.toInt < 0 then 0 else attempt.toInt := by
    have hneg : attempt < 0 ↔ attempt.toInt < 0 := Int64.lt_iff_toInt_lt
    rw [← ha, apply_ite Int64.toInt, Int64.toInt_zero]
    simp only [hneg]
  have hnonneg : 0 ≤ a.toInt := by
    rw [hcast]
    split <;> omega
  obtain ⟨r, hr, heq⟩ := follows_defaultBackoffSeconds hnonneg
  unfold defaultBackoff Senna.defaultBackoff
  rw [ha, ← hcast, ← heq]
  cases r with
  | none =>
    refine ⟨maxDuration, ?_, by decide⟩
    exact hr.seq (runs_pure maxDuration)
  | some secs =>
    -- the seconds have passed the last test
    rw [defaultBackoffSeconds_eq hnonneg] at heq
    obtain ⟨hle, hsecs⟩ := Option.ite_none_right_eq_some.mp heq.symm
    have hsecs : delaySeconds a.toInt = secs.toInt := Option.some.inj hsecs
    have hpos : delaySeconds 0 ≤ delaySeconds a.toInt := delaySeconds_mono le_rfl hnonneg
    have hzero : delaySeconds 0 = 15 := by decide
    have hmax : Senna.maxDurationSeconds * 1000000000 < 2 ^ 63 := by decide
    have hsecond : (1000000000 : Int64).toInt = 1000000000 := by decide
    refine ⟨secs * 1000000000, hr.seq (runs_mul ?_ ?_), Arith.toInt_mul ?_ ?_⟩
    all_goals
      rw [hsecond]
      omega

/-- **The default delay.** For every attempt the computation runs without overflow or division by
zero, to the polynomial in seconds if that is a duration and to the longest duration otherwise. It
is at least 15 seconds and does not decrease from one attempt to a later one. -/
theorem defaultBackoff_saturates (attempt : Int64) :
    ∃ d, (defaultBackoff attempt).Runs d 0 ∧
      (d.toInt =
        let a := max attempt.toInt 0
        let secs := a ^ 4 + 10 * a + 15
        if secs * 10 ^ 9 ≤ 2 ^ 63 - 1 then secs * 10 ^ 9 else 2 ^ 63 - 1) ∧
      15 * 10 ^ 9 ≤ d.toInt ∧
      ∀ attempt' d', attempt ≤ attempt' → (defaultBackoff attempt').value = some d' → d ≤ d' := by
  obtain ⟨d, hruns, hd⟩ := runs_defaultBackoff attempt
  refine ⟨d, hruns, hd.trans (defaultBackoff_eq _), hd ▸ le_defaultBackoff _, ?_⟩
  intro attempt' d' hle hvalue
  obtain ⟨d'', hruns', hd'⟩ := runs_defaultBackoff attempt'
  obtain rfl : d'' = d' := Option.some.inj (hruns'.value.symm.trans hvalue)
  rw [Int64.le_iff_toInt_le, hd, hd']
  exact defaultBackoff_mono (Int64.le_iff_toInt_le.mp hle)

/-! ### `ExponentialBackoff` -/

/-- The loop of `ExponentialBackoff`, with the number of iterations that `range` has left. -/
def doubling (maxBackoff : Int64) : ℕ → Int64 → Arith Int64
  | 0, backoff => pure backoff
  | n + 1, backoff => do
    iteration
    let half ← div maxBackoff 2
    if backoff > half then return maxBackoff
    else
      let backoff ← mul backoff 2
      doubling maxBackoff n backoff

def exponentialBackoff (base maxBackoff attempt : Int64) : Arith Int64 :=
  if base ≤ 0 ∨ attempt ≤ 0 then
    if base > maxBackoff then pure maxBackoff else pure base
  else if maxBackoff ≤ base then pure maxBackoff
  else doubling maxBackoff attempt.toInt.toNat base

/-- **The loop.** The delay stays positive and at most the maximum, so nothing overflows. Every
iteration but the last one doubles it, which bounds their number by the last conjunct. -/
theorem runs_doubling (maxBackoff : Int64) (n : ℕ) {backoff : Int64} (hpos : 0 < backoff.toInt)
    (hle : backoff.toInt ≤ maxBackoff.toInt) :
    ∃ d k, (doubling maxBackoff n backoff).Runs d k ∧
      d.toInt = min (backoff.toInt * 2 ^ n) maxBackoff.toInt ∧
      backoff.toInt * 2 ^ k ≤ 2 * maxBackoff.toInt := by
  have htwo : (2 : Int64).toInt = 2 := by decide
  have hhalf : (maxBackoff / 2).toInt = maxBackoff.toInt / 2 := by
    rw [Arith.toInt_div (by decide), htwo, Int.tdiv_eq_ediv_of_nonneg (by omega)]
  have hmax := maxBackoff.toInt_lt
  induction n generalizing backoff with
  | zero =>
    refine ⟨backoff, 0, runs_pure backoff, ?_, by omega⟩
    rw [pow_zero, mul_one, min_eq_left hle]
  | succ n ih =>
    by_cases htest : backoff > maxBackoff / 2
    · -- twice the delay is too much, and what is asked for is at least that
      refine ⟨maxBackoff, 1, ?_, ?_, by omega⟩
      · refine runs_iteration.bind (n := 0) ((runs_div (by decide)).seq ?_)
        rw [if_pos htest]
        exact runs_pure maxBackoff
      · have hgt : maxBackoff.toInt / 2 < backoff.toInt := by
          rw [← hhalf]
          exact Int64.lt_iff_toInt_lt.mp htest
        have hpow : (1 : ℤ) ≤ 2 ^ n := one_le_pow₀ (by decide)
        have hmore : backoff.toInt * 2 ≤ backoff.toInt * 2 ^ (n + 1) := by
          rw [pow_succ]
          nlinarith
        rw [min_eq_right (by omega)]
    · have hdouble : backoff.toInt ≤ maxBackoff.toInt / 2 := by
        rw [← hhalf]
        exact Int64.le_iff_toInt_le.mp (Int64.not_lt.mp htest)
      have hmul : (backoff * 2).toInt = backoff.toInt * 2 :=
        Arith.toInt_mul (by rw [htwo]; omega) (by rw [htwo]; omega)
      obtain ⟨d, k, hruns, hd, hk⟩ := @ih (backoff * 2) (by omega) (by omega)
      refine ⟨d, 1 + k, ?_, ?_, ?_⟩
      · refine runs_iteration.bind ((runs_div (by decide)).seq ?_)
        rw [if_neg htest]
        exact (runs_mul (by rw [htwo]; omega) (by rw [htwo]; omega)).seq hruns
      · rw [hd, hmul, pow_succ', mul_assoc]
      · rw [hmul, mul_assoc] at hk
        rw [pow_add, pow_one]
        exact hk

theorem runs_exponentialBackoff (maxBackoff : Int64) {base attempt : Int64} (hbase : 0 < base)
    (hattempt : 0 ≤ attempt) :
    ∃ d n, (exponentialBackoff base maxBackoff attempt).Runs d n ∧ n ≤ 63 ∧
      d.toInt = min (base.toInt * 2 ^ attempt.toInt.toNat) maxBackoff.toInt := by
  have hpos : 0 < base.toInt := Int64.lt_iff_toInt_lt.mp hbase
  have hpow : (1 : ℤ) ≤ 2 ^ attempt.toInt.toNat := one_le_pow₀ (by decide)
  have hbase' : base.toInt ≤ base.toInt * 2 ^ attempt.toInt.toNat := by nlinarith
  unfold exponentialBackoff
  by_cases hfirst : base ≤ 0 ∨ attempt ≤ 0
  · -- the base is positive, so this is the attempt 0
    have hzero : attempt = 0 := by
      rcases hfirst with h | h
      · exact absurd hbase (Int64.not_lt.mpr h)
      · exact Int64.le_antisymm h hattempt
    have hone : (2 : ℤ) ^ attempt.toInt.toNat = 1 := by rw [hzero]; rfl
    rw [if_pos hfirst, hone, mul_one]
    by_cases hcap : base > maxBackoff
    · rw [if_pos hcap]
      have hlt : maxBackoff.toInt < base.toInt := Int64.lt_iff_toInt_lt.mp hcap
      exact ⟨maxBackoff, 0, runs_pure maxBackoff, by decide, (min_eq_right hlt.le).symm⟩
    · rw [if_neg hcap]
      have hle : base.toInt ≤ maxBackoff.toInt := Int64.le_iff_toInt_le.mp (Int64.not_lt.mp hcap)
      exact ⟨base, 0, runs_pure base, by decide, (min_eq_left hle).symm⟩
  · rw [if_neg hfirst]
    by_cases hcap : maxBackoff ≤ base
    · rw [if_pos hcap]
      have hle : maxBackoff.toInt ≤ base.toInt := Int64.le_iff_toInt_le.mp hcap
      exact ⟨maxBackoff, 0, runs_pure maxBackoff, by decide, (min_eq_right (by omega)).symm⟩
    · rw [if_neg hcap]
      have hle : base.toInt ≤ maxBackoff.toInt :=
        (Int64.lt_iff_toInt_lt.mp (Int64.not_le.mp hcap)).le
      obtain ⟨d, k, hruns, hd, hk⟩ := runs_doubling maxBackoff attempt.toInt.toNat hpos hle
      refine ⟨d, k, hruns, ?_, hd⟩
      -- after 64 doublings even the delay 1 would be too long
      have hmax := maxBackoff.toInt_lt
      have hpow : (2 : ℤ) ^ k < 2 ^ 64 := by nlinarith [pow_pos (by decide : (0 : ℤ) < 2) k]
      have hlt : k < 64 := (pow_lt_pow_iff_right₀ (by decide)).mp hpow
      omega

/-- **The capped power.** For a positive base, whatever the maximum and the attempt are, the
computation runs without overflow, within 63 iterations of its loop, to the smaller of
`base * 2 ^ attempt` and the maximum. So the delay is never above the maximum and does not decrease
from one attempt to a later one. -/
theorem exponentialBackoff_eq_min (base maxBackoff attempt : Int64) (hbase : 0 < base)
    (hattempt : 0 ≤ attempt) :
    ∃ d n, (exponentialBackoff base maxBackoff attempt).Runs d n ∧ n ≤ 63 ∧
      d.toInt = min (base.toInt * 2 ^ attempt.toInt.toNat) maxBackoff.toInt ∧
      d ≤ maxBackoff ∧
      ∀ attempt' d', attempt ≤ attempt' →
        (exponentialBackoff base maxBackoff attempt').value = some d' → d ≤ d' := by
  obtain ⟨d, n, hruns, hn, hd⟩ := runs_exponentialBackoff maxBackoff hbase hattempt
  refine ⟨d, n, hruns, hn, hd, ?_, ?_⟩
  · rw [Int64.le_iff_toInt_le, hd]
    exact min_le_right _ _
  · intro attempt' d' hle hvalue
    obtain ⟨d'', n', hruns', -, hd'⟩ := runs_exponentialBackoff maxBackoff hbase
      (Int64.le_trans hattempt hle)
    obtain rfl : d'' = d' := Option.some.inj (hruns'.value.symm.trans hvalue)
    have hlater : attempt.toInt.toNat ≤ attempt'.toInt.toNat :=
      Int.toNat_le_toNat (Int64.le_iff_toInt_le.mp hle)
    have hpos : 0 < base.toInt := Int64.lt_iff_toInt_lt.mp hbase
    rw [Int64.le_iff_toInt_le, hd, hd']
    gcongr
    exact one_le_two

theorem exponentialBackoff_eq_min_eightSeconds :
    (exponentialBackoff 1000000000 60000000000 3).value = some 8000000000 ∧
      ∃ d n, (exponentialBackoff 1000000000 60000000000 3).Runs d n ∧ n ≤ 63 ∧
        d.toInt = min ((1000000000 : Int64).toInt * 2 ^ (3 : Int64).toInt.toNat)
          (60000000000 : Int64).toInt ∧
        d ≤ 60000000000 ∧
        ∀ attempt' d', 3 ≤ attempt' →
          (exponentialBackoff 1000000000 60000000000 attempt').value = some d' → d ≤ d' :=
  ⟨by decide, exponentialBackoff_eq_min 1000000000 60000000000 3 (by decide) (by decide)⟩

end Backoff

end Senna
