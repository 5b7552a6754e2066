import Mathlib.Data.Int.Log
import Mathlib.Data.Rat.Floor

/-!
# Doubles

The numbers of a program that computes in doubles, as rational numbers: every operation gives the
exact result, **rounded to the nearest number with 53 binary digits**, and to the even one of two
that are equally near (`Double.round`). The exponent is not bounded, so there is no infinity and
nothing underflows.
-/

namespace Double

def nearest (x : ℚ) : ℤ :=
  if x - ⌊x⌋ < 1 / 2 ∨ x - ⌊x⌋ = 1 / 2 ∧ ⌊x⌋ % 2 = 0 then ⌊x⌋ else ⌊x⌋ + 1

def ulp (x : ℚ) : ℚ := 2 ^ (Int.log 2 |x| - 52)

def round (x : ℚ) : ℚ := nearest (x / ulp x) * ulp x

theorem ulp_pos (x : ℚ) : 0 < ulp x := zpow_pos (by norm_num) _

theorem ulp_le {x : ℚ} (hx : 0 < x) : ulp x ≤ x := by
  have hlog := Int.zpow_log_le_self (R := ℚ) (b := 2) (by norm_num) hx
  rw [ulp, abs_of_pos hx]
  exact (zpow_le_zpow_right₀ (by norm_num) (by omega)).trans hlog

theorem floor_le_nearest (x : ℚ) : ⌊x⌋ ≤ nearest x := by
  unfold nearest
  split <;> omega

theorem round_pos {x : ℚ} (hx : 0 < x) : 0 < round x := by
  have hfloor : 1 ≤ ⌊x / ulp x⌋ :=
    Int.le_floor.mpr (by exact_mod_cast (one_le_div (ulp_pos x)).mpr (ulp_le hx))
  have hnearest := hfloor.trans (floor_le_nearest _)
  exact mul_pos (by exact_mod_cast hnearest) (ulp_pos x)

/-- The longest `time.Duration` in microseconds has 54 digits, and the last one is not zero. -/
example : round 9223372036854775 = 9223372036854776 := by decide +kernel

end Double
