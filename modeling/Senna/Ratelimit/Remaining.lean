import Mathlib.Data.List.DropRight
import Senna.Ratelimit.Bucket

/-!
# The two sides of the bucket limiter

`bucket.lua` counts in a key whose name ends with the start of the window, and `Remaining` of
`bucket.go` reads the key whose name ends with the start of the window. The script makes the name by
a concatenation, in which Lua writes a number with the format `%.14g` (`number`); Go writes it with
`%d`.

**A start of at least `10 ^ 14` is written in two ways.** With fourteen significant digits it has an
exponent, and every microsecond since March 1973 is such a number. So `Remaining` reads a key that
does not exist, and reports the limit. The fourteen digits are also all that tells two windows
apart, so of windows shorter than a hundred microseconds several share a counter.

Below `10 ^ 14` both sides write the same digits (`bucketKey_eq_iff`), and the keys separate the
windows in the sense of the machine (`separates_bucketKey`), so there `Remaining` is right. A window
that is longer than the time since 1970 has such a start.
-/

namespace Senna.Ratelimit.Bucket

/-! ### Numbers in Lua -/

/-- `n / d`, rounded to the nearest number, and to the even one of two that are equally near. -/
def roundHalfEven (n d : ℕ) : ℕ :=
  if 2 * (n % d) < d ∨ 2 * (n % d) = d ∧ n / d % 2 = 0 then n / d else n / d + 1

/-- What `%.14g` writes for a number without a fraction: its digits if there are at most fourteen;
else the first fourteen, rounded, with a point after the first one and without zeros at the end, and
an exponent. -/
def number (n : ℕ) : List Char :=
  if n < 10 ^ 14 then Nat.toDigits 10 n
  else
    let exponent := (Nat.toDigits 10 n).length - 1
    let rounded := roundHalfEven n (10 ^ (exponent - 13))
    -- Rounding up may carry into a new digit.
    let (mantissa, exponent) :=
      if rounded < 10 ^ 14 then (rounded, exponent) else (10 ^ 13, exponent + 1)
    let digits := Nat.toDigits 10 mantissa
    let fraction := (digits.drop 1).rdropWhile (· = '0')
    digits.take 1 ++ (if fraction = [] then [] else '.' :: fraction) ++
      'e' :: '+' :: Nat.toDigits 10 exponent

theorem number_of_lt {n : ℕ} (h : n < 10 ^ 14) : number n = Nat.toDigits 10 n := if_pos h

theorem mem_number {n : ℕ} (h : ¬ n < 10 ^ 14) : 'e' ∈ number n := by
  rw [number, if_neg h]
  exact List.mem_append_right _ List.mem_cons_self

theorem number_eq_iff (n : ℕ) : number n = Nat.toDigits 10 n ↔ n < 10 ^ 14 := by
  refine ⟨fun heq => ?_, number_of_lt⟩
  by_contra hlarge
  have hmem := mem_number hlarge
  rw [heq] at hmem
  exact absurd (Nat.isDigit_of_mem_toDigits (by decide) (by decide) hmem) (by decide)

/-! ### The keys -/

def bucketKey (keyPrefix name : String) (windowUs : ℤ) (clock : ℕ) : String :=
  (keyPrefix ++ ":" ++ name) ++ ":" ++ String.ofList (number (bucketTs windowUs clock).toNat)

/-- The key that `Remaining` reads: `fmt.Sprintf("%s:%s:%d", l.keyPrefix, l.name, bucketTs)`. -/
def remainingKey (keyPrefix name : String) (windowUs : ℤ) (clock : ℕ) : String :=
  keyPrefix ++ ":" ++ name ++ ":" ++
    String.ofList (Nat.toDigits 10 (bucketTs windowUs clock).toNat)

def World.remaining (l : BucketLimiter) (keyPrefix name : String) (s : World String) : ℤ :=
  match (s.counters (remainingKey keyPrefix name l.windowUs s.clock)).content with
  | none => l.limit
  | some val => l.limit - val

section Keys

variable {keyPrefix name : String} {windowUs : ℤ} (hwindow : 0 < windowUs) {t t' : ℕ}

theorem append_ofList_inj (k : String) {cs cs' : List Char} :
    k ++ String.ofList cs = k ++ String.ofList cs' ↔ cs = cs' := by
  rw [← String.toList_inj, String.toList_append, String.toList_append, String.toList_ofList,
    String.toList_ofList]
  exact List.append_right_inj _

include hwindow

theorem bucketTs_nonneg (t : ℕ) : 0 ≤ bucketTs windowUs t := by
  rw [bucketTs, nowUs_eq]
  exact mul_nonneg (Int.ediv_nonneg (Int.natCast_nonneg t) hwindow.le) hwindow.le

/-- **Both sides use the same key exactly if the start of the window has at most fourteen
digits.** -/
theorem bucketKey_eq_iff (t : ℕ) :
    bucketKey keyPrefix name windowUs t = remainingKey keyPrefix name windowUs t ↔
      bucketTs windowUs t < 10 ^ 14 := by
  have hnonneg := bucketTs_nonneg hwindow t
  rw [bucketKey, remainingKey, append_ofList_inj, number_eq_iff]
  omega

theorem bucketTs_eq_of_bucketKey_eq (ht : bucketTs windowUs t < 10 ^ 14)
    (ht' : bucketTs windowUs t' < 10 ^ 14)
    (h : bucketKey keyPrefix name windowUs t = bucketKey keyPrefix name windowUs t') :
    bucketTs windowUs t = bucketTs windowUs t' := by
  have hnonneg := bucketTs_nonneg hwindow t
  have hnonneg' := bucketTs_nonneg hwindow t'
  have hdigits := (append_ofList_inj _).mp h
  rw [number_of_lt (by omega), number_of_lt (by omega)] at hdigits
  have hvalue := congrArg (fun ds => Nat.ofDigitChars 10 ds 0) hdigits
  simp only [Nat.ofDigitChars_ten_toDigits] at hvalue
  omega

end Keys

theorem separates_bucketKey (l : BucketLimiter) (keyPrefix name : String) :
    Separates l (bucketKey keyPrefix name l.windowUs)
      (fun t => bucketTs l.windowUs t < 10 ^ 14) where
  lower := fun hle hlt => (bucketTs_mono l.windowUs_pos hle).trans_lt hlt
  same := fun heq => by rw [bucketKey, bucketKey, heq]
  inj := fun ht ht' heq => bucketTs_eq_of_bucketKey_eq l.windowUs_pos ht ht' heq

/-- **The two sides of the limiter agree while the start of the window has at most fourteen
digits.** The script and `Remaining` use the same key exactly then; different windows with such
starts have different keys; and in such a window, after every run, `Remaining` is the limit without
the calls that were admitted in the window. -/
theorem remaining_eq_limit_sub_admitted (keyPrefix name : String) :
    (∀ (windowUs : ℤ) (t : ℕ), 1 ≤ windowUs →
      (bucketKey keyPrefix name windowUs t = remainingKey keyPrefix name windowUs t ↔
        bucketTs windowUs t < 10 ^ 14)) ∧
    (∀ (windowUs : ℤ) (t t' : ℕ), 1 ≤ windowUs →
      bucketTs windowUs t < 10 ^ 14 → bucketTs windowUs t' < 10 ^ 14 →
      bucketTs windowUs t ≠ bucketTs windowUs t' →
      bucketKey keyPrefix name windowUs t ≠ bucketKey keyPrefix name windowUs t') ∧
    (∀ (l : BucketLimiter) (es : List (Event String)),
      (machine l (bucketKey keyPrefix name l.windowUs)).Legal .init es →
      let s := (machine l (bucketKey keyPrefix name l.windowUs)).run .init es
      bucketTs l.windowUs s.clock < 10 ^ 14 →
      s.remaining l keyPrefix name = l.limit - s.count l) := by
  refine ⟨fun windowUs t hwindow => ?_, fun windowUs t t' hwindow ht ht' hne heq => ?_, ?_⟩
  · exact bucketKey_eq_iff (by omega) t
  · exact hne (bucketTs_eq_of_bucketKey_eq (by omega) ht ht' heq)
  · intro l es legal s hsmall
    have hkey := separates_bucketKey l keyPrefix name
    have hcounted : Counted l (bucketKey keyPrefix name l.windowUs)
        (fun t => bucketTs l.windowUs t < 10 ^ 14) s :=
      legal.invariant (fun _ _ h he => h.step hkey he) .init
    have hcurrent := hcounted.current hsmall
    rw [← hcurrent, World.remaining, ← (bucketKey_eq_iff l.windowUs_pos s.clock).mpr hsmall]
    cases (s.counters (bucketKey keyPrefix name l.windowUs s.clock)).content with
    | none => exact (sub_zero _).symm
    | some val => rfl

def fiveASecond : BucketLimiter := ⟨5, 1000000000⟩

def callAt (t : ℕ) : List (Event String) := [.tick t, .call]

theorem remaining_callAt_zero :
    ((machine fiveASecond (bucketKey "k" "api" fiveASecond.windowUs)).run .init
        (callAt 7)).count fiveASecond = 1 ∧
      ((machine fiveASecond (bucketKey "k" "api" fiveASecond.windowUs)).run .init
        (callAt 7)).remaining fiveASecond "k" "api" = 5 - 1 := by
  have hlegal : (machine fiveASecond (bucketKey "k" "api" fiveASecond.windowUs)).Legal .init
      (callAt 7) := ⟨trivial, trivial, trivial⟩
  have hcount : ((machine fiveASecond (bucketKey "k" "api" fiveASecond.windowUs)).run .init
      (callAt 7)).count fiveASecond = 1 := by decide +kernel
  have hremaining := (remaining_eq_limit_sub_admitted "k" "api").2.2 fiveASecond (callAt 7) hlegal
    (by decide +kernel)
  rw [hcount] at hremaining
  exact ⟨hcount, hremaining⟩

/-- **In November 2023 the script counts in one key and `Remaining` reads another**, so one call
after the start of a window it still reports five. Of windows of ten microseconds, two share a
key. -/
theorem remaining_reads_another_key :
    bucketKey "k" "api" 1000000 1700000000000000 = "k:api:1.7e+15" ∧
      remainingKey "k" "api" 1000000 1700000000000000 = "k:api:1700000000000000" ∧
      (machine fiveASecond (bucketKey "k" "api" fiveASecond.windowUs)).Legal .init
        (callAt 1700000000000000) ∧
      ((machine fiveASecond (bucketKey "k" "api" fiveASecond.windowUs)).run .init
        (callAt 1700000000000000)).count fiveASecond = 1 ∧
      ((machine fiveASecond (bucketKey "k" "api" fiveASecond.windowUs)).run .init
        (callAt 1700000000000000)).remaining fiveASecond "k" "api" = 5 ∧
      bucketTs 10 1700000000000010 ≠ bucketTs 10 1700000000000020 ∧
      bucketKey "k" "api" 10 1700000000000010 = bucketKey "k" "api" 10 1700000000000020 := by
  refine ⟨by decide +kernel, by decide +kernel, ⟨trivial, trivial, trivial⟩, ?_⟩
  exact ⟨by decide +kernel, by decide +kernel, by decide +kernel, by decide +kernel⟩

end Senna.Ratelimit.Bucket
