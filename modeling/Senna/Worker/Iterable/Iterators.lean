import Mathlib.Tactic.Linarith
import Mathlib.Tactic.Ring
import Senna.Job.Normal
import Senna.System.Iterator

/-!
# The built-in iterators

`RangeIterator` and `SliceIterator`, for handlers of iterable jobs. Both stand one place before their
first item and move on before they look, and both give as cursor the place after the current one.
The integers are the machine's, so all of this wraps around.

For a slice that does no harm: an index is less than the length. A range may end near the last
integer, and then `Next` steps over the end and finds itself at the other side, **before the end
again** (`before_of_wrapped`). So a `RangeIterator` enumerates its range, and resumes at every
cursor, exactly when the first value that is not before the end is an `int64` (`RangeExact`).
-/

namespace Senna

namespace Iterators

/-! ### Cursors -/

/-- `Cursor`: nil, or a JSON text. -/
abbrev Cursor := Option String

def cursorFrom (n : Int64) : Cursor := some (Json.int n.toInt).render

/-- `CursorTo[int64]`. -/
def cursorTo : Cursor → Option Int64
  | none => some 0
  | some text => do
    let v ← Json.parse text
    let n ← readInt 0 v
    return Int64.ofInt n

theorem cursorTo_cursorFrom (n : Int64) : cursorTo (cursorFrom n) = some n := by
  have hlow := n.le_toInt
  have hhigh := n.toInt_lt
  have hread : readInt 0 (Json.int n.toInt) = some n.toInt := by
    simp only [readInt, Json.int, Json.Number.toInt?_ofInt]
    exact if_pos (by simpa using ⟨hlow, hhigh⟩)
  simp [cursorTo, cursorFrom, hread]

/-! ### `RangeIterator` -/

/-- `rangeIterator`. -/
structure RangeIterator where
  current : Int64
  stop : Int64
  step : Int64
  deriving DecidableEq, Repr

def stepOf (step : Int64) : Int64 := if step = 0 then 1 else step

def rangeIterator (start stop step : Int64) : RangeIterator where
  current := start - stepOf step
  stop := stop
  step := stepOf step

namespace RangeIterator

def next (it : RangeIterator) : Bool × RangeIterator :=
  let it := { it with current := it.current + it.step }
  (if it.step > 0 then it.current < it.stop else it.current > it.stop, it)

def item (it : RangeIterator) : Int64 := it.current

def cursor (it : RangeIterator) : Cursor := cursorFrom (it.current + it.step)

end RangeIterator

def ranges : PullIterator RangeIterator Int64 where
  next := RangeIterator.next
  item := RangeIterator.item

def Before (stop step v : ℤ) : Prop := if 0 < step then v < stop else stop < v

instance (stop step v : ℤ) : Decidable (Before stop step v) :=
  inferInstanceAs (Decidable (if 0 < step then v < stop else stop < v))

/-- The integers that are items of a range with `n` items. -/
def rangeItems (start step : ℤ) (n : ℕ) : List ℤ := (List.range n).map fun i : ℕ => start + i * step

/-- The iterator of a range with `n` items yields these, and after any number of them, the iterator
that is built from the cursor yields the rest. -/
structure RangeExact (start stop step : Int64) (n : ℕ) : Prop where
  yields : ∃ items, ranges.Yields (rangeIterator start stop step) items ∧
    items.map Int64.toInt = rangeItems start.toInt (stepOf step).toInt n
  resumes : ∀ k ≤ n, ∃ cursor items,
    cursorTo (ranges.after k (rangeIterator start stop step)).cursor = some cursor ∧
      ranges.Yields (rangeIterator cursor stop step) items ∧
      items.map Int64.toInt =
        (rangeItems start.toInt (stepOf step).toInt n).drop k

section Ends

variable {start stop step : ℤ} {n : ℕ}

theorem drop_rangeItems (start step : ℤ) (n k : ℕ) :
    (rangeItems start step n).drop k = rangeItems (start + k * step) step (n - k) := by
  refine List.ext_getElem (by simp [rangeItems]) fun i _ _ => ?_
  simp only [rangeItems, List.getElem_drop, List.getElem_map, List.getElem_range]
  push_cast
  ring

theorem before_of_pos (hstep : 0 < step) (v : ℤ) : Before stop step v ↔ v < stop := by
  rw [Before, if_pos hstep]

theorem before_of_neg (hstep : step < 0) (v : ℤ) : Before stop step v ↔ stop < v := by
  rw [Before, if_neg (by omega)]

theorem Before.mono (hstep : step ≠ 0) {i j : ℕ} (hij : i ≤ j)
    (h : Before stop step (start + j * step)) : Before stop step (start + i * step) := by
  have hle : (i : ℤ) ≤ j := by exact_mod_cast hij
  rcases lt_or_gt_of_ne hstep with hneg | hpos
  · rw [before_of_neg hneg] at h ⊢
    nlinarith
  · rw [before_of_pos hpos] at h ⊢
    nlinarith

theorem exists_length (start stop : ℤ) (hstep : step ≠ 0) :
    ∃ n : ℕ, ∀ i : ℕ, i < n ↔ Before stop step (start + i * step) := by
  have hend : ∃ i : ℕ, ¬ Before stop step (start + i * step) := by
    refine ⟨(stop - start).natAbs, ?_⟩
    have habs : ((stop - start).natAbs : ℤ) = |stop - start| := Int.natCast_natAbs _
    rw [habs]
    rcases lt_or_gt_of_ne hstep with hneg | hpos
    · rw [before_of_neg hneg]
      nlinarith [neg_abs_le (stop - start), abs_nonneg (stop - start)]
    · rw [before_of_pos hpos]
      nlinarith [le_abs_self (stop - start), abs_nonneg (stop - start)]
  refine ⟨Nat.find hend, fun i => ⟨fun hi => not_not.mp (Nat.find_min hend hi), fun hbefore => ?_⟩⟩
  by_contra hi
  exact Nat.find_spec hend (hbefore.mono hstep (Nat.not_lt.mp hi))

theorem Before.between (hstep : step ≠ 0) {i : ℕ} (h : Before stop step (start + i * step)) :
    min start stop ≤ start + i * step ∧ start + i * step ≤ max start stop := by
  rcases lt_or_gt_of_ne hstep with hneg | hpos
  · rw [before_of_neg hneg] at h
    have : (i : ℤ) * step ≤ 0 := by nlinarith
    omega
  · rw [before_of_pos hpos] at h
    have : 0 ≤ (i : ℤ) * step := by positivity
    omega

/-- **Stepping over the end.** The step from a value before the end past the last integer leads to a
value before the end. -/
theorem before_of_wrapped {v : ℤ} (hstep : step ≠ 0) (hlow : -2 ^ 63 ≤ step) (hhigh : step < 2 ^ 63)
    (hv : InInt64 v) (h : Before stop step v) (hout : ¬ InInt64 (v + step)) :
    Before stop step (Int64.ofInt (v + step)).toInt := by
  unfold InInt64 at hv hout
  rw [Int64.toInt_ofInt, Int.bmod_def]
  rcases lt_or_gt_of_ne hstep with hneg | hpos
  · rw [before_of_neg hneg] at h ⊢
    simp only [Int64.size]
    split <;> omega
  · rw [before_of_pos hpos] at h ⊢
    simp only [Int64.size]
    split <;> omega

end Ends

section Range

variable {start stop step : Int64}

theorem stepOf_ne_zero (step : Int64) : (stepOf step).toInt ≠ 0 := by
  intro h
  have hzero : stepOf step = 0 := Int64.toInt_inj.mp h
  unfold stepOf at hzero
  split at hzero
  · exact absurd hzero (by decide)
  · contradiction

theorem after_rangeIterator (start stop step : Int64) (k : ℕ) :
    ranges.after k (rangeIterator start stop step) =
      { current := Int64.ofInt (start.toInt - (stepOf step).toInt + k * (stepOf step).toInt)
        stop := stop
        step := stepOf step } := by
  induction k with
  | zero => simp [rangeIterator, Int64.ofInt_sub]
  | succ k ih =>
    have hcurrent : Int64.ofInt (start.toInt - (stepOf step).toInt + k * (stepOf step).toInt) +
        stepOf step =
        Int64.ofInt (start.toInt - (stepOf step).toInt + (k + 1 : ℕ) * (stepOf step).toInt) := by
      rw [Nat.cast_add_one, add_one_mul, ← add_assoc, Int64.ofInt_add _ (stepOf step).toInt,
        Int64.ofInt_toInt]
    rw [PullIterator.after_succ', ih, ← hcurrent]
    rfl

theorem next_eq_true_iff (it : RangeIterator) :
    (ranges.next it).1 = true ↔
      Before it.stop.toInt it.step.toInt (ranges.next it).2.current.toInt := by
  have hpos : it.step > 0 ↔ 0 < it.step.toInt := Int64.lt_iff_toInt_lt
  unfold Before
  simp only [ranges, RangeIterator.next, hpos]
  split
  · rw [decide_eq_true_iff]
    exact Int64.lt_iff_toInt_lt
  · rw [decide_eq_true_iff]
    exact Int64.lt_iff_toInt_lt

theorem current_after_succ (start stop step : Int64) (k : ℕ) :
    (ranges.after (k + 1) (rangeIterator start stop step)).current =
      Int64.ofInt (start.toInt + k * (stepOf step).toInt) := by
  rw [after_rangeIterator]
  exact congrArg Int64.ofInt (by push_cast; ring)

theorem next_after_iff (start stop step : Int64) (k : ℕ) :
    (ranges.next (ranges.after k (rangeIterator start stop step))).1 = true ↔
      Before stop.toInt (stepOf step).toInt
        (Int64.ofInt (start.toInt + k * (stepOf step).toInt)).toInt := by
  rw [next_eq_true_iff, ← PullIterator.after_succ', current_after_succ, after_rangeIterator]

theorem cursor_after (stop : Int64) (k : ℕ)
    (hfits : InInt64 (start.toInt + k * (stepOf step).toInt)) :
    ∃ cursor, cursorTo (ranges.after k (rangeIterator start stop step)).cursor = some cursor ∧
      cursor.toInt = start.toInt + k * (stepOf step).toInt := by
  refine ⟨_, cursorTo_cursorFrom _, ?_⟩
  rw [← Int64.toInt_ofInt_of_le hfits.1 hfits.2, ← current_after_succ start stop step k,
    PullIterator.after_succ']
  rfl

section Exact

variable {n : ℕ}
  (hn : ∀ i : ℕ, i < n ↔ Before stop.toInt (stepOf step).toInt
    (start.toInt + i * (stepOf step).toInt))

include hn

theorem inInt64_of_lt {i : ℕ} (hi : i < n) : InInt64 (start.toInt + i * (stepOf step).toInt) := by
  have hbetween := ((hn i).mp hi).between (stepOf_ne_zero step)
  have hstart := start.le_toInt
  have hstart' := start.toInt_lt
  have hstop := stop.le_toInt
  have hstop' := stop.toInt_lt
  unfold InInt64
  omega

theorem inInt64_of_le (hfits : InInt64 (start.toInt + n * (stepOf step).toInt)) {i : ℕ}
    (hi : i ≤ n) : InInt64 (start.toInt + i * (stepOf step).toInt) := by
  rcases Nat.lt_or_eq_of_le hi with hlt | rfl
  · exact inInt64_of_lt hn hlt
  · exact hfits

theorem yields_of_fits (hfits : InInt64 (start.toInt + n * (stepOf step).toInt)) :
    ∃ items, ranges.Yields (rangeIterator start stop step) items ∧
      items.map Int64.toInt = rangeItems start.toInt (stepOf step).toInt n := by
  have hitem {i : ℕ} (hi : i ≤ n) :
      (Int64.ofInt (start.toInt + i * (stepOf step).toInt)).toInt =
        start.toInt + i * (stepOf step).toInt := by
    have hin := inInt64_of_le hn hfits hi
    exact Int64.toInt_ofInt_of_le hin.1 hin.2
  refine ⟨(List.range n).map fun i : ℕ => Int64.ofInt (start.toInt + i * (stepOf step).toInt),
    PullIterator.yields_range _ (fun i hi => ?_) (fun i _ => ?_) ?_, ?_⟩
  · rw [next_after_iff, hitem hi.le]
    exact (hn i).mp hi
  · exact current_after_succ start stop step i
  · rw [Bool.eq_false_iff, ne_eq, next_after_iff, hitem le_rfl, ← hn]
    exact lt_irrefl n
  · rw [rangeItems, List.map_map]
    refine List.map_congr_left fun i hi => ?_
    exact hitem (List.mem_range.mp hi).le

theorem fits_of_yields {items : List Int64}
    (hyields : ranges.Yields (rangeIterator start stop step) items) (hlength : items.length = n) :
    InInt64 (start.toInt + n * (stepOf step).toInt) := by
  by_contra hout
  have hdone := hyields.next_length
  rw [hlength, Bool.eq_false_iff, ne_eq, next_after_iff] at hdone
  refine hdone ?_
  cases n with
  | zero =>
    refine absurd ?_ hout
    simpa [InInt64] using ⟨start.le_toInt, start.toInt_lt⟩
  | succ m =>
    have hprevious := (hn m).mp m.lt_succ_self
    have hnext : start.toInt + ((m + 1 : ℕ) : ℤ) * (stepOf step).toInt =
        start.toInt + m * (stepOf step).toInt + (stepOf step).toInt := by
      push_cast
      ring
    rw [hnext] at hout ⊢
    exact before_of_wrapped (stepOf_ne_zero step) (stepOf step).le_toInt (stepOf step).toInt_lt
      (inInt64_of_lt hn m.lt_succ_self) hprevious hout

/-- **When a range is enumerated.** -/
theorem rangeExact_iff :
    RangeExact start stop step n ↔ InInt64 (start.toInt + n * (stepOf step).toInt) := by
  constructor
  · rintro ⟨⟨items, hyields, hitems⟩, -⟩
    refine fits_of_yields hn hyields ?_
    simpa [rangeItems] using congrArg List.length hitems
  · intro hfits
    refine ⟨yields_of_fits hn hfits, fun k hk => ?_⟩
    obtain ⟨cursor, hcursor, hvalue⟩ := cursor_after stop k (inInt64_of_le hn hfits hk)
    -- seen from the cursor, the range has `k` items less
    have hshift (i : ℕ) : cursor.toInt + i * (stepOf step).toInt =
        start.toInt + (k + i : ℕ) * (stepOf step).toInt := by
      rw [hvalue]
      push_cast
      ring
    have hrest : ∀ i : ℕ, i < n - k ↔ Before stop.toInt (stepOf step).toInt
        (cursor.toInt + i * (stepOf step).toInt) := by
      intro i
      rw [hshift, ← hn]
      omega
    have hfits' : InInt64 (cursor.toInt + (n - k : ℕ) * (stepOf step).toInt) := by
      rw [hshift, Nat.add_sub_cancel' hk]
      exact hfits
    obtain ⟨items, hyields, hitems⟩ := yields_of_fits hrest hfits'
    refine ⟨cursor, items, hcursor, hyields, ?_⟩
    rw [hitems, hvalue, drop_rangeItems]

end Exact

end Range

/-! ### `SliceIterator` -/

/-- A slice. Its length is an `int`. -/
structure Slice (α : Type) where
  items : List α
  fits : items.length < 2 ^ 63

/-- `sliceIterator`. -/
structure SliceIterator (α : Type) where
  items : Slice α
  index : Int64

def sliceIterator {α : Type} (items : Slice α) (offset : Int64) : SliceIterator α where
  items := items
  index := (if offset < 0 then 0 else offset) - 1

namespace SliceIterator

variable {α : Type}

def next (it : SliceIterator α) : Bool × SliceIterator α :=
  let it := { it with index := it.index + 1 }
  (it.index < Int64.ofNat it.items.items.length, it)

def item (it : SliceIterator α) : Option α :=
  if 0 ≤ it.index then it.items.items[it.index.toInt.toNat]? else none

def cursor (it : SliceIterator α) : Cursor := cursorFrom (it.index + 1)

end SliceIterator

def slices (α : Type) : PullIterator (SliceIterator α) (Option α) where
  next := SliceIterator.next
  item := SliceIterator.item

def Slice.rest {α : Type} (items : Slice α) (offset : Int64) : List α :=
  items.items.drop offset.toInt.toNat

/-- The iterator of a slice yields what there is from the offset on, and after any number of items,
the iterator that is built from the cursor yields the rest. -/
structure SliceExact {α : Type} (items : Slice α) (offset : Int64) : Prop where
  yields : (slices α).Yields (sliceIterator items offset) ((items.rest offset).map some)
  resumes : ∀ k ≤ (items.rest offset).length, ∃ cursor,
    cursorTo ((slices α).after k (sliceIterator items offset)).cursor = some cursor ∧
      (slices α).Yields (sliceIterator items cursor) (((items.rest offset).drop k).map some)

section Slices

variable {α : Type} (items : Slice α) (offset : Int64)

theorem after_sliceIterator (k : ℕ) :
    (slices α).after k (sliceIterator items offset) =
      { items := items, index := Int64.ofInt (offset.toInt.toNat - 1 + k) } := by
  induction k with
  | zero =>
    have hoffset : (if offset < 0 then 0 else offset) = Int64.ofInt offset.toInt.toNat := by
      have hneg : offset < 0 ↔ offset.toInt < 0 := Int64.lt_iff_toInt_lt
      split
      · next h => rw [Int.toNat_of_nonpos (hneg.mp h).le]; rfl
      · next h => rw [Int.toNat_of_nonneg (Int.not_lt.mp (mt hneg.mpr h)), Int64.ofInt_toInt]
    simp [sliceIterator, hoffset, Int64.ofInt_sub]
  | succ k ih =>
    rw [PullIterator.after_succ', ih]
    have hindex : Int64.ofInt (offset.toInt.toNat - 1 + k) + 1 =
        Int64.ofInt (offset.toInt.toNat - 1 + (k + 1 : ℕ)) := by
      rw [Nat.cast_add_one, ← add_assoc, Int64.ofInt_add _ 1]
      rfl
    rw [← hindex]
    rfl

theorem index_after_succ {k : ℕ} (hk : k ≤ (items.rest offset).length) :
    ((slices α).after (k + 1) (sliceIterator items offset)).index.toInt =
      offset.toInt.toNat + k := by
  have hfits := items.fits
  have hoffset := offset.toInt_lt
  have hlength : (items.rest offset).length = items.items.length - offset.toInt.toNat :=
    List.length_drop
  rw [after_sliceIterator, Int64.toInt_ofInt_of_le (by omega) (by omega)]
  push_cast
  ring

theorem next_slice_iff {k : ℕ} (hk : k ≤ (items.rest offset).length) :
    ((slices α).next ((slices α).after k (sliceIterator items offset))).1 = true ↔
      k < (items.rest offset).length := by
  have hfits := items.fits
  have hlength : (items.rest offset).length = items.items.length - offset.toInt.toNat :=
    List.length_drop
  have hcompare (it : SliceIterator α) : ((slices α).next it).1 = true ↔
      ((slices α).next it).2.index < Int64.ofNat it.items.items.length := decide_eq_true_iff
  have hsize : (Int64.ofNat items.items.length).toInt = items.items.length :=
    Int64.toInt_ofNat_of_lt hfits
  rw [hcompare, ← PullIterator.after_succ', Int64.lt_iff_toInt_lt, index_after_succ _ _ hk,
    after_sliceIterator, hsize]
  omega

theorem item_after_succ {k : ℕ} (hk : k ≤ (items.rest offset).length) :
    (slices α).item ((slices α).after (k + 1) (sliceIterator items offset)) =
      (items.rest offset)[k]? := by
  have hindex := index_after_succ items offset hk
  have hitems : ((slices α).after (k + 1) (sliceIterator items offset)).items = items := by
    rw [after_sliceIterator]
  have hnonneg : 0 ≤ ((slices α).after (k + 1) (sliceIterator items offset)).index := by
    rw [Int64.le_iff_toInt_le, hindex, Int64.toInt_zero]
    omega
  change SliceIterator.item _ = _
  rw [SliceIterator.item, if_pos hnonneg, hitems, hindex, Slice.rest, List.getElem?_drop]
  rfl

theorem yields_slice :
    (slices α).Yields (sliceIterator items offset) ((items.rest offset).map some) := by
  have hitems : (items.rest offset).map some =
      (List.range (items.rest offset).length).map fun i => (items.rest offset)[i]? := by
    refine List.ext_getElem (by simp) fun i hi _ => ?_
    rw [List.length_map] at hi
    rw [List.getElem_map, List.getElem_map, List.getElem_range, List.getElem?_eq_getElem hi]
  rw [hitems]
  refine PullIterator.yields_range _ (fun i hi => ?_) (fun i hi => ?_) ?_
  · exact (next_slice_iff items offset hi.le).mpr hi
  · exact item_after_succ items offset hi.le
  · rw [Bool.eq_false_iff, ne_eq, next_slice_iff items offset le_rfl]
    exact lt_irrefl _

/-- **A slice is always enumerated.** -/
theorem sliceExact : SliceExact items offset where
  yields := yields_slice items offset
  resumes k hk := by
    -- the cursor is the index that `Next` would move to
    have hcursor := index_after_succ items offset hk
    rw [PullIterator.after_succ'] at hcursor
    refine ⟨_, cursorTo_cursorFrom _, ?_⟩
    have hrest := yields_slice items
      (((slices α).next ((slices α).after k (sliceIterator items offset))).2.index)
    have hdrop : items.rest
        (((slices α).next ((slices α).after k (sliceIterator items offset))).2.index) =
        (items.rest offset).drop k := by
      rw [Slice.rest, hcursor, Slice.rest, List.drop_drop]
      rfl
    rw [hdrop] at hrest
    exact hrest

end Slices

/-! ### Enumerating and resuming -/

/-- **Built-in iterators.** A range ends after some number of items. Its iterator yields exactly
these, and resumes exactly at every cursor, if and only if the first value that is not before the end
is an `int64`. A slice iterator always does. -/
theorem iterators_exact_iff (α : Type) :
    (∀ start stop step : Int64, ∃ n : ℕ,
      (∀ i : ℕ, i < n ↔
        Before stop.toInt (stepOf step).toInt (start.toInt + i * (stepOf step).toInt)) ∧
      (RangeExact start stop step n ↔ InInt64 (start.toInt + n * (stepOf step).toInt))) ∧
    ∀ (items : Slice α) (offset : Int64), SliceExact items offset := by
  refine ⟨fun start stop step => ?_, fun items offset => sliceExact items offset⟩
  obtain ⟨n, hn⟩ := exists_length start.toInt stop.toInt (stepOf_ne_zero step)
  exact ⟨n, hn, rangeExact_iff hn⟩

/-- The even numbers from the last but one `int64` on, up to the last one: one item. -/
def lastEven : RangeIterator := rangeIterator 9223372036854775806 9223372036854775807 2

/-- **It never ends.** From the one item the iterator goes on to the least `int64`, and it never
meets the end, which is odd. -/
theorem range_iterator_never_ends :
    (∀ i : ℕ, i < 1 ↔ Before (9223372036854775807 : Int64).toInt (stepOf 2).toInt
      ((9223372036854775806 : Int64).toInt + i * (stepOf 2).toInt)) ∧
    ∀ k : ℕ, (ranges.next (ranges.after k lastEven)).1 = true := by
  have hstart : (9223372036854775806 : Int64).toInt = 9223372036854775806 := by decide
  have hstop : (9223372036854775807 : Int64).toInt = 9223372036854775807 := by decide
  have hstep : (stepOf 2).toInt = 2 := by decide
  constructor
  · intro i
    rw [before_of_pos (by decide), hstart, hstop, hstep]
    omega
  · intro k
    rw [lastEven, next_after_iff, before_of_pos (by decide), hstart, hstop, hstep,
      Int64.toInt_ofInt, Int.bmod_def]
    -- the value is even, also where it has wrapped around
    simp only [Int64.size]
    split <;> omega

end Iterators

end Senna
