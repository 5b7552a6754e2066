import Mathlib.Algebra.BigOperators.Group.List.Basic
import Mathlib.Algebra.Order.Field.Basic
import Mathlib.Algebra.Order.Floor.Ring
import Mathlib.Algebra.Order.Group.MinMax
import Mathlib.Tactic.Linarith

/-!
# Logs of what was admitted

Two ways to say that a log of admissions is sparse, each with the rules by which a log grows. Time
is any ordered field or group; logs are newest first.

**Sliding windows.** In a `Sparse` log every entry was added when fewer than `n` of the earlier
ones were less than `w` old. That bounds every short span, wherever it lies
(`Sparse.length_filter_le`): its last entry has seen all the others.

**Budgets.** Entries spend from a balance that is never more than the capacity, is refilled at a
rate, and may be granted something back. `Budget` says that what was spent since any moment, plus
what is left, is covered by the capacity, the refill since then and what was granted. It is a
potential argument in the form of an invariant: one rule lets time pass (`Budget.advance`), one
records an entry (`Budget.record`), and the bound for every interval is a field (`spent_le`).
-/

namespace Metering

/-! ### Sliding windows -/

section Sparse

variable {T : Type*} [AddCommGroup T] [LinearOrder T] [IsOrderedAddMonoid T]

/-- Every entry was added after the ones below it, and when fewer than `n` of them were less than
`w` old. -/
def Sparse (w : T) (n : ℤ) : List T → Prop
  | [] => True
  | t :: ts => (∀ u ∈ ts, u ≤ t) ∧ ((ts.filter (t - w < ·)).length : ℤ) < n ∧ Sparse w n ts

/-- **Every short span holds at most `n` entries.** -/
theorem Sparse.length_filter_le {w : T} {n : ℤ} (hn : 0 ≤ n) {S : T → Prop} [DecidablePred S]
    (hS : ∀ x y, S x → S y → y - x < w) {ts : List T} (h : Sparse w n ts) :
    ((ts.filter (S ·)).length : ℤ) ≤ n := by
  induction ts with
  | nil => exact hn
  | cons t ts ih =>
    obtain ⟨-, hrecent, hrest⟩ := h
    by_cases ht : S t
    · -- The others of the span were less than `w` old when the last one was added.
      have hsub : (ts.filter (S ·)).length ≤ (ts.filter (t - w < ·)).length := by
        refine (List.monotone_filter_right ts fun u hu => ?_).length_le
        have hu' : S u := of_decide_eq_true hu
        exact decide_eq_true (sub_lt_comm.mp (hS u t hu' ht))
      rw [List.filter_cons_of_pos (by simpa using ht), List.length_cons]
      omega
    · rw [List.filter_cons_of_neg (by simpa using ht)]
      exact ih hrest

end Sparse

/-! ### Budgets -/

section Budget

variable {K : Type*} [Field K] [LinearOrder K]

/-- What was spent and what was granted at a time. -/
structure Entry (K : Type*) where
  time : K
  spent : K
  granted : K

/-- The total of a quantity over the entries of `[t₁, t₂]`. -/
def total (f : Entry K → K) (t₁ t₂ : K) (log : List (Entry K)) : K :=
  ((log.filter fun e => t₁ ≤ e.time ∧ e.time ≤ t₂).map f).sum

theorem total_cons (f : Entry K → K) (t₁ t₂ : K) (e : Entry K) (log : List (Entry K)) :
    total f t₁ t₂ (e :: log) =
      (if t₁ ≤ e.time ∧ e.time ≤ t₂ then f e else 0) + total f t₁ t₂ log := by
  unfold total
  split
  · next h => rw [List.filter_cons_of_pos (by simpa using h), List.map_cons, List.sum_cons]
  · next h => rw [List.filter_cons_of_neg (by simpa using h), zero_add]

theorem total_of_le (f : Entry K → K) (t₁ : K) {now now' : K} {log : List (Entry K)}
    (hlog : ∀ e ∈ log, e.time ≤ now) (h : now ≤ now') :
    total f t₁ now' log = total f t₁ now log := by
  unfold total
  congr 2
  refine List.filter_congr fun e he => ?_
  have hle := hlog e he
  simp [hle, hle.trans h]

theorem total_of_lt (f : Entry K → K) {t₁ t₂ now : K} {log : List (Entry K)}
    (hlog : ∀ e ∈ log, e.time ≤ now) (h : now < t₁) : total f t₁ t₂ log = 0 := by
  have hnil : (log.filter fun e => t₁ ≤ e.time ∧ e.time ≤ t₂) = [] := by
    refine List.filter_eq_nil_iff.mpr fun e he hin => ?_
    exact absurd ((of_decide_eq_true hin).1.trans (hlog e he)) h.not_ge
  rw [total, hnil, List.map_nil, List.sum_nil]

section Rate

variable [IsStrictOrderedRing K] {x y capacity : K}

theorem max_zero_max_zero_sub (hy : 0 ≤ y) : max 0 (max 0 x - y) = max 0 (x - y) := by
  rw [← max_sub_sub_right, ← max_assoc, max_eq_left (a := 0) (by linarith)]

theorem min_min_add (hy : 0 ≤ y) : min capacity (min capacity x + y) = min capacity (x + y) := by
  rw [← min_add_add_right, ← min_assoc, min_eq_left (a := capacity) (by linarith)]

/-- **How long a deficit lasts**, in whole units of time. -/
theorem lt_ceil_div_iff [FloorRing K] {deficit rate : K} (hrate : 0 < rate) (d : ℤ) :
    d < ⌈deficit / rate⌉ ↔ rate * d < deficit := by
  rw [Int.lt_ceil, lt_div_iff₀ hrate, mul_comm]

end Rate

/-- The log at a time, with what is left of the budget. -/
structure Budget (capacity rate now balance : K) (log : List (Entry K)) : Prop where
  past : ∀ e ∈ log, e.time ≤ now
  nonneg : 0 ≤ balance
  le_capacity : balance ≤ capacity
  /-- What was spent since `t₁`, and what is left. -/
  open_le : ∀ t₁ ≤ now, total Entry.spent t₁ now log + balance ≤
    capacity + rate * (now - t₁) + total Entry.granted t₁ now log
  /-- **What was spent in `[t₁, t₂]`.** -/
  spent_le : ∀ t₁ t₂, t₁ ≤ t₂ → total Entry.spent t₁ t₂ log ≤
    capacity + rate * (t₂ - t₁) + total Entry.granted t₁ t₂ log

namespace Budget

variable [IsStrictOrderedRing K] {capacity rate now balance : K} {log : List (Entry K)}

theorem nil (hcapacity : 0 ≤ capacity) (hrate : 0 ≤ rate) (now : K) :
    Budget capacity rate now capacity [] where
  past := fun _ h => absurd h List.not_mem_nil
  nonneg := hcapacity
  le_capacity := le_rfl
  open_le := fun t₁ h => by
    have hrefill := mul_nonneg hrate (sub_nonneg.mpr h)
    simp only [total, List.filter_nil, List.map_nil, List.sum_nil]
    linarith
  spent_le := fun t₁ t₂ h => by
    have hrefill := mul_nonneg hrate (sub_nonneg.mpr h)
    simp only [total, List.filter_nil, List.map_nil, List.sum_nil]
    linarith

theorem advance (h : Budget capacity rate now balance log) (hrate : 0 ≤ rate) {now' balance' : K}
    (hnow : now ≤ now') (hnonneg : 0 ≤ balance') (hcapacity : balance' ≤ capacity)
    (hbalance : balance' ≤ balance + rate * (now' - now)) :
    Budget capacity rate now' balance' log where
  past := fun e he => (h.past e he).trans hnow
  nonneg := hnonneg
  le_capacity := hcapacity
  open_le := fun t₁ ht₁ => by
    obtain hold | hnew := le_or_gt t₁ now
    · rw [total_of_le _ _ h.past hnow, total_of_le _ _ h.past hnow]
      have hopen := h.open_le t₁ hold
      linarith
    · -- Nothing has been spent since.
      rw [total_of_lt _ h.past hnew, total_of_lt _ h.past hnew]
      have hrefill := mul_nonneg hrate (sub_nonneg.mpr ht₁)
      linarith
  spent_le := h.spent_le

theorem record (h : Budget capacity rate now balance log) (hrate : 0 ≤ rate)
    {spent granted balance' : K} (hnonneg : 0 ≤ balance') (hcapacity : balance' ≤ capacity)
    (hbalance : balance' + spent ≤ balance + granted) :
    Budget capacity rate now balance' (⟨now, spent, granted⟩ :: log) where
  past := fun e he => by
    obtain rfl | he := List.mem_cons.mp he
    · exact le_rfl
    · exact h.past e he
  nonneg := hnonneg
  le_capacity := hcapacity
  open_le := fun t₁ ht₁ => by
    have hopen := h.open_le t₁ ht₁
    rw [total_cons, total_cons, if_pos ⟨ht₁, le_rfl⟩, if_pos ⟨ht₁, le_rfl⟩]
    linarith
  spent_le := fun t₁ t₂ ht => by
    rw [total_cons, total_cons]
    by_cases hin : t₁ ≤ now ∧ now ≤ t₂
    · -- The interval reaches over the new entry, so all of it is in the open bound.
      rw [if_pos hin, if_pos hin, total_of_le _ _ h.past hin.2, total_of_le _ _ h.past hin.2]
      have hopen := h.open_le t₁ hin.1
      have hrefill : rate * (now - t₁) ≤ rate * (t₂ - t₁) :=
        mul_le_mul_of_nonneg_left (sub_le_sub_right hin.2 t₁) hrate
      linarith
    · rw [if_neg hin, if_neg hin, zero_add, zero_add]
      exact h.spent_le t₁ t₂ ht

end Budget

end Budget

end Metering
