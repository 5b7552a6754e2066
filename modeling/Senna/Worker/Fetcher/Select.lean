import Mathlib.Algebra.BigOperators.Group.List.Basic
import Mathlib.Algebra.Order.BigOperators.Group.List
import Mathlib.Algebra.Order.Ring.Int
import Mathlib.Data.List.Count
import Mathlib.Tactic.Common

/-!
# Weighted selection of a queue

A worker without strict priorities picks the queue to look at by a random draw below the sum of the
priorities: it walks along the queues and subtracts each priority from the draw until the rest is
negative. `selectWeightedQueue` does so for a list with its sum. `selectWeightedQueueSkipping` has a
list of names to skip; it sums up, counts and walks by itself, and skips in each of its three loops.

**Skipping is selecting from what is left** (`selectWeightedQueueSkipping_eq`): the three loops are
those of `selectWeightedQueue` on the list without the skipped queues, for every draw and also when
the sum does not fit into a Go integer. So all the rest is about one walk (`cumulative`): it finds a
queue for every draw below the sum, and each queue for as many draws as its priority says.

`rand.Intn` is a parameter, a function that gives for each bound the number that is drawn.
-/

namespace Senna.Fetcher

/-- A queue of a worker, as the fetcher keeps it. -/
structure QueueInfo where
  name : String
  priority : ℤ
  paused : Bool
  sequential : Bool
  deriving DecidableEq, Repr

def addInt (a b : ℤ) : ℤ := (a + b).bmod (2 ^ 64)

def totalWeight (queues : List QueueInfo) : ℤ := queues.foldl (fun t q => addInt t q.priority) 0

def queueNameSkipped (name : String) : List String → Bool
  | [] => false
  | skippedName :: skipped => if name = skippedName then true else queueNameSkipped name skipped

/-! ### The two functions -/

/-- The walk of `selectWeightedQueue`. -/
def cumulative : List QueueInfo → ℤ → Option QueueInfo
  | [], _ => none
  | q :: queues, r => if r - q.priority < 0 then some q else cumulative queues (r - q.priority)

def selectWeightedQueue (intn : ℤ → ℕ) (queues : List QueueInfo) (total : ℤ) : Option QueueInfo :=
  match queues with
  | [] => none
  | [q] => some q
  | _ =>
    if total ≤ 0 then queues[intn queues.length]?
    else cumulative queues (intn total)

/-- What the first loop of `selectWeightedQueueSkipping` finds out. -/
structure Tally where
  /-- The last queue that is not skipped. -/
  only : Option QueueInfo
  count : ℕ
  totalWeight : ℤ

def Tally.add (skipped : List String) (t : Tally) (q : QueueInfo) : Tally :=
  if queueNameSkipped q.name skipped then t
  else ⟨some q, t.count + 1, addInt t.totalWeight q.priority⟩

/-- The second loop: the queue with a given number among those that are not skipped. -/
def nthKept (skipped : List String) : List QueueInfo → ℕ → Option QueueInfo
  | [], _ => none
  | q :: queues, n =>
    if queueNameSkipped q.name skipped then nthKept skipped queues n
    else if n = 0 then some q
    else nthKept skipped queues (n - 1)

def cumulativeKept (skipped : List String) : List QueueInfo → ℤ → Option QueueInfo
  | [], _ => none
  | q :: queues, r =>
    if queueNameSkipped q.name skipped then cumulativeKept skipped queues r
    else if r - q.priority < 0 then some q
    else cumulativeKept skipped queues (r - q.priority)

def selectWeightedQueueSkipping (intn : ℤ → ℕ) (queues : List QueueInfo) (skipped : List String) :
    Option QueueInfo :=
  let t := queues.foldl (Tally.add skipped) ⟨none, 0, 0⟩
  if t.count = 0 then none
  else if t.count = 1 then t.only
  else if t.totalWeight ≤ 0 then nthKept skipped queues (intn t.count)
  else cumulativeKept skipped queues (intn t.totalWeight)

/-! ### Skipping -/

def kept (queues : List QueueInfo) (skipped : List String) : List QueueInfo :=
  queues.filter fun q => !queueNameSkipped q.name skipped

section Kept

variable {queues : List QueueInfo} {skipped : List String} {q : QueueInfo}

theorem queueNameSkipped_iff {name : String} : queueNameSkipped name skipped = true ↔
    name ∈ skipped := by
  induction skipped with
  | nil => simp [queueNameSkipped]
  | cons s skipped ih =>
    rw [queueNameSkipped, List.mem_cons]
    split
    · next heq => simp [heq]
    · next hne => simp [hne, ih]

theorem mem_kept : q ∈ kept queues skipped ↔ q ∈ queues ∧ q.name ∉ skipped := by
  rw [kept, List.mem_filter, ← queueNameSkipped_iff]
  simp

theorem kept_cons_skipped (h : queueNameSkipped q.name skipped = true) :
    kept (q :: queues) skipped = kept queues skipped := by
  simp [kept, h]

theorem kept_cons (h : queueNameSkipped q.name skipped ≠ true) :
    kept (q :: queues) skipped = q :: kept queues skipped := by
  simp [kept, h]

@[simp] theorem kept_nil_right (queues : List QueueInfo) : kept queues [] = queues := by
  simp [kept, queueNameSkipped]

theorem kept_eq_nil : kept queues skipped = [] ↔ ∀ q ∈ queues, q.name ∈ skipped := by
  rw [List.eq_nil_iff_forall_not_mem]
  refine ⟨fun h q hq => ?_, fun h q hq => (mem_kept.mp hq).2 (h q (mem_kept.mp hq).1)⟩
  by_contra hnot
  exact h q (mem_kept.mpr ⟨hq, hnot⟩)

theorem count_kept (h : q.name ∉ skipped) : (kept queues skipped).count q = queues.count q := by
  refine List.count_filter ?_
  rw [← queueNameSkipped_iff] at h
  simpa using h

theorem foldl_add (t : Tally) :
    queues.foldl (Tally.add skipped) t =
      ⟨((kept queues skipped).getLast?).or t.only, t.count + (kept queues skipped).length,
        (kept queues skipped).foldl (fun w q => addInt w q.priority) t.totalWeight⟩ := by
  induction queues generalizing t with
  | nil => simp [kept]
  | cons q queues ih =>
    rw [List.foldl_cons, ih, Tally.add]
    by_cases h : queueNameSkipped q.name skipped = true
    · rw [if_pos h, kept_cons_skipped h]
    · rw [if_neg h, kept_cons h]
      simp only [List.length_cons, List.foldl_cons, Tally.mk.injEq, and_true]
      refine ⟨?_, by omega⟩
      cases kept queues skipped with
      | nil => rfl
      | cons q' rest => simp [List.getLast?_cons]

theorem nthKept_eq (n : ℕ) : nthKept skipped queues n = (kept queues skipped)[n]? := by
  induction queues generalizing n with
  | nil => simp [nthKept, kept]
  | cons q queues ih =>
    rw [nthKept]
    split
    · next h => rw [ih, kept_cons_skipped h]
    · next h =>
      rw [kept_cons h]
      cases n with
      | zero => simp
      | succ n => simp [ih]

theorem cumulativeKept_eq (r : ℤ) :
    cumulativeKept skipped queues r = cumulative (kept queues skipped) r := by
  induction queues generalizing r with
  | nil => rfl
  | cons q queues ih =>
    rw [cumulativeKept]
    split
    · next h => rw [ih, kept_cons_skipped h]
    · next h => rw [kept_cons h, cumulative, ih]

/-- **Skipping queues is selecting from the others.** -/
theorem selectWeightedQueueSkipping_eq (intn : ℤ → ℕ) (queues : List QueueInfo)
    (skipped : List String) :
    selectWeightedQueueSkipping intn queues skipped =
      selectWeightedQueue intn (kept queues skipped) (totalWeight (kept queues skipped)) := by
  simp only [selectWeightedQueueSkipping, foldl_add, nthKept_eq, cumulativeKept_eq, Nat.zero_add,
    Option.or_none]
  change (if _ then _ else if _ then _ else if totalWeight (kept queues skipped) ≤ 0 then _
    else cumulative _ (intn (totalWeight (kept queues skipped)))) = _
  match kept queues skipped with
  | [] => rfl
  | [q] => rfl
  | q :: q' :: rest => simp [selectWeightedQueue]

end Kept

/-! ### One walk -/

def total (queues : List QueueInfo) : ℤ := (queues.map (·.priority)).sum

section Walk

variable {queues : List QueueInfo} {q : QueueInfo}

@[simp] theorem total_cons (q : QueueInfo) (queues : List QueueInfo) :
    total (q :: queues) = q.priority + total queues := by
  simp [total]

theorem total_nonneg (hpriority : ∀ q ∈ queues, 1 ≤ q.priority) : 0 ≤ total queues := by
  refine List.sum_nonneg fun p hp => ?_
  obtain ⟨q, hq, rfl⟩ := List.mem_map.mp hp
  have := hpriority q hq
  omega

theorem total_pos (hpriority : ∀ q ∈ queues, 1 ≤ q.priority) (hne : queues ≠ []) :
    0 < total queues := by
  cases queues with
  | nil => exact absurd rfl hne
  | cons q queues =>
    have hq := hpriority q List.mem_cons_self
    have hqs := total_nonneg fun q' hq' => hpriority q' (List.mem_cons_of_mem _ hq')
    rw [total_cons]
    omega

theorem total_kept_le (hpriority : ∀ q ∈ queues, 1 ≤ q.priority) (skipped : List String) :
    total (kept queues skipped) ≤ total queues := by
  refine (List.filter_sublist.map _).sum_le_sum fun p hp => ?_
  obtain ⟨q, hq, rfl⟩ := List.mem_map.mp hp
  have := hpriority q hq
  omega

theorem totalWeight_eq (queues : List QueueInfo) :
    totalWeight queues = (total queues).bmod (2 ^ 64) := by
  have hfold (t : ℤ) : queues.foldl (fun t q => addInt t q.priority) (t.bmod (2 ^ 64)) =
      (t + total queues).bmod (2 ^ 64) := by
    induction queues generalizing t with
    | nil => simp [total]
    | cons q queues ih =>
      rw [List.foldl_cons, addInt, Int.bmod_add_bmod, ih, total_cons, Int.add_assoc]
  have hzero := hfold 0
  rw [Int.zero_add] at hzero
  exact hzero

theorem totalWeight_of_fits (hpriority : ∀ q ∈ queues, 1 ≤ q.priority)
    (hfits : total queues < 2 ^ 63) : totalWeight queues = total queues := by
  rw [totalWeight_eq]
  have := total_nonneg hpriority
  exact Int.bmod_eq_of_le (by omega) (by omega)

theorem totalWeight_le (hpriority : ∀ q ∈ queues, 1 ≤ q.priority) :
    totalWeight queues ≤ total queues := by
  rw [totalWeight_eq]
  have hnonneg := total_nonneg hpriority
  rw [Int.bmod_def]
  omega

theorem mem_of_cumulative {r : ℤ} (h : cumulative queues r = some q) : q ∈ queues := by
  induction queues generalizing r with
  | nil => cases h
  | cons q' queues ih =>
    rw [cumulative] at h
    split at h
    · exact Option.some.inj h ▸ List.mem_cons_self
    · exact List.mem_cons_of_mem _ (ih h)

theorem isSome_cumulative {r : ℤ} (hr : 0 ≤ r) (hlt : r < total queues) :
    (cumulative queues r).isSome := by
  induction queues generalizing r with
  | nil => simp [total] at hlt; omega
  | cons q queues ih =>
    rw [cumulative]
    split
    · rfl
    · rw [total_cons] at hlt
      exact ih (by omega) (by omega)

/-- **Each queue is found for as many draws as its priority says.** The first queue is found for
the draws below its priority; the walk goes on with the others for the draws from there on. -/
theorem countP_cumulative (hpriority : ∀ q ∈ queues, 1 ≤ q.priority) (q : QueueInfo) {n : ℕ}
    (hn : (n : ℤ) = total queues) :
    ((List.range n).countP (fun r : ℕ => cumulative queues r = some q) : ℤ) =
      queues.count q * q.priority := by
  induction queues generalizing n with
  | nil => simp [cumulative]
  | cons q' queues ih =>
    obtain ⟨p, hp⟩ : ∃ p : ℕ, (p : ℤ) = q'.priority :=
      ⟨q'.priority.toNat, Int.toNat_of_nonneg (by have := hpriority q' List.mem_cons_self; omega)⟩
    have hothers : ∀ q ∈ queues, 1 ≤ q.priority :=
      fun q hq => hpriority q (List.mem_cons_of_mem _ hq)
    obtain ⟨m, hm⟩ : ∃ m : ℕ, (m : ℤ) = total queues :=
      ⟨(total queues).toNat, Int.toNat_of_nonneg (total_nonneg hothers)⟩
    obtain rfl : n = p + m := by rw [total_cons] at hn; omega
    have hfirst : (List.range p).countP (fun r : ℕ => cumulative (q' :: queues) r = some q) =
        (List.range p).countP fun _ => q' = q := by
      refine List.countP_congr fun r hr => ?_
      have hlt : r < p := List.mem_range.mp hr
      rw [cumulative, if_pos (by omega)]
      simp
    have hrest : ((List.range m).map (p + ·)).countP
        (fun r : ℕ => cumulative (q' :: queues) r = some q) =
          (List.range m).countP fun r : ℕ => cumulative queues r = some q := by
      rw [List.countP_map]
      refine List.countP_congr fun r _ => ?_
      have hshift : ((p + r : ℕ) : ℤ) - q'.priority = r := by omega
      simp only [Function.comp_apply, cumulative, hshift]
      rw [if_neg (by omega)]
    rw [List.range_add, List.countP_append, hfirst, hrest, Nat.cast_add, ih hothers hm,
      List.count_cons]
    by_cases heq : q' = q
    · subst heq
      simp only [decide_true, List.countP_true, List.length_range, beq_self_eq_true, if_true]
      rw [Nat.cast_add, Nat.cast_one, Int.add_mul, Int.one_mul, hp, Int.add_comm]
    · simp [heq]

end Walk

/-! ### The selection -/

/-- `rand.Intn` draws below its bound. -/
def InRange (intn : ℤ → ℕ) : Prop := ∀ n, 0 < n → (intn n : ℤ) < n

section Select

variable {intn : ℤ → ℕ} {queues : List QueueInfo} {q : QueueInfo}

theorem selectWeightedQueue_cons_cons (q₁ q₂ : QueueInfo) (rest : List QueueInfo) (w : ℤ) :
    selectWeightedQueue intn (q₁ :: q₂ :: rest) w =
      if w ≤ 0 then (q₁ :: q₂ :: rest)[intn (q₁ :: q₂ :: rest).length]?
      else cumulative (q₁ :: q₂ :: rest) (intn w) := rfl

theorem mem_of_selectWeightedQueue {w : ℤ} (h : selectWeightedQueue intn queues w = some q) :
    q ∈ queues := by
  match queues, h with
  | [q'], h => exact Option.some.inj h ▸ List.mem_singleton_self _
  | q₁ :: q₂ :: rest, h =>
    rw [selectWeightedQueue_cons_cons] at h
    split at h
    · exact List.mem_of_getElem? h
    · exact mem_of_cumulative h

theorem selectWeightedQueue_eq_none (hpriority : ∀ q ∈ queues, 1 ≤ q.priority)
    (hintn : InRange intn) :
    selectWeightedQueue intn queues (totalWeight queues) = none ↔ queues = [] := by
  match queues with
  | [] => simp [selectWeightedQueue]
  | [q] => simp [selectWeightedQueue]
  | q₁ :: q₂ :: rest =>
    refine iff_of_false (fun hnone => ?_) (List.cons_ne_nil _ _)
    rw [selectWeightedQueue_cons_cons] at hnone
    split at hnone
    · have hlt := hintn (q₁ :: q₂ :: rest).length (by simp; omega)
      rw [List.getElem?_eq_none_iff] at hnone
      omega
    · next hpos =>
      have hlt := hintn (totalWeight (q₁ :: q₂ :: rest)) (by omega)
      have hle := totalWeight_le hpriority
      have hsome := isSome_cumulative (by omega) (lt_of_lt_of_le hlt hle)
      rw [hnone] at hsome
      cases hsome

theorem countP_selectWeightedQueue (hpriority : ∀ q ∈ queues, 1 ≤ q.priority) (q : QueueInfo) :
    ((List.range (total queues).toNat).countP fun r : ℕ =>
      selectWeightedQueue (fun _ => r) queues (total queues) = some q : ℤ) =
        queues.count q * q.priority := by
  have hnonneg := total_nonneg hpriority
  match queues with
  | [] => simp [selectWeightedQueue]
  | [q'] =>
    -- nothing is drawn for a single queue
    have hq' : 1 ≤ q'.priority := hpriority q' List.mem_cons_self
    by_cases heq : q' = q
    · subst heq
      simp [selectWeightedQueue, total]
      omega
    · simp [selectWeightedQueue, heq]
  | q₁ :: q₂ :: rest =>
    have hpos := total_pos hpriority (List.cons_ne_nil _ _)
    have hwalk : ∀ r : ℕ, selectWeightedQueue (fun _ => r) (q₁ :: q₂ :: rest)
        (total (q₁ :: q₂ :: rest)) = cumulative (q₁ :: q₂ :: rest) r := by
      intro r
      rw [selectWeightedQueue_cons_cons, if_neg (by omega)]
    simp only [hwalk]
    exact countP_cumulative hpriority q (Int.toNat_of_nonneg hnonneg)

theorem exists_draw (hpriority : ∀ q ∈ queues, 1 ≤ q.priority) (hfits : total queues < 2 ^ 63)
    (hq : q ∈ queues) :
    ∃ intn, InRange intn ∧ selectWeightedQueue intn queues (totalWeight queues) = some q := by
  have hpos : 0 < (List.range (total queues).toNat).countP fun r : ℕ =>
      selectWeightedQueue (fun _ => r) queues (total queues) = some q := by
    have hcount := countP_selectWeightedQueue hpriority q
    have hentries : (0 : ℤ) < queues.count q := Int.natCast_pos.mpr (List.count_pos_iff.mpr hq)
    have hmul := Int.mul_pos hentries (hpriority q hq)
    omega
  obtain ⟨r, hr, hselect⟩ := List.countP_pos_iff.mp hpos
  have hlt := List.mem_range.mp hr
  refine ⟨fun n => if n = total queues then r else 0, fun n hn => ?_, ?_⟩
  · dsimp only
    split <;> omega
  · rw [totalWeight_of_fits hpriority hfits, ← of_decide_eq_true hselect]
    match queues with
    | [] => rfl
    | [_] => rfl
    | q₁ :: q₂ :: rest => simp only [selectWeightedQueue_cons_cons, if_true, if_neg (show
        ¬ total (q₁ :: q₂ :: rest) ≤ 0 by have := total_pos hpriority nofun; omega)]

end Select

/-- **Weighted selection is exact.** For priorities that are positive and whose sum fits into a Go
integer: no queue is selected exactly if all are skipped, a skipped one never is, of the draws below
the sum of the priorities that are left each queue gets as many as its priority (times the number of
its entries), and for every draw the selection is that of `selectWeightedQueue` on the queues that
are left. -/
theorem weighted_selection_exact (queues : List QueueInfo) (skipped : List String)
    (hpriority : ∀ q ∈ queues, 1 ≤ q.priority) (hfits : total queues < 2 ^ 63) :
    (∀ intn, InRange intn → (selectWeightedQueueSkipping intn queues skipped = none ↔
      ∀ q ∈ queues, q.name ∈ skipped)) ∧
    (∀ intn q, selectWeightedQueueSkipping intn queues skipped = some q →
      q ∈ queues ∧ q.name ∉ skipped) ∧
    (∀ q ∈ queues, q.name ∉ skipped →
      ((List.range (total (kept queues skipped)).toNat).countP fun r : ℕ =>
        selectWeightedQueueSkipping (fun _ => r) queues skipped = some q : ℤ) =
          queues.count q * q.priority) ∧
    (∀ intn, selectWeightedQueueSkipping intn queues skipped =
      selectWeightedQueue intn (kept queues skipped) (total (kept queues skipped))) := by
  have hkept : ∀ q ∈ kept queues skipped, 1 ≤ q.priority :=
    fun q hq => hpriority q (mem_kept.mp hq).1
  have hweight : totalWeight (kept queues skipped) = total (kept queues skipped) :=
    totalWeight_of_fits hkept (lt_of_le_of_lt (total_kept_le hpriority skipped) hfits)
  refine ⟨fun intn hintn => ?_, fun intn q hq => ?_, fun q hq hnot => ?_, fun intn => ?_⟩
  · rw [selectWeightedQueueSkipping_eq, selectWeightedQueue_eq_none hkept hintn, kept_eq_nil]
  · rw [selectWeightedQueueSkipping_eq] at hq
    exact mem_kept.mp (mem_of_selectWeightedQueue hq)
  · have hcount := countP_selectWeightedQueue hkept q
    rw [count_kept hnot] at hcount
    simp only [selectWeightedQueueSkipping_eq, hweight]
    exact hcount
  · rw [selectWeightedQueueSkipping_eq, hweight]

def weighted : List QueueInfo :=
  [⟨"critical", 3, false, false⟩, ⟨"default", 2, false, false⟩, ⟨"low", 1, false, false⟩]

theorem critical_gets_three_of_four :
    total (kept weighted ["default"]) = 4 ∧
      ((List.range (total (kept weighted ["default"])).toNat).countP fun r : ℕ =>
        selectWeightedQueueSkipping (fun _ => r) weighted ["default"] =
          some ⟨"critical", 3, false, false⟩ : ℤ) = 3 := by
  have hexact := (weighted_selection_exact weighted ["default"] (by decide) (by decide)).2.2.1
    ⟨"critical", 3, false, false⟩ (by decide) (by decide)
  refine ⟨by decide, hexact.trans ?_⟩
  decide

end Senna.Fetcher
