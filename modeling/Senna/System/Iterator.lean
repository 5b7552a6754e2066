import Mathlib.Logic.Function.Iterate

/-!
# Pull iterators

An iterator that is asked for its items one by one: `next` moves it on and says whether there is an
item, and `item` is the item it stands at. `Yields it l` says that asking ends, and that the items up
to then are those of `l`. `after k it` is the iterator after `k` calls of `next`.

An iterator whose `k`-th answer is known for every `k` is described by `yields_range`. What is left
after some items is no notion of its own: it is what the iterator yields that stands there.
-/

/-- An iterator with states `ι` and items `β`. -/
structure PullIterator (ι β : Type*) where
  /-- Move on, and say whether there is an item. -/
  next : ι → Bool × ι
  /-- The item the iterator stands at. -/
  item : ι → β

namespace PullIterator

variable {ι β : Type*} (I : PullIterator ι β)

/-- The iterator after a number of calls of `next`. -/
def after (k : ℕ) (it : ι) : ι := (fun it => (I.next it).2)^[k] it

/-- Asking for items ends, and these are the items. -/
inductive Yields : ι → List β → Prop where
  | done {it : ι} (hnext : (I.next it).1 = false) : Yields it []
  | item {it : ι} {l : List β} (hnext : (I.next it).1 = true) (hrest : Yields (I.next it).2 l) :
      Yields it (I.item (I.next it).2 :: l)

@[simp] theorem after_zero (it : ι) : I.after 0 it = it := rfl

theorem after_succ (k : ℕ) (it : ι) : I.after (k + 1) it = I.after k (I.next it).2 := rfl

theorem after_succ' (k : ℕ) (it : ι) : I.after (k + 1) it = (I.next (I.after k it)).2 :=
  Function.iterate_succ_apply' _ k it

variable {I}

theorem Yields.next_length {it : ι} {l : List β} (h : I.Yields it l) :
    (I.next (I.after l.length it)).1 = false := by
  induction h with
  | done hnext => exact hnext
  | item hnext hrest ih => exact ih

theorem yields_range (f : ℕ → β) {n : ℕ} {it : ι}
    (hnext : ∀ i < n, (I.next (I.after i it)).1 = true)
    (hitem : ∀ i < n, I.item (I.after (i + 1) it) = f i)
    (hdone : (I.next (I.after n it)).1 = false) : I.Yields it ((List.range n).map f) := by
  induction n generalizing it f with
  | zero => exact .done hdone
  | succ n ih =>
    have hrest : I.Yields (I.next it).2 ((List.range n).map fun i => f (i + 1)) := by
      refine ih (fun i => f (i + 1)) (fun i hi => ?_) (fun i hi => ?_) hdone
      · exact hnext (i + 1) (Nat.succ_lt_succ hi)
      · exact hitem (i + 1) (Nat.succ_lt_succ hi)
    have hfirst : I.item (I.next it).2 = f 0 := hitem 0 n.succ_pos
    rw [List.range_succ_eq_map, List.map_cons, List.map_map, ← hfirst]
    exact .item (hnext 0 n.succ_pos) hrest

end PullIterator
