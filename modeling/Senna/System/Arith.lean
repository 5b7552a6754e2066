import Mathlib.Algebra.Group.Int.Defs

/-!
# Arithmetic on machine integers

A program over 64-bit signed integers computes with wrapped results, and whoever reads it thinks of
the exact ones. `Arith α` is a computation whose arithmetic can be looked at: next to its result
(`value`) it has the list of the operations it carries out (`steps`) and the number of iterations of
its loops (`iterations`). An operation is `Exact` when it does not divide by zero and its result is
the one in unbounded integers.

`Runs p a n` says that `p` ends with `a` after `n` iterations, and that all of its operations are
exact. There is one rule for each operation, with the bounds that make it exact as hypotheses, and
`Runs.bind` puts computations together.
-/

/-- An operation on 64-bit integers. -/
inductive Arith.Op where
  | add
  | sub
  | mul
  | div
  deriving DecidableEq, Repr

/-- An operation with its operands. -/
structure Arith.Step where
  op : Arith.Op
  left : Int64
  right : Int64
  deriving DecidableEq, Repr

/-- A computation that ends with an `α`. -/
inductive Arith (α : Type) where
  | done (a : α)
  | operate (step : Arith.Step) (next : Int64 → Arith α)
  /-- The body of a loop is entered. -/
  | iterate (next : Arith α)

namespace Arith

/-- The result on machine integers: it wraps around, and a quotient is truncated. -/
def Op.wrapped : Op → Int64 → Int64 → Int64
  | add, x, y => x + y
  | sub, x, y => x - y
  | mul, x, y => x * y
  | div, x, y => x / y

def Op.exact : Op → ℤ → ℤ → ℤ
  | add, x, y => x + y
  | sub, x, y => x - y
  | mul, x, y => x * y
  | div, x, y => x.tdiv y

namespace Step

def result (s : Step) : Int64 := s.op.wrapped s.left s.right

def Panics (s : Step) : Prop := s.op = .div ∧ s.right = 0

instance (s : Step) : Decidable s.Panics := inferInstanceAs (Decidable (_ ∧ _))

/-- The operation has a result, and it has not overflowed. -/
structure Exact (s : Step) : Prop where
  defined : ¬ s.Panics
  fits : s.result.toInt = s.op.exact s.left.toInt s.right.toInt

end Step

variable {α β : Type}

def bind : Arith α → (α → Arith β) → Arith β
  | done a, f => f a
  | operate s k, f => operate s fun x => bind (k x) f
  | iterate k, f => iterate (bind k f)

instance : Monad Arith where
  pure := done
  bind := bind

def add (x y : Int64) : Arith Int64 := operate ⟨.add, x, y⟩ done

def sub (x y : Int64) : Arith Int64 := operate ⟨.sub, x, y⟩ done

def mul (x y : Int64) : Arith Int64 := operate ⟨.mul, x, y⟩ done

def div (x y : Int64) : Arith Int64 := operate ⟨.div, x, y⟩ done

def iteration : Arith Unit := iterate (done ())

/-! ### What a computation does -/

def value : Arith α → Option α
  | done a => some a
  | operate s k => if s.Panics then none else value (k s.result)
  | iterate k => value k

def steps : Arith α → List Step
  | done _ => []
  | operate s k => s :: if s.Panics then [] else steps (k s.result)
  | iterate k => steps k

def iterations : Arith α → ℕ
  | done _ => 0
  | operate s k => if s.Panics then 0 else iterations (k s.result)
  | iterate k => iterations k + 1

/-- The computation ends with a value after a number of iterations, and all it computes on the way
is exact. -/
structure Runs (p : Arith α) (a : α) (n : ℕ) : Prop where
  value : p.value = some a
  iterations : p.iterations = n
  exact : ∀ s ∈ p.steps, s.Exact

/-! ### Rules -/

theorem runs_pure (a : α) : Runs (pure a) a 0 where
  value := rfl
  iterations := rfl
  exact _ hs := absurd hs List.not_mem_nil

theorem Runs.iterate {p : Arith α} {a : α} {n : ℕ} (h : p.Runs a n) :
    (Arith.iterate p).Runs a (n + 1) where
  value := h.value
  iterations := congrArg (· + 1) h.iterations
  exact := h.exact

theorem Runs.operate {s : Step} (hs : s.Exact) {k : Int64 → Arith α} {a : α} {n : ℕ}
    (h : (k s.result).Runs a n) : (Arith.operate s k).Runs a n where
  value := by
    rw [Arith.value, if_neg hs.defined]
    exact h.value
  iterations := by
    rw [Arith.iterations, if_neg hs.defined]
    exact h.iterations
  exact := by
    rw [steps, if_neg hs.defined]
    exact List.forall_mem_cons.mpr ⟨hs, h.exact⟩

/-- **Sequencing.** -/
theorem Runs.bind {p : Arith α} {f : α → Arith β} {a : α} {b : β} {m n : ℕ} (hp : p.Runs a m)
    (hf : (f a).Runs b n) : (p >>= f).Runs b (m + n) := by
  change (p.bind f).Runs b (m + n)
  induction p generalizing m with
  | done a' =>
    obtain rfl : a' = a := Option.some.inj hp.value
    obtain rfl : 0 = m := hp.iterations
    rw [Nat.zero_add]
    exact hf
  | operate s k ih =>
    have hs : s.Exact := hp.exact s List.mem_cons_self
    have hvalue := hp.value
    have hiterations := hp.iterations
    have hexact := hp.exact
    rw [Arith.value, if_neg hs.defined] at hvalue
    rw [Arith.iterations, if_neg hs.defined] at hiterations
    rw [steps, if_neg hs.defined] at hexact
    exact (ih s.result ⟨hvalue, hiterations, (List.forall_mem_cons.mp hexact).2⟩).operate hs
  | iterate k ih =>
    obtain rfl : k.iterations + 1 = m := hp.iterations
    rw [Nat.add_right_comm]
    exact (ih ⟨hp.value, rfl, hp.exact⟩).iterate

theorem Runs.seq {p : Arith α} {f : α → Arith β} {a : α} {b : β} {n : ℕ} (hp : p.Runs a 0)
    (hf : (f a).Runs b n) : (p >>= f).Runs b n := by
  have h := hp.bind hf
  rwa [Nat.zero_add] at h

theorem runs_iteration : Runs iteration () 1 := (runs_pure ()).iterate

section Bounds

variable {x y : Int64}

theorem toInt_add (h₁ : -2 ^ 63 ≤ x.toInt + y.toInt) (h₂ : x.toInt + y.toInt < 2 ^ 63) :
    (x + y).toInt = x.toInt + y.toInt := by
  rw [Int64.toInt_add]
  exact Int.bmod_eq_of_le (by omega) (by omega)

theorem toInt_sub (h₁ : -2 ^ 63 ≤ x.toInt - y.toInt) (h₂ : x.toInt - y.toInt < 2 ^ 63) :
    (x - y).toInt = x.toInt - y.toInt := by
  rw [Int64.toInt_sub]
  exact Int.bmod_eq_of_le (by omega) (by omega)

theorem toInt_mul (h₁ : -2 ^ 63 ≤ x.toInt * y.toInt) (h₂ : x.toInt * y.toInt < 2 ^ 63) :
    (x * y).toInt = x.toInt * y.toInt := by
  rw [Int64.toInt_mul]
  exact Int.bmod_eq_of_le (by omega) (by omega)

theorem toInt_div (hy : 0 < y.toInt) : (x / y).toInt = x.toInt.tdiv y.toInt := by
  apply Int64.toInt_div_of_ne_right
  rintro rfl
  exact absurd hy (by decide)

theorem Step.exact_of_ne_div (o : Op) (ho : o ≠ .div)
    (h : (o.wrapped x y).toInt = o.exact x.toInt y.toInt) : Step.Exact ⟨o, x, y⟩ where
  defined hpanics := ho hpanics.1
  fits := h

theorem runs_add (h₁ : -2 ^ 63 ≤ x.toInt + y.toInt) (h₂ : x.toInt + y.toInt < 2 ^ 63) :
    Runs (add x y) (x + y) 0 :=
  (runs_pure (x + y)).operate (Step.exact_of_ne_div .add (by decide) (toInt_add h₁ h₂))

theorem runs_sub (h₁ : -2 ^ 63 ≤ x.toInt - y.toInt) (h₂ : x.toInt - y.toInt < 2 ^ 63) :
    Runs (sub x y) (x - y) 0 :=
  (runs_pure (x - y)).operate (Step.exact_of_ne_div .sub (by decide) (toInt_sub h₁ h₂))

theorem runs_mul (h₁ : -2 ^ 63 ≤ x.toInt * y.toInt) (h₂ : x.toInt * y.toInt < 2 ^ 63) :
    Runs (mul x y) (x * y) 0 :=
  (runs_pure (x * y)).operate (Step.exact_of_ne_div .mul (by decide) (toInt_mul h₁ h₂))

theorem runs_div (hy : 0 < y.toInt) : Runs (div x y) (x / y) 0 := by
  refine (runs_pure (x / y)).operate ⟨?_, toInt_div hy⟩
  rintro ⟨-, hzero : y = 0⟩
  rw [hzero] at hy
  exact absurd hy (by decide)

end Bounds

end Arith
