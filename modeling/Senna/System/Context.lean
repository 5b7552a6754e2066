import Mathlib.Data.Nat.Init
import Mathlib.Tactic.Common

/-!
# Programs under a context that may be cancelled

A program issues commands one after the other under a context. Once the context is done,
a command fails and has no effect, and the program sees the failure. When the context is
done is up to the environment: `live` is the number of commands that are still issued
before, and `none` if it is never done.

A failed command ends a `Proc` there. What came before it has happened: the state is not
rolled back. `persist` is the loop around a program that is to be tried again until it
succeeds or the context is done, and `detached` runs a program under a context that is
never done.

**Rules.** `Spends t n P Q K` is the specification of a program that needs `n` commands:
with as many left it ends in `Q`, with fewer it fails in `K`, and then the context is
done. The rules follow the ways to build a program. The rule for `persist` says that
neither case takes a second round. `Keeps` is the rule for what no part of a program touches.
-/

/-- A state, with the number of commands that are issued before the context is done. -/
structure Scope (σ : Type) where
  state : σ
  live : Option ℕ

namespace Scope

variable {σ : Type} (c : Scope σ)

def Done : Prop := c.live = some 0

instance : Decidable c.Done := inferInstanceAs (Decidable (c.live = some 0))

def Affords (n : ℕ) : Prop := ∀ k ∈ c.live, n ≤ k

instance (n : ℕ) : Decidable (c.Affords n) :=
  match h : c.live with
  | none => .isTrue fun k hk => by rw [h] at hk; cases hk
  | some k => decidable_of_iff (n ≤ k) ⟨fun hn k' hk' => by rw [h] at hk'; cases hk'; exact hn,
      fun hall => hall k h⟩

def spend (n : ℕ) (s : σ) : Scope σ := ⟨s, c.live.map (· - n)⟩

variable {c} {n m : ℕ} {s s' : σ}

@[simp] theorem state_spend : (c.spend n s).state = s := rfl

@[simp] theorem spend_zero : c.spend 0 c.state = c := by
  cases c with
  | mk s live => cases live <;> rfl

@[simp] theorem spend_spend : (c.spend n s).spend m s' = c.spend (n + m) s' := by
  simp [spend, Function.comp_def, Nat.sub_sub]

theorem affords_add : c.Affords (n + m) ↔ c.Affords n ∧ (c.spend n s).Affords m := by
  cases hlive : c.live with
  | none => simp [Affords, spend, hlive]
  | some k => simp [Affords, spend, hlive]; omega

theorem affords_zero : c.Affords 0 := fun _ _ => Nat.zero_le _

theorem affords_one : c.Affords 1 ↔ ¬ c.Done := by
  cases hlive : c.live with
  | none => simp [Affords, Done, hlive]
  | some k => simp [Affords, Done, hlive]; omega

theorem affords_of_none (h : c.live = none) : c.Affords n := by
  intro k hk
  rw [h] at hk
  cases hk

end Scope

def Proc (σ α : Type) : Type := Scope σ → Option α × Scope σ

namespace Proc

variable {σ α β : Type}

instance : Monad (Proc σ) where
  pure a := fun c => (some a, c)
  bind t u := fun c =>
    match t c with
    | (some a, c') => u a c'
    | (none, c') => (none, c')

def issue (f : σ → Option α × σ) : Proc σ α := fun c =>
  if c.Done then (none, c) else ((f c.state).1, c.spend 1 (f c.state).2)

def fail : Proc σ α := fun c => (none, c)

def reads (f : σ → α) : Proc σ α := fun c => (some (f c.state), c)

def detached (t : Proc σ α) : Proc σ α := fun c =>
  ((t ⟨c.state, none⟩).1, ⟨(t ⟨c.state, none⟩).2.state, c.live⟩)

/-- How a loop ended. -/
inductive Exit (α : Type) where
  | finished (a : α)
  /-- The context was done. -/
  | abandoned
  /-- The rounds have run out. -/
  | spinning
  deriving DecidableEq

def persist (t : Proc σ α) : ℕ → Scope σ → Exit α × Scope σ
  | 0, c => (.spinning, c)
  | rounds + 1, c =>
    match t c with
    | (some a, c') => (.finished a, c')
    | (none, c') => if c'.Done then (.abandoned, c') else persist t rounds c'

theorem bind_apply (t : Proc σ α) (u : α → Proc σ β) (c : Scope σ) :
    (t >>= u) c =
      match t c with
      | (some a, c') => u a c'
      | (none, c') => (none, c') := rfl

/-! ### What is kept -/

def Keeps (X : σ → Prop) (t : Proc σ α) : Prop := ∀ c : Scope σ, X c.state → X (t c).2.state

namespace Keeps

variable {X : σ → Prop} {t : Proc σ α} {u : α → Proc σ β}

theorem pure (a : α) : Keeps X (pure a : Proc σ α) := fun _ h => h

theorem fail : Keeps X (fail : Proc σ α) := fun _ h => h

theorem issue {f : σ → Option α × σ} (h : ∀ s, X s → X (f s).2) : Keeps X (issue f) := by
  intro c hX
  unfold Proc.issue
  split
  · exact hX
  · exact h _ hX

theorem reads_bind {f : σ → α} (h : ∀ a, Keeps X (u a)) : Keeps X (Proc.reads f >>= u) :=
  fun c hX => h (f c.state) c hX

theorem bind (h : Keeps X t) (hu : ∀ a, Keeps X (u a)) : Keeps X (t >>= u) := by
  intro c hX
  have hfirst := h c hX
  rw [bind_apply]
  split
  · next a c' heq => rw [heq] at hfirst; exact hu a c' hfirst
  · next c' heq => rw [heq] at hfirst; exact hfirst

end Keeps

/-! ### Specifications -/

/-- From a state with `P`, the program issues `n` commands and ends in `Q`. If the context is
done before the last of them, the program fails in `K`. -/
structure Spends (t : Proc σ α) (n : ℕ) (P : σ → Prop) (Q : α → σ → Prop) (K : σ → Prop) :
    Prop where
  enough : ∀ c : Scope σ, P c.state → c.Affords n → ∃ a s, t c = (some a, c.spend n s) ∧ Q a s
  short : ∀ c : Scope σ, P c.state → ¬ c.Affords n → ∃ s, t c = (none, ⟨s, some 0⟩) ∧ K s

namespace Spends

variable {t : Proc σ α} {u : α → Proc σ β} {n m : ℕ} {P P' : σ → Prop} {Q Q' : α → σ → Prop}
  {R : β → σ → Prop} {K K' : σ → Prop}

theorem pure {a : α} (h : ∀ s, P s → Q a s) : Spends (pure a : Proc σ α) 0 P Q K where
  enough c hP _ := ⟨a, c.state, by rw [Scope.spend_zero]; rfl, h _ hP⟩
  short _ _ hshort := absurd Scope.affords_zero hshort

theorem reads_bind {f : σ → α} (h : ∀ a, Spends (u a) m (fun s => P s ∧ f s = a) R K) :
    Spends (Proc.reads f >>= u) m P R K where
  enough c hP haffords := (h (f c.state)).enough c ⟨hP, rfl⟩ haffords
  short c hP hshort := (h (f c.state)).short c ⟨hP, rfl⟩ hshort

theorem reads_bind_of_eq {f : σ → α} {a : α} (hf : ∀ s, P s → f s = a) (h : Spends (u a) m P R K) :
    Spends (Proc.reads f >>= u) m P R K := by
  have hread (s : σ) (hP : P s) : Spends (u (f s)) m P R K := (hf s hP).symm ▸ h
  exact ⟨fun c hP haffords => (hread c.state hP).enough c hP haffords,
    fun c hP hshort => (hread c.state hP).short c hP hshort⟩

theorem of_false (h : ∀ s, ¬ P s) : Spends t n P Q K where
  enough _ hP _ := absurd hP (h _)
  short _ hP _ := absurd hP (h _)

theorem ite_of_iff {p q : Prop} [Decidable p] [Decidable q] {t' : Proc σ α}
    (hiff : ∀ s, P s → (p ↔ q)) (hpos : q → Spends t n P Q K) (hneg : ¬ q → Spends t' m P Q K) :
    Spends (if p then t else t') (if q then n else m) P Q K := by
  by_cases hp : p
  · by_cases hq : q
    · rw [if_pos hp, if_pos hq]
      exact hpos hq
    · exact of_false fun s hP => hq ((hiff s hP).mp hp)
  · by_cases hq : q
    · exact of_false fun s hP => hp ((hiff s hP).mpr hq)
    · rw [if_neg hp, if_neg hq]
      exact hneg hq

theorem issue {f : σ → Option α × σ} (h : ∀ s, P s → ∃ a s', f s = (some a, s') ∧ Q a s')
    (hK : ∀ s, P s → K s) : Spends (issue f) 1 P Q K where
  enough c hP haffords := by
    obtain ⟨a, s', hf, hQ⟩ := h _ hP
    exact ⟨a, s', by rw [Proc.issue, if_neg (Scope.affords_one.mp haffords), hf], hQ⟩
  short c hP hshort := by
    have hdone : c.Done := Classical.not_not.mp fun h => hshort (Scope.affords_one.mpr h)
    obtain ⟨s, live⟩ := c
    obtain rfl : live = some 0 := hdone
    exact ⟨s, if_pos rfl, hK _ hP⟩

theorem bind (h : Spends t n P Q K) (hu : ∀ a, Spends (u a) m (Q a) R K) :
    Spends (t >>= u) (n + m) P R K where
  enough c hP haffords := by
    obtain ⟨a, s, ht, hQ⟩ := h.enough c hP (Scope.affords_add (s := c.state).mp haffords).1
    obtain ⟨b, s', hu', hR⟩ :=
      (hu a).enough (c.spend n s) hQ (Scope.affords_add.mp haffords).2
    refine ⟨b, s', ?_, hR⟩
    rw [bind_apply, ht, ← Scope.spend_spend]
    exact hu'
  short c hP hshort := by
    by_cases hfirst : c.Affords n
    · -- the first part goes through, so it is the second that fails
      obtain ⟨a, s, ht, hQ⟩ := h.enough c hP hfirst
      have hsecond : ¬ (c.spend n s).Affords m := fun hm =>
        hshort (Scope.affords_add.mpr ⟨hfirst, hm⟩)
      obtain ⟨s', hu', hK⟩ := (hu a).short _ hQ hsecond
      exact ⟨s', by rw [bind_apply, ht]; exact hu', hK⟩
    · obtain ⟨s, ht, hK⟩ := h.short c hP hfirst
      exact ⟨s, by rw [bind_apply, ht], hK⟩

theorem conseq (h : Spends t n P Q K) (hP : ∀ s, P' s → P s) (hQ : ∀ a s, Q a s → Q' a s)
    (hK : ∀ s, K s → K' s) : Spends t n P' Q' K' where
  enough c hP' haffords := by
    obtain ⟨a, s, ht, h'⟩ := h.enough c (hP _ hP') haffords
    exact ⟨a, s, ht, hQ _ _ h'⟩
  short c hP' hshort := by
    obtain ⟨s, ht, h'⟩ := h.short c (hP _ hP') hshort
    exact ⟨s, ht, hK _ h'⟩

theorem persist (h : Spends t n P Q K) (c : Scope σ) (hP : P c.state) (rounds : ℕ) :
    (c.Affords n ∧ ∃ a s, t.persist (rounds + 1) c = (.finished a, c.spend n s) ∧ Q a s) ∨
      (¬ c.Affords n ∧ ∃ s, t.persist (rounds + 1) c = (.abandoned, ⟨s, some 0⟩) ∧ K s) := by
  by_cases haffords : c.Affords n
  · obtain ⟨a, s, ht, hQ⟩ := h.enough c hP haffords
    exact Or.inl ⟨haffords, a, s, by rw [Proc.persist, ht], hQ⟩
  · obtain ⟨s, ht, hK⟩ := h.short c hP haffords
    refine Or.inr ⟨haffords, s, ?_, hK⟩
    rw [Proc.persist, ht]
    exact if_pos rfl

theorem and_keeps {X : σ → Prop} (h : Spends t n P Q K) (hX : t.Keeps X) :
    Spends t n (fun s => P s ∧ X s) (fun a s => Q a s ∧ X s) K where
  enough c hP haffords := by
    obtain ⟨a, s, ht, hQ⟩ := h.enough c hP.1 haffords
    have hkept := hX c hP.2
    rw [ht] at hkept
    exact ⟨a, s, ht, hQ, hkept⟩
  short c hP hshort := h.short c hP.1 hshort

end Spends

end Proc
