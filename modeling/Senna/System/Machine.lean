import Mathlib.Data.List.Basic

/-!
# Labelled machines and their runs

A machine has a total step function and a guard: `permits s a` says that the
label `a` may be taken in the state `s`. Nondeterminism is in the labels. A run
is a list of labels, `Legal` when every label is permitted where it is taken.
`Throughout` is the same for any other condition on the steps of a run.

Two rules carry the proofs over runs. `Legal.invariant` is the induction for
what every permitted step preserves. `exists_change` finds, in a run over which
a property changes, the step that changes it. `Reaches` is for what some
continuation of a run leads to.
-/

/-- States `σ` and labels `α`, with a guard and a step function. -/
structure Machine (σ α : Type*) where
  /-- The label may be taken in the state. -/
  permits : σ → α → Prop
  /-- The state after the label. -/
  step : σ → α → σ

namespace Machine

variable {σ α : Type*} (M : Machine σ α)

def run (s : σ) : List α → σ
  | [] => s
  | a :: as => run (M.step s a) as

def Legal (s : σ) : List α → Prop
  | [] => True
  | a :: as => M.permits s a ∧ Legal (M.step s a) as

/-- Every label of the list meets `P` in the state it is taken in. -/
def Throughout (P : σ → α → Prop) (s : σ) : List α → Prop
  | [] => True
  | a :: as => P s a ∧ Throughout P (M.step s a) as

@[simp] theorem run_nil (s : σ) : M.run s [] = s := rfl

@[simp] theorem run_cons (s : σ) (a : α) (as : List α) :
    M.run s (a :: as) = M.run (M.step s a) as := rfl

@[simp] theorem legal_nil (s : σ) : M.Legal s [] := trivial

@[simp] theorem legal_cons (s : σ) (a : α) (as : List α) :
    M.Legal s (a :: as) ↔ M.permits s a ∧ M.Legal (M.step s a) as := Iff.rfl

instance decidableLegal [∀ s a, Decidable (M.permits s a)] :
    ∀ (s : σ) (as : List α), Decidable (M.Legal s as)
  | _, [] => .isTrue trivial
  | s, a :: as => @instDecidableAnd _ _ _ (decidableLegal (M.step s a) as)

instance decidableThroughout (P : σ → α → Prop) [∀ s a, Decidable (P s a)] :
    ∀ (s : σ) (as : List α), Decidable (M.Throughout P s as)
  | _, [] => .isTrue trivial
  | s, a :: as => @instDecidableAnd _ _ _ (decidableThroughout P (M.step s a) as)

@[simp] theorem run_append (s : σ) (as bs : List α) :
    M.run s (as ++ bs) = M.run (M.run s as) bs := by
  induction as generalizing s with
  | nil => rfl
  | cons a as ih => exact ih (M.step s a)

@[simp] theorem legal_append (s : σ) (as bs : List α) :
    M.Legal s (as ++ bs) ↔ M.Legal s as ∧ M.Legal (M.run s as) bs := by
  induction as generalizing s with
  | nil => simp
  | cons a as ih => simp [ih, and_assoc]

@[simp] theorem throughout_append (P : σ → α → Prop) (s : σ) (as bs : List α) :
    M.Throughout P s (as ++ bs) ↔ M.Throughout P s as ∧ M.Throughout P (M.run s as) bs := by
  induction as generalizing s with
  | nil => simp [Throughout]
  | cons a as ih => simp [Throughout, ih, and_assoc]

variable {as : List α}

theorem throughout_of_forall {P : α → Prop} (s : σ) (h : ∀ a ∈ as, P a) :
    M.Throughout (fun _ => P) s as := by
  induction as generalizing s with
  | nil => exact trivial
  | cons a as ih =>
    exact ⟨h a List.mem_cons_self, ih (M.step s a) fun b hb => h b (List.mem_cons_of_mem a hb)⟩

variable {M}

theorem Throughout.and {P Q : σ → α → Prop} {s : σ} (hP : M.Throughout P s as)
    (hQ : M.Throughout Q s as) : M.Throughout (fun s a => P s a ∧ Q s a) s as := by
  induction as generalizing s with
  | nil => exact trivial
  | cons a as ih => exact ⟨⟨hP.1, hQ.1⟩, ih hP.2 hQ.2⟩

/-- **Invariant rule.** What every permitted step preserves, every legal run
preserves. -/
theorem Legal.invariant {I : σ → Prop} (hstep : ∀ s a, I s → M.permits s a → I (M.step s a))
    {s : σ} (legal : M.Legal s as) (h : I s) : I (M.run s as) := by
  induction as generalizing s with
  | nil => exact h
  | cons a as ih => exact ih legal.2 (hstep s a h legal.1)

theorem Legal.invariant₂ {I J : σ → Prop}
    (hJ : ∀ s a, J s → M.permits s a → J (M.step s a))
    (hI : ∀ s a, J s → I s → M.permits s a → I (M.step s a))
    {s : σ} (legal : M.Legal s as) (hj : J s) (hi : I s) : I (M.run s as) :=
  (legal.invariant (I := fun s => J s ∧ I s)
    (fun s a h hp => ⟨hJ s a h.1 hp, hI s a h.1 h.2 hp⟩) ⟨hj, hi⟩).2

theorem Legal.invariant_throughout {I : σ → Prop} {P : σ → α → Prop}
    (hstep : ∀ s a, I s → M.permits s a → P s a → I (M.step s a))
    {s : σ} (legal : M.Legal s as) (hP : M.Throughout P s as) (h : I s) :
    I (M.run s as) := by
  induction as generalizing s with
  | nil => exact h
  | cons a as ih => exact ih legal.2 hP.2 (hstep s a h legal.1 hP.1)

theorem Throughout.invariant {I : σ → Prop} {P : σ → α → Prop}
    (hstep : ∀ s a, I s → P s a → I (M.step s a)) {s : σ}
    (hP : M.Throughout P s as) (h : I s) : I (M.run s as) := by
  induction as generalizing s with
  | nil => exact h
  | cons a as ih => exact ih hP.2 (hstep s a h hP.1)

theorem Legal.throughout {I : σ → Prop} {P : σ → α → Prop}
    (hstep : ∀ s a, I s → M.permits s a → I (M.step s a))
    (hP : ∀ s a, I s → M.permits s a → P s a) {s : σ} (legal : M.Legal s as)
    (h : I s) : M.Throughout P s as := by
  induction as generalizing s with
  | nil => exact trivial
  | cons a as ih => exact ⟨hP s a h legal.1, ih legal.2 (hstep s a h legal.1)⟩

/-- **Simulation rule.** If another machine can follow every step, with any number of its own, it
can follow every run. -/
theorem Legal.simulate {τ β : Type*} {N : Machine τ β} {R : σ → τ → Prop}
    (hstep : ∀ s t a, R s t → M.permits s a → ∃ bs, N.Legal t bs ∧ R (M.step s a) (N.run t bs))
    {s : σ} {t : τ} (legal : M.Legal s as) (h : R s t) :
    ∃ bs, N.Legal t bs ∧ R (M.run s as) (N.run t bs) := by
  induction as generalizing s t with
  | nil => exact ⟨[], trivial, h⟩
  | cons a as ih =>
    obtain ⟨bs, hbs, hnext⟩ := hstep s t a h legal.1
    obtain ⟨cs, hcs, hend⟩ := ih legal.2 hnext
    refine ⟨bs ++ cs, (N.legal_append t bs cs).mpr ⟨hbs, hcs⟩, ?_⟩
    rw [run_append]
    exact hend

theorem exists_change {P : σ → Prop} {s : σ} (h₀ : ¬ P s)
    (h₁ : P (M.run s as)) :
    ∃ pre a post, as = pre ++ a :: post ∧ ¬ P (M.run s pre) ∧
      P (M.step (M.run s pre) a) := by
  induction as generalizing s with
  | nil => exact absurd h₁ h₀
  | cons a as ih =>
    by_cases h : P (M.step s a)
    · exact ⟨[], a, as, rfl, h₀, h⟩
    · obtain ⟨pre, b, post, rfl, hpre, hb⟩ := ih h h₁
      exact ⟨a :: pre, b, post, rfl, hpre, hb⟩

/-! ### What can still happen -/

variable (M) in
/-- Some legal run from the state ends where `P` holds. -/
def Reaches (s : σ) (P : σ → Prop) : Prop := ∃ as, M.Legal s as ∧ P (M.run s as)

namespace Reaches

variable {s : σ} {P Q : σ → Prop}

theorem here (h : P s) : M.Reaches s P := ⟨[], trivial, h⟩

theorem step {a : α} (hp : M.permits s a) (h : M.Reaches (M.step s a) P) : M.Reaches s P := by
  obtain ⟨as, legal, hend⟩ := h
  exact ⟨a :: as, ⟨hp, legal⟩, hend⟩

theorem trans (h : M.Reaches s P) (hnext : ∀ s', P s' → M.Reaches s' Q) : M.Reaches s Q := by
  obtain ⟨as, legal, hmiddle⟩ := h
  obtain ⟨bs, legal', hend⟩ := hnext _ hmiddle
  refine ⟨as ++ bs, (M.legal_append s as bs).mpr ⟨legal, legal'⟩, ?_⟩
  rw [run_append]
  exact hend

end Reaches

end Machine
