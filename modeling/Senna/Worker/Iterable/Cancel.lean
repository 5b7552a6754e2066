import Senna.Worker.Iterable.Cursor

/-!
# Iterable jobs: cancellation

Both sides read the state, change it and write it back, with separate commands. The worker reads the
flag just before it saves (`preserveCancellation`), and `CancelIteration` writes back the whole
state that it has read. A write of the other side between a party's read and its write is
overwritten:

* a worker that has read the flag, and saves after the cancellation was written, clears the flag;
* a `CancelIteration` that has read the state, and writes after the worker has saved, sets the
  cursor and the counters back.

Apart from that, cancelling works (`Quiet`, `Sticks`): if no write of the other side comes between a
party's read and its write, and the check in the loop gets its answer, the flag stays until the
state is deleted, at most the item in progress is processed after it was set, and `CancelIteration`
changes nothing but the flag. Cancellations may overlap each other.
-/

namespace Senna

open Redis

namespace Iteration

variable {items maxItemsPerRun : ℕ} {s : World} {r : Run} {p : Point}

/-- No write of the other side came between a party's read and its write, and the check of the loop
is answered unless the worker shuts down. -/
def Quiet (s : World) : Label → Prop
  | .save call => call = .failed ∨ ∀ r ∈ s.run, r.seen = s.cancels
  | .cancelSet i call => call = .failed ∨ ∀ c ∈ s.calls i, c.seen = s.saves
  | .check ok => ok = true ∨ ∀ r ∈ s.run, r.done = true
  | _ => True

def IterationState.Progress (st st' : IterationState) : Prop :=
  st.cursor = st'.cursor ∧ st.executions = st'.executions ∧ st.totalItems = st'.totalItems

theorem IterationState.Progress.symm {st st' : IterationState} (h : st.Progress st') :
    st'.Progress st := ⟨h.1.symm, h.2.1.symm, h.2.2.symm⟩

theorem IterationState.Progress.trans {st₁ st₂ st₃ : IterationState} (h : st₁.Progress st₂)
    (h' : st₂.Progress st₃) : st₁.Progress st₃ :=
  ⟨h.1.trans h'.1, h.2.1.trans h'.2.1, h.2.2.trans h'.2.2⟩

/-- How many items the run may still process before it next checks for cancellation. -/
def Run.pending (r : Run) : ℕ := if r.point = .item ∧ r.done = false then 1 else 0

theorem Run.pending_of_ne (hp : p ≠ .item) : ({ r with point := p } : Run).pending = 0 :=
  if_neg fun hboth => hp hboth.1

/-- **The invariant.** -/
structure Sticks (s : World) : Prop where
  /-- A cancellation that has returned is in Redis. -/
  flag : s.cancelled = true → s.flagged = true
  /-- What is in Redis, but for the flag, is what the worker saved last. -/
  progress : (s.stored.getD .zero).Progress (s.saved.getD .zero)
  /-- A run that has read since the last cancellation knows of the flag. -/
  run : ∀ r ∈ s.run, r.seen ≤ s.cancels ∧
    (r.seen = s.cancels → s.flagged = true → r.state.cancelled = true)
  /-- A cancellation that has read since the last save has what is in Redis, but for the flag. -/
  calls : ∀ i, ∀ c ∈ s.calls i, c.seen ≤ s.saves ∧
    (c.seen = s.saves → (c.read.getD .zero).Progress (s.stored.getD .zero))
  before : s.cancelled = false → s.after = 0
  after : s.after + (s.run.elim 0 Run.pending) ≤ 1

namespace Sticks

theorem init : Sticks World.init where
  flag := fun h => Bool.noConfusion h
  progress := ⟨rfl, rfl, rfl⟩
  run := forall_mem_none
  calls := fun _ => forall_mem_none
  before := fun _ => rfl
  after := by decide

/-- What the run has read last is either what it had read before or what is in Redis. -/
def Knows (s : World) (r r' : Run) : Prop :=
  (r'.seen = r.seen ∧ (r.state.cancelled = true → r'.state.cancelled = true)) ∨
    (r'.seen = s.cancels ∧ (s.flagged = true → r'.state.cancelled = true))

variable (h : Sticks s)

include h

theorem knows (hrun : s.run = some r) {r' : Run} (hknows : Knows s r r') :
    r'.seen ≤ s.cancels ∧ (r'.seen = s.cancels → s.flagged = true → r'.state.cancelled = true) := by
  obtain ⟨hle, hflag⟩ := h.run r hrun
  obtain ⟨hseen, hcancelled⟩ | ⟨hseen, hcancelled⟩ := hknows
  · exact ⟨hseen ▸ hle, fun heq hflagged => hcancelled (hflag (hseen ▸ heq) hflagged)⟩
  · exact ⟨Nat.le_of_eq hseen, fun _ => hcancelled⟩

theorem goto (hrun : s.run = some r) {r' : Run} (hknows : Knows s r r')
    (hafter : s.after + ({ r' with point := p } : Run).pending ≤ 1) : Sticks (s.goto r' p) where
  flag := h.flag
  progress := h.progress
  run := by
    rintro _ ⟨⟩
    exact h.knows hrun hknows
  calls := h.calls
  before := h.before
  after := hafter

theorem after_le : s.after ≤ 1 := Nat.le_trans (Nat.le_add_right _ _) h.after

theorem move (hrun : s.run = some r) {r' : Run} (hknows : Knows s r r') (hp : p ≠ .item) :
    Sticks (s.goto r' p) := by
  refine h.goto hrun hknows ?_
  rw [Run.pending_of_ne hp]
  exact h.after_le

theorem ret (nil : Bool) : Sticks (s.ret nil) where
  flag := h.flag
  progress := h.progress
  run := forall_mem_none
  calls := h.calls
  before := h.before
  after := h.after_le

theorem begin : Sticks s.begin where
  flag := h.flag
  progress := h.progress
  run := by
    rintro r ⟨⟩
    refine ⟨Nat.le_refl _, fun _ hflagged => ?_⟩
    change (s.stored.getD .zero).cancelled = true
    change s.flagged = true at hflagged
    unfold World.flagged at hflagged
    cases hst : s.stored with
    | none => rw [hst] at hflagged; exact Bool.noConfusion hflagged
    | some st => rw [hst] at hflagged; exact hflagged
  calls := h.calls
  before := h.before
  after := h.after_le

theorem toItem (hrun : s.run = some r) {r' : Run} (hknows : Knows s r r')
    (hfree : s.cancelled = false ∨ r'.done = true) : Sticks (s.goto r' .item) := by
  refine h.goto hrun hknows ?_
  unfold Run.pending
  obtain hnone | hdone := hfree
  · rw [h.before hnone]
    split <;> decide
  · rw [if_neg fun hboth => by rw [hboth.2] at hdone; exact Bool.noConfusion hdone]
    exact h.after_le

theorem check (hrun : s.run = some r) {ok : Bool}
    (hquiet : ok = true ∨ r.done = true) : Sticks (s.check r ok) := by
  unfold World.check
  split
  · exact h.move hrun (Or.inl ⟨rfl, fun _ => rfl⟩) Point.noConfusion
  · split
    · dsimp only
      split
      · exact h.move hrun (Or.inr ⟨rfl, fun _ => rfl⟩) Point.noConfusion
      · next hflagged =>
        have hnone : s.cancelled = false := by
          rw [← Bool.not_eq_true]
          exact fun hset => hflagged (h.flag hset)
        exact h.toItem hrun (Or.inr ⟨rfl, fun hset => absurd hset hflagged⟩) (Or.inl hnone)
    · next hok =>
      exact h.toItem hrun (Or.inl ⟨rfl, id⟩) (Or.inr (hquiet.resolve_left hok))

theorem item (hrun : s.run = some r) (hpoint : r.point = .item) (result : Result) :
    Sticks (s.item r result) := by
  unfold World.item
  split
  · exact h.move hrun (Or.inl ⟨rfl, id⟩) Point.noConfusion
  · next hdone =>
    have hfirst : s.after = 0 := by
      have hafter := h.after
      have hpending : r.pending = 1 := if_pos ⟨hpoint, Bool.not_eq_true _ |>.mp hdone⟩
      rw [hrun] at hafter
      change s.after + r.pending ≤ 1 at hafter
      omega
    have hmove : ∀ {r' : Run} {p : Point} {processed : List ℕ}, Knows s r r' → p ≠ .item →
        Sticks (({ s with
          after := if s.cancelled then s.after + 1 else s.after
          processed := processed } : World).goto r' p) := by
      intro r' p processed hknows hp
      have hmoved := h.move hrun hknows hp
      refine ⟨h.flag, h.progress, hmoved.run, h.calls, fun hnone => ?_, ?_⟩
      · change (if s.cancelled then s.after + 1 else s.after) = 0
        rw [if_neg fun hset => Bool.noConfusion (hset.symm.trans hnone)]
        exact hfirst
      · change (if s.cancelled then s.after + 1 else s.after) +
          ({ r' with point := p } : Run).pending ≤ 1
        rw [Run.pending_of_ne hp, hfirst]
        split <;> decide
    cases result with
    | nil | skip | stop | error => exact hmove (Or.inl ⟨rfl, id⟩) Point.noConfusion

theorem stale {o : Option IterationState} (i : ℕ) : ∀ c ∈ s.calls i,
    c.seen ≤ s.saves + 1 ∧
      (c.seen = s.saves + 1 → (c.read.getD .zero).Progress (o.getD .zero)) := by
  intro c hc
  have hle := (h.calls i c hc).1
  exact ⟨Nat.le_succ_of_le hle, fun heq => by omega⟩

theorem written (hrun : s.run = some r) (hseen : r.seen = s.cancels) :
    (∀ p, p ≠ .item → Sticks ((s.write r.state).goto r p)) ∧
      ∀ nil, Sticks ((s.write r.state).ret nil) := by
  have hflag : s.cancelled = true → r.state.cancelled = true :=
    fun hset => (h.run r hrun).2 hseen (h.flag hset)
  constructor
  · intro p hp
    refine ⟨hflag, ⟨rfl, rfl, rfl⟩, ?_, h.stale, h.before, ?_⟩
    · rintro _ ⟨⟩
      exact ⟨Nat.le_of_eq hseen, fun _ hset => hset⟩
    · change s.after + ({ r with point := p } : Run).pending ≤ 1
      rw [Run.pending_of_ne hp]
      exact h.after_le
  · intro nil
    exact ⟨hflag, ⟨rfl, rfl, rfl⟩, forall_mem_none, h.stale, h.before, h.after_le⟩

theorem save (hrun : s.run = some r) {call : Call}
    (hquiet : call = .failed ∨ r.seen = s.cancels) (detached : Bool) (goal : Goal) :
    Sticks (s.save r call detached goal) := by
  unfold World.save
  dsimp only
  cases call with
  | failed =>
    simp only [Call.effect, reduceCtorEq, if_false]
    split
    · exact h.move hrun (Or.inl ⟨rfl, id⟩) Point.noConfusion
    · exact h.ret false
  | delivered =>
    obtain ⟨hgoto, hret⟩ := h.written hrun (hquiet.resolve_left Call.noConfusion)
    cases goal with
    | checkpoint => exact hgoto .next Point.noConfusion
    | completion => exact hgoto (.onComplete detached) Point.noConfusion
    | cancel => exact hret true
    | _ => exact hret false
  | lost =>
    obtain ⟨hgoto, hret⟩ := h.written hrun (hquiet.resolve_left Call.noConfusion)
    simp only [Call.effect, reduceCtorEq, if_false]
    split
    · exact hgoto (.preserve true .interrupt) Point.noConfusion
    · exact hret false

theorem cancelSet {i : ℕ} {c : Cancellation} (hc : s.calls i = some c) {call : Call}
    (hquiet : call = .failed ∨ c.seen = s.saves) : Sticks (s.cancelSet i c call) := by
  have hcalls : ∀ {calls : ℕ → Option Cancellation} {P : Cancellation → Prop},
      (∀ j, ∀ c ∈ calls j, P c) → ∀ j, ∀ c ∈ Function.update calls i none j, P c := by
    intro calls P hall j c hmem
    by_cases hj : j = i
    · rw [hj, Function.update_self] at hmem
      exact absurd hmem (Option.not_mem_none _)
    · rw [Function.update_of_ne hj] at hmem
      exact hall j c hmem
  by_cases hfailed : call = .failed
  · subst hfailed
    refine ⟨fun hset => h.flag ?_, h.progress, h.run, hcalls h.calls, fun hnone => h.before ?_,
      h.after⟩
    · simpa [World.cancelSet, Call.effect] using hset
    · simpa [World.cancelSet, Call.effect] using hnone
  have hread := (h.calls i c hc).2 (hquiet.resolve_left hfailed)
  have hprogress : ({ c.read.getD .zero with cancelled := true } : IterationState).Progress
      (s.saved.getD .zero) := hread.trans h.progress
  -- what the other cancellations have read agrees with the new state as it did with the old one
  have hothers : ∀ j, ∀ c' ∈ s.calls j, c'.seen ≤ s.saves ∧ (c'.seen = s.saves →
      (c'.read.getD .zero).Progress { c.read.getD .zero with cancelled := true }) := by
    intro j c' hc'
    obtain ⟨hle, hsame⟩ := h.calls j c' hc'
    exact ⟨hle, fun heq => (hsame heq).trans hread.symm⟩
  have hrun : ∀ r ∈ s.run, r.seen ≤ s.cancels + 1 ∧
      (r.seen = s.cancels + 1 → true = true → r.state.cancelled = true) := by
    intro r hr
    have hle := (h.run r hr).1
    exact ⟨Nat.le_succ_of_le hle, fun heq => by omega⟩
  cases call with
  | failed => exact absurd rfl hfailed
  | delivered =>
    refine ⟨fun _ => rfl, hprogress, hrun, hcalls hothers, fun hnone => ?_, h.after⟩
    simp [World.cancelSet] at hnone
  | lost =>
    refine ⟨fun _ => rfl, hprogress, hrun, hcalls hothers, fun hnone => h.before ?_, h.after⟩
    simpa [World.cancelSet, Call.effect] using hnone

theorem act (hrun : s.run = some r) {e : Label} (hat : r.At e)
    (hquiet : Quiet s e) : Sticks (s.act items maxItemsPerRun r e) := by
  have hknows : ∀ {r' : Run}, r'.seen = r.seen → r'.state.cancelled = r.state.cancelled →
      Knows s r r' := fun hseen hcancelled => Or.inl ⟨hseen, fun h => hcancelled.trans h⟩
  cases hat with
  | build ok hpoint | onComplete ok detached hpoint =>
    simp only [World.act, hpoint]
    split
    · exact h.move hrun (hknows rfl rfl) Point.noConfusion
    · exact h.ret false
  | next hpoint =>
    simp only [World.act, hpoint, World.next]
    split <;> exact h.move hrun (hknows rfl rfl) Point.noConfusion
  | check ok hpoint =>
    simp only [World.act, hpoint]
    exact h.check hrun (hquiet.imp_right fun hdone => hdone r hrun)
  | item result hpoint =>
    simp only [World.act, hpoint]
    exact h.item hrun hpoint result
  | limits deadline tick hpoint =>
    simp only [World.act, hpoint, World.limits]
    split
    · exact h.move hrun (hknows rfl rfl) Point.noConfusion
    · split
      · split <;> exact h.move hrun (hknows rfl rfl) Point.noConfusion
      · exact h.move hrun (hknows rfl rfl) Point.noConfusion
  | preserve ok detached goal hpoint =>
    simp only [World.act, hpoint, World.preserve]
    cases ok with
    | false => split <;> exact h.move hrun (hknows rfl rfl) Point.noConfusion
    | true =>
      have hread : ∀ {r' : Run}, r'.seen = s.cancels →
          r'.state.cancelled = (r.state.cancelled || s.flagged) → Knows s r r' := by
        intro r' hseen hcancelled
        refine Or.inr ⟨hseen, fun hflagged => ?_⟩
        rw [hcancelled, hflagged, Bool.or_true]
      split <;> exact h.move hrun (hread rfl rfl) Point.noConfusion
  | save call detached goal hpoint =>
    simp only [World.act, hpoint]
    exact h.save hrun (hquiet.imp_right fun hseen => hseen r hrun) detached goal
  | finish hpoint | close ok detached hpoint =>
    simp only [World.act, hpoint]
    exact h.move hrun (hknows rfl rfl) Point.noConfusion
  | late ok detached hpoint =>
    simp only [World.act, hpoint, World.late]
    split
    · split
      · exact h.move hrun (Or.inr ⟨rfl, fun _ => rfl⟩) Point.noConfusion
      · next hflagged =>
        exact h.move hrun (Or.inr ⟨rfl, fun hset => absurd hset hflagged⟩) Point.noConfusion
    · exact h.move hrun (hknows rfl rfl) Point.noConfusion
  | delete call detached hpoint =>
    simp only [World.act, hpoint, World.delete]
    have hdeleted : Sticks (({ s with
        stored := none, saves := s.saves + 1, saved := none, cancelled := false,
        after := 0 } : World).ret true) :=
      ⟨fun hset => Bool.noConfusion hset, ⟨rfl, rfl, rfl⟩, forall_mem_none, h.stale, fun _ => rfl,
        Nat.zero_le _⟩
    cases call with
    | failed => exact h.ret true
    | delivered | lost => exact hdeleted

/-- **What every quiet step preserves.** -/
theorem step {e : Label} (he : s.Permits e) (hquiet : Quiet s e) :
    Sticks (s.step items maxItemsPerRun e) := by
  by_cases hrun : e.OfRun
  · obtain ⟨r, hr, hat, hstep⟩ := @World.step_of_run items maxItemsPerRun s e he hrun
    rw [hstep]
    exact h.act hr hat hquiet
  cases e with
  | load ok =>
    cases ok with
    | true => exact h.begin
    | false => exact h
  | shutdown =>
    refine ⟨h.flag, h.progress, fun r hr => ?_, h.calls, h.before, ?_⟩
    · obtain ⟨r', hr', rfl⟩ := Option.map_eq_some_iff.mp hr
      exact h.run r' hr'
    · have hnone : ∀ o : Option Run,
          (o.map fun r => ({ r with done := true } : Run)).elim 0 Run.pending = 0 := by
        intro o
        cases o with
        | none => rfl
        | some r => exact if_neg fun hboth => Bool.noConfusion hboth.2
      change s.after + (s.run.map _).elim 0 Run.pending ≤ 1
      rw [hnone]
      exact h.after_le
  | crash | leave => exact h.ret false
  | cancelGet i ok =>
    cases ok with
    | false => exact h
    | true =>
      refine ⟨h.flag, h.progress, h.run, fun j c hc => ?_, h.before, h.after⟩
      by_cases hj : j = i
      · subst hj
        have hc : c = ⟨s.stored, s.saves⟩ := by simpa [World.step, eq_comm] using hc
        subst hc
        exact ⟨Nat.le_refl _, fun _ => ⟨rfl, rfl, rfl⟩⟩
      · exact h.calls j c (by simpa [World.step, hj] using hc)
  | cancelSet i call =>
    obtain ⟨c, hc⟩ := he
    simp only [World.step, hc]
    exact h.cancelSet hc (hquiet.imp_right fun hseen => hseen c hc)
  | _ => exact absurd trivial hrun

end Sticks

/-- **Cancelling works** in every run in which no write of the other side comes between a party's read
and its write:
a cancellation that has returned stays in Redis until the state is deleted, at most one item is
processed after it, and it changes nothing but the flag. -/
theorem cancel_sticks (items maxItemsPerRun : ℕ) (es : List Label)
    (legal : (iterationMachine items maxItemsPerRun).Legal .init es)
    (hquiet : (iterationMachine items maxItemsPerRun).Throughout Quiet .init es) :
    let s := (iterationMachine items maxItemsPerRun).run .init es
    (s.cancelled = true → s.flagged = true) ∧ s.after ≤ 1 ∧
      (s.stored.getD .zero).Progress (s.saved.getD .zero) := by
  intro s
  have h : Sticks s :=
    legal.invariant_throughout (fun s e h he hquiet => h.step he hquiet) hquiet .init
  exact ⟨h.flag, h.after_le, h.progress⟩

/-- A run that stops at its first check, because it was cancelled, by two calls at once. -/
def cancelledRun : List Label :=
  [.load true, .build true, .next, .cancelGet 0 true, .cancelGet 1 true, .cancelSet 0 .delivered,
    .cancelSet 1 .delivered, .check true, .save .delivered]

theorem cancel_sticks_cancelledRun :
    let s := (iterationMachine 1 0).run .init cancelledRun
    s.cancelled = true ∧ s.flagged = true ∧ s.after ≤ 1 ∧
      (s.stored.getD .zero).Progress (s.saved.getD .zero) := by
  have hlegal : (iterationMachine 1 0).Legal .init cancelledRun :=
    ⟨⟨rfl, rfl⟩, ⟨_, rfl, rfl⟩, ⟨_, rfl, rfl⟩, rfl, rfl, ⟨_, rfl⟩, ⟨_, rfl⟩,
      ⟨_, rfl, rfl, nofun⟩, ⟨_, _, _, rfl, rfl, nofun⟩, trivial⟩
  have hquiet : (iterationMachine 1 0).Throughout Quiet .init cancelledRun := by
    refine ⟨trivial, trivial, trivial, trivial, trivial, Or.inr ?_, Or.inr ?_, Or.inl rfl,
      Or.inr ?_, trivial⟩
    · rintro c ⟨⟩
      rfl
    · rintro c ⟨⟩
      rfl
    · rintro r ⟨⟩
      rfl
  obtain ⟨hflag, hafter, hprogress⟩ := cancel_sticks 1 0 cancelledRun hlegal hquiet
  exact ⟨rfl, hflag rfl, hafter, hprogress⟩

def overwrittenRun : List Label :=
  [.load true, .build true, .next, .check true, .item .nil, .limits true false, .preserve true,
    .preserve true, .cancelGet 0 true, .cancelSet 0 .delivered, .save .delivered]

def rolledBackRun : List Label :=
  [.load true, .build true, .next, .check true, .item .nil, .limits true false, .preserve true,
    .preserve true, .cancelGet 0 true, .save .delivered, .cancelSet 0 .delivered]

theorem cancel_races :
    ((iterationMachine 2 0).Legal .init overwrittenRun ∧
        ((iterationMachine 2 0).run .init overwrittenRun).cancelled = true ∧
        ((iterationMachine 2 0).run .init overwrittenRun).flagged = false) ∧
      (iterationMachine 2 0).Legal .init rolledBackRun ∧
        ((iterationMachine 2 0).run .init rolledBackRun).saved = some ⟨some 1, 1, 1, false⟩ ∧
        ((iterationMachine 2 0).run .init rolledBackRun).stored = some ⟨none, 0, 0, true⟩ := by
  refine ⟨⟨?_, rfl, rfl⟩, ?_, rfl, rfl⟩
  · exact ⟨⟨rfl, rfl⟩, ⟨_, rfl, rfl⟩, ⟨_, rfl, rfl⟩, ⟨_, rfl, rfl, nofun⟩, ⟨_, rfl, rfl⟩,
      ⟨_, rfl, rfl⟩, ⟨_, _, _, rfl, rfl, nofun⟩, ⟨_, _, _, rfl, rfl, nofun⟩, rfl, ⟨_, rfl⟩,
      ⟨_, _, _, rfl, rfl, nofun⟩, trivial⟩
  · exact ⟨⟨rfl, rfl⟩, ⟨_, rfl, rfl⟩, ⟨_, rfl, rfl⟩, ⟨_, rfl, rfl, nofun⟩, ⟨_, rfl, rfl⟩,
      ⟨_, rfl, rfl⟩, ⟨_, _, _, rfl, rfl, nofun⟩, ⟨_, _, _, rfl, rfl, nofun⟩, rfl,
      ⟨_, _, _, rfl, rfl, nofun⟩, ⟨_, rfl⟩, trivial⟩

end Iteration

end Senna
