import Mathlib.Logic.Function.Basic
import Senna.System.Machine

/-!
# Starting and stopping the periodic scheduler

`Start` launches a run loop unless one is running or being stopped, and `Stop` asks the loop to end
and waits until it has. Both look at two flags under a mutex. A run loop makes a pass over its
entries at once, and then one for every tick, until its context is done or its `stopCh` is closed.
When it returns, it does **two things, one after the other**: it closes `done`, which lets every
waiting `Stop` go, and only then takes the mutex and resets the flags.

In the machine any number of calls and run loops take their steps in any order. A step is a section
under the mutex, or a close or receive of a channel, or a decision of a run loop. Every `Start` that
finds the flags down makes a pair of channels, and pairs and run loops have the number of that
`Start`; the pair 0 is made by `NewScheduler`, which closes its `done`. A channel that is closed a
second time would panic; here it is counted (`closes`).

`Sound` says what is known of every state. From it, at most one run loop is alive, no channel is
closed twice, and a `Stop` that has returned has waited for the last pass. But a `Start` launches a
loop **only when the last loop has reset the flags**, which it has not when `Stop` returns.
-/

namespace Senna

namespace Periodic

namespace Lifecycle

/-- A channel of the scheduler. -/
inductive Chan where
  | stopCh (n : ℕ)
  | done (n : ℕ)
  deriving DecidableEq, Repr

/-- How far a run loop has come. -/
inductive Stage where
  /-- Its channels are made; before `go s.run`. -/
  | made
  /-- In `checkAndEnqueue`. -/
  | pass
  /-- At the `select`. -/
  | select
  /-- It returns; before `close(done)`. -/
  | leaving
  /-- `done` is closed; before the flags are reset. -/
  | closed
  /-- `run` has returned. -/
  | ended
  deriving DecidableEq, Repr

/-- A run loop, with the channels it is called with. -/
structure Loop where
  stopCh : Chan
  done : Chan
  /-- The `Start` call that launches it. -/
  call : ℕ
  /-- Its context is done. -/
  cancelled : Bool
  stage : Stage
  deriving DecidableEq, Repr

/-- How far a call has come. -/
inductive Call where
  /-- `Start`, before it launches the loop with this number. -/
  | starting (n : ℕ)
  /-- `Start` has launched a loop and returned. -/
  | started (n : ℕ)
  /-- `Start` has returned without launching a loop. -/
  | refused
  /-- `Stop`, before it receives from the channel. -/
  | waiting (done : Chan)
  /-- `Stop` has received from the channel and returned. -/
  | stopped (done : Chan)
  deriving DecidableEq, Repr

/-- The scheduler, with its calls and run loops. -/
structure State where
  running : Bool
  stopping : Bool
  stopCh : Chan
  done : Chan
  /-- The number of the last pair of channels. -/
  launches : ℕ
  /-- How often a channel was closed. -/
  closes : Chan → ℕ
  loops : ℕ → Option Loop
  calls : ℕ → Option Call

/-- A step of a call or of a run loop. -/
inductive Label where
  /-- The section of `Start`. -/
  | start (i : ℕ)
  /-- `go s.run(ctx, stopCh, done)`. -/
  | launch (n : ℕ)
  /-- The section of `Stop`. -/
  | stop (i : ℕ)
  /-- `<-done`. -/
  | receive (i : ℕ)
  /-- The context of a run loop is cancelled. -/
  | cancel (n : ℕ)
  /-- `checkAndEnqueue` returns. -/
  | passed (n : ℕ)
  /-- The `select` receives from the ticker. -/
  | tick (n : ℕ)
  /-- The `select` receives from the context. -/
  | contextDone (n : ℕ)
  /-- The `select` receives from `stopCh`. -/
  | stopRequested (n : ℕ)
  /-- `close(done)`. -/
  | close (n : ℕ)
  /-- The section at the end of `run`. -/
  | reset (n : ℕ)
  deriving DecidableEq, Repr

namespace State

/-- `NewScheduler`. -/
def init : State where
  running := false
  stopping := false
  stopCh := .stopCh 0
  done := .done 0
  launches := 0
  closes := Function.update (fun _ => 0) (.done 0) 1
  loops _ := none
  calls _ := none

variable (s : State)

def setCall (i : ℕ) (c : Call) : State := { s with calls := Function.update s.calls i (some c) }

def setLoop (n : ℕ) (l : Loop) : State := { s with loops := Function.update s.loops n (some l) }

def close (c : Chan) : State := { s with closes := Function.update s.closes c (s.closes c + 1) }

def start (i : ℕ) : State :=
  if s.running || s.stopping then s.setCall i .refused
  else
    let n := s.launches + 1
    let s := { s with stopCh := .stopCh n, done := .done n, running := true, launches := n }
    (s.setLoop n ⟨s.stopCh, s.done, i, false, .made⟩).setCall i (.starting n)

def stop (i : ℕ) : State :=
  if !s.running && !s.stopping then s.setCall i (.waiting s.done)
  else
    let s := if !s.stopping then { s.close s.stopCh with stopping := true } else s
    s.setCall i (.waiting s.done)

/-- The section at the end of `run`. -/
def reset (done : Chan) : State :=
  if s.done = done then { s with running := false, stopping := false } else s

def advance (n : ℕ) (stage : Stage) : State :=
  match s.loops n with
  | some l => s.setLoop n { l with stage := stage }
  | none => s

def step : Label → State
  | .start i => s.start i
  | .launch n =>
    match s.loops n with
    | some l => (s.advance n .pass).setCall l.call (.started n)
    | none => s
  | .stop i => s.stop i
  | .receive i =>
    match s.calls i with
    | some (.waiting c) => s.setCall i (.stopped c)
    | _ => s
  | .cancel n =>
    match s.loops n with
    | some l => s.setLoop n { l with cancelled := true }
    | none => s
  | .passed n => s.advance n .select
  | .tick n => s.advance n .pass
  | .contextDone n | .stopRequested n => s.advance n .leaving
  | .close n =>
    match s.loops n with
    | some l => (s.close l.done).advance n .closed
    | none => s
  | .reset n =>
    match s.loops n with
    | some l => (s.reset l.done).advance n .ended
    | none => s

def At (n : ℕ) (stage : Stage) : Prop := ∃ l ∈ s.loops n, l.stage = stage

def Permits : Label → Prop
  | .start i | .stop i => s.calls i = none
  | .launch n => s.At n .made
  | .receive i => ∃ c, s.calls i = some (.waiting c) ∧ s.closes c ≠ 0
  | .cancel n => ∃ l, s.loops n = some l
  | .passed n => s.At n .pass
  | .tick n => s.At n .select
  | .contextDone n => ∃ l ∈ s.loops n, l.stage = .select ∧ l.cancelled = true
  | .stopRequested n => ∃ l ∈ s.loops n, l.stage = .select ∧ s.closes l.stopCh ≠ 0
  | .close n => s.At n .leaving
  | .reset n => s.At n .closed

end State

def machine : Machine State Label where
  permits := State.Permits
  step := State.step

/-! ### What is known of every state -/

/-- `done` is closed, so the last pass is over. -/
def Stage.finished : Stage → Bool
  | closed | ended => true
  | _ => false

/-- What is known of a run loop. One that has not returned is the last one, and its `running` flag is
up. -/
structure Loop.Fits (l : Loop) (s : State) (n : ℕ) : Prop where
  stopCh : l.stopCh = .stopCh n
  done : l.done = .done n
  current : l.stage ≠ .ended → n = s.launches ∧ s.running = true
  closes : s.closes (.done n) = l.stage.finished.toNat

/-- What is known of every state. -/
structure Sound (s : State) : Prop where
  stopCh_eq : s.stopCh = .stopCh s.launches
  done_eq : s.done = .done s.launches
  loops_later : ∀ n > s.launches, s.loops n = none
  closes_later : ∀ n > s.launches, s.closes (.stopCh n) = 0 ∧ s.closes (.done n) = 0
  fits : ∀ n l, s.loops n = some l → l.Fits s n
  /-- The flag is up for a loop that will reset it. -/
  live : s.running = true → ∃ l, s.loops s.launches = some l ∧ l.stage ≠ .ended
  running_of_stopping : s.stopping = true → s.running = true
  /-- `stopCh` is closed by the `Stop` that raises the flag. -/
  requests : s.running = true → s.closes (.stopCh s.launches) = s.stopping.toNat
  once : ∀ c, s.closes c ≤ 1
  received : ∀ i c, s.calls i = some (.stopped c) → s.closes c ≠ 0

section Updates

variable (s : State)

theorem closes_close (c c' : Chan) :
    (s.close c).closes c' = if c' = c then s.closes c + 1 else s.closes c' :=
  Function.update_apply _ _ _ _

theorem closes_close_of_open {c : Chan} (hopen : s.closes c = 0) (c' : Chan) :
    (s.close c).closes c' = if c' = c then 1 else s.closes c' := by
  rw [closes_close, hopen]

theorem loops_setLoop (n m : ℕ) (l : Loop) :
    (s.setLoop n l).loops m = if m = n then some l else s.loops m :=
  Function.update_apply _ _ _ _

theorem calls_setCall (i j : ℕ) (c : Call) :
    (s.setCall i c).calls j = if j = i then some c else s.calls j :=
  Function.update_apply _ _ _ _

theorem advance_eq {n : ℕ} {l : Loop} (hl : s.loops n = some l) (stage : Stage) :
    s.advance n stage = s.setLoop n { l with stage := stage } := by
  rw [State.advance, hl]

end Updates

theorem sound_init : Sound .init where
  stopCh_eq := rfl
  done_eq := rfl
  loops_later _ _ := rfl
  closes_later n hn := by
    have hne : n ≠ 0 := Nat.ne_of_gt hn
    exact ⟨rfl, by simp [State.init, hne]⟩
  fits _ _ h := absurd h (by simp [State.init])
  live h := absurd h (by decide)
  running_of_stopping h := absurd h (by decide)
  requests h := absurd h (by decide)
  once c := by
    simp only [State.init, Function.update_apply]
    split <;> omega
  received _ _ h := absurd h (by simp [State.init])

section Steps

variable {s : State} {n : ℕ} {l : Loop}

variable (h : Sound s)

include h

theorem Sound.setCall (i : ℕ) {c : Call}
    (hc : ∀ ch, c = .stopped ch → s.closes ch ≠ 0) : Sound (s.setCall i c) := by
  refine { h with fits := fun n l hl => { h.fits n l hl with }, received := fun j ch hj => ?_ }
  rw [calls_setCall] at hj
  split at hj
  · exact hc ch (Option.some.inj hj)
  · exact h.received j ch hj

theorem Sound.setLoop (hl : s.loops n = some l) {l' : Loop}
    (hstopCh : l'.stopCh = l.stopCh) (hdone : l'.done = l.done)
    (hfinished : l'.stage.finished = l.stage.finished)
    (hended : l'.stage = .ended ↔ l.stage = .ended) : Sound (s.setLoop n l') := by
  have hfits := h.fits n l hl
  refine { h with loops_later := fun m hm => ?_, fits := fun m l'' hm => ?_, live := fun hr => ?_ }
  · have hne : m ≠ n := by
      rintro rfl
      rw [h.loops_later m hm] at hl
      cases hl
    rw [loops_setLoop, if_neg hne]
    exact h.loops_later m hm
  · rw [loops_setLoop] at hm
    split at hm
    · next heq =>
      obtain rfl := Option.some.inj hm
      subst heq
      exact ⟨hstopCh ▸ hfits.stopCh, hdone ▸ hfits.done,
        fun hne => hfits.current (mt hended.mpr hne), hfinished ▸ hfits.closes⟩
    · exact { h.fits m l'' hm with }
  · obtain ⟨l₀, hl₀, hne⟩ := h.live hr
    change ∃ l, (s.setLoop n l').loops s.launches = some l ∧ l.stage ≠ .ended
    rw [loops_setLoop]
    split
    · next heq =>
      rw [heq, hl] at hl₀
      obtain rfl := Option.some.inj hl₀
      exact ⟨l', rfl, mt hended.mp hne⟩
    · exact ⟨l₀, hl₀, hne⟩

theorem Sound.once_close {c : Chan} (hopen : s.closes c = 0) (c' : Chan) :
    (s.close c).closes c' ≤ 1 := by
  rw [closes_close_of_open s hopen]
  split
  · exact Nat.le_refl 1
  · exact h.once c'

theorem Sound.received_close {c : Chan} (hopen : s.closes c = 0) {i : ℕ} {c' : Chan}
    (hcall : s.calls i = some (.stopped c')) : (s.close c).closes c' ≠ 0 := by
  rw [closes_close_of_open s hopen]
  split
  · exact Nat.one_ne_zero
  · exact h.received i c' hcall

theorem Sound.close_done (hl : s.loops n = some l) (hstage : l.stage = .leaving) :
    Sound ((s.close l.done).advance n .closed) := by
  have hfits := h.fits n l hl
  obtain ⟨rfl, hrunning⟩ := hfits.current (by rw [hstage]; decide)
  have hopen : s.closes l.done = 0 := by
    rw [hfits.done, hfits.closes, hstage]
    rfl
  have hcloses (c : Chan) : (s.close l.done).closes c =
      if c = .done s.launches then 1 else s.closes c := by
    rw [closes_close_of_open s hopen, hfits.done]
  rw [advance_eq (s.close l.done) hl]
  refine { h with
    loops_later := fun m (hm : s.launches < m) => ?_
    closes_later := fun m (hm : s.launches < m) => ?_
    fits := fun m l' hm => ?_
    live := fun _ => ?_
    requests := fun hr => ?_
    once := h.once_close hopen
    received := fun i c hc => h.received_close hopen hc }
  · rw [loops_setLoop, if_neg (Nat.ne_of_gt hm)]
    exact h.loops_later m hm
  · have hne : Chan.done m ≠ .done s.launches := by
      rintro ⟨⟩
      exact absurd hm (Nat.lt_irrefl _)
    change (s.close l.done).closes _ = 0 ∧ (s.close l.done).closes _ = 0
    rw [hcloses, hcloses, if_neg Chan.noConfusion, if_neg hne]
    exact h.closes_later m hm
  · rw [loops_setLoop] at hm
    split at hm
    · next heq =>
      obtain rfl := Option.some.inj hm
      subst heq
      refine ⟨hfits.stopCh, hfits.done, fun _ => ⟨rfl, hrunning⟩, ?_⟩
      exact (hcloses _).trans (if_pos rfl)
    · next hne =>
      have hother := h.fits m l' hm
      refine { hother with closes := ?_ }
      refine (hcloses _).trans ((if_neg ?_).trans hother.closes)
      rintro ⟨⟩
      exact hne rfl
  · exact ⟨_, (loops_setLoop _ _ _ _).trans (if_pos rfl), Stage.noConfusion⟩
  · exact (hcloses _).trans ((if_neg Chan.noConfusion).trans (h.requests hr))

theorem Sound.reset (hl : s.loops n = some l) (hstage : l.stage = .closed) :
    Sound ((s.reset l.done).advance n .ended) := by
  have hfits := h.fits n l hl
  obtain ⟨rfl, hrunning⟩ := hfits.current (by rw [hstage]; decide)
  have hreset : s.reset l.done = { s with running := false, stopping := false } := by
    rw [State.reset, if_pos (h.done_eq.trans hfits.done.symm)]
  rw [hreset, advance_eq { s with running := false, stopping := false } hl]
  refine { h with
    loops_later := fun m (hm : s.launches < m) => ?_
    fits := fun m l' hm => ?_
    live := fun hr => absurd hr Bool.false_ne_true
    running_of_stopping := fun hr => absurd hr Bool.false_ne_true
    requests := fun hr => absurd hr Bool.false_ne_true }
  · rw [loops_setLoop, if_neg (Nat.ne_of_gt hm)]
    exact h.loops_later m hm
  · rw [loops_setLoop] at hm
    split at hm
    · next heq =>
      obtain rfl := Option.some.inj hm
      subst heq
      refine ⟨hfits.stopCh, hfits.done, fun hne => absurd rfl hne, ?_⟩
      exact hfits.closes.trans (by rw [hstage]; rfl)
    · next hne =>
      have hother := h.fits m l' hm
      exact { hother with current := fun hended => absurd (hother.current hended).1 hne }

theorem Sound.start (i : ℕ) : Sound (s.start i) := by
  unfold State.start
  split
  · exact h.setCall i fun ch hch => by cases hch
  · next hflags =>
    obtain ⟨hrunning, hstopping⟩ : s.running = false ∧ s.stopping = false := by
      simpa using hflags
    have hnext : s.launches < s.launches + 1 := Nat.lt_succ_self _
    refine Sound.setCall ?_ i fun ch hch => by cases hch
    refine {
      stopCh_eq := rfl
      done_eq := rfl
      loops_later := fun m (hm : s.launches + 1 < m) => ?_
      closes_later := fun m (hm : s.launches + 1 < m) => h.closes_later m (Nat.lt_trans hnext hm)
      fits := fun m l' hm => ?_
      live := fun _ => ⟨_, (loops_setLoop _ _ _ _).trans (if_pos rfl), Stage.noConfusion⟩
      running_of_stopping := fun _ => rfl
      requests := fun _ => ?_
      once := h.once
      received := h.received }
    · rw [loops_setLoop, if_neg (Nat.ne_of_gt hm)]
      exact h.loops_later m (Nat.lt_trans hnext hm)
    · rw [loops_setLoop] at hm
      split at hm
      · next heq =>
        obtain rfl := Option.some.inj hm
        subst heq
        exact ⟨rfl, rfl, fun _ => ⟨rfl, rfl⟩, (h.closes_later _ hnext).2⟩
      · have hother := h.fits m l' hm
        refine { hother with current := fun hended => ?_ }
        have hup := (hother.current hended).2
        rw [hrunning] at hup
        exact absurd hup Bool.false_ne_true
    · exact ((h.closes_later _ hnext).1).trans (congrArg Bool.toNat hstopping).symm

theorem Sound.request (hrunning : s.running = true) (hstopping : s.stopping = false) :
    Sound { s.close s.stopCh with stopping := true } := by
  have hopen : s.closes s.stopCh = 0 := by
    rw [h.stopCh_eq, h.requests hrunning, hstopping]
    rfl
  have hcloses (c : Chan) : (s.close s.stopCh).closes c =
      if c = .stopCh s.launches then 1 else s.closes c := by
    rw [closes_close_of_open s hopen, h.stopCh_eq]
  refine { h with
    closes_later := fun m (hm : s.launches < m) => ?_
    fits := fun m l hm => ?_
    running_of_stopping := fun _ => hrunning
    requests := fun _ => (hcloses _).trans (if_pos rfl)
    once := h.once_close hopen
    received := fun i c hc => h.received_close hopen hc }
  · have hne : Chan.stopCh m ≠ .stopCh s.launches := by
      rintro ⟨⟩
      exact absurd hm (Nat.lt_irrefl _)
    change (s.close s.stopCh).closes _ = 0 ∧ (s.close s.stopCh).closes _ = 0
    rw [hcloses, hcloses, if_neg hne, if_neg Chan.noConfusion]
    exact h.closes_later m hm
  · have hfits := h.fits m l hm
    exact { hfits with closes := (hcloses _).trans ((if_neg Chan.noConfusion).trans hfits.closes) }

theorem Sound.stop (i : ℕ) : Sound (s.stop i) := by
  have hwait {s : State} (h : Sound s) (c : Chan) : Sound (s.setCall i (.waiting c)) :=
    h.setCall i fun ch hch => by cases hch
  unfold State.stop
  split
  · exact hwait h s.done
  · next hflags =>
    cases hstopping : s.stopping with
    | true => exact hwait h s.done
    | false =>
      have hrunning : s.running = true := by simpa [hstopping] using hflags
      exact hwait (h.request hrunning hstopping) _

theorem Sound.advance (hl : s.loops n = some l) {stage : Stage}
    (hold : l.stage.finished = false) (hnew : stage.finished = false) :
    Sound (s.advance n stage) := by
  have hne {stage : Stage} (hstage : stage.finished = false) : stage ≠ .ended := by
    rintro rfl
    exact absurd hstage (by decide)
  rw [advance_eq s hl]
  exact h.setLoop hl rfl rfl (hnew.trans hold.symm) (iff_of_false (hne hnew) (hne hold))

/-- **Every step keeps what is known.** -/
theorem Sound.step {a : Label} (hp : s.Permits a) : Sound (s.step a) := by
  have hadvance {n : ℕ} {old : Stage} (hat : s.At n old) {new : Stage}
      (hold : old.finished = false) (hnew : new.finished = false) : Sound (s.advance n new) := by
    obtain ⟨l, hl, hstage⟩ := hat
    exact h.advance hl (hstage ▸ hold) hnew
  cases a with
  | start i => exact h.start i
  | stop i => exact h.stop i
  | launch n =>
    obtain ⟨l, hl, hstage⟩ := hp
    have hpass := hadvance ⟨l, hl, hstage⟩ (by decide) (by decide : Stage.pass.finished = false)
    rw [State.step, Option.mem_def.mp hl]
    exact hpass.setCall l.call fun ch hch => by cases hch
  | receive i =>
    obtain ⟨c, hc, hclosed⟩ := hp
    rw [State.step, hc]
    refine h.setCall i fun ch hch => ?_
    cases hch
    exact hclosed
  | cancel n =>
    obtain ⟨l, hl⟩ := hp
    rw [State.step, hl]
    exact h.setLoop hl rfl rfl rfl Iff.rfl
  | passed n | tick n => exact hadvance hp (by decide) (by decide)
  | contextDone n | stopRequested n =>
    obtain ⟨l, hl, hstage, -⟩ := hp
    exact hadvance ⟨l, hl, hstage⟩ (by decide) (by decide)
  | close n =>
    obtain ⟨l, hl, hstage⟩ := hp
    rw [State.step, Option.mem_def.mp hl]
    exact h.close_done hl hstage
  | reset n =>
    obtain ⟨l, hl, hstage⟩ := hp
    rw [State.step, Option.mem_def.mp hl]
    exact h.reset hl hstage

end Steps

theorem sound_of_legal {es : List Label} (legal : machine.Legal .init es) :
    Sound (machine.run .init es) :=
  legal.invariant (fun _ _ h hp => h.step hp) sound_init

/-! ### Results -/

def State.Active (s : State) (n : ℕ) : Prop :=
  ∃ l ∈ s.loops n, l.stage ≠ .made ∧ l.stage ≠ .ended

/-- Every run loop that a `Start` has made has returned. -/
def State.Quiet (s : State) : Prop := ∀ n l, s.loops n = some l → l.stage = .ended

/-- A `Start` that takes its section now launches a new run loop: it goes on to its `go` statement,
with which a run loop begins its first pass that was not there before. -/
def State.Launches (s : State) (i : ℕ) : Prop :=
  ∃ n, s.loops n = none ∧
    (s.step (.start i)).calls i = some (.starting n) ∧
    (s.step (.start i)).Permits (.launch n) ∧
    ((s.step (.start i)).step (.launch n)).At n .pass

theorem Sound.quiet_iff {s : State} (h : Sound s) : s.Quiet ↔ s.running = false := by
  constructor
  · intro hquiet
    rw [Bool.eq_false_iff]
    intro hrunning
    obtain ⟨l, hl, hne⟩ := h.live hrunning
    exact hne (hquiet _ l hl)
  · intro hrunning n l hl
    by_contra hne
    have hup := ((h.fits n l hl).current hne).2
    rw [hrunning] at hup
    exact Bool.false_ne_true hup

theorem at_launch {s : State} {n : ℕ} {l : Loop} (hl : s.loops n = some l) :
    (s.step (.launch n)).At n .pass := by
  rw [State.step, hl, advance_eq s hl]
  exact ⟨_, (loops_setLoop _ _ _ _).trans (if_pos rfl), rfl⟩

theorem Sound.launches_iff {s : State} (h : Sound s) (i : ℕ) : s.Launches i ↔ s.Quiet := by
  rw [h.quiet_iff]
  constructor
  · rintro ⟨n, -, hcall, -⟩
    rw [Bool.eq_false_iff]
    intro hrunning
    have hrefused : s.step (.start i) = s.setCall i .refused := by
      rw [State.step, State.start, hrunning]
      rfl
    rw [hrefused, calls_setCall, if_pos rfl] at hcall
    cases hcall
  · intro hrunning
    have hstopping : s.stopping = false := by
      rw [Bool.eq_false_iff]
      intro hstopping
      rw [h.running_of_stopping hstopping] at hrunning
      exact Bool.false_ne_true hrunning.symm
    have hstart : s.step (.start i) =
        ({ s with
            stopCh := .stopCh (s.launches + 1), done := .done (s.launches + 1), running := true,
            launches := s.launches + 1 }.setLoop (s.launches + 1)
          ⟨.stopCh (s.launches + 1), .done (s.launches + 1), i, false, .made⟩).setCall i
            (.starting (s.launches + 1)) := by
      rw [State.step, State.start, hrunning, hstopping]
      rfl
    have hloop : (s.step (.start i)).loops (s.launches + 1) =
        some ⟨.stopCh (s.launches + 1), .done (s.launches + 1), i, false, .made⟩ := by
      rw [hstart]
      exact (loops_setLoop _ _ _ _).trans (if_pos rfl)
    refine ⟨s.launches + 1, h.loops_later _ (Nat.lt_succ_self _), ?_, ⟨_, hloop, rfl⟩, ?_⟩
    · rw [hstart, calls_setCall, if_pos rfl]
    · exact at_launch hloop

/-- **The life of a scheduler.** In every interleaving at most one run loop is active, no channel is
closed twice, and when a `Stop` has returned, the loop it has waited for has finished its last pass.
A `Start`, after a `Stop` or not, launches a new run loop if and only if all loops before it have
returned, the reset of the flags included. -/
theorem scheduler_lifecycle {es : List Label} (legal : machine.Legal .init es) :
    (∀ n m, (machine.run .init es).Active n → (machine.run .init es).Active m → n = m) ∧
    (∀ i c, (machine.run .init es).calls i = some (.stopped c) →
      ∀ n l, (machine.run .init es).loops n = some l → l.done = c → l.stage.finished = true) ∧
    (∀ c, (machine.run .init es).closes c ≤ 1) ∧
    ∀ i, (machine.run .init es).calls i = none →
      ((machine.run .init es).Launches i ↔ (machine.run .init es).Quiet) := by
  have h := sound_of_legal legal
  refine ⟨?_, ?_, h.once, fun i _ => h.launches_iff i⟩
  · rintro n m ⟨l, hl, -, hne⟩ ⟨l', hl', -, hne'⟩
    rw [((h.fits n l hl).current hne).1, ((h.fits m l' hl').current hne').1]
  · rintro i c hcall n l hl rfl
    have hfits := h.fits n l hl
    have hclosed := h.received i l.done hcall
    rw [hfits.done, hfits.closes] at hclosed
    cases hfinished : l.stage.finished with
    | true => rfl
    | false =>
      rw [hfinished] at hclosed
      exact absurd rfl hclosed

/-- `Start`, a pass, and a `Stop` that returns as soon as it can. -/
def startStop : List Label :=
  [.start 0, .launch 1, .passed 1, .stop 1, .stopRequested 1, .close 1, .receive 1]

theorem legal_startStop : machine.Legal .init startStop :=
  ⟨rfl, ⟨_, rfl, rfl⟩, ⟨_, rfl, rfl⟩, rfl, ⟨_, rfl, rfl, Nat.one_ne_zero⟩, ⟨_, rfl, rfl⟩,
    ⟨_, rfl, Nat.one_ne_zero⟩, trivial⟩

theorem scheduler_lifecycle_restart :
    machine.Legal .init (startStop ++ [.reset 1]) ∧
      (machine.run .init (startStop ++ [.reset 1])).calls 1 = some (.stopped (.done 1)) ∧
      (machine.run .init (startStop ++ [.reset 1])).Launches 2 := by
  have legal : machine.Legal .init (startStop ++ [.reset 1]) :=
    (machine.legal_append _ _ _).mpr ⟨legal_startStop, ⟨_, rfl, rfl⟩, trivial⟩
  refine ⟨legal, rfl, ?_⟩
  exact ((scheduler_lifecycle legal).2.2.2 2 rfl).mpr ((sound_of_legal legal).quiet_iff.mpr rfl)

/-- **A `Start` that is lost.** `Stop` has returned, and the next call is a `Start`, which comes
before the loop has reset the flags. It launches nothing, and after the reset no loop is left and no
call is under way. -/
theorem start_after_stop_refused :
    machine.Legal .init (startStop ++ [.start 2, .reset 1]) ∧
      (machine.run .init startStop).calls 1 = some (.stopped (.done 1)) ∧
      (machine.run .init (startStop ++ [.start 2, .reset 1])).calls 2 = some .refused ∧
      (machine.run .init (startStop ++ [.start 2, .reset 1])).Quiet ∧
      ¬ (machine.run .init startStop).Launches 2 := by
  have legal : machine.Legal .init (startStop ++ [.start 2, .reset 1]) :=
    (machine.legal_append _ _ _).mpr ⟨legal_startStop, rfl, ⟨_, rfl, rfl⟩, trivial⟩
  refine ⟨legal, rfl, rfl, (sound_of_legal legal).quiet_iff.mpr rfl, ?_⟩
  rw [(sound_of_legal legal_startStop).launches_iff, (sound_of_legal legal_startStop).quiet_iff]
  decide

end Lifecycle

end Periodic

end Senna
