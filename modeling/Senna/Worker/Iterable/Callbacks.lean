import Senna.Worker.Iterable.Cursor

/-!
# Iterable jobs: the callbacks

The machine of `Senna.Worker.Iterable` is about the items, and its iterator is a slice. Here is
`processIterable` again with its callbacks and with any handler and iterator: what `Next`, `Err`,
`Cursor` and `Close` give, what an item results in, and which callbacks there are and what they
return is all left open. `OnResume` is handed the state itself and may change it.

**Who is told what.** `OnComplete` is for an iteration that has come to its end, `OnCancel` for one
that was cancelled. The worker decides between them with one read of the stored flag, the check for
a late cancellation. After that it reads the flag once more, but only to save it.

So a cancellation that is stored between the two reads is in the state that `OnComplete` gets. And
one that is stored while the state of a completed iteration is still there is found by the next run,
if there is one: `OnComplete` has returned an error, or the worker has crashed. Both callbacks have
been called then. If cancellations come at other times, and the check gets its answer, each job is
told one thing only (`Timely`, `Exclusive`).

The invariant is about the flag in three places: in Redis, in the memory of the run, and in what the
callbacks have been told. The worker never sets it in memory unless it has read it, and whatever it
saves then keeps it, so **a flag in memory is in Redis too** (`Run.Fits`). That is why it is enough
to look at Redis before completing.
-/

namespace Senna

open Redis

namespace Iteration

namespace Callbacks

/-- `IterationState` with a cursor of any kind. -/
structure State (γ : Type) where
  cursor : Option γ
  executions : ℕ
  totalItems : ℕ
  cancelled : Bool
  deriving DecidableEq

def State.zero {γ : Type} : State γ := ⟨none, 0, 0, false⟩

/-- Which fields of `IterableCallbacks` are not nil. -/
structure IterableCallbacks where
  onStart : Bool
  onResume : Bool
  onStop : Bool
  onComplete : Bool
  onCancel : Bool

/-- `IterableJobOptions`. -/
structure Options where
  maxItemsPerRun : ℕ
  callbacks : IterableCallbacks

/-- A callback was called. -/
inductive Fired (γ : Type) where
  | start
  | resume
  | stop
  | complete (state : State γ)
  | cancel
  deriving DecidableEq

/-- What a save is for. -/
inductive Goal where
  /-- A limit was reached; `preserveCancellation` is called once more by
  `handleIterationInterrupt`. -/
  | limit
  | interrupt
  | itemError
  /-- The one save without a read before it. -/
  | iteratorError
  | checkpoint
  | closeError
  | completion
  | cancel
  deriving DecidableEq

/-- A control point of `processIterable`. -/
inductive Point where
  /-- The state is loaded; before `OnStart` or `OnResume`. -/
  | start
  /-- Before `BuildIterator`. -/
  | build
  /-- Before `iter.Next`. -/
  | next
  /-- Before the cancellation check of the loop. -/
  | check
  /-- Before the shutdown check and `ProcessItem`. -/
  | item
  /-- The item is counted; before the checks of the limits and of the save timer. -/
  | limits
  /-- Before the read of `preserveCancellation`. -/
  | preserve (detached : Bool) (goal : Goal)
  /-- Before the write of the state. -/
  | save (detached : Bool) (goal : Goal)
  /-- After the loop, before `iter.Err`. -/
  | ended
  /-- Before the check for a late cancellation. -/
  | late (detached : Bool)
  /-- Before `iter.Close`. -/
  | close (detached : Bool)
  /-- Before `OnComplete`. -/
  | complete (detached : Bool)
  /-- Before the deletion of the state. -/
  | delete (detached : Bool)
  /-- Before `OnCancel`. -/
  | cancel
  /-- Before `OnStop` and the return, with nil after a cancellation. -/
  | stop (nil : Bool)
  deriving DecidableEq

/-- A run of `processIterable`. -/
structure Run (γ : Type) where
  /-- The state in memory. -/
  state : State γ
  /-- `isResume`. -/
  resume : Bool
  itemsThisRun : ℕ
  /-- The worker's context is done. -/
  done : Bool
  point : Point

/-- One iterable job. -/
structure World (γ : Type) where
  /-- What stands in Redis. -/
  stored : Option (State γ)
  run : Option (Run γ)
  /-- `processIterable` has returned nil. -/
  finished : Bool
  /-- The job is acknowledged or dead, and is not run again. -/
  settled : Bool
  /-- The `CancelIteration` calls between their read and their write, with what they have read. -/
  calls : ℕ → Option (Option (State γ))
  /-- The callbacks so far. -/
  fired : List (Fired γ)

/-- A label of the machine. The results of everything that is called are in the labels. -/
inductive Label (γ : Type) where
  | load (ok : Bool)
  /-- `OnStart` or `OnResume`, with the state that the latter leaves. -/
  | start (ok : Bool) (state : State γ)
  | build (ok : Bool)
  | shutdown
  | next (more : Bool)
  | check (ok : Bool)
  | item (result : Result) (cursor : Option γ)
  | limits (deadline tick : Bool)
  | preserve (ok : Bool)
  | save (call : Call)
  /-- `iter.Err`, and whether it is `context.Canceled`. -/
  | finish (err : Option Bool)
  | late (ok : Bool)
  | close (ok : Bool)
  | complete (ok : Bool)
  | delete (call : Call)
  | cancel
  | stop
  | settle
  | crash
  | cancelGet (i : ℕ) (ok : Bool)
  | cancelSet (i : ℕ) (call : Call)

namespace World

variable {γ : Type}

def init : World γ := ⟨none, none, false, false, fun _ => none, []⟩

def goto (s : World γ) (r : Run γ) (point : Point) : World γ :=
  { s with run := some { r with point := point } }

/-- `processIterable` returns; with nil, the job is done with. -/
def ret (s : World γ) (nil : Bool) : World γ := { s with run := none, finished := nil }

def fire (s : World γ) (f : Fired γ) : World γ := { s with fired := f :: s.fired }

def flagged (s : World γ) : Bool :=
  match s.stored with
  | some st => st.cancelled
  | none => false

def begin (s : World γ) : World γ :=
  let state := s.stored.getD .zero
  { s with
    run := some ⟨{ state with executions := state.executions + 1 }, s.stored.isSome, 0, false,
      .start⟩ }

/-- `OnStart` in the first execution, else `OnResume`. -/
def start (callbacks : IterableCallbacks) (s : World γ) (r : Run γ) (ok : Bool) (state : State γ) :
    World γ :=
  -- after an early `CancelIteration` the first execution is a resume as well
  if r.state.executions = 1 ∧ callbacks.onStart then
    if ok then (s.fire .start).goto r .build else (s.fire .start).ret false
  else if r.resume ∧ callbacks.onResume then
    if ok then (s.fire .resume).goto { r with state := state } .build
    else (s.fire .resume).ret false
  else s.goto r .build

/-- `handleIterationCancelled` sets the flag and saves. -/
def cancelRun (s : World γ) (r : Run γ) (detached : Bool) : World γ :=
  s.goto { r with state := { r.state with cancelled := true } } (.save detached .cancel)

/-- The cancellation check of the loop; no command is sent when the flag is set in memory. -/
def check (s : World γ) (r : Run γ) (ok : Bool) : World γ :=
  if r.state.cancelled || (ok && s.flagged) then s.cancelRun r false else s.goto r .item

/-- An item whose result was nil or a `SkipItemError` is counted. -/
def count (s : World γ) (r : Run γ) (cursor : Option γ) : World γ :=
  s.goto
    { r with
      state := { r.state with totalItems := r.state.totalItems + 1, cursor := cursor }
      itemsThisRun := r.itemsThisRun + 1 } .limits

/-- The shutdown check and `ProcessItem`. -/
def item (s : World γ) (r : Run γ) (result : Result) (cursor : Option γ) : World γ :=
  if r.done then s.goto r (.preserve true .interrupt)
  else
    match result with
    | .nil | .skip => s.count r cursor
    -- the `break` leaves the loop without counting the item
    | .stop => s.goto r .ended
    | .error => s.goto r (.preserve false .itemError)

def limits (s : World γ) (r : Run γ) (maxItemsPerRun : ℕ) (deadline tick : Bool) : World γ :=
  if (0 < maxItemsPerRun ∧ maxItemsPerRun ≤ r.itemsThisRun) ∨ deadline then
    s.goto r (.preserve r.done .limit)
  else if tick then
    if r.done then s.goto r (.preserve true .interrupt) else s.goto r (.preserve false .checkpoint)
  else s.goto r .next

/-- `preserveCancellation`. -/
def preserve (s : World γ) (r : Run γ) (ok detached : Bool) (goal : Goal) : World γ :=
  let r :=
    { r with state := { r.state with cancelled := r.state.cancelled || (ok && s.flagged) } }
  if goal = .limit then s.goto r (.preserve detached .interrupt) else s.goto r (.save detached goal)

def write (s : World γ) (st : State γ) : World γ := { s with stored := some st }

def save (s : World γ) (r : Run γ) (call : Call) (detached : Bool) (goal : Goal) : World γ :=
  let s := call.effect s (s.write r.state)
  if call = .delivered then
    match goal with
    | .checkpoint => s.goto r .next
    | .completion => s.goto r (.complete detached)
    | .cancel => s.goto r .cancel
    | .limit | .interrupt => s.goto r (.stop false)
    | .itemError | .iteratorError | .closeError => s.ret false
  -- a save that failed ends the run, but a checkpoint that the shutdown broke off is done again
  else if goal = .checkpoint ∧ r.done then s.goto r (.preserve true .interrupt)
  else s.ret false

/-- `iter.Err`. -/
def finish (s : World γ) (r : Run γ) : Option Bool → World γ
  | some canceled =>
    if r.done || canceled then s.goto r (.preserve true .interrupt)
    -- no `preserveCancellation` here: a cancellation since the last read is overwritten
    else s.goto r (.save false .iteratorError)
  | none => s.goto r (.late r.done)

def late (s : World γ) (r : Run γ) (ok detached : Bool) : World γ :=
  if ok && s.flagged then s.cancelRun r detached else s.goto r (.close detached)

/-- `OnComplete`. -/
def complete (callbacks : IterableCallbacks) (s : World γ) (r : Run γ) (ok detached : Bool) :
    World γ :=
  if callbacks.onComplete then
    if ok then (s.fire (.complete r.state)).goto r (.delete detached)
    else (s.fire (.complete r.state)).ret false
  else s.goto r (.delete detached)

def delete (s : World γ) (call : Call) : World γ :=
  (call.effect s { s with stored := none }).ret true

/-- `OnCancel`; an error is only logged. -/
def cancel (callbacks : IterableCallbacks) (s : World γ) (r : Run γ) : World γ :=
  (if callbacks.onCancel then s.fire .cancel else s).goto r (.stop true)

/-- `OnStop`; an error is only logged. -/
def stop (callbacks : IterableCallbacks) (s : World γ) (nil : Bool) : World γ :=
  (if callbacks.onStop then s.fire .stop else s).ret nil

/-- The write of a `CancelIteration` call: the state that it read, or a new one, with the flag. -/
def cancelSet (s : World γ) (i : ℕ) (read : Option (State γ)) (call : Call) : World γ :=
  let s := call.effect s (s.write { read.getD .zero with cancelled := true })
  { s with calls := Function.update s.calls i none }

def act (opts : Options) (s : World γ) (r : Run γ) (e : Label γ) : World γ :=
  match e, r.point with
  | .start ok state, .start => s.start opts.callbacks r ok state
  | .build ok, .build => if ok then s.goto r .next else s.ret false
  | .next more, .next => if more then s.goto r .check else s.goto r .ended
  | .check ok, .check => s.check r ok
  | .item result cursor, .item => s.item r result cursor
  | .limits deadline tick, .limits => s.limits r opts.maxItemsPerRun deadline tick
  | .preserve ok, .preserve detached goal => s.preserve r ok detached goal
  | .save call, .save detached goal => s.save r call detached goal
  | .finish err, .ended => s.finish r err
  | .late ok, .late detached => s.late r ok detached
  | .close ok, .close detached =>
    s.goto r (.preserve detached (if ok then .completion else .closeError))
  | .complete ok, .complete detached => s.complete opts.callbacks r ok detached
  | .delete call, .delete _ => s.delete call
  | .cancel, .cancel => s.cancel opts.callbacks r
  | .stop, .stop nil => s.stop opts.callbacks nil
  | _, _ => s

def step (opts : Options) (s : World γ) (e : Label γ) : World γ :=
  match e with
  | .load ok => if ok then s.begin else s
  | .shutdown => { s with run := s.run.map fun r => { r with done := true } }
  | .settle => { s with settled := true }
  -- a job that is not settled is delivered again, even if it was done with
  | .crash => s.ret false
  | .cancelGet i ok =>
    if ok then { s with calls := Function.update s.calls i (some s.stored) } else s
  | .cancelSet i call =>
    match s.calls i with
    | some read => s.cancelSet i read call
    | none => s
  | e =>
    match s.run with
    | some r => s.act opts r e
    | none => s

/-- The run is at the control point of the label, and a command with a context that is done
fails. A job that is done with is not run again, unless a crash came before its acknowledgement; a
worker that is stopped before it could mark the completion counts as one. -/
def Permits (s : World γ) : Label γ → Prop
  | .load _ => s.run = none ∧ s.finished = false ∧ s.settled = false
  | .settle => s.run = none
  | .shutdown | .crash => True
  | .cancelGet i _ => s.calls i = none
  | .cancelSet i _ => ∃ read, s.calls i = some read
  | .start _ _ => ∃ r, s.run = some r ∧ r.point = .start
  | .build _ => ∃ r, s.run = some r ∧ r.point = .build
  | .next _ => ∃ r, s.run = some r ∧ r.point = .next
  | .check ok => ∃ r, s.run = some r ∧ r.point = .check ∧ (r.done = true → ok = false)
  | .item _ _ => ∃ r, s.run = some r ∧ r.point = .item
  | .limits _ _ => ∃ r, s.run = some r ∧ r.point = .limits
  | .preserve ok => ∃ r detached goal, s.run = some r ∧ r.point = .preserve detached goal ∧
      (r.done = true → detached = false → ok = false)
  | .save call => ∃ r detached goal, s.run = some r ∧ r.point = .save detached goal ∧
      (r.done = true → detached = false → call = .failed)
  | .finish _ => ∃ r, s.run = some r ∧ r.point = .ended
  | .late ok => ∃ r detached, s.run = some r ∧ r.point = .late detached ∧
      (r.done = true → detached = false → ok = false)
  | .close _ => ∃ r detached, s.run = some r ∧ r.point = .close detached
  | .complete _ => ∃ r detached, s.run = some r ∧ r.point = .complete detached
  | .delete call => ∃ r detached, s.run = some r ∧ r.point = .delete detached ∧
      (r.done = true → detached = false → call = .failed)
  | .cancel => ∃ r, s.run = some r ∧ r.point = .cancel
  | .stop => ∃ r nil, s.run = some r ∧ r.point = .stop nil

end World

def callbackMachine (γ : Type) (opts : Options) : Machine (World γ) (Label γ) where
  permits := World.Permits
  step := World.step opts

variable {γ : Type} {opts : Options} {s : World γ} {r r' : Run γ} {p : Point}

/-! ### When a cancellation may come -/

/-- `OnComplete` was called. -/
def World.Completed (s : World γ) : Prop := ∃ st, .complete st ∈ s.fired

def Point.completing : Point → Bool
  | .close _ | .preserve _ .completion | .complete _ => true
  | _ => false

/-- **When cancelling is safe.** No cancellation is stored between the check for a late one and the
call of `OnComplete`, except where the save before completion overwrites it, nor after that call
until the job is settled; that check gets its answer, if there is something to find; and `OnResume`
leaves the flag alone. -/
def Timely (s : World γ) : Label γ → Prop
  | .start _ state => ∀ r ∈ s.run, state.cancelled = r.state.cancelled
  | .late ok => ok = true ∨ s.flagged = false
  | .cancelSet _ call => call = .failed ∨ s.settled = true ∨
      (¬ s.Completed ∧ ∀ r ∈ s.run, r.point.completing = false)
  | _ => True

/-! ### The flag -/

def Point.plain : Point → Bool
  | .close _ | .preserve _ .completion | .complete _ | .save _ .completion | .delete _
  | .preserve _ .cancel | .save _ .cancel | .cancel => false
  | _ => true

/-- The flag in memory, at each control point: where it is set, it is set in Redis too. -/
def Run.Fits (flag : Bool) (r : Run γ) : Prop :=
  match r.point with
  | .close _ | .preserve _ .completion | .complete _ => r.state.cancelled = false ∧ flag = false
  | .save _ .completion | .delete _ => r.state.cancelled = false
  -- the flag is not read again once it is found
  | .preserve _ .cancel => False
  | .save _ .cancel | .cancel => r.state.cancelled = true ∧ flag = true
  | _ => r.state.cancelled = true → flag = true

theorem Run.Fits.known {flag : Bool} (h : r.Fits flag) (hset : r.state.cancelled = true) :
    flag = true := by
  unfold Run.Fits at h
  split at h
  all_goals simp_all

theorem Run.Fits.of_plain {flag : Bool} (hplain : p.plain = true)
    (h : r.state.cancelled = true → flag = true) : ({ r with point := p } : Run γ).Fits flag := by
  unfold Run.Fits
  unfold Point.plain at hplain
  split
  all_goals simp_all

theorem Run.Fits.flag {flag : Bool} (h : r.Fits flag) (hpoint : r.point.completing = false) :
    r.Fits true := by
  unfold Run.Fits at h ⊢
  unfold Point.completing at hpoint
  split at h
  all_goals simp_all

/-- **The invariant.** -/
structure Exclusive (s : World γ) : Prop where
  /-- What `OnComplete` was told. -/
  clean : ∀ st, .complete st ∈ s.fired → st.cancelled = false
  both : ¬ (s.Completed ∧ .cancel ∈ s.fired)
  /-- There is no cancellation for another run to find. -/
  completed : s.Completed → s.settled = false → s.flagged = false
  /-- Every other run finds the cancellation. -/
  cancelled : .cancel ∈ s.fired → s.settled = false →
    s.flagged = true ∧ ∀ r ∈ s.run, r.state.cancelled = true
  run : ∀ r ∈ s.run, r.Fits s.flagged
  settled : s.settled = true → s.run = none

namespace Exclusive

theorem init : Exclusive (World.init : World γ) where
  clean := nofun
  both := fun h => List.not_mem_nil h.2
  completed := fun ⟨_, h⟩ => absurd h List.not_mem_nil
  cancelled := fun h => absurd h List.not_mem_nil
  run := forall_mem_none
  settled := nofun

variable (h : Exclusive s)

include h

theorem ret (nil : Bool) : Exclusive (s.ret nil) where
  clean := h.clean
  both := h.both
  completed := h.completed
  cancelled := fun hfired hsettled => ⟨(h.cancelled hfired hsettled).1, forall_mem_none⟩
  run := forall_mem_none
  settled := fun _ => rfl

theorem fire {f : Fired γ} (hcancel : f ≠ .cancel)
    (hcomplete : ∀ st, f ≠ .complete st) : Exclusive (s.fire f) := by
  have hcompleted : (s.fire f).Completed → s.Completed := by
    rintro ⟨st, hst⟩
    exact ⟨st, (List.mem_cons.mp hst).resolve_left fun heq => hcomplete st heq.symm⟩
  have hcancelled : .cancel ∈ (s.fire f).fired → .cancel ∈ s.fired := fun hfired =>
    (List.mem_cons.mp hfired).resolve_left fun heq => hcancel heq.symm
  refine ⟨fun st hst => h.clean st ?_, fun hboth => h.both ⟨hcompleted hboth.1, hcancelled hboth.2⟩,
    fun hdone => h.completed (hcompleted hdone), fun hfired => h.cancelled (hcancelled hfired),
    h.run, h.settled⟩
  exact (List.mem_cons.mp hst).resolve_left fun heq => hcomplete st heq.symm

theorem cancelSet {call : Call} {i : ℕ}
    (htimely : Timely s (.cancelSet i call)) (read : Option (State γ)) :
    Exclusive (s.cancelSet i read call) := by
  have hwritten (hsafe : s.settled = true ∨
      (¬ s.Completed ∧ ∀ r ∈ s.run, r.point.completing = false)) :
      Exclusive (s.write { read.getD .zero with cancelled := true }) := by
    refine ⟨h.clean, h.both, fun hdone hsettled => ?_, fun hfired hsettled =>
      ⟨rfl, (h.cancelled hfired hsettled).2⟩, fun r hr => ?_, h.settled⟩
    · obtain hset | ⟨hnone, -⟩ := hsafe
      · rw [show s.settled = false from hsettled] at hset
        cases hset
      · exact absurd hdone hnone
    · have hr : s.run = some r := hr
      obtain hset | ⟨-, hpoint⟩ := hsafe
      · rw [h.settled hset] at hr
        cases hr
      · exact (h.run r hr).flag (hpoint r hr)
  cases call with
  | failed => exact ⟨h.clean, h.both, h.completed, h.cancelled, h.run, h.settled⟩
  | delivered | lost =>
    have hw := hwritten (htimely.resolve_left nofun)
    exact ⟨hw.clean, hw.both, hw.completed, hw.cancelled, hw.run, hw.settled⟩

theorem begin (hsettled : s.settled = false) : Exclusive s.begin := by
  -- a state that is not there reads like one without the flag
  have hloaded : (s.stored.getD .zero).cancelled = s.flagged := by
    unfold World.flagged
    cases s.stored <;> rfl
  refine ⟨h.clean, h.both, h.completed, fun hfired hnot => ?_, ?_, fun hset => ?_⟩
  · obtain ⟨hflag, -⟩ := h.cancelled hfired hnot
    refine ⟨hflag, ?_⟩
    rintro _ ⟨⟩
    exact hloaded.trans hflag
  · rintro _ ⟨⟩
    exact fun hset => hloaded.symm.trans hset
  · rw [show s.settled = true from hset] at hsettled
    cases hsettled

theorem stop (callbacks : IterableCallbacks) (nil : Bool) : Exclusive (s.stop callbacks nil) := by
  have hfired : Exclusive (s.fire .stop) := h.fire nofun nofun
  unfold World.stop
  split
  · exact hfired.ret nil
  · exact h.ret nil

section Running

variable (hrun : s.run = some r)

include hrun

theorem unsettled : s.settled = false := by
  rw [← Bool.not_eq_true]
  intro hsettled
  rw [h.settled hsettled] at hrun
  cases hrun

theorem known : r.state.cancelled = true → s.flagged = true :=
  (h.run r hrun).known

theorem fits_at (hpoint : r.point = p) : ({ r with point := p } : Run γ).Fits s.flagged := by
  subst hpoint
  exact h.run r hrun

theorem move (hkeeps : r.state.cancelled = true → r'.state.cancelled = true)
    (hfits : ({ r' with point := p } : Run γ).Fits s.flagged) : Exclusive (s.goto r' p) where
  clean := h.clean
  both := h.both
  completed := h.completed
  cancelled := fun hfired hsettled => by
    obtain ⟨hflag, hruns⟩ := h.cancelled hfired hsettled
    refine ⟨hflag, ?_⟩
    rintro _ ⟨⟩
    exact hkeeps (hruns r hrun)
  run := by
    rintro _ ⟨⟩
    exact hfits
  settled := fun hsettled => by
    have hunsettled := h.unsettled hrun
    rw [show s.settled = true from hsettled] at hunsettled
    cases hunsettled

theorem pass (hsame : r'.state.cancelled = r.state.cancelled) (hplain : p.plain = true) :
    Exclusive (s.goto r' p) :=
  h.move hrun (fun hset => hsame.trans hset)
    (Run.Fits.of_plain hplain fun hset => h.known hrun (hsame.symm.trans hset))

variable {detached : Bool}

theorem fireComplete (hpoint : r.point = .complete detached) :
    Exclusive (s.fire (.complete r.state)) := by
  have hfits := h.fits_at hrun hpoint
  obtain ⟨hclean, hflag⟩ := hfits
  -- after `OnCancel` every run has the flag in memory
  have hnone : Fired.cancel ∉ s.fired := fun hfired => by
    rw [(h.cancelled hfired (h.unsettled hrun)).2 r hrun] at hclean
    cases hclean
  have hold : .cancel ∈ (s.fire (.complete r.state)).fired → .cancel ∈ s.fired := fun hfired =>
    (List.mem_cons.mp hfired).resolve_left nofun
  refine ⟨fun st hst => ?_, fun hboth => hnone (hold hboth.2), fun _ _ => hflag,
    fun hfired => absurd (hold hfired) hnone, h.run, h.settled⟩
  obtain heq | hst := List.mem_cons.mp hst
  · cases heq
    exact hclean
  · exact h.clean st hst

theorem fireCancel (hpoint : r.point = .cancel) : Exclusive (s.fire .cancel) := by
  have hfits := h.fits_at hrun hpoint
  obtain ⟨hcancelled, hflag⟩ := hfits
  have hold : (s.fire .cancel).Completed → s.Completed := by
    rintro ⟨st, hst⟩
    exact ⟨st, (List.mem_cons.mp hst).resolve_left nofun⟩
  -- after `OnComplete` nothing is stored for this run to have found
  have hnone : ¬ s.Completed := fun hdone => by
    rw [h.completed hdone (h.unsettled hrun)] at hflag
    cases hflag
  refine ⟨fun st hst => h.clean st ((List.mem_cons.mp hst).resolve_left nofun),
    fun hboth => hnone (hold hboth.1), fun hdone => absurd (hold hdone) hnone,
    fun _ _ => ⟨hflag, ?_⟩, h.run, h.settled⟩
  intro r' hr'
  obtain rfl : r = r' := Option.some.inj (hrun.symm.trans hr')
  exact hcancelled

theorem write {goal : Goal}
    (hpoint : r.point = .save detached goal) : Exclusive (s.write r.state) where
  clean := h.clean
  both := h.both
  completed := fun hdone hsettled => by
    -- what is in memory was in Redis, where there was nothing
    change r.state.cancelled = false
    rw [← Bool.not_eq_true]
    intro hset
    have hflag := h.known hrun hset
    rw [h.completed hdone hsettled] at hflag
    cases hflag
  cancelled := fun hfired hsettled => by
    obtain ⟨-, hruns⟩ := h.cancelled hfired hsettled
    exact ⟨hruns r hrun, hruns⟩
  run := fun r' hr' => by
    obtain rfl : r = r' := Option.some.inj (hrun.symm.trans hr')
    have hfits := h.run r hrun
    change r.Fits r.state.cancelled
    unfold Run.Fits at hfits ⊢
    rw [hpoint] at hfits ⊢
    cases goal with
    | completion => exact hfits
    | cancel => exact ⟨hfits.1, hfits.1⟩
    | _ => exact id
  settled := h.settled

theorem save {goal : Goal}
    (hpoint : r.point = .save detached goal) (call : Call) :
    Exclusive (s.save r call detached goal) := by
  have hwritten := h.write hrun hpoint
  have hfits := hwritten.run r hrun
  unfold World.save
  cases call with
  | failed =>
    simp only [Call.effect, reduceCtorEq, if_false]
    split
    · exact h.pass hrun rfl rfl
    · exact h.ret false
  | lost =>
    simp only [Call.effect, reduceCtorEq, if_false]
    split
    · exact hwritten.pass hrun rfl rfl
    · exact hwritten.ret false
  | delivered =>
    simp only [Call.effect, if_true]
    unfold Run.Fits at hfits
    rw [hpoint] at hfits
    cases goal with
    | checkpoint | limit | interrupt => exact hwritten.pass hrun rfl rfl
    | completion => exact hwritten.move hrun id ⟨hfits, hfits⟩
    | cancel => exact hwritten.move hrun id hfits
    | _ => exact hwritten.ret false

theorem cancelRun (hflag : s.flagged = true)
    (detached : Bool) : Exclusive (s.cancelRun r detached) :=
  h.move hrun (fun _ => rfl) ⟨rfl, hflag⟩

theorem start (callbacks : IterableCallbacks) (ok : Bool)
    {state : State γ} (hsame : state.cancelled = r.state.cancelled) :
    Exclusive (s.start callbacks r ok state) := by
  have hstart : Exclusive (s.fire .start) := h.fire nofun nofun
  have hresume : Exclusive (s.fire .resume) := h.fire nofun nofun
  unfold World.start
  split
  · split
    · exact hstart.pass hrun rfl rfl
    · exact hstart.ret false
  · split
    · split
      · exact hresume.pass hrun hsame rfl
      · exact hresume.ret false
    · exact h.pass hrun rfl rfl

theorem check (ok : Bool) : Exclusive (s.check r ok) := by
  unfold World.check
  split
  · next hfound =>
    refine h.cancelRun hrun ?_ false
    rw [Bool.or_eq_true, Bool.and_eq_true] at hfound
    exact hfound.elim (h.known hrun) And.right
  · exact h.pass hrun rfl rfl

theorem late {ok : Bool}
    (htimely : ok = true ∨ s.flagged = false) (detached : Bool) :
    Exclusive (s.late r ok detached) := by
  unfold World.late
  split
  · next hfound => exact h.cancelRun hrun (Bool.and_eq_true _ _ ▸ hfound).2 detached
  · next hnone =>
    -- an unanswered read is taken for "not cancelled", which is why it has to be excluded
    have hflag : s.flagged = false := by
      obtain rfl | hflag := htimely
      · rw [Bool.true_and, Bool.not_eq_true] at hnone
        exact hnone
      · exact hflag
    refine h.move hrun id ⟨?_, hflag⟩
    rw [← Bool.not_eq_true]
    intro hset
    rw [h.known hrun hset] at hflag
    cases hflag

theorem preserve {goal : Goal}
    (hpoint : r.point = .preserve detached goal) (ok : Bool) :
    Exclusive (s.preserve r ok detached goal) := by
  have hkeeps (hset : r.state.cancelled = true) :
      (r.state.cancelled || (ok && s.flagged)) = true := by
    rw [hset, Bool.true_or]
  have hknown (hset : (r.state.cancelled || (ok && s.flagged)) = true) : s.flagged = true := by
    rw [Bool.or_eq_true, Bool.and_eq_true] at hset
    exact hset.elim (h.known hrun) And.right
  have hfits := h.fits_at hrun hpoint
  unfold World.preserve
  cases goal with
  | completion =>
    -- nothing was stored since the late check, so the second read agrees with it
    refine h.move hrun hkeeps ?_
    change (r.state.cancelled || (ok && s.flagged)) = false
    rw [hfits.1, hfits.2, Bool.and_false, Bool.or_false]
  | cancel => exact hfits.elim
  | _ => exact h.move hrun hkeeps hknown

theorem item (result : Result) (cursor : Option γ) : Exclusive (s.item r result cursor) := by
  unfold World.item
  split
  · exact h.pass hrun rfl rfl
  · cases result with
    | nil | skip | stop | error => exact h.pass hrun rfl rfl

theorem limits (maxItemsPerRun : ℕ)
    (deadline tick : Bool) : Exclusive (s.limits r maxItemsPerRun deadline tick) := by
  unfold World.limits
  split
  · exact h.pass hrun rfl rfl
  · split
    · split
      · exact h.pass hrun rfl rfl
      · exact h.pass hrun rfl rfl
    · exact h.pass hrun rfl rfl

theorem finish (err : Option Bool) : Exclusive (s.finish r err) := by
  cases err with
  | none => exact h.pass hrun rfl (rfl : (Point.late r.done).plain = true)
  | some canceled =>
    simp only [World.finish]
    split
    · exact h.pass hrun rfl rfl
    · exact h.pass hrun rfl rfl

theorem complete (hpoint : r.point = .complete detached) (callbacks : IterableCallbacks) (ok : Bool) :
    Exclusive (s.complete callbacks r ok detached) := by
  have hfits := h.fits_at hrun hpoint
  have hfired := h.fireComplete hrun hpoint
  unfold World.complete
  split
  · split
    · exact hfired.move hrun id hfits.1
    · exact hfired.ret false
  · exact h.move hrun id hfits.1

theorem delete (hpoint : r.point = .delete detached) (call : Call) : Exclusive (s.delete call) := by
  have hclean : r.state.cancelled = false := h.fits_at hrun hpoint
  have hdeleted : Exclusive (({ s with stored := none } : World γ).ret true) := by
    refine ⟨h.clean, h.both, fun _ _ => rfl, fun hfired hsettled => ?_, forall_mem_none,
      fun _ => rfl⟩
    rw [(h.cancelled hfired hsettled).2 r hrun] at hclean
    cases hclean
  cases call with
  | failed => exact h.ret true
  | delivered | lost => exact hdeleted

theorem cancel (hpoint : r.point = .cancel)
    (callbacks : IterableCallbacks) : Exclusive (s.cancel callbacks r) := by
  unfold World.cancel
  split
  · exact (h.fireCancel hrun hpoint).pass hrun rfl rfl
  · exact h.pass hrun rfl rfl

end Running

/-- **What every timely step preserves.** -/
theorem step {e : Label γ} (he : s.Permits e) (htimely : Timely s e) :
    Exclusive (s.step opts e) := by
  -- A label of the run happens at its own point, where the invariant says what is known of the
  -- cancellation; the others are `shutdown`, `settle`, `crash` and the two halves of a cancellation.
  cases e with
  | load ok =>
    cases ok with
    | true => exact h.begin he.2.2
    | false => exact h
  | start ok state =>
    obtain ⟨r, hr, hpoint⟩ := he
    simp only [World.step, hr, World.act, hpoint]
    exact h.start hr opts.callbacks ok (htimely r hr)
  | build ok =>
    obtain ⟨r, hr, hpoint⟩ := he
    simp only [World.step, hr, World.act, hpoint]
    split
    · exact h.pass hr rfl rfl
    · exact h.ret false
  | shutdown =>
    -- only the context of the run changes
    refine ⟨h.clean, h.both, h.completed,
      fun hfired hsettled => ⟨(h.cancelled hfired hsettled).1, ?_⟩, ?_, fun hset => ?_⟩
    · intro r hr
      obtain ⟨r', hr', rfl⟩ := Option.map_eq_some_iff.mp hr
      exact (h.cancelled hfired hsettled).2 r' hr'
    · intro r hr
      obtain ⟨r', hr', rfl⟩ := Option.map_eq_some_iff.mp hr
      exact h.run r' hr'
    · change s.run.map _ = none
      rw [h.settled hset]
      rfl
  | next more =>
    obtain ⟨r, hr, hpoint⟩ := he
    simp only [World.step, hr, World.act, hpoint]
    split
    · exact h.pass hr rfl rfl
    · exact h.pass hr rfl rfl
  | check ok =>
    obtain ⟨r, hr, hpoint, -⟩ := he
    simp only [World.step, hr, World.act, hpoint]
    exact h.check hr ok
  | item result cursor =>
    obtain ⟨r, hr, hpoint⟩ := he
    simp only [World.step, hr, World.act, hpoint]
    exact h.item hr result cursor
  | limits deadline tick =>
    obtain ⟨r, hr, hpoint⟩ := he
    simp only [World.step, hr, World.act, hpoint]
    exact h.limits hr opts.maxItemsPerRun deadline tick
  | preserve ok =>
    obtain ⟨r, detached, goal, hr, hpoint, -⟩ := he
    simp only [World.step, hr, World.act, hpoint]
    exact h.preserve hr hpoint ok
  | save call =>
    obtain ⟨r, detached, goal, hr, hpoint, -⟩ := he
    simp only [World.step, hr, World.act, hpoint]
    exact h.save hr hpoint call
  | finish err =>
    obtain ⟨r, hr, hpoint⟩ := he
    simp only [World.step, hr, World.act, hpoint]
    exact h.finish hr err
  | late ok =>
    obtain ⟨r, detached, hr, hpoint, -⟩ := he
    simp only [World.step, hr, World.act, hpoint]
    exact h.late hr htimely detached
  | close ok =>
    obtain ⟨r, detached, hr, hpoint⟩ := he
    simp only [World.step, hr, World.act, hpoint]
    cases ok with
    | true =>
      -- from one point of completion to the next: what was found at the last check is kept
      have hfits := h.fits_at hr hpoint
      exact h.move hr id hfits
    | false => exact h.pass hr rfl rfl
  | complete ok =>
    obtain ⟨r, detached, hr, hpoint⟩ := he
    simp only [World.step, hr, World.act, hpoint]
    exact h.complete hr hpoint opts.callbacks ok
  | delete call =>
    obtain ⟨r, detached, hr, hpoint, -⟩ := he
    simp only [World.step, hr, World.act, hpoint]
    exact h.delete hr hpoint call
  | cancel =>
    obtain ⟨r, hr, hpoint⟩ := he
    simp only [World.step, hr, World.act, hpoint]
    exact h.cancel hr hpoint opts.callbacks
  | stop =>
    obtain ⟨r, nil, hr, hpoint⟩ := he
    simp only [World.step, hr, World.act, hpoint]
    exact h.stop opts.callbacks nil
  | settle => exact ⟨h.clean, h.both, nofun, nofun, h.run, fun _ => he⟩
  | crash => exact h.ret false
  | cancelGet i ok =>
    cases ok with
    | true => exact ⟨h.clean, h.both, h.completed, h.cancelled, h.run, h.settled⟩
    | false => exact h
  | cancelSet i call =>
    obtain ⟨read, hread⟩ := he
    simp only [World.step, hread]
    exact h.cancelSet htimely read

end Exclusive

/-- **A job is told one thing only**, over all of its runs, if cancellations are timely:
`OnComplete` never gets a state that is cancelled, and not both `OnComplete` and `OnCancel` are
called. -/
theorem callbacks_exclude (opts : Options) (es : List (Label γ))
    (legal : (callbackMachine γ opts).Legal .init es)
    (htimely : (callbackMachine γ opts).Throughout Timely .init es) :
    let s := (callbackMachine γ opts).run .init es
    (∀ st, .complete st ∈ s.fired → st.cancelled = false) ∧
      ¬ ((∃ st, .complete st ∈ s.fired) ∧ .cancel ∈ s.fired) := by
  intro s
  have h : Exclusive s :=
    legal.invariant_throughout (fun s e h he htimely => h.step he htimely) htimely .init
  exact ⟨h.clean, h.both⟩

def allCallbacks : Options := ⟨0, true, true, true, true, true⟩

def cancelledFirst : List (Label ℕ) :=
  [.load true, .start true .zero, .build true, .cancelGet 0 true, .cancelSet 0 .delivered,
    .next true, .check true, .save .delivered, .cancel, .stop, .settle]

theorem callbacks_exclude_cancelledFirst :
    let s := (callbackMachine ℕ allCallbacks).run .init cancelledFirst
    s.fired = [.stop, .cancel, .start] ∧ (∀ st, .complete st ∈ s.fired → st.cancelled = false) ∧
      ¬ ((∃ st, .complete st ∈ s.fired) ∧ .cancel ∈ s.fired) := by
  have hlegal : (callbackMachine ℕ allCallbacks).Legal .init cancelledFirst :=
    ⟨⟨rfl, rfl, rfl⟩, ⟨_, rfl, rfl⟩, ⟨_, rfl, rfl⟩, rfl, ⟨_, rfl⟩, ⟨_, rfl, rfl⟩,
      ⟨_, rfl, rfl, nofun⟩, ⟨_, _, _, rfl, rfl, nofun⟩, ⟨_, rfl, rfl⟩, ⟨_, _, rfl, rfl⟩, rfl,
      trivial⟩
  have htimely : (callbackMachine ℕ allCallbacks).Throughout Timely .init cancelledFirst := by
    refine ⟨trivial, ?_, trivial, trivial, Or.inr (Or.inr ⟨?_, ?_⟩), trivial, trivial, trivial,
      trivial, trivial, trivial, trivial⟩
    · rintro r ⟨⟩
      rfl
    · rintro ⟨st, hst⟩
      cases hst with
      | tail _ hst => exact List.not_mem_nil hst
    · rintro r ⟨⟩
      rfl
  exact ⟨rfl, callbacks_exclude allCallbacks cancelledFirst hlegal htimely⟩

/-- There are no items, and the cancellation comes between the check for it and the save. -/
def cancelledLate : List (Label ℕ) :=
  [.load true, .start true .zero, .build true, .next false, .finish none, .late true,
    .cancelGet 0 true, .cancelSet 0 .delivered, .close true, .preserve true, .save .delivered,
    .complete true]

/-- `OnComplete` returns an error, and the job is cancelled before it is run again. -/
def cancelledBetween : List (Label ℕ) :=
  [.load true, .start true .zero, .build true, .next false, .finish none, .late true, .close true,
    .preserve true, .save .delivered, .complete false, .cancelGet 0 true, .cancelSet 0 .delivered,
    .load true, .start true ⟨none, 2, 0, true⟩, .build true, .next false, .finish none, .late true,
    .save .delivered, .cancel, .stop, .settle]

/-- **`OnComplete` gets a cancelled state**, and in another job both callbacks are called. -/
theorem callbacks_overlap :
    ((callbackMachine ℕ allCallbacks).Legal .init cancelledLate ∧
        ((callbackMachine ℕ allCallbacks).run .init cancelledLate).fired =
          [.complete ⟨none, 1, 0, true⟩, .start]) ∧
      (callbackMachine ℕ allCallbacks).Legal .init cancelledBetween ∧
        ((callbackMachine ℕ allCallbacks).run .init cancelledBetween).fired =
          [.stop, .cancel, .resume, .complete ⟨none, 1, 0, false⟩, .start] := by
  refine ⟨⟨?_, rfl⟩, ?_, rfl⟩
  · exact ⟨⟨rfl, rfl, rfl⟩, ⟨_, rfl, rfl⟩, ⟨_, rfl, rfl⟩, ⟨_, rfl, rfl⟩, ⟨_, rfl, rfl⟩,
      ⟨_, _, rfl, rfl, nofun⟩, rfl, ⟨_, rfl⟩, ⟨_, _, rfl, rfl⟩, ⟨_, _, _, rfl, rfl, nofun⟩,
      ⟨_, _, _, rfl, rfl, nofun⟩, ⟨_, _, rfl, rfl⟩, trivial⟩
  · exact ⟨⟨rfl, rfl, rfl⟩, ⟨_, rfl, rfl⟩, ⟨_, rfl, rfl⟩, ⟨_, rfl, rfl⟩, ⟨_, rfl, rfl⟩,
      ⟨_, _, rfl, rfl, nofun⟩, ⟨_, _, rfl, rfl⟩, ⟨_, _, _, rfl, rfl, nofun⟩,
      ⟨_, _, _, rfl, rfl, nofun⟩, ⟨_, _, rfl, rfl⟩, rfl, ⟨_, rfl⟩, ⟨rfl, rfl, rfl⟩, ⟨_, rfl, rfl⟩,
      ⟨_, rfl, rfl⟩, ⟨_, rfl, rfl⟩, ⟨_, rfl, rfl⟩, ⟨_, _, rfl, rfl, nofun⟩,
      ⟨_, _, _, rfl, rfl, nofun⟩, ⟨_, rfl, rfl⟩, ⟨_, _, rfl, rfl⟩, rfl, trivial⟩

end Callbacks

end Iteration

end Senna
