import Senna.Redis.Command
import Senna.System.Machine

/-!
# Iterable jobs

`processIterable` runs an iterable job: it loads the state of the iteration from Redis, builds an
iterator at the cursor, and processes items until there are none left, the handler stops the
iteration, an item fails, a limit is reached, the worker shuts down or the job is cancelled. At
every way out, and now and then in between, it saves the state. `CancelIteration`, called by a
client, reads the state, sets its flag and writes it back.

The machine here is one job with any sequence of runs and any number of `CancelIteration` calls.
One label is one Redis command, or one decision of the worker between two commands; what is not up
to the worker (the result of an item, a deadline, a tick of the save timer, the outcome of a
command) is in the label. A worker may crash at any point, and then everything is lost that is not
in Redis.

The handler builds `SliceIterator(items, cursor)`, so an iterator is an index, its `Err` is nil,
and the only thing that matters of `items` is their number. Of the state, the job ID and the times
are left out.

**Contexts.** A command that is issued with the worker's context fails once the context is done.
Some calls detach from it (`context.WithoutCancel`), and a control point says whether its commands
do (`detached`). A failed read in `iterationCancelled` counts as not cancelled.

**The end of a job.** When `processIterable` has returned nil, `completeJob` marks the job in flight
and acknowledges it, with the worker's context. If that is done first, the marking fails, and the
job stays in flight as it is, to be delivered and run once more (`leave`).

**History.** `processed` records the items whose result was nil or a `SkipItemError`, newest first.
`saves` counts the worker's writes and deletions of the stored state and `cancels` those of the
cancellations; `seen` is the other side's count at a party's last read. `saved` is what the worker
saved last; `cancelled` says that a `CancelIteration` has returned without error since the state was
last deleted, and `after` counts the items since then. No step depends on them.
-/

namespace Senna

open Redis

namespace Iteration

/-- `IterationState`, as far as it is modelled; the handler reads a missing cursor as 0. -/
structure IterationState where
  cursor : Option ℕ
  executions : ℕ
  totalItems : ℕ
  cancelled : Bool
  deriving DecidableEq, Repr

def IterationState.zero : IterationState := ⟨none, 0, 0, false⟩

def IterationState.offset (st : IterationState) : ℕ := st.cursor.getD 0

/-- What a save is for. -/
inductive Goal where
  /-- A limit was reached; `preserveCancellation` is called once more by
  `handleIterationInterrupt`. -/
  | limit
  | interrupt
  | itemError
  | checkpoint
  | closeError
  | completion
  | cancel
  deriving DecidableEq, Repr

/-- A control point of `processIterable`. -/
inductive Point where
  /-- The state is loaded; before the callbacks and `BuildIterator`. -/
  | start
  /-- Before `iter.Next`. -/
  | next
  /-- Before the cancellation check of the loop. -/
  | check
  /-- Before the shutdown check and `ProcessItem`. -/
  | item
  /-- The item is counted; before the checks of the limits and of the save timer. -/
  | limits
  /-- Before the read of `preserveCancellation`. -/
  | preserve (detached : Bool) (goal : Goal)
  /-- Before the write of the state. -/
  | save (detached : Bool) (goal : Goal)
  /-- After the loop, before the context is looked at for all that follows. -/
  | ended
  /-- Before the check for a late cancellation. -/
  | late (detached : Bool)
  /-- Before `iter.Close`. -/
  | close (detached : Bool)
  | onComplete (detached : Bool)
  /-- Before the deletion of the state. -/
  | delete (detached : Bool)
  deriving DecidableEq, Repr

/-- A run of `processIterable`. -/
structure Run where
  /-- The state in memory. -/
  state : IterationState
  /-- The `index` of the `sliceIterator`. -/
  index : ℤ
  itemsThisRun : ℕ
  /-- The worker's context is done. -/
  done : Bool
  /-- A `StopIterationError` was returned. -/
  stopped : Bool
  /-- `cancels` at the last read. -/
  seen : ℕ
  point : Point

/-- The result of `ProcessItem`. -/
inductive Result where
  | nil
  | skip
  | stop
  | error
  deriving DecidableEq, Repr

/-- A `CancelIteration` call between its read and its write. -/
structure Cancellation where
  read : Option IterationState
  /-- `saves` at the read. -/
  seen : ℕ

/-- One iterable job. -/
structure World where
  /-- What stands in Redis. -/
  stored : Option IterationState
  run : Option Run
  /-- `processIterable` has returned nil. -/
  finished : Bool
  calls : ℕ → Option Cancellation
  processed : List ℕ
  saves : ℕ
  cancels : ℕ
  saved : Option IterationState
  cancelled : Bool
  after : ℕ

/-- A label of the machine. -/
inductive Label where
  | load (ok : Bool)
  | build (ok : Bool)
  | shutdown
  | next
  | check (ok : Bool)
  | item (result : Result)
  | limits (deadline tick : Bool)
  | preserve (ok : Bool)
  | save (call : Call)
  | finish
  | late (ok : Bool)
  | close (ok : Bool)
  | onComplete (ok : Bool)
  | delete (call : Call)
  | crash
  /-- The worker's context is done before the completion of the job is marked. -/
  | leave
  | cancelGet (i : ℕ) (ok : Bool)
  | cancelSet (i : ℕ) (call : Call)
  deriving DecidableEq, Repr

def Label.OfRun : Label → Prop
  | .load _ | .shutdown | .crash | .leave | .cancelGet _ _ | .cancelSet _ _ => False
  | _ => True

/-- The control point at which a run takes a step. -/
inductive Run.At (r : Run) : Label → Prop where
  | build (ok : Bool) (hpoint : r.point = .start) : r.At (.build ok)
  | next (hpoint : r.point = .next) : r.At .next
  | check (ok : Bool) (hpoint : r.point = .check) : r.At (.check ok)
  | item (result : Result) (hpoint : r.point = .item) : r.At (.item result)
  | limits (deadline tick : Bool) (hpoint : r.point = .limits) : r.At (.limits deadline tick)
  | preserve (ok detached : Bool) (goal : Goal) (hpoint : r.point = .preserve detached goal) :
      r.At (.preserve ok)
  | save (call : Call) (detached : Bool) (goal : Goal) (hpoint : r.point = .save detached goal) :
      r.At (.save call)
  | finish (hpoint : r.point = .ended) : r.At .finish
  | late (ok detached : Bool) (hpoint : r.point = .late detached) : r.At (.late ok)
  | close (ok detached : Bool) (hpoint : r.point = .close detached) : r.At (.close ok)
  | onComplete (ok detached : Bool) (hpoint : r.point = .onComplete detached) :
      r.At (.onComplete ok)
  | delete (call : Call) (detached : Bool) (hpoint : r.point = .delete detached) :
      r.At (.delete call)

namespace World

def init : World := ⟨none, none, false, fun _ => none, [], 0, 0, none, false, 0⟩

def goto (s : World) (r : Run) (point : Point) : World :=
  { s with run := some { r with point := point } }

/-- `processIterable` returns; with nil, the job is done with. -/
def ret (s : World) (nil : Bool) : World := { s with run := none, finished := nil }

def flagged (s : World) : Bool :=
  match s.stored with
  | some st => st.cancelled
  | none => false

def begin (s : World) : World :=
  let state := s.stored.getD .zero
  { s with
    run := some ⟨{ state with executions := state.executions + 1 }, -1, 0, false, false, s.cancels,
      .start⟩ }

/-- `BuildIterator` at the cursor: `SliceIterator` starts one before it. -/
def build (s : World) (r : Run) : World :=
  s.goto { r with index := (r.state.offset : ℤ) - 1 } .next

/-- `handleIterationCancelled` sets the flag and saves. -/
def cancelRun (s : World) (r : Run) (detached : Bool) : World :=
  s.goto { r with state := { r.state with cancelled := true } } (.save detached .cancel)

def next (s : World) (r : Run) (items : ℕ) : World :=
  let r := { r with index := r.index + 1 }
  if r.index < (items : ℤ) then s.goto r .check else s.goto r .ended

/-- The cancellation check of the loop; no command is sent when the flag is set in memory. -/
def check (s : World) (r : Run) (ok : Bool) : World :=
  if r.state.cancelled then s.cancelRun r false
  else if ok then
    let r := { r with seen := s.cancels }
    if s.flagged then s.cancelRun r false else s.goto r .item
  else s.goto r .item

/-- An item whose result was nil or a `SkipItemError` is counted, and the cursor moves behind it. -/
def count (s : World) (r : Run) : World :=
  { s with processed := r.index.toNat :: s.processed }.goto
    { r with
      state :=
        { r.state with
          totalItems := r.state.totalItems + 1
          cursor := some (r.index + 1).toNat }
      itemsThisRun := r.itemsThisRun + 1 } .limits

/-- The shutdown check and `ProcessItem`. -/
def item (s : World) (r : Run) (result : Result) : World :=
  if r.done then s.goto r (.preserve true .interrupt)
  else
    let s := { s with after := if s.cancelled then s.after + 1 else s.after }
    match result with
    | .nil | .skip => s.count r
    | .stop => s.goto { r with stopped := true } .ended
    | .error => s.goto r (.preserve false .itemError)

def limits (s : World) (r : Run) (maxItemsPerRun : ℕ) (deadline tick : Bool) : World :=
  if (0 < maxItemsPerRun ∧ maxItemsPerRun ≤ r.itemsThisRun) ∨ deadline then
    s.goto r (.preserve r.done .limit)
  else if tick then
    if r.done then s.goto r (.preserve true .interrupt) else s.goto r (.preserve false .checkpoint)
  else s.goto r .next

/-- `preserveCancellation`. -/
def preserve (s : World) (r : Run) (ok detached : Bool) (goal : Goal) : World :=
  let r := if ok then
      { r with
        seen := s.cancels
        state := { r.state with cancelled := r.state.cancelled || s.flagged } }
    else r
  if goal = .limit then s.goto r (.preserve detached .interrupt) else s.goto r (.save detached goal)

def write (s : World) (st : IterationState) : World :=
  { s with stored := some st, saves := s.saves + 1, saved := some st }

def save (s : World) (r : Run) (call : Call) (detached : Bool) (goal : Goal) : World :=
  let s := call.effect s (s.write r.state)
  if call = .delivered then
    match goal with
    | .checkpoint => s.goto r .next
    | .completion => s.goto r (.onComplete detached)
    | .cancel => s.ret true
    | _ => s.ret false
  else if goal = .checkpoint ∧ r.done then s.goto r (.preserve true .interrupt)
  else s.ret false

def late (s : World) (r : Run) (ok detached : Bool) : World :=
  if ok then
    let r := { r with seen := s.cancels }
    if s.flagged then s.cancelRun r detached else s.goto r (.close detached)
  else s.goto r (.close detached)

def delete (s : World) (call : Call) : World :=
  (call.effect s
    { s with
      stored := none
      saves := s.saves + 1
      saved := none
      cancelled := false
      after := 0 }).ret true

/-- The write of a `CancelIteration` call: the state that it read, or a new one, with the flag. -/
def cancelSet (s : World) (i : ℕ) (c : Cancellation) (call : Call) : World :=
  let s := call.effect s
    { s with
      stored := some { c.read.getD .zero with cancelled := true }
      cancels := s.cancels + 1 }
  { s with
    calls := Function.update s.calls i none
    cancelled := s.cancelled || call = .delivered }

def act (items maxItemsPerRun : ℕ) (s : World) (r : Run) (e : Label) : World :=
  match e, r.point with
  | .build ok, .start => if ok then s.build r else s.ret false
  | .next, .next => s.next r items
  | .check ok, .check => s.check r ok
  | .item result, .item => s.item r result
  | .limits deadline tick, .limits => s.limits r maxItemsPerRun deadline tick
  | .preserve ok, .preserve detached goal => s.preserve r ok detached goal
  | .save call, .save detached goal => s.save r call detached goal
  | .finish, .ended => s.goto r (.late r.done)
  | .late ok, .late detached => s.late r ok detached
  | .close ok, .close detached =>
    s.goto r (.preserve detached (if ok then .completion else .closeError))
  | .onComplete ok, .onComplete detached => if ok then s.goto r (.delete detached) else s.ret false
  | .delete call, .delete _ => s.delete call
  | _, _ => s

def step (items maxItemsPerRun : ℕ) (s : World) (e : Label) : World :=
  match e with
  | .load ok => if ok then s.begin else s
  | .shutdown => { s with run := s.run.map fun r => { r with done := true } }
  | .crash | .leave => s.ret false
  | .cancelGet i ok =>
    if ok then { s with calls := Function.update s.calls i (some ⟨s.stored, s.saves⟩) } else s
  | .cancelSet i call =>
    match s.calls i with
    | some c => s.cancelSet i c call
    | none => s
  | e =>
    match s.run with
    | some r => s.act items maxItemsPerRun r e
    | none => s

/-- The run is at the control point of the label, and a command with a context that is done
fails. A job that is done with is not run again, unless a crash or the end of the context came before
its completion was marked. -/
def Permits (s : World) : Label → Prop
  | .load _ => s.run = none ∧ s.finished = false
  | .shutdown | .crash => True
  | .leave => s.run = none ∧ s.finished = true
  | .cancelGet i _ => s.calls i = none
  | .cancelSet i _ => ∃ c, s.calls i = some c
  | .build _ => ∃ r, s.run = some r ∧ r.point = .start
  | .next => ∃ r, s.run = some r ∧ r.point = .next
  | .check ok => ∃ r, s.run = some r ∧ r.point = .check ∧ (r.done = true → ok = false)
  | .item _ => ∃ r, s.run = some r ∧ r.point = .item
  | .limits _ _ => ∃ r, s.run = some r ∧ r.point = .limits
  | .preserve ok => ∃ r detached goal, s.run = some r ∧ r.point = .preserve detached goal ∧
      (r.done = true → detached = false → ok = false)
  | .save call => ∃ r detached goal, s.run = some r ∧ r.point = .save detached goal ∧
      (r.done = true → detached = false → call = .failed)
  | .finish => ∃ r, s.run = some r ∧ r.point = .ended
  | .late ok => ∃ r detached, s.run = some r ∧ r.point = .late detached ∧
      (r.done = true → detached = false → ok = false)
  | .close _ => ∃ r detached, s.run = some r ∧ r.point = .close detached
  | .onComplete _ => ∃ r detached, s.run = some r ∧ r.point = .onComplete detached
  | .delete call => ∃ r detached, s.run = some r ∧ r.point = .delete detached ∧
      (r.done = true → detached = false → call = .failed)

theorem step_of_run {items maxItemsPerRun : ℕ} {s : World} {e : Label} (he : s.Permits e)
    (hrun : e.OfRun) :
    ∃ r, s.run = some r ∧ r.At e ∧
      s.step items maxItemsPerRun e = s.act items maxItemsPerRun r e := by
  have hat : ∃ r, s.run = some r ∧ r.At e := by
    cases e with
    | build ok =>
      obtain ⟨r, hr, hpoint⟩ := he
      exact ⟨r, hr, .build ok hpoint⟩
    | next =>
      obtain ⟨r, hr, hpoint⟩ := he
      exact ⟨r, hr, .next hpoint⟩
    | check ok =>
      obtain ⟨r, hr, hpoint, -⟩ := he
      exact ⟨r, hr, .check ok hpoint⟩
    | item result =>
      obtain ⟨r, hr, hpoint⟩ := he
      exact ⟨r, hr, .item result hpoint⟩
    | limits deadline tick =>
      obtain ⟨r, hr, hpoint⟩ := he
      exact ⟨r, hr, .limits deadline tick hpoint⟩
    | preserve ok =>
      obtain ⟨r, detached, goal, hr, hpoint, -⟩ := he
      exact ⟨r, hr, .preserve ok detached goal hpoint⟩
    | save call =>
      obtain ⟨r, detached, goal, hr, hpoint, -⟩ := he
      exact ⟨r, hr, .save call detached goal hpoint⟩
    | finish =>
      obtain ⟨r, hr, hpoint⟩ := he
      exact ⟨r, hr, .finish hpoint⟩
    | late ok =>
      obtain ⟨r, detached, hr, hpoint, -⟩ := he
      exact ⟨r, hr, .late ok detached hpoint⟩
    | close ok =>
      obtain ⟨r, detached, hr, hpoint⟩ := he
      exact ⟨r, hr, .close ok detached hpoint⟩
    | onComplete ok =>
      obtain ⟨r, detached, hr, hpoint⟩ := he
      exact ⟨r, hr, .onComplete ok detached hpoint⟩
    | delete call =>
      obtain ⟨r, detached, hr, hpoint, -⟩ := he
      exact ⟨r, hr, .delete call detached hpoint⟩
    | _ => exact hrun.elim
  obtain ⟨r, hr, hat⟩ := hat
  refine ⟨r, hr, hat, ?_⟩
  cases hat <;> simp only [step, hr]

end World

def iterationMachine (items maxItemsPerRun : ℕ) : Machine World Label where
  permits := World.Permits
  step := World.step items maxItemsPerRun

end Iteration

end Senna
