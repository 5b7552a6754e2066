import Senna.Worker.Fetcher

/-!
# Finding a job

`blockingFetchWeighted` and `blockingFetchStrict` look for a job in the queues of a worker that are
not paused. The strict one goes through them from the highest priority down. The weighted one draws
a queue first; if it is sequential and locked, it notes the name and draws again among the others,
and after that it goes through all that it has not asked yet. If there is exactly one queue that is
not sequential, it may be asked once more at the end. Waiting for the poll interval is no step here.

Everything happens in one state, because a fetch without a job changes nothing, and asking again
gives the same answer. **No job is found only if each queue was asked, or need not be**
(`Settled`): the queue that was drawn is empty, and a name that was noted belongs to a locked queue.
The last point is where the code goes by names. A configuration may list the same queue twice, once
as sequential and once not, and a note about the one keeps the worker from asking the other. That
costs a job in every such configuration for some state and some draws (`exists_hidden`), unless the
queue that is not asked is the one that is asked at the end (`Lone`).

The loop of draws ends because a queue that was noted is not drawn again. Its model has a bound for
the number of rounds, and the number of queues is enough.
-/

namespace Senna.Fetcher

open Redis

/-! ### The search -/

/-- What the caller gets: a job, nothing or an error. -/
inductive Reply where
  | job (job : Job)
  | nothing
  | failed

def Reply.isNothing : Reply → Bool
  | .nothing => true
  | _ => false

/-- A part of the search: it may return to the caller, or go on. -/
abbrev Search (α : Type) : Type := Except (Reply × State) α

def Search.settle : Search (Reply × State) → Reply × State
  | .ok r => r
  | .error r => r

def appendSkippedQueueName (skipped : List String) (name : String) : List String :=
  if queueNameSkipped name skipped then skipped else skipped ++ [name]

/-- The method `selectWeightedQueueSkipping` of a fetcher. -/
def select (f : Fetcher) (intn : ℤ → ℕ) (skipped : List String) : Option QueueInfo :=
  if skipped.length = 0 then selectWeightedQueue intn f.activeQueues f.totalActiveWeight
  else selectWeightedQueueSkipping intn f.activeQueues skipped

section Search

variable (cj : Cjson) (workerID : String) (f : Fetcher)

def attempt (queue : QueueInfo) (s : State) : Search (Status × State) :=
  match fetchFromQueueInfo cj workerID queue s with
  | (.failed, s') => .error (.failed, s')
  | (.job job, s') => .error (.job job, s')
  | (.idle status, s') => .ok (status, s')

def blockingFetchFromQueueInfo (queue : QueueInfo) (s : State) : Search (Reply × State) := do
  let (_, s) ← attempt cj workerID queue s
  pure (.nothing, s)

def lastAttempt (sawSequentialEmpty : Bool) (s : State) : Search (Reply × State) :=
  match f.blockableQueues with
  | [queue] =>
    if sawSequentialEmpty then pure (.nothing, s)
    else blockingFetchFromQueueInfo cj workerID queue s
  | _ => pure (.nothing, s)

/-- The loop of `blockingFetchStrict`. -/
def tryAll : List QueueInfo → Bool → State → Search (Bool × State)
  | [], saw, s => pure (saw, s)
  | q :: queues, saw, s => do
    let (status, s) ← attempt cj workerID q s
    tryAll queues (if q.sequential ∧ status = .empty then true else saw) s

def blockingFetchStrict (s : State) : Reply × State :=
  if f.activeQueues = [] then (.nothing, s)
  else Search.settle do
    let (saw, s) ← tryAll cj workerID f.activeQueues false s
    lastAttempt cj workerID f saw s

/-- What the first loop of `blockingFetchWeighted` ends with. -/
structure Drawn where
  selected : Option QueueInfo
  skipped : List String
  sawSequentialEmpty : Bool

/-- That loop, with a bound for the rounds and what `rand.Intn` does in each. -/
def drawLoop : ℕ → (ℕ → ℤ → ℕ) → List String → State → Option (Search (Drawn × State))
  | 0, _, _, _ => none
  | rounds + 1, draws, skipped, s =>
    match select f (draws 0) skipped with
    | none => some (.ok (⟨none, skipped, false⟩, s))
    | some queue =>
      match attempt cj workerID queue s with
      | .error r => some (.error r)
      | .ok (status, s) =>
        if queue.sequential ∧ status = .locked then
          drawLoop rounds (fun i => draws (i + 1)) (appendSkippedQueueName skipped queue.name) s
        else some (.ok (⟨some queue, skipped, decide (queue.sequential ∧ status = .empty)⟩, s))

def tryOthers (selected : Option QueueInfo) :
    List QueueInfo → List String → Bool → State → Search (Bool × State)
  | [], _, saw, s => pure (saw, s)
  | q :: queues, skipped, saw, s =>
    if selected.any fun queue => q.name = queue.name then tryOthers selected queues skipped saw s
    else if queueNameSkipped q.name skipped then tryOthers selected queues skipped saw s
    else do
      let (status, s) ← attempt cj workerID q s
      tryOthers selected queues
        (if q.sequential ∧ status = .locked then appendSkippedQueueName skipped q.name else skipped)
        (if q.sequential ∧ status = .empty then true else saw) s

def blockingFetchWeighted (rounds : ℕ) (draws : ℕ → ℤ → ℕ) (s : State) : Option (Reply × State) :=
  if f.activeQueues = [] then some (.nothing, s)
  else (drawLoop cj workerID f rounds draws [] s).map fun drawn => Search.settle do
    let (d, s) ← drawn
    let (saw, s) ← tryOthers cj workerID d.selected f.activeQueues d.skipped d.sawSequentialEmpty s
    lastAttempt cj workerID f saw s

end Search

/-! ### Asking -/

section Ask

variable {cj : Cjson} {workerID : String} {s : State} {q : QueueInfo}

theorem attempt_ok {status : Status} {s' : State}
    (h : attempt cj workerID q s = .ok (status, s')) :
    s' = s ∧ (status = .empty → s.db.list (.queue q.name) = []) ∧
      (status = .locked → q.sequential = true ∧ Locked workerID s q.name) := by
  unfold attempt at h
  split at h
  · cases h
  · cases h
  · next hidle =>
    cases h
    exact fetchFromQueueInfo_idle hidle

theorem idle_of_attempt {status : Status} {s' : State}
    (h : attempt cj workerID q s = .ok (status, s')) : Idle workerID s q := by
  obtain ⟨-, hempty, hlocked⟩ := attempt_ok h
  cases status with
  | empty => exact Or.inl (hempty rfl)
  | locked => exact Or.inr (hlocked rfl)

theorem attempt_error {r : Reply × State} (h : attempt cj workerID q s = .error r) :
    r.1 ≠ .nothing ∧ ∀ job, r.1 = .job job →
      fetchFromQueueInfo cj workerID q s = (.job job, r.2) := by
  unfold attempt at h
  split at h
  · cases h
    exact ⟨nofun, fun job heq => nomatch heq⟩
  · next hjob =>
    cases h
    refine ⟨nofun, fun job heq => ?_⟩
    cases heq
    exact hjob
  · cases h

end Ask

/-! ### In strict order -/

section Strict

variable {cj : Cjson} {workerID : String} {f : Fetcher} {s : State}

theorem tryAll_cases (queues : List QueueInfo) (saw : Bool) :
    (∃ saw', tryAll cj workerID queues saw s = .ok (saw', s) ∧
      ∀ q ∈ queues, ∃ status, attempt cj workerID q s = .ok (status, s)) ∨
    ∃ before q after r, queues = before ++ q :: after ∧
      tryAll cj workerID queues saw s = .error r ∧ attempt cj workerID q s = .error r ∧
      ∀ q' ∈ before, Idle workerID s q' := by
  induction queues generalizing saw with
  | nil => exact Or.inl ⟨saw, rfl, nofun⟩
  | cons q queues ih =>
    rw [tryAll]
    cases hask : attempt cj workerID q s with
    | error r => exact Or.inr ⟨[], q, queues, r, rfl, rfl, hask, nofun⟩
    | ok asked =>
      obtain ⟨status, s'⟩ := asked
      obtain rfl := (attempt_ok hask).1
      obtain ⟨saw', hrun, hall⟩ | ⟨before, q', after, r, rfl, hrun, hend, hbefore⟩ :=
        ih (if q.sequential ∧ status = .empty then true else saw)
      · refine Or.inl ⟨saw', hrun, ?_⟩
        rintro q' (_ | ⟨_, hq'⟩)
        · exact ⟨status, hask⟩
        · exact hall q' hq'
      · refine Or.inr ⟨q :: before, q', after, r, rfl, hrun, hend, ?_⟩
        rintro q'' (_ | ⟨_, hq''⟩)
        · exact idle_of_attempt hask
        · exact hbefore q'' hq''

theorem lastAttempt_cases {infos : List QueueInfo} (hmade : Made f infos) (saw : Bool) :
    (lastAttempt cj workerID f saw s = .ok (.nothing, s) ∧
      ∀ q, f.blockableQueues = [q] → saw = false → Idle workerID s q) ∨
      ∃ q ∈ f.activeQueues, ∃ r, lastAttempt cj workerID f saw s = .error r ∧
        attempt cj workerID q s = .error r := by
  unfold lastAttempt
  split
  · next queue hblockable =>
    split
    · next hsaw => exact Or.inl ⟨rfl, fun q _ hnone => Bool.noConfusion (hsaw.symm.trans hnone)⟩
    · have hactive : queue ∈ f.activeQueues := by
        have hmem : queue ∈ f.blockableQueues := hblockable ▸ List.mem_singleton_self queue
        rw [hmade.blockable] at hmem
        exact List.mem_of_mem_filter hmem
      rw [blockingFetchFromQueueInfo]
      cases hask : attempt cj workerID queue s with
      | error r => exact Or.inr ⟨queue, hactive, r, rfl, hask⟩
      | ok asked =>
        obtain ⟨status, s'⟩ := asked
        obtain rfl := (attempt_ok hask).1
        refine Or.inl ⟨rfl, fun q hq _ => ?_⟩
        obtain rfl : queue = q := List.head_eq_of_cons_eq (hblockable.symm.trans hq)
        exact idle_of_attempt hask
  · next hmany => exact Or.inl ⟨rfl, fun q hq => absurd hq (hmany q)⟩

theorem blockingFetchStrict_cases {infos : List QueueInfo} (hmade : Made f infos) :
    (blockingFetchStrict cj workerID f s = (.nothing, s) ∧
      ∀ q ∈ f.activeQueues, Idle workerID s q) ∨
    ∃ before q after, f.activeQueues = before ++ q :: after ∧
      attempt cj workerID q s = .error (blockingFetchStrict cj workerID f s) ∧
      ∀ q' ∈ before, Idle workerID s q' := by
  unfold blockingFetchStrict
  split
  · next hnone =>
    rw [hnone]
    exact Or.inl ⟨rfl, nofun⟩
  obtain ⟨saw, hrun, hall⟩ | ⟨before, q, after, r, hqueues, hrun, hend, hbefore⟩ :=
    @tryAll_cases cj workerID s f.activeQueues false
  · rw [hrun]
    refine Or.inl ⟨?_, fun q hq => idle_of_attempt (hall q hq).choose_spec⟩
    obtain ⟨hnothing, -⟩ | ⟨q, hq, r, -, hend⟩ :=
      @lastAttempt_cases cj workerID f s _ hmade saw
    · change Search.settle (lastAttempt cj workerID f saw s) = _
      rw [hnothing]
      rfl
    · -- asked again, a queue gives the same answer
      obtain ⟨status, hask⟩ := hall q hq
      rw [hend] at hask
      cases hask
  · rw [hrun]
    exact Or.inr ⟨before, q, after, hqueues, hend, hbefore⟩

theorem mem_before_of_lt {before after : List QueueInfo} {q q' : QueueInfo}
    (hsorted : (before ++ q :: after).Pairwise fun a b => b.priority ≤ a.priority)
    (hq' : q' ∈ before ++ q :: after) (hlt : q.priority < q'.priority) : q' ∈ before := by
  obtain hin | hin := List.mem_append.mp hq'
  · exact hin
  · obtain rfl | hafter := List.mem_cons.mp hin
    · exact absurd hlt (lt_irrefl _)
    · have hle := (List.pairwise_cons.mp (List.pairwise_append.mp hsorted).2.1).1 q' hafter
      exact absurd hlt (not_lt.mpr hle)

end Strict

/-! ### By weight -/

section Weighted

variable {cj : Cjson} {workerID : String} {f : Fetcher} {s : State}

/-- A name that may be noted: an active queue of this name is sequential and locked. -/
def Noted (workerID : String) (f : Fetcher) (s : State) (name : String) : Prop :=
  Locked workerID s name ∧ ∃ q ∈ f.activeQueues, q.name = name ∧ q.sequential = true

def Settled (workerID : String) (f : Fetcher) (s : State) (name : String) : Prop :=
  s.db.list (.queue name) = [] ∨ Noted workerID f s name

theorem mem_appendSkippedQueueName {skipped : List String} {name name' : String} :
    name' ∈ appendSkippedQueueName skipped name ↔ name' ∈ skipped ∨ name' = name := by
  unfold appendSkippedQueueName
  split
  · next hskipped =>
    refine ⟨Or.inl, ?_⟩
    rintro (hmem | rfl)
    · exact hmem
    · exact queueNameSkipped_iff.mp hskipped
  · simp

theorem length_kept_append {queues : List QueueInfo} {skipped : List String} {q : QueueInfo}
    (hq : q ∈ kept queues skipped) :
    (kept queues (appendSkippedQueueName skipped q.name)).length <
      (kept queues skipped).length := by
  have hfilter : kept queues (appendSkippedQueueName skipped q.name) =
      (kept queues skipped).filter fun q' => q'.name ≠ q.name := by
    rw [kept, kept, List.filter_filter]
    refine List.filter_congr fun q' _ => ?_
    rw [Bool.eq_iff_iff]
    simp [← Bool.not_eq_true, queueNameSkipped_iff, mem_appendSkippedQueueName, and_comm]
  rw [hfilter]
  exact List.length_filter_lt_length_iff_exists.mpr ⟨q, hq, by simp⟩

theorem select_eq {infos : List QueueInfo} (hmade : Made f infos) (intn : ℤ → ℕ)
    (skipped : List String) :
    select f intn skipped = selectWeightedQueue intn (kept f.activeQueues skipped)
      (totalWeight (kept f.activeQueues skipped)) := by
  unfold select
  split
  · next hlength =>
    rw [List.length_eq_zero_iff.mp hlength, kept_nil_right, hmade.weight]
  · exact selectWeightedQueueSkipping_eq _ _ _

/-- **The loop of draws ends**, and with a queue that is empty if there is one. -/
theorem drawLoop_cases {infos : List QueueInfo} (hmade : Made f infos)
    {rounds : ℕ} {draws : ℕ → ℤ → ℕ} {skipped : List String}
    (hrounds : (kept f.activeQueues skipped).length < rounds)
    (hskipped : ∀ name ∈ skipped, Noted workerID f s name) :
    (∃ d, drawLoop cj workerID f rounds draws skipped s = some (.ok (d, s)) ∧
      (∀ q ∈ d.selected, s.db.list (.queue q.name) = []) ∧
      (∀ name ∈ d.skipped, Noted workerID f s name) ∧
      (d.sawSequentialEmpty = true → ∃ q ∈ f.activeQueues, s.db.list (.queue q.name) = [])) ∨
    ∃ q ∈ f.activeQueues, ∃ r, drawLoop cj workerID f rounds draws skipped s = some (.error r) ∧
      attempt cj workerID q s = .error r := by
  induction rounds generalizing draws skipped with
  | zero => omega
  | succ rounds ih =>
    rw [drawLoop]
    cases hselect : select f (draws 0) skipped with
    | none => exact Or.inl ⟨_, rfl, nofun, hskipped, nofun⟩
    | some q =>
      rw [select_eq hmade] at hselect
      have hkept := mem_of_selectWeightedQueue hselect
      have hactive := (mem_kept.mp hkept).1
      simp only
      cases hask : attempt cj workerID q s with
      | error r => exact Or.inr ⟨q, hactive, r, rfl, hask⟩
      | ok asked =>
        obtain ⟨status, s'⟩ := asked
        obtain ⟨rfl, hempty, hlocked⟩ := attempt_ok hask
        simp only
        split
        · next hnote =>
          -- one queue less for the rounds that remain
          have hfewer := length_kept_append hkept
          refine ih (by omega) fun name hname => ?_
          obtain hmem | rfl := mem_appendSkippedQueueName.mp hname
          · exact hskipped name hmem
          · exact ⟨(hlocked hnote.2).2, q, hactive, rfl, hnote.1⟩
        · next hselected =>
          refine Or.inl ⟨_, rfl, fun q' hq' => ?_, hskipped,
            fun hsaw => ⟨q, hactive, hempty (of_decide_eq_true hsaw).2⟩⟩
          obtain rfl : q = q' := Option.some.inj hq'
          cases status with
          | empty => exact hempty rfl
          | locked => exact absurd ⟨(hlocked rfl).1, rfl⟩ hselected

theorem tryOthers_cases {selected : Option QueueInfo} (queues : List QueueInfo)
    (hqueues : ∀ q ∈ queues, q ∈ f.activeQueues) {skipped : List String} (saw : Bool)
    (hselected : ∀ q ∈ selected, s.db.list (.queue q.name) = [])
    (hskipped : ∀ name ∈ skipped, Noted workerID f s name) :
    (∃ saw', tryOthers cj workerID selected queues skipped saw s = .ok (saw', s) ∧
      (∀ q ∈ queues, Settled workerID f s q.name) ∧
      (saw' = true → saw = true ∨ ∃ q ∈ queues, s.db.list (.queue q.name) = [])) ∨
    ∃ q ∈ queues, ∃ r, tryOthers cj workerID selected queues skipped saw s = .error r ∧
      attempt cj workerID q s = .error r := by
  induction queues generalizing skipped saw with
  | nil => exact Or.inl ⟨saw, rfl, nofun, Or.inl⟩
  | cons q queues ih =>
    have hrest := fun q' hq' => hqueues q' (List.mem_cons_of_mem q hq')
    rw [tryOthers]
    -- whether it is asked or not, the queue is settled, and the loop goes on
    have hgo {skipped' : List String} {saw' : Bool} (hsettled : Settled workerID f s q.name)
        (hskipped' : ∀ name ∈ skipped', Noted workerID f s name)
        (hsaw' : saw' = true → saw = true ∨ s.db.list (.queue q.name) = []) :
        (∃ saw'', tryOthers cj workerID selected queues skipped' saw' s = .ok (saw'', s) ∧
          (∀ q' ∈ q :: queues, Settled workerID f s q'.name) ∧
          (saw'' = true → saw = true ∨ ∃ q' ∈ q :: queues, s.db.list (.queue q'.name) = [])) ∨
        ∃ q' ∈ q :: queues, ∃ r,
          tryOthers cj workerID selected queues skipped' saw' s = .error r ∧
            attempt cj workerID q' s = .error r := by
      obtain ⟨saw'', hrun, hall, hsaw⟩ | ⟨q', hq', hend⟩ := ih hrest saw' hskipped'
      · refine Or.inl ⟨saw'', hrun, List.forall_mem_cons.mpr ⟨hsettled, hall⟩, fun heq => ?_⟩
        obtain hbefore | ⟨q', hq', hempty⟩ := hsaw heq
        · exact (hsaw' hbefore).imp_right fun hempty => ⟨q, List.mem_cons_self, hempty⟩
        · exact Or.inr ⟨q', List.mem_cons_of_mem q hq', hempty⟩
      · exact Or.inr ⟨q', List.mem_cons_of_mem q hq', hend⟩
    split
    · next hsame =>
      obtain ⟨queue, hqueue, hname⟩ : ∃ queue, selected = some queue ∧ q.name = queue.name := by
        cases selected with
        | none => cases hsame
        | some queue => exact ⟨queue, rfl, by simpa using hsame⟩
      exact hgo (Or.inl (hname ▸ hselected queue hqueue)) hskipped Or.inl
    split
    · next hnoted =>
      exact hgo (Or.inr (hskipped _ (queueNameSkipped_iff.mp hnoted))) hskipped Or.inl
    cases hask : attempt cj workerID q s with
    | error r => exact Or.inr ⟨q, List.mem_cons_self, r, rfl, hask⟩
    | ok asked =>
      obtain ⟨status, s'⟩ := asked
      obtain ⟨rfl, hempty, hlocked⟩ := attempt_ok hask
      cases status with
      | empty =>
        exact hgo (Or.inl (hempty rfl)) (by simpa using hskipped) fun _ => Or.inr (hempty rfl)
      | locked =>
        have hnoted : Noted workerID f s' q.name :=
          ⟨(hlocked rfl).2, q, hqueues q List.mem_cons_self, rfl, (hlocked rfl).1⟩
        refine hgo (Or.inr hnoted) (fun name hname => ?_) (by simpa using Or.inl)
        rw [if_pos ⟨(hlocked rfl).1, rfl⟩] at hname
        obtain hmem | rfl := mem_appendSkippedQueueName.mp hname
        · exact hskipped name hmem
        · exact hnoted

theorem blockingFetchWeighted_cases {infos : List QueueInfo} (hmade : Made f infos)
    {rounds : ℕ} (hrounds : f.activeQueues.length < rounds) (draws : ℕ → ℤ → ℕ) :
    (blockingFetchWeighted cj workerID f rounds draws s = some (.nothing, s) ∧
      (∀ q ∈ f.activeQueues, Settled workerID f s q.name) ∧
      ∀ q, f.blockableQueues = [q] →
        Idle workerID s q ∨ ∃ q' ∈ f.activeQueues, s.db.list (.queue q'.name) = []) ∨
    ∃ q ∈ f.activeQueues, ∃ r, blockingFetchWeighted cj workerID f rounds draws s = some r ∧
      attempt cj workerID q s = .error r := by
  unfold blockingFetchWeighted
  split
  · next hnone =>
    refine Or.inl ⟨rfl, by rw [hnone]; exact nofun, fun q hq => ?_⟩
    rw [hmade.blockable, hnone] at hq
    cases hq
  obtain ⟨d, hdraw, hselected, hskipped, hsaw⟩ | ⟨q, hq, r, hdraw, hend⟩ :=
    @drawLoop_cases cj workerID f s _ hmade _ draws [] (by rw [kept_nil_right]; exact hrounds) nofun
  · rw [hdraw]
    change (some (Search.settle (tryOthers cj workerID d.selected f.activeQueues d.skipped
      d.sawSequentialEmpty s >>= fun x => lastAttempt cj workerID f x.1 x.2)) = _ ∧ _) ∨
        ∃ q ∈ f.activeQueues, ∃ r, some (Search.settle (tryOthers cj workerID d.selected
          f.activeQueues d.skipped d.sawSequentialEmpty s >>= fun x =>
            lastAttempt cj workerID f x.1 x.2)) = _ ∧ _
    obtain ⟨saw, hrun, hall, hsaw'⟩ | ⟨q, hq, r, hrun, hend⟩ :=
      @tryOthers_cases cj workerID f s d.selected f.activeQueues (fun _ hq => hq) d.skipped
        d.sawSequentialEmpty hselected hskipped
    · rw [hrun]
      change (some (Search.settle (lastAttempt cj workerID f saw s)) = _ ∧ _) ∨
        ∃ q ∈ f.activeQueues, ∃ r, some (Search.settle (lastAttempt cj workerID f saw s)) = _ ∧ _
      obtain ⟨hlast, hasked⟩ | ⟨q, hq, r, hlast, hend⟩ :=
        @lastAttempt_cases cj workerID f s _ hmade saw
      · rw [hlast]
        refine Or.inl ⟨rfl, hall, fun q hq => ?_⟩
        -- without a sequential queue seen empty, the one blockable queue is asked again
        cases saw with
        | false => exact Or.inl (hasked q hq rfl)
        | true => exact Or.inr ((hsaw' rfl).elim hsaw id)
      · rw [hlast]
        exact Or.inr ⟨q, hq, r, rfl, hend⟩
    · rw [hrun]
      exact Or.inr ⟨q, hq, r, rfl, hend⟩
  · rw [hdraw]
    exact Or.inr ⟨q, hq, r, rfl, hend⟩

end Weighted

/-! ### A job that is left lying -/

section Hidden

variable {cj : Cjson} {workerID : String} {f : Fetcher} {q : QueueInfo}

def hidden (name : String) : State where
  db := Db.putList (fun _ => none) (.queue name) ["x"]
  sema := fun name' => name' = name
  held := fun _ => false

theorem attempt_hidden (hsequential : q.sequential = true) :
    attempt cj workerID q (hidden q.name) = .ok (.locked, hidden q.name) := by
  simp [attempt, fetchFromQueueInfo, fetchFromSequentialQueue, hidden, hsequential]

theorem attempt_other {name : String} (hname : q.name ≠ name) :
    attempt cj workerID q (hidden name) = .ok (.empty, hidden name) := by
  have htyped : WellTyped (hidden name).db := WellTyped.empty.putList rfl _
  have hempty : (hidden name).db.list (.queue q.name) = [] := by
    rw [hidden, Db.list_write, if_neg fun heq => hname (Key.queue.inj heq)]
    rfl
  have hlock : (hidden name).db.str (.sequentialLock q.name) = none := rfl
  have hsema : (hidden name).sema q.name = false := decide_eq_false hname
  unfold attempt fetchFromQueueInfo fetchFromSequentialQueue
  rw [run_sequentialFetch (htyped _) (htyped _) (htyped _), run_fetchJob (htyped _) (htyped _),
    hempty, hlock, hsema]
  cases q.sequential <;> rfl

theorem tryOthers_hidden {name : String} {selected : Option QueueInfo} {skipped : List String}
    (hskipped : name ∈ skipped) (queues : List QueueInfo) (saw : Bool) :
    ∃ saw', tryOthers cj workerID selected queues skipped saw (hidden name) =
      .ok (saw', hidden name) ∧ (saw = true → saw' = true) := by
  induction queues generalizing saw with
  | nil => exact ⟨saw, rfl, id⟩
  | cons q queues ih =>
    rw [tryOthers]
    split
    · exact ih saw
    split
    · exact ih saw
    · next hasked =>
      have hname : q.name ≠ name := by
        rintro rfl
        exact hasked (queueNameSkipped_iff.mpr hskipped)
      rw [attempt_other hname]
      obtain ⟨saw', hrun, hsaw⟩ := ih (if q.sequential ∧ Status.empty = .empty then true else saw)
      refine ⟨saw', ?_, fun heq => hsaw (by rw [heq, ite_self])⟩
      change tryOthers cj workerID selected queues
        (if q.sequential ∧ Status.empty = .locked then _ else skipped) _ _ = _
      rw [if_neg fun hboth => Status.noConfusion hboth.2]
      exact hrun

theorem lastAttempt_of_ne {s : State} {saw : Bool}
    (h : saw = true ∨ f.blockableQueues.length ≠ 1) :
    lastAttempt cj workerID f saw s = .ok (.nothing, s) := by
  unfold lastAttempt
  split
  · next hone =>
    rw [if_pos (h.resolve_right fun hne => hne (by rw [hone]; rfl))]
    rfl
  · rfl

variable {infos : List QueueInfo} (hmade : Made f infos)
  (hpriority : ∀ q ∈ f.activeQueues, 1 ≤ q.priority)

include hmade hpriority

theorem drawLoop_noted {name : String} {q₂ : QueueInfo} (hq₂ : q₂ ∈ f.blockableQueues)
    (hname : q₂.name = name)
    (hothers : (∃ q ∈ f.activeQueues, q.name ≠ name) ∨ f.blockableQueues.length ≠ 1)
    (draws : ℕ → ℤ → ℕ) (hdraw : InRange (draws 0)) (rounds : ℕ) :
    ∃ d, drawLoop cj workerID f (rounds + 1) draws [name] (hidden name) =
        some (.ok (d, hidden name)) ∧ d.skipped = [name] ∧
      (d.sawSequentialEmpty = true ∨ f.blockableQueues.length ≠ 1) := by
  rw [drawLoop]
  cases hselect : select f (draws 0) [name] with
  | none =>
    refine ⟨_, rfl, rfl, Or.inr (hothers.resolve_left ?_)⟩
    rw [select_eq hmade, selectWeightedQueue_eq_none
      (fun q hq => hpriority q (mem_kept.mp hq).1) hdraw, kept_eq_nil] at hselect
    rintro ⟨q, hq, hne⟩
    exact hne (List.mem_singleton.mp (hselect q hq))
  | some q =>
    rw [select_eq hmade] at hselect
    obtain ⟨hq, hne⟩ := mem_kept.mp (mem_of_selectWeightedQueue hselect)
    rw [List.mem_singleton] at hne
    simp only [attempt_other hne, reduceCtorEq, and_false, if_false]
    refine ⟨_, rfl, rfl, ?_⟩
    cases hsequential : q.sequential with
    | true => exact Or.inl rfl
    | false =>
      -- then there are two blockable queues, of different names
      refine Or.inr fun hone => hne ?_
      have hblockable : q ∈ f.blockableQueues := by
        rw [hmade.blockable]
        exact List.mem_filter.mpr ⟨hq, by rw [hsequential]; rfl⟩
      obtain ⟨q₀, hq₀⟩ := List.length_eq_one_iff.mp hone
      rw [hq₀, List.mem_singleton] at hblockable hq₂
      rw [hblockable, ← hq₂, hname]

/-- **A job is left lying** if the queue is listed as sequential and as not sequential, and there is
another queue or the second kind of entry is not alone: the sequential entry is drawn first. -/
theorem exists_hidden (hfits : total f.activeQueues < 2 ^ 63) {q₁ q₂ : QueueInfo}
    (hq₁ : q₁ ∈ f.activeQueues) (hsequential : q₁.sequential = true)
    (hq₂ : q₂ ∈ f.blockableQueues) (hname : q₂.name = q₁.name)
    (hothers : (∃ q ∈ f.activeQueues, q.name ≠ q₁.name) ∨ f.blockableQueues.length ≠ 1)
    (rounds : ℕ) :
    ∃ draws, (∀ i, InRange (draws i)) ∧
      blockingFetchWeighted cj workerID f (rounds + 2) draws (hidden q₁.name) =
        some (.nothing, hidden q₁.name) := by
  obtain ⟨intn, hrange, hselect⟩ := exists_draw hpriority hfits hq₁
  have hzero : InRange fun _ => 0 := fun n hn => hn
  refine ⟨fun i => if i = 0 then intn else fun _ => 0, fun i => ?_, ?_⟩
  · dsimp only
    split
    · exact hrange
    · exact hzero
  have hfirst : select f intn [] = some q₁ := by
    rw [select_eq hmade, kept_nil_right]
    exact hselect
  obtain ⟨d, hdraw, hskipped, hsaw⟩ := @drawLoop_noted cj workerID _ _ hmade hpriority _ _ hq₂
    hname hothers (fun i => if i + 1 = 0 then intn else fun _ => 0) hzero rounds
  obtain ⟨saw, hrun, hkeeps⟩ := @tryOthers_hidden cj workerID q₁.name d.selected
    d.skipped (hskipped ▸ List.mem_singleton_self _) f.activeQueues d.sawSequentialEmpty
  have hloop : drawLoop cj workerID f (rounds + 2) (fun i => if i = 0 then intn else fun _ => 0) []
      (hidden q₁.name) = some (.ok (d, hidden q₁.name)) := by
    rw [drawLoop, if_pos rfl, hfirst]
    simp only [attempt_hidden hsequential, hsequential, and_self, if_true]
    exact hdraw
  rw [blockingFetchWeighted, if_neg (List.ne_nil_of_mem hq₁), hloop]
  change some (Search.settle (tryOthers cj workerID d.selected f.activeQueues d.skipped
    d.sawSequentialEmpty (hidden q₁.name) >>= fun x => lastAttempt cj workerID f x.1 x.2)) = _
  rw [hrun]
  change some (Search.settle (lastAttempt cj workerID f saw (hidden q₁.name))) = _
  rw [lastAttempt_of_ne (hsaw.imp_left hkeeps)]
  rfl

end Hidden

/-! ### Both -/

def Consistent (queues : List QueueConfig) : Prop :=
  ∀ c ∈ queues, ∀ c' ∈ queues, c.paused = false → c'.paused = false → c.name = c'.name →
    c.sequential = c'.sequential

instance (queues : List QueueConfig) : Decidable (Consistent queues) := by
  unfold Consistent
  infer_instance

def Lone (queues : List QueueConfig) : Prop :=
  (∀ c ∈ queues, ∀ c' ∈ queues, c.paused = false → c'.paused = false → c.name = c'.name) ∧
    (queues.filter fun c => !c.sequential && !c.paused).length = 1

instance (queues : List QueueConfig) : Decidable (Lone queues) := by
  unfold Lone
  infer_instance

/-- The weighted search finds nothing only if each queue that is not paused is empty or, being
sequential, locked. -/
def FindsWork (cj : Cjson) (f : Fetcher) (queues : List QueueConfig) (draws : ℕ → ℤ → ℕ) : Prop :=
  ∀ workerID s rounds s', queues.length < rounds →
    blockingFetchWeighted cj workerID f rounds draws s = some (.nothing, s') →
      ∀ c ∈ queues, c.paused = false → Idle workerID s (queueInfo c)

section FindsWork

variable (cj : Cjson) (slice : SliceSort) {queues : List QueueConfig}

theorem findsWork_of (strictPriority : Bool) (h : Consistent queues ∨ Lone queues)
    (draws : ℕ → ℤ → ℕ) : FindsWork cj (newFetcher slice queues strictPriority) queues draws := by
  intro workerID s rounds s' hrounds hnothing c hc hpaused
  obtain ⟨infos, -, hmade⟩ := made_newFetcher slice queues strictPriority
  have hactive {q : QueueInfo} := mem_activeQueues (q := q) slice queues strictPriority
  have hlength := length_activeQueues_le slice queues strictPriority
  have hblockable := length_blockableQueues slice queues strictPriority
  generalize newFetcher slice queues strictPriority = f at hmade hactive hlength hblockable hnothing
  obtain ⟨-, hall, hasked⟩ | ⟨q, -, r, hout, hend⟩ :=
    @blockingFetchWeighted_cases cj workerID f s _ hmade _ (hlength.trans_lt hrounds) draws
  · obtain hempty | ⟨hlocked, q, hq, hname, hsequential⟩ :=
      hall _ (hactive.mpr ⟨c, hc, hpaused, rfl⟩)
    · exact Or.inl hempty
    obtain ⟨c', hc', hpaused', rfl⟩ := hactive.mp hq
    obtain hconsistent | ⟨hnames, hone⟩ := h
    · -- the name was noted for an entry that is sequential, so this one is
      exact Or.inr ⟨(hconsistent c hc c' hc' hpaused hpaused' hname.symm).trans hsequential, hlocked⟩
    · -- the one queue that is not sequential was asked at the end
      obtain ⟨q, hone⟩ := List.length_eq_one_iff.mp (hblockable.trans hone)
      have hmem : q ∈ f.blockableQueues := hone ▸ List.mem_singleton_self q
      rw [hmade.blockable, List.mem_filter] at hmem
      have hsame : ∀ q' ∈ f.activeQueues, q'.name = c.name := by
        intro q' hq'
        obtain ⟨c', hc', hpaused', rfl⟩ := hactive.mp hq'
        exact hnames c' hc' c hc hpaused' hpaused
      obtain (hempty | ⟨hsequential', -⟩) | ⟨q', hq', hempty⟩ := hasked q hone
      · rw [hsame q hmem.1] at hempty
        exact Or.inl hempty
      · rw [hsequential'] at hmem
        exact absurd hmem.2 Bool.false_ne_true
      · rw [hsame q' hq'] at hempty
        exact Or.inl hempty
  · rw [hout] at hnothing
    exact absurd (congrArg Prod.fst (Option.some.inj hnothing)) (attempt_error hend).1

theorem of_findsWork (hfits : total (newFetcher slice queues false).activeQueues < 2 ^ 63)
    (h : ∀ draws, (∀ i, InRange (draws i)) →
      FindsWork cj (newFetcher slice queues false) queues draws) :
    Consistent queues ∨ Lone queues := by
  by_contra hneither
  rw [not_or] at hneither
  obtain ⟨hinconsistent, hlone⟩ := hneither
  -- one entry is sequential and another of the same name is not
  obtain ⟨c₁, hc₁, c₂, hc₂, hpaused₁, hpaused₂, hname, hsequential₁, hsequential₂⟩ :
      ∃ c₁ ∈ queues, ∃ c₂ ∈ queues, c₁.paused = false ∧ c₂.paused = false ∧ c₁.name = c₂.name ∧
        c₁.sequential = true ∧ c₂.sequential = false := by
    unfold Consistent at hinconsistent
    push Not at hinconsistent
    obtain ⟨c, hc, c', hc', hpaused, hpaused', hname, hne⟩ := hinconsistent
    cases hsequential : c.sequential with
    | true => exact ⟨c, hc, c', hc', hpaused, hpaused', hname, hsequential, by simp_all⟩
    | false => exact ⟨c', hc', c, hc, hpaused', hpaused, hname.symm, by simp_all, hsequential⟩
  obtain ⟨infos, -, hmade⟩ := made_newFetcher slice queues false
  have hactive {q : QueueInfo} := mem_activeQueues (q := q) slice queues false
  have hblockable := length_blockableQueues slice queues false
  have hpriority := one_le_priority slice queues false
  generalize newFetcher slice queues false = f at hmade hactive hblockable hpriority hfits h
  have hq₂ : queueInfo c₂ ∈ f.blockableQueues := by
    rw [hmade.blockable, List.mem_filter]
    exact ⟨hactive.mpr ⟨c₂, hc₂, hpaused₂, rfl⟩, by rw [queueInfo, hsequential₂]; rfl⟩
  have hothers : (∃ q ∈ f.activeQueues, q.name ≠ (queueInfo c₁).name) ∨
      f.blockableQueues.length ≠ 1 := by
    by_contra hnone
    rw [not_or, not_not] at hnone
    refine hlone ⟨fun c hc c' hc' hpaused hpaused' => ?_, hblockable.symm.trans hnone.2⟩
    have hsame : ∀ c ∈ queues, c.paused = false → c.name = c₁.name := by
      intro c hc hpaused
      by_contra hne
      exact hnone.1 ⟨_, hactive.mpr ⟨c, hc, hpaused, rfl⟩, hne⟩
    rw [hsame c hc hpaused, hsame c' hc' hpaused']
  obtain ⟨draws, hdraws, hnothing⟩ := @exists_hidden cj "w" _ _ hmade hpriority hfits _ _
    (hactive.mpr ⟨c₁, hc₁, hpaused₁, rfl⟩) hsequential₁ hq₂ hname.symm hothers queues.length
  obtain hempty | ⟨hsequential, -⟩ :=
    h draws hdraws "w" _ _ _ (by omega) hnothing c₂ hc₂ hpaused₂
  · rw [show (queueInfo c₂).name = (queueInfo c₁).name from hname.symm] at hempty
    simp [hidden] at hempty
  · exact absurd (hsequential₂.symm.trans hsequential) Bool.false_ne_true

end FindsWork

/-- **When a blocking fetch finds available work.** For every configuration, every state of Redis
and of the semaphores and all draws, the weighted search ends, and a job comes from a queue that is
not paused. It finds nothing only if each queue that is not paused is empty or, being sequential,
locked, provided that the entries of each queue agree or the configuration is for one queue with one
entry that is not sequential; no other configuration whose priorities can be summed up has this
property. The strict search has it always, and its job comes from a queue such that those of higher
priority are empty or locked. -/
theorem blocking_fetch_finds_work (cj : Cjson) (slice : SliceSort) (queues : List QueueConfig) :
    (∀ workerID s strictPriority rounds draws, queues.length < rounds →
      ∃ reply s', blockingFetchWeighted cj workerID (newFetcher slice queues strictPriority) rounds
          draws s = some (reply, s') ∧
        ∀ job, reply = .job job → ∃ c ∈ queues, c.paused = false ∧
          fetchFromQueueInfo cj workerID (queueInfo c) s = (.job job, s')) ∧
    (Consistent queues ∨ Lone queues → ∀ strictPriority draws,
      FindsWork cj (newFetcher slice queues strictPriority) queues draws) ∧
    (total (newFetcher slice queues false).activeQueues < 2 ^ 63 →
      (∀ draws, (∀ i, InRange (draws i)) →
        FindsWork cj (newFetcher slice queues false) queues draws) →
      Consistent queues ∨ Lone queues) ∧
    ∀ workerID s, ∃ reply s',
      blockingFetchStrict cj workerID (newFetcher slice queues true) s = (reply, s') ∧
      (reply = .nothing → ∀ c ∈ queues, c.paused = false → Idle workerID s (queueInfo c)) ∧
      ∀ job, reply = .job job → ∃ c ∈ queues, c.paused = false ∧
        fetchFromQueueInfo cj workerID (queueInfo c) s = (.job job, s') ∧
        ∀ c' ∈ queues, c'.paused = false → (queueInfo c).priority < (queueInfo c').priority →
          Idle workerID s (queueInfo c') := by
  refine ⟨fun workerID s strictPriority rounds draws hrounds => ?_,
    fun h strictPriority draws => findsWork_of cj slice strictPriority h draws,
    of_findsWork cj slice, fun workerID s => ?_⟩
  · obtain ⟨infos, -, hmade⟩ := made_newFetcher slice queues strictPriority
    have hactive {q : QueueInfo} := mem_activeQueues (q := q) slice queues strictPriority
    have hlength := length_activeQueues_le slice queues strictPriority
    generalize newFetcher slice queues strictPriority = f at hmade hactive hlength
    obtain ⟨hout, -⟩ | ⟨q, hq, r, hout, hend⟩ :=
      @blockingFetchWeighted_cases cj workerID f s _ hmade _ (hlength.trans_lt hrounds) draws
    · exact ⟨_, _, hout, fun job heq => nomatch heq⟩
    · obtain ⟨c, hc, hpaused, rfl⟩ := hactive.mp hq
      exact ⟨r.1, r.2, hout,
        fun job heq => ⟨c, hc, hpaused, (attempt_error hend).2 job heq⟩⟩
  · obtain ⟨infos, -, hmade⟩ := made_newFetcher slice queues true
    have hactive {q : QueueInfo} := mem_activeQueues (q := q) slice queues true
    have hsorted := activeQueues_sorted slice queues
    generalize newFetcher slice queues true = f at hmade hactive hsorted
    refine ⟨(blockingFetchStrict cj workerID f s).1, (blockingFetchStrict cj workerID f s).2, rfl,
      ?_⟩
    obtain ⟨hout, hall⟩ | ⟨before, q, after, hqueues, hend, hbefore⟩ :=
      @blockingFetchStrict_cases cj workerID f s _ hmade
    · rw [hout]
      exact ⟨fun _ c hc hpaused => hall _ (hactive.mpr ⟨c, hc, hpaused, rfl⟩),
        fun job heq => nomatch heq⟩
    · obtain ⟨hsome, hjob⟩ := attempt_error hend
      rw [hqueues] at hactive hsorted
      obtain ⟨c, hc, hpaused, rfl⟩ := hactive.mp (List.mem_append_right before List.mem_cons_self)
      refine ⟨fun hnothing => absurd hnothing hsome,
        fun job heq => ⟨c, hc, hpaused, hjob job heq, fun c' hc' hpaused' hlt => ?_⟩⟩
      exact hbefore _ (mem_before_of_lt hsorted (hactive.mpr ⟨c', hc', hpaused', rfl⟩) hlt)

def SliceSort.stable : SliceSort where
  sort := List.insertionSort fun a b => b.priority ≤ a.priority
  perm := List.perm_insertionSort _
  sorted queues := by
    have : Std.Total fun a b : QueueInfo => b.priority ≤ a.priority :=
      ⟨fun a b => le_total b.priority a.priority⟩
    have : IsTrans QueueInfo fun a b => b.priority ≤ a.priority :=
      ⟨fun _ _ _ hab hbc => le_trans hbc hab⟩
    exact List.pairwise_insertionSort _ queues

/-- The queue `q` has one payload, and the worker `v` has its lock. -/
def lockedState : State where
  db
    | .queue name => if name = "q" then some (.list ["x"]) else none
    | .sequentialLock _ => some (.string "v")
    | _ => none
  sema := fun _ => false
  held := fun _ => false

theorem locked_queue_is_idle :
    (blockingFetchWeighted Cjson.plain "w"
      (newFetcher .stable [⟨"q", 1, false, true⟩, ⟨"r", 1, false, false⟩] false) 3
        (fun _ _ => 0) lockedState).map (·.1.isNothing) = some true ∧
      Idle "w" lockedState (queueInfo ⟨"q", 1, false, true⟩) := by
  have hrun : (blockingFetchWeighted Cjson.plain "w"
      (newFetcher .stable [⟨"q", 1, false, true⟩, ⟨"r", 1, false, false⟩] false) 3
        (fun _ _ => 0) lockedState).map (·.1.isNothing) = some true := by decide +kernel
  obtain ⟨hends, hfinds, -⟩ := blocking_fetch_finds_work Cjson.plain .stable
    [⟨"q", 1, false, true⟩, ⟨"r", 1, false, false⟩]
  obtain ⟨reply, s', hout, -⟩ := hends "w" lockedState false 3 (fun _ _ => 0) (by decide)
  have hnothing : reply = .nothing := by
    rw [hout] at hrun
    cases reply with
    | nothing => rfl
    | job job | failed => cases hrun
  rw [hnothing] at hout
  exact ⟨hrun, hfinds (Or.inl (by decide)) false (fun _ _ => 0) "w" lockedState 3 s' (by decide) hout
    _ List.mem_cons_self rfl⟩

/-- **With two entries for a queue, a job is left lying.** The first entry is sequential and locked;
its name is noted, and the second entry, which is not sequential, is never asked. -/
theorem noted_name_hides_queue :
    ¬ Consistent [⟨"q", 1, false, true⟩, ⟨"q", 1, false, false⟩, ⟨"r", 1, false, false⟩] ∧
      ¬ Lone [⟨"q", 1, false, true⟩, ⟨"q", 1, false, false⟩, ⟨"r", 1, false, false⟩] ∧
      (blockingFetchWeighted Cjson.plain "w"
        (newFetcher .stable
          [⟨"q", 1, false, true⟩, ⟨"q", 1, false, false⟩, ⟨"r", 1, false, false⟩] false) 4
        (fun _ _ => 0) lockedState).map (·.1.isNothing) = some true ∧
      ¬ Idle "w" lockedState (queueInfo ⟨"q", 1, false, false⟩) := by
  refine ⟨by decide, by decide, by decide +kernel, ?_⟩
  rintro (hempty | ⟨hsequential, -⟩)
  · exact absurd hempty (by decide)
  · cases hsequential

end Senna.Fetcher
