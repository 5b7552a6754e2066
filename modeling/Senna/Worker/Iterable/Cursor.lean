import Senna.Worker.Iterable

/-!
# Iterable jobs: the cursor

Two invariants. The first holds in every run of the machine, whatever fails: every item before a
cursor, in Redis or in the memory of a worker or of a `CancelIteration` call, has been processed
(`Covered`), and the iterator stands at the cursor (`Run.Positioned`). So nothing is skipped, and
an iteration that comes to its end has processed everything.

The second needs that no worker crashes, that every save succeeds and that nobody cancels
(`Label.smooth`). Then the items processed so far are exactly those before the current cursor, once
each and in order (`Exact`): whenever a run ends, its cursor has been saved. One thing can still go
wrong. A worker that is stopped during the last item comes to the end of the iteration under a
detached context and deletes the state, but marks the completion of the job with its own context,
which is done. The job stays in flight, and when it is run again it begins with the first item
(`last_item_repeated`). So nothing is repeated if a job is left only with its state still in Redis
(`World.Anchored`).
-/

namespace Senna

open Redis

namespace Iteration

variable {items maxItemsPerRun : ℕ} {s : World} {r : Run} {st : IterationState} {p : Point}

theorem forall_mem_none {α : Type} {P : α → Prop} : ∀ a ∈ (none : Option α), P a :=
  fun _ h => absurd h (Option.not_mem_none _)

/-! ### Nothing is skipped -/

def Covered (processed : List ℕ) (st : IterationState) : Prop := ∀ i < st.offset, i ∈ processed

theorem covered_zero (processed : List ℕ) : Covered processed .zero :=
  fun _ hi => absurd hi (Nat.not_lt_zero _)

theorem covered_getD {processed : List ℕ} {o : Option IterationState}
    (h : ∀ st ∈ o, Covered processed st) : Covered processed (o.getD .zero) := by
  cases o with
  | none => exact covered_zero processed
  | some st => exact h st rfl

def Run.Positioned (items : ℕ) (r : Run) : Prop :=
  match r.point with
  | .next | .limits | .preserve _ .checkpoint | .save _ .checkpoint => r.index + 1 = r.state.offset
  | .check | .item => r.index = r.state.offset
  | .ended | .late _ | .close _ | .onComplete _ | .delete _ | .preserve _ .completion
  | .save _ .completion | .preserve _ .closeError | .save _ .closeError =>
    r.stopped = false → items ≤ r.state.offset
  | _ => True

/-- **Nothing is skipped.** -/
structure Sound (items : ℕ) (s : World) : Prop where
  stored : ∀ st ∈ s.stored, Covered s.processed st
  calls : ∀ i, ∀ c ∈ s.calls i, ∀ st ∈ c.read, Covered s.processed st
  run : ∀ r ∈ s.run, Covered s.processed r.state ∧ r.Positioned items

namespace Sound

theorem init (items : ℕ) : Sound items World.init where
  stored := forall_mem_none
  calls := fun _ => forall_mem_none
  run := forall_mem_none

variable (h : Sound items s)

include h

theorem goto (hr : Covered s.processed r.state)
    (hp : ({ r with point := p } : Run).Positioned items) : Sound items (s.goto r p) where
  stored := h.stored
  calls := h.calls
  run := by
    rintro r' ⟨⟩
    exact ⟨hr, hp⟩

theorem ret (nil : Bool) : Sound items (s.ret nil) where
  stored := h.stored
  calls := h.calls
  run := forall_mem_none

theorem begin : Sound items s.begin where
  stored := h.stored
  calls := h.calls
  run := by
    rintro r ⟨⟩
    exact ⟨covered_getD h.stored, trivial⟩

theorem store (hst : Covered s.processed st) (saves cancels : ℕ) (saved : Option IterationState) :
    Sound items { s with stored := some st, saves := saves, cancels := cancels, saved := saved } where
  stored := by
    rintro st' ⟨⟩
    exact hst
  calls := h.calls
  run := h.run

theorem count (hr : Covered s.processed r.state)
    (hindex : r.index = r.state.offset) : Sound items (s.count r) where
  stored := fun st hst i hi => List.mem_cons_of_mem _ (h.stored st hst i hi)
  calls := fun j c hc st hst i hi => List.mem_cons_of_mem _ (h.calls j c hc st hst i hi)
  run := by
    rintro r' ⟨⟩
    refine ⟨fun i hi => ?_, ?_⟩
    · have hoffset : i < r.state.offset + 1 := by
        have hcursor : i < (r.index + 1).toNat := hi
        omega
      obtain hlt | heq := Nat.lt_succ_iff_lt_or_eq.mp hoffset
      · exact List.mem_cons_of_mem _ (hr i hlt)
      · refine List.mem_cons.mpr (Or.inl ?_)
        omega
    · change r.index + 1 = ((r.index + 1).toNat : ℤ)
      omega

theorem item (hr : Covered s.processed r.state)
    (hindex : r.index = r.state.offset) (result : Result) : Sound items (s.item r result) := by
  have h' : Sound items { s with after := if s.cancelled then s.after + 1 else s.after } :=
    ⟨h.stored, h.calls, h.run⟩
  unfold World.item
  split
  · exact h.goto hr trivial
  · cases result with
    | nil | skip => exact h'.count hr hindex
    | stop => exact h'.goto hr fun hstopped => absurd hstopped nofun
    | error => exact h'.goto hr trivial

theorem save (hr : Covered s.processed r.state) (call : Call) {detached : Bool}
    {goal : Goal} (hpoint : r.point = .save detached goal) (hpositioned : r.Positioned items) :
    Sound items (s.save r call detached goal) := by
  have heffect : Sound items (call.effect s (s.write r.state)) ∧
      (call.effect s (s.write r.state)).processed = s.processed := by
    cases call with
    | failed => exact ⟨h, rfl⟩
    | delivered | lost => exact ⟨h.store hr _ _ _, rfl⟩
  obtain ⟨h', hprocessed⟩ := heffect
  rw [← hprocessed] at hr
  simp only [Run.Positioned, hpoint] at hpositioned
  unfold World.save
  dsimp only
  split
  · cases goal with
    | checkpoint | completion => exact h'.goto hr hpositioned
    | cancel => exact h'.ret true
    | _ => exact h'.ret false
  · split
    · exact h'.goto hr trivial
    · exact h'.ret false

theorem act (hrun : s.run = some r) {e : Label} (hat : r.At e) :
    Sound items (s.act items maxItemsPerRun r e) := by
  obtain ⟨hcovered, hpositioned⟩ := h.run r hrun
  cases hat with
  | build ok hpoint =>
    simp only [World.act, hpoint]
    split
    · refine h.goto hcovered ?_
      change ((r.state.offset : ℤ) - 1) + 1 = r.state.offset
      omega
    · exact h.ret false
  | next hpoint =>
    simp only [Run.Positioned, hpoint] at hpositioned
    simp only [World.act, hpoint, World.next]
    split
    · exact h.goto hcovered hpositioned
    · next hend =>
      refine h.goto hcovered fun _ => ?_
      change items ≤ r.state.offset
      omega
  | check ok hpoint =>
    simp only [Run.Positioned, hpoint] at hpositioned
    simp only [World.act, hpoint, World.check]
    split
    · exact h.goto hcovered trivial
    · split
      · split
        · exact h.goto hcovered trivial
        · exact h.goto hcovered hpositioned
      · exact h.goto hcovered hpositioned
  | item result hpoint =>
    simp only [Run.Positioned, hpoint] at hpositioned
    simp only [World.act, hpoint]
    exact h.item hcovered hpositioned result
  | limits deadline tick hpoint =>
    simp only [Run.Positioned, hpoint] at hpositioned
    simp only [World.act, hpoint, World.limits]
    split
    · exact h.goto hcovered trivial
    · split
      · split
        · exact h.goto hcovered trivial
        · exact h.goto hcovered hpositioned
      · exact h.goto hcovered hpositioned
  | preserve ok detached goal hpoint =>
    simp only [Run.Positioned, hpoint] at hpositioned
    simp only [World.act, hpoint, World.preserve]
    -- The read changes neither the cursor nor the position.
    cases ok <;> cases goal <;> first
      | exact h.goto hcovered trivial
      | exact h.goto hcovered hpositioned
  | save call detached goal hpoint =>
    simp only [World.act, hpoint]
    exact h.save hcovered call hpoint hpositioned
  | finish hpoint =>
    simp only [Run.Positioned, hpoint] at hpositioned
    simp only [World.act, hpoint]
    exact h.goto hcovered hpositioned
  | late ok detached hpoint =>
    simp only [Run.Positioned, hpoint] at hpositioned
    simp only [World.act, hpoint, World.late]
    split
    · split
      · exact h.goto hcovered trivial
      · exact h.goto hcovered hpositioned
    · exact h.goto hcovered hpositioned
  | close ok detached hpoint =>
    simp only [Run.Positioned, hpoint] at hpositioned
    simp only [World.act, hpoint]
    cases ok with
    | true | false => exact h.goto hcovered hpositioned
  | onComplete ok detached hpoint =>
    simp only [Run.Positioned, hpoint] at hpositioned
    simp only [World.act, hpoint]
    split
    · exact h.goto hcovered hpositioned
    · exact h.ret false
  | delete call detached hpoint =>
    simp only [World.act, hpoint, World.delete]
    cases call with
    | failed => exact h.ret true
    | delivered | lost => exact ⟨forall_mem_none, h.calls, forall_mem_none⟩

theorem cancelSet {i : ℕ} {c : Cancellation} (hc : s.calls i = some c)
    (call : Call) : Sound items (s.cancelSet i c call) := by
  have hread : Covered s.processed { c.read.getD .zero with cancelled := true } :=
    covered_getD (h.calls i c hc)
  have heffect : Sound items (call.effect s
      { s with
        stored := some { c.read.getD .zero with cancelled := true }
        cancels := s.cancels + 1 }) := by
    cases call with
    | failed => exact h
    | delivered | lost => exact h.store hread _ _ _
  refine ⟨heffect.stored, fun j c' hc' => ?_, heffect.run⟩
  by_cases hj : j = i
  · subst hj
    simp [World.cancelSet] at hc'
  · refine heffect.calls j c' ?_
    simpa [World.cancelSet, hj] using hc'

/-- **What every step preserves.** -/
theorem step {e : Label} (he : s.Permits e) : Sound items (s.step items maxItemsPerRun e) := by
  by_cases hrun : e.OfRun
  · obtain ⟨r, hr, hat, hstep⟩ := @World.step_of_run items maxItemsPerRun s e he hrun
    rw [hstep]
    exact h.act hr hat
  cases e with
  | load ok =>
    cases ok with
    | true => exact h.begin
    | false => exact h
  | shutdown =>
    refine ⟨h.stored, h.calls, fun r hr => ?_⟩
    obtain ⟨r', hr', rfl⟩ := Option.map_eq_some_iff.mp hr
    exact h.run r' hr'
  | crash | leave => exact h.ret false
  | cancelGet i ok =>
    cases ok with
    | false => exact h
    | true =>
      refine ⟨h.stored, fun j c hc => ?_, h.run⟩
      by_cases hj : j = i
      · subst hj
        have hc : c = ⟨s.stored, s.saves⟩ := by simpa [World.step, eq_comm] using hc
        subst hc
        exact h.stored
      · exact h.calls j c (by simpa [World.step, hj] using hc)
  | cancelSet i call =>
    obtain ⟨c, hc⟩ := he
    simp only [World.step, hc]
    exact h.cancelSet hc call
  | _ => exact absurd trivial hrun

end Sound

/-! ### Nothing is repeated -/

def Label.smooth : Label → Bool
  | .crash | .cancelGet _ _ | .cancelSet _ _ => false
  | .save call => call = .delivered
  | _ => true

/-- A job whose run has returned nil is left in flight only with its state in Redis, as where the
deletion has failed. -/
def World.Anchored (s : World) : Label → Prop
  | .leave => s.stored ≠ none
  | _ => True

def World.offset (s : World) : ℕ := (s.stored.getD .zero).offset

def Point.Settled : Point → Prop
  | .start | .onComplete _ | .delete _ => True
  | _ => False

def itemsBefore (offset : ℕ) : List ℕ := (List.range offset).reverse

theorem itemsBefore_succ (offset : ℕ) : itemsBefore (offset + 1) = offset :: itemsBefore offset := by
  simp [itemsBefore, List.range_succ]

theorem pairwise_itemsBefore (offset : ℕ) : (itemsBefore offset).Pairwise (· > ·) := by
  rw [itemsBefore, List.pairwise_reverse]
  exact List.pairwise_lt_range

/-- **Nothing is repeated.** -/
structure Exact (s : World) : Prop where
  stored : ∀ st ∈ s.stored, st.totalItems = st.offset
  order : s.processed.Pairwise (· > ·)
  /-- A run has processed what is before its cursor. -/
  run : ∀ r ∈ s.run, s.finished = false ∧ r.state.totalItems = r.state.offset ∧
    s.processed = itemsBefore r.state.offset ∧ (r.point.Settled → s.offset = r.state.offset)
  /-- Between runs, the cursor in Redis is the current one, unless the state was deleted. -/
  idle : s.run = none → (s.finished = true → s.stored ≠ none) → s.processed = itemsBefore s.offset

namespace Exact

theorem init : Exact World.init where
  stored := forall_mem_none
  order := .nil
  run := forall_mem_none
  idle := fun _ _ => rfl

variable (h : Exact s)

include h

theorem move (hrun : s.run = some r) {r' : Run}
    (htotal : r'.state.totalItems = r.state.totalItems) (hoffset : r'.state.offset = r.state.offset)
    (hp : p.Settled → r.point.Settled) : Exact (s.goto r' p) where
  stored := h.stored
  order := h.order
  run := by
    obtain ⟨hover, hitems, hprocessed, hsame⟩ := h.run r hrun
    rintro _ ⟨⟩
    exact ⟨hover, by rw [htotal, hoffset]; exact hitems, by rw [hoffset]; exact hprocessed,
      fun hsettled => (hsame (hp hsettled)).trans hoffset.symm⟩
  idle := fun hnone => absurd hnone (Option.some_ne_none _)

theorem ret (hrun : s.run = some r) (hsettled : r.point.Settled) (nil : Bool) :
    Exact (s.ret nil) where
  stored := h.stored
  order := h.order
  run := forall_mem_none
  idle := fun _ _ => by
    obtain ⟨-, -, hprocessed, hsame⟩ := h.run r hrun
    exact hprocessed.trans (congrArg itemsBefore (hsame hsettled).symm)

theorem begin (hnone : s.run = none) (hover : s.finished = false) : Exact s.begin where
  stored := h.stored
  order := h.order
  run := by
    rintro r ⟨⟩
    refine ⟨hover, ?_, h.idle hnone fun hnil => ?_, fun _ => rfl⟩
    rotate_left
    · exact Bool.noConfusion (hover.symm.trans hnil)
    change (s.stored.getD .zero).totalItems = (s.stored.getD .zero).offset
    cases hst : s.stored with
    | none => rfl
    | some st => exact h.stored st hst
  idle := fun hnone => absurd hnone (Option.some_ne_none _)

theorem count (hrun : s.run = some r) (hindex : r.index = r.state.offset) : Exact (s.count r) := by
  obtain ⟨hover, hitems, hprocessed, -⟩ := h.run r hrun
  have hnat : r.index.toNat = r.state.offset := by omega
  have hoffset : (r.index + 1).toNat = r.state.offset + 1 := by omega
  have hall : r.index.toNat :: s.processed = itemsBefore (r.state.offset + 1) := by
    rw [itemsBefore_succ, hnat, hprocessed]
  refine ⟨h.stored, ?_, ?_, fun hnone => absurd hnone (Option.some_ne_none _)⟩
  · change (r.index.toNat :: s.processed).Pairwise (· > ·)
    rw [hall]
    exact pairwise_itemsBefore _
  · rintro _ ⟨⟩
    refine ⟨hover, ?_, ?_, fun hsettled => hsettled.elim⟩
    · change r.state.totalItems + 1 = (r.index + 1).toNat
      omega
    · change r.index.toNat :: s.processed = itemsBefore (r.index + 1).toNat
      rw [hall, hoffset]

theorem save (hrun : s.run = some r) (detached : Bool) (goal : Goal) :
    Exact (s.save r .delivered detached goal) := by
  obtain ⟨hover, hitems, hprocessed, -⟩ := h.run r hrun
  have hstored : ∀ st ∈ some r.state, st.totalItems = st.offset := by
    rintro st ⟨⟩
    exact hitems
  have hgoto : ∀ p, Exact ((s.write r.state).goto r p) := by
    intro p
    refine ⟨hstored, h.order, ?_, fun hnone => absurd hnone (Option.some_ne_none _)⟩
    rintro _ ⟨⟩
    exact ⟨hover, hitems, hprocessed, fun _ => rfl⟩
  have hret : ∀ nil, Exact ((s.write r.state).ret nil) :=
    fun nil => ⟨hstored, h.order, forall_mem_none, fun _ _ => hprocessed⟩
  cases goal with
  | checkpoint => exact hgoto .next
  | completion => exact hgoto (.onComplete detached)
  | cancel => exact hret true
  | _ => exact hret false

theorem act (hsound : Sound items s) (hrun : s.run = some r) {e : Label}
    (hat : r.At e) (hsmooth : e.smooth = true) : Exact (s.act items maxItemsPerRun r e) := by
  cases hat with
  | build ok hpoint =>
    simp only [World.act, hpoint]
    split
    · exact h.move hrun rfl rfl False.elim
    · exact h.ret hrun (hpoint ▸ trivial) false
  | next hpoint =>
    simp only [World.act, hpoint, World.next]
    split <;> exact h.move hrun rfl rfl False.elim
  | check ok hpoint =>
    simp only [World.act, hpoint, World.check]
    split
    · exact h.move hrun rfl rfl False.elim
    · split
      · split <;> exact h.move hrun rfl rfl False.elim
      · exact h.move hrun rfl rfl False.elim
  | item result hpoint =>
    have hindex := (hsound.run r hrun).2
    simp only [Run.Positioned, hpoint] at hindex
    have h' : Exact { s with after := if s.cancelled then s.after + 1 else s.after } :=
      ⟨h.stored, h.order, h.run, h.idle⟩
    simp only [World.act, hpoint, World.item]
    split
    · exact h.move hrun rfl rfl False.elim
    · cases result with
      | nil | skip => exact h'.count hrun hindex
      | stop | error => exact h'.move hrun rfl rfl False.elim
  | limits deadline tick hpoint =>
    simp only [World.act, hpoint, World.limits]
    split
    · exact h.move hrun rfl rfl False.elim
    · split
      · split <;> exact h.move hrun rfl rfl False.elim
      · exact h.move hrun rfl rfl False.elim
  | preserve ok detached goal hpoint =>
    simp only [World.act, hpoint, World.preserve]
    cases ok <;> split <;> exact h.move hrun rfl rfl False.elim
  | save call detached goal hpoint =>
    obtain rfl : call = .delivered := of_decide_eq_true hsmooth
    simp only [World.act, hpoint]
    exact h.save hrun detached goal
  | finish hpoint | close ok detached hpoint =>
    simp only [World.act, hpoint]
    exact h.move hrun rfl rfl False.elim
  | late ok detached hpoint =>
    simp only [World.act, hpoint, World.late]
    split
    · split <;> exact h.move hrun rfl rfl False.elim
    · exact h.move hrun rfl rfl False.elim
  | onComplete ok detached hpoint =>
    simp only [World.act, hpoint]
    split
    · exact h.move hrun rfl rfl fun _ => hpoint ▸ trivial
    · exact h.ret hrun (hpoint ▸ trivial) false
  | delete call detached hpoint =>
    simp only [World.act, hpoint, World.delete]
    cases call with
    | failed => exact h.ret hrun (hpoint ▸ trivial) true
    | _ => exact ⟨forall_mem_none, h.order, forall_mem_none, fun _ hkept => absurd rfl (hkept rfl)⟩

/-- **What every smooth step preserves.** -/
theorem step (hsound : Sound items s) {e : Label} (he : s.Permits e)
    (hsmooth : e.smooth = true) (hanchored : s.Anchored e) : Exact (s.step items maxItemsPerRun e) := by
  by_cases hrun : e.OfRun
  · obtain ⟨r, hr, hat, hstep⟩ := @World.step_of_run items maxItemsPerRun s e he hrun
    rw [hstep]
    exact h.act hsound hr hat hsmooth
  cases e with
  | load ok =>
    cases ok with
    | true => exact h.begin he.1 he.2
    | false => exact h
  | shutdown =>
    refine ⟨h.stored, h.order, fun r hr => ?_,
      fun hnone => h.idle (Option.map_eq_none_iff.mp hnone)⟩
    obtain ⟨r', hr', rfl⟩ := Option.map_eq_some_iff.mp hr
    exact h.run r' hr'
  | leave =>
    exact ⟨h.stored, h.order, forall_mem_none, fun _ _ => h.idle he.1 fun _ => hanchored⟩
  | crash | cancelGet i ok | cancelSet i call => exact (Bool.false_ne_true hsmooth).elim
  | _ => exact absurd trivial hrun

end Exact

/-- **Neither skipped nor repeated.** In every sequence of runs, the saved cursor has only processed
items before it, and when `OnComplete` is called without a `StopIterationError`, every item has been
processed. If nothing crashes, no save fails and nobody cancels, and no job is left in flight after
its state was deleted, the items are processed in increasing order, each once, and the saved number
of items is the saved cursor. -/
theorem items_once (items maxItemsPerRun : ℕ) (es : List Label)
    (legal : (iterationMachine items maxItemsPerRun).Legal .init es) :
    let s := (iterationMachine items maxItemsPerRun).run .init es
    (∀ st ∈ s.stored, ∀ i < st.offset, i ∈ s.processed) ∧
      (∀ r ∈ s.run, ∀ detached, r.point = .onComplete detached → r.stopped = false →
        ∀ i < items, i ∈ s.processed) ∧
      ((∀ e ∈ es, e.smooth = true) →
        (iterationMachine items maxItemsPerRun).Throughout World.Anchored .init es →
        s.processed.Pairwise (· > ·) ∧ ∀ st ∈ s.stored, st.totalItems = st.offset) := by
  intro s
  have hsound : Sound items s := legal.invariant (fun s e h he => h.step he) (.init items)
  refine ⟨hsound.stored, fun r hr detached hpoint hstopped i hi => ?_,
    fun hsmooth hanchored => ?_⟩
  · obtain ⟨hcovered, hpositioned⟩ := hsound.run r hr
    simp only [Run.Positioned, hpoint] at hpositioned
    exact hcovered i (Nat.lt_of_lt_of_le hi (hpositioned hstopped))
  · have hboth := (Machine.throughout_of_forall _ _ hsmooth).and hanchored
    have hexact := legal.invariant_throughout (I := fun s => Sound items s ∧ Exact s)
      (fun s e h he hboth => ⟨h.1.step he, h.2.step h.1 he hboth.1 hboth.2⟩)
      hboth ⟨.init items, .init⟩
    exact ⟨hexact.2.order, hexact.2.stored⟩

/-- Two items in two runs: the first is interrupted after one item, the second comes to the end but
cannot delete the state. The worker stops, and a third run finds no more items. -/
def twoRuns : List Label :=
  [.load true, .build true, .next, .check true, .item .nil, .limits true false, .preserve true,
    .preserve true, .save .delivered, .load true, .build true, .next, .check true, .item .skip,
    .limits false false, .next, .finish, .late true, .close true, .preserve true, .save .delivered,
    .onComplete true, .delete .failed, .leave, .load true, .build true, .next, .finish, .late true,
    .close true, .preserve true, .save .delivered]

theorem items_once_twoRuns :
    let s := (iterationMachine 2 0).run .init twoRuns
    (∀ i < 2, i ∈ s.processed) ∧ s.processed.Pairwise (· > ·) ∧
      ∀ st ∈ s.stored, st.totalItems = st.offset := by
  have hlegal : (iterationMachine 2 0).Legal .init twoRuns := by
    refine ⟨⟨rfl, rfl⟩, ⟨_, rfl, rfl⟩, ⟨_, rfl, rfl⟩, ⟨_, rfl, rfl, nofun⟩, ⟨_, rfl, rfl⟩,
      ⟨_, rfl, rfl⟩, ⟨_, _, _, rfl, rfl, nofun⟩, ⟨_, _, _, rfl, rfl, nofun⟩,
      ⟨_, _, _, rfl, rfl, nofun⟩, ⟨rfl, rfl⟩, ⟨_, rfl, rfl⟩, ⟨_, rfl, rfl⟩, ⟨_, rfl, rfl, nofun⟩,
      ⟨_, rfl, rfl⟩, ⟨_, rfl, rfl⟩, ⟨_, rfl, rfl⟩, ⟨_, rfl, rfl⟩, ⟨_, _, rfl, rfl, nofun⟩,
      ⟨_, _, rfl, rfl⟩, ⟨_, _, _, rfl, rfl, nofun⟩, ⟨_, _, _, rfl, rfl, nofun⟩, ⟨_, _, rfl, rfl⟩,
      ⟨_, _, rfl, rfl, nofun⟩, ⟨rfl, rfl⟩, ⟨rfl, rfl⟩, ⟨_, rfl, rfl⟩, ⟨_, rfl, rfl⟩,
      ⟨_, rfl, rfl⟩, ⟨_, _, rfl, rfl, nofun⟩, ⟨_, _, rfl, rfl⟩, ⟨_, _, _, rfl, rfl, nofun⟩,
      ⟨_, _, _, rfl, rfl, nofun⟩, trivial⟩
  obtain ⟨-, hall, honce⟩ := items_once 2 0 twoRuns hlegal
  have hanchored : (iterationMachine 2 0).Throughout World.Anchored .init twoRuns :=
    ⟨trivial, trivial, trivial, trivial, trivial, trivial, trivial, trivial, trivial, trivial,
      trivial, trivial, trivial, trivial, trivial, trivial, trivial, trivial, trivial, trivial,
      trivial, trivial, trivial, Option.some_ne_none _, trivial, trivial, trivial, trivial, trivial,
      trivial, trivial, trivial, trivial⟩
  exact ⟨hall _ rfl false rfl rfl, honce (by decide) hanchored⟩

/-- One item. The worker is stopped when it is processed, the iteration comes to its end, and the
job is left in flight. The next run is another worker's. -/
def stoppedRun : List Label :=
  [.load true, .build true, .next, .check true, .item .nil, .shutdown, .limits false false, .next,
    .finish, .late true, .close true, .preserve true, .save .delivered, .onComplete true,
    .delete .delivered, .leave, .load true, .build true, .next, .check true, .item .nil]

/-- **A stop during the last item repeats the job**, without a crash, a failed save or a
cancellation. -/
theorem last_item_repeated :
    (iterationMachine 1 0).Legal .init stoppedRun ∧ (∀ e ∈ stoppedRun, e.smooth = true) ∧
      ((iterationMachine 1 0).run .init stoppedRun).processed = [0, 0] := by
  refine ⟨?_, by decide, rfl⟩
  exact ⟨⟨rfl, rfl⟩, ⟨_, rfl, rfl⟩, ⟨_, rfl, rfl⟩, ⟨_, rfl, rfl, nofun⟩, ⟨_, rfl, rfl⟩, trivial,
    ⟨_, rfl, rfl⟩, ⟨_, rfl, rfl⟩, ⟨_, rfl, rfl⟩, ⟨_, _, rfl, rfl, nofun⟩, ⟨_, _, rfl, rfl⟩,
    ⟨_, _, _, rfl, rfl, nofun⟩, ⟨_, _, _, rfl, rfl, nofun⟩, ⟨_, _, rfl, rfl⟩,
    ⟨_, _, rfl, rfl, nofun⟩, ⟨rfl, rfl⟩, ⟨rfl, rfl⟩, ⟨_, rfl, rfl⟩, ⟨_, rfl, rfl⟩,
    ⟨_, rfl, rfl, nofun⟩, ⟨_, rfl, rfl⟩, trivial⟩

end Iteration

end Senna
