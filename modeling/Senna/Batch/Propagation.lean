import Mathlib.Algebra.BigOperators.Group.Finset.Basic
import Mathlib.Algebra.GroupWithZero.Nat
import Mathlib.Algebra.Order.BigOperators.Group.Finset
import Senna.Batch.Forest

/-!
# Completion travels up

Three facts about the propagation of completions between batches, for any shape
of the parent links, cycles included.

**It terminates.** A propagation goes on only from a call that recorded the
child, and recording takes the child out of the parent's jobs set. The potential
of a forest, members plus propagations in progress, goes down with every call a
propagation makes and goes up only by what is added from outside.

**It leaves no parent waiting.** The call that brings a batch to rest signals
(`signals_of_enters`). So while a finished child is still a
member of its parent, its signal is on the way (`Covered`). The one way to break
this is to link a child that is at rest already: its signal has come and gone.
That can happen to an empty batch, which is stored before it is linked, when in
between another batch is enqueued below it and completes.

**It counts each child once.** Every record of a child in its parent uses up a
membership, and only a link makes one (`Counted`).
-/

namespace Senna

namespace Batch

open Finset

/-! ### What a call does to the members of its batch -/

theorem Call.parent_apply (b : Batch) (c : Call) : (c.apply b).parent = b.parent := by
  cases c with
  | complete jobID result now =>
    by_cases hacc : Accepts jobID result b
    · simp only [Call.apply, batchComplete_of_accepts now hacc, record]
      rfl
    · obtain ⟨reply, heq, -⟩ := batchComplete_of_not_accepts now hacc
      simp only [Call.apply, heq, refuse]
  | addJobs ids =>
    simp only [Call.apply, batchAddJobs]
    split_ifs <;> rfl
  | addChild childID =>
    simp only [Call.apply, batchAddChild]
    split_ifs <;> rfl
  | removeChild childID =>
    simp only [Call.apply, batchRemoveChild]
    split_ifs <;> rfl
  | callbackComplete jobID =>
    simp only [Call.apply, batchCallbackComplete]
    split_ifs <;> rfl
  | enqueueJobs ids => rfl
  | invalidate => rfl

theorem Call.jobs_apply_subset (b : Batch) (c : Call) :
    (c.apply b).jobs ⊆ b.jobs ∪ c.added.toFinset := by
  cases c with
  | complete jobID result now =>
    refine Subset.trans ?_ subset_union_left
    by_cases hacc : Accepts jobID result b
    · simp only [Call.apply, batchComplete_of_accepts now hacc, record, batchAfter]
      split
      · exact erase_subset _ _
      · exact Subset.rfl
    · obtain ⟨reply, heq, -⟩ := batchComplete_of_not_accepts now hacc
      simp only [Call.apply, heq, refuse]
      exact Subset.rfl
  | addJobs ids =>
    simp only [Call.apply, batchAddJobs]
    split_ifs
    · exact subset_union_left
    · exact subset_union_left
    · exact Subset.rfl
  | addChild childID =>
    simp only [Call.apply, batchAddChild]
    split_ifs
    · exact subset_union_left
    · exact subset_union_left
    · intro id hid
      simpa [Call.added, or_comm] using hid
  | removeChild childID =>
    refine Subset.trans ?_ subset_union_left
    by_cases hm : childID ∈ b.jobs
    · simpa [Call.apply, batchRemoveChild, hm] using erase_subset _ _
    · simp [Call.apply, batchRemoveChild, hm]
  | callbackComplete jobID =>
    refine Subset.trans ?_ subset_union_left
    simp only [Call.apply, batchCallbackComplete]
    split_ifs <;> exact Subset.rfl
  | enqueueJobs ids => exact Subset.rfl
  | invalidate => exact subset_union_left

theorem notMem_jobs_complete (jobID : String) {result : Result} (b : Batch) (now : String)
    (hr : result.removes = true) :
    jobID ∉ ((Call.complete jobID result now).apply b).jobs := by
  by_cases hacc : Accepts jobID result b
  · simp [Call.apply, batchComplete_of_accepts now hacc, record, batchAfter, hr]
  · obtain ⟨reply, heq, -⟩ := batchComplete_of_not_accepts now hacc
    have he : result ≠ .emptySuccess := by
      rintro rfl
      simp [Result.removes] at hr
    simp only [Call.apply, heq, refuse]
    rwa [accepts_member he] at hacc

variable {c : Call}

theorem signals_of_enters {b : Batch} (hc : ∀ childID, c ≠ .removeChild childID)
    (hbefore : ¬ Quiescent b) (hafter : Quiescent (c.apply b)) : c.signals b = true := by
  cases c with
  | complete jobID result now =>
    by_cases hacc : Accepts jobID result b
    · simp only [Call.apply, batchComplete_of_accepts now hacc, record, batchAfter] at hafter
      obtain ⟨hp, hcb, hf⟩ := hafter
      have hzero : pendingAfter result b = 0 := by
        simp only [progressAfter] at hp
        split at hp
        · exact hp
        · next hr => simp [pendingAfter, pendingUnclamped, hr, hp]
      have hcb' : b.progress.callbacksPending + (callbackList result b).length = 0 := hcb
      have hf' : (b.progress.completeFired || firesComplete result b) = true := hf
      simp [Call.signals, batchComplete_of_accepts now hacc, record, completeResult, completedNow,
        hzero, hcb', hf']
    · obtain ⟨reply, heq, -⟩ := batchComplete_of_not_accepts now hacc
      simp only [Call.apply, heq, refuse] at hafter
      exact absurd hafter hbefore
  | callbackComplete jobID =>
    by_cases hm : jobID ∈ b.callbacks
    · simp only [Call.apply, batchCallbackComplete, hm, not_true_eq_false, if_false] at hafter
      obtain ⟨hp, hcb, hf⟩ := hafter
      dsimp only at hp hcb hf
      simp only [Call.signals, batchCallbackComplete, hm, not_true_eq_false, if_false, hp, hcb, hf]
      rfl
    · simp only [Call.apply, batchCallbackComplete, hm, not_false_eq_true, if_true] at hafter
      exact absurd hafter hbefore
  | addChild childID =>
    -- a new child is pending, so the batch is not finished
    simp only [Call.apply, batchAddChild] at hafter
    split_ifs at hafter
    · exact absurd hafter hbefore
    · exact absurd hafter hbefore
    · simp [Quiescent] at hafter
  | addJobs ids =>
    simp only [Call.apply, batchAddJobs] at hafter
    split_ifs at hafter with hi hf
    · exact absurd hafter hbefore
    · exact absurd hafter hbefore
    · exact absurd hafter.2.2 hf
  | removeChild childID => exact absurd rfl (hc childID)
  | enqueueJobs ids | invalidate => exact absurd hafter hbefore

namespace Forest

/-! ### Names -/

/-- Jobs and batches have different IDs, and no batch is its own parent. -/
structure Names (f : Forest) : Prop where
  ids_sub : f.ids ⊆ f.batchIDs
  disjoint : Disjoint f.jobIDs f.batchIDs
  unflushed_sub : ∀ id ∈ f.ids, (f.ledger id).unflushed ⊆ f.jobIDs
  parent_ne : ∀ id ∈ f.ids, (f.batch id).parent ≠ some id

variable {f : Forest}

theorem Names.call (h : Names f) (id : String) (c : Call) : Names (f.call id c) where
  ids_sub := by simpa using h.ids_sub
  disjoint := by simpa using h.disjoint
  unflushed_sub := by
    intro x hx
    rw [ids_call] at hx
    rw [jobIDs_call]
    rcases ledger_call_cases id c hx with heq | ⟨rfl, heq⟩
    · rw [heq]
      exact h.unflushed_sub x hx
    · rw [heq]
      refine Subset.trans ?_ (h.unflushed_sub x hx)
      simp only [Ledger.step]
      split
      · exact sdiff_subset
      · exact Subset.rfl
  parent_ne := by
    intro x hx
    rw [ids_call] at hx
    rcases ledger_call_cases id c hx with heq | ⟨rfl, heq⟩
    · rw [batch, heq]
      exact h.parent_ne x hx
    · rw [batch, heq]
      change (c.apply (f.batch x)).parent ≠ some x
      rw [Call.parent_apply]
      exact h.parent_ne x hx

theorem Names.before {a : Action} (h : Names f) (hp : f.Permits (.act a)) : Names (f.before a) where
  ids_sub := h.ids_sub
  disjoint := disjoint_union_left.mpr ⟨h.disjoint, jobNames_disjoint (f := f) hp⟩
  unflushed_sub := fun id hid => (h.unflushed_sub id hid).trans subset_union_left
  parent_ne := h.parent_ne

theorem Names.added {a : Action} {id : String} (h : Names f)
    (hp : f.Permits (.act a)) (hmade : f.made a = some (id, c)) (hid : id ∈ f.ids) :
    ∀ x ∈ c.added, x ∈ (f.before a).jobIDs := by
  intro x hx
  rcases mem_union.mp (added_of_permits hp hmade (List.mem_toFinset.mpr hx)) with hu | hn
  · exact mem_union_left _ (h.unflushed_sub id hid hu)
  · exact mem_union_right _ hn

theorem Names.step {e : Event} (h : Names f) (hp : f.Permits e) : Names (f.step e) := by
  cases e with
  | store r callbackQueue =>
    obtain ⟨hjob, hself, hjobs⟩ := hp
    obtain ⟨hprog, hunfl, -, -⟩ := storeLedger_spec f r callbackQueue
    rw [disjoint_insert_right] at hjobs
    constructor
    case ids_sub => exact insert_subset_insert _ h.ids_sub
    case disjoint =>
      change Disjoint (f.jobIDs ∪ r.jobs.toFinset) (insert r.id f.batchIDs)
      rw [disjoint_union_left, disjoint_insert_right, disjoint_insert_right]
      exact ⟨⟨hjob, h.disjoint⟩, hjobs⟩
    case unflushed_sub =>
      intro x hx
      change (Function.update f.ledger r.id (f.storeLedger r callbackQueue) x).unflushed ⊆
        f.jobIDs ∪ r.jobs.toFinset
      by_cases hne : x = r.id
      · subst hne
        rw [Function.update_self, hunfl]
        exact subset_union_right
      · rw [Function.update_of_ne hne]
        exact (h.unflushed_sub x (mem_of_mem_insert_of_ne hx hne)).trans subset_union_left
    case parent_ne =>
      intro x hx
      change (Function.update f.ledger r.id (f.storeLedger r callbackQueue) x).batch.parent ≠ some x
      by_cases hne : x = r.id
      · subst hne
        rw [Function.update_self, parent, hprog]
        change progressString r.parentID ≠ some r.id
        unfold progressString
        split
        · simp
        · simpa using hself
      · rw [Function.update_of_ne hne]
        exact h.parent_ne x (mem_of_mem_insert_of_ne hx hne)
  | link id =>
    change Names (f.linkBatchToParent id)
    rcases linkBatchToParent_cases f id with heq | heq | ⟨parent, -, -, -, heq⟩
    · rw [heq]
      exact h
    · rw [heq]
      exact ⟨(erase_subset _ _).trans h.ids_sub, h.disjoint,
        fun x hx => h.unflushed_sub x (mem_of_mem_erase hx),
        fun x hx => h.parent_ne x (mem_of_mem_erase hx)⟩
    · have hcall := h.call parent (.addChild id)
      rw [heq]
      exact ⟨hcall.ids_sub, hcall.disjoint, hcall.unflushed_sub, hcall.parent_ne⟩
  | act a =>
    cases hmade : f.made a with
    | none => simpa [Forest.step, hmade] using h
    | some m =>
      rw [step_act hmade]
      exact (h.before hp).call m.1 m.2

/-! ### No parent waits for a finished child -/

def Waits (f : Forest) (parent child : String) : Prop :=
  parent ∈ f.ids ∧ child ∈ f.ids ∧ child ∈ (f.batch parent).jobs ∧
    (f.batch child).parent = some parent ∧ Quiescent (f.batch child)

instance (f : Forest) (parent child : String) : Decidable (f.Waits parent child) := by
  unfold Waits
  infer_instance

def Covered (f : Forest) : Prop :=
  ∀ parent child, Waits f parent child →
    ∃ s ∈ f.inFlight, s.child = child ∧ s.parent = parent

theorem waits_call {id : String} (hn : Names f)
    (hc : ∀ x, c ≠ .removeChild x)
    (hnew : id ∈ f.ids → ∀ x ∈ c.added, x ∈ f.ids → ¬ Quiescent (f.batch x))
    {parent child : String} (hw : Waits (f.call id c) parent child) :
    Waits f parent child ∨
      ∃ s ∈ (f.call id c).inFlight, s.child = child ∧ s.parent = parent := by
  obtain ⟨hp, hch, hmem, hpar, hq⟩ := hw
  -- only a call on the child finishes it, and then it signals; only one on the parent adds members
  have hne : parent ≠ child := by
    rintro rfl
    exact (hn.call id c).parent_ne parent hp hpar
  rw [ids_call] at hp hch
  by_cases hcid : child = id
  · subst hcid
    have hstep : (f.call child c).ledger child = (f.ledger child).step c := ledger_call_self hch
    have hmem' : child ∈ (f.batch parent).jobs := by
      rwa [batch, ledger_call_of_ne hne] at hmem
    have hpar' : (f.batch child).parent = some parent := by
      rw [batch, hstep] at hpar
      exact (Call.parent_apply _ c).symm.trans hpar
    rw [batch, hstep] at hq
    by_cases hbefore : Quiescent (f.batch child)
    · exact .inl ⟨hp, hch, hmem', hpar', hbefore⟩
    · right
      have hsig := signals_of_enters hc hbefore hq
      have heq := Call.signal_eq child (f.batch child) c
      rw [if_pos hsig, hpar'] at heq
      refine ⟨{ child := child, parent := parent, result := parentResult (c.apply (f.batch child)) },
        ?_, rfl, rfl⟩
      rw [call_of_mem hch, heq]
      exact List.mem_append_right _ (by simp)
  · left
    have hsame : (f.call id c).ledger child = f.ledger child := ledger_call_of_ne hcid
    rw [batch, hsame] at hpar hq
    refine ⟨hp, hch, ?_, hpar, hq⟩
    rcases ledger_call_cases id c hp with heq | ⟨rfl, heq⟩
    · rwa [batch, heq] at hmem
    · rw [batch, heq] at hmem
      rcases mem_union.mp (Call.jobs_apply_subset _ c hmem) with hold | hadd
      · exact hold
      · exact absurd hq (hnew hp child (List.mem_toFinset.mp hadd) hch)

theorem inFlight_sub_call {id : String} :
    ∀ s ∈ f.inFlight, s ∈ (f.call id c).inFlight := by
  intro s hs
  unfold call
  split
  · exact List.mem_append_left _ hs
  · exact hs

theorem Covered.call {id : String} (h : Covered f) (hn : Names f)
    (hc : ∀ x, c ≠ .removeChild x)
    (hnew : id ∈ f.ids → ∀ x ∈ c.added, x ∈ f.ids → ¬ Quiescent (f.batch x)) :
    Covered (f.call id c) := by
  intro parent child hw
  rcases waits_call hn hc hnew hw with hbefore | hsig
  · obtain ⟨s, hs, hchild, hparent⟩ := h parent child hbefore
    exact ⟨s, inFlight_sub_call s hs, hchild, hparent⟩
  · exact hsig

def Removing (f : Forest) : Prop := ∀ s ∈ f.inFlight, s.result.removes = true

theorem Removing.call (h : Removing f) (id : String) (c : Call) : Removing (f.call id c) := by
  intro s hs
  unfold Forest.call at hs
  split at hs
  · rcases List.mem_append.mp hs with hold | hnew
    · exact h s hold
    · rw [Call.signal_eq] at hnew
      split at hnew
      · cases hparent : (f.batch id).parent with
        | none => simp [hparent] at hnew
        | some parent =>
          obtain rfl : s = _ := by simpa [hparent] using hnew
          exact parentResult_removes _
      · simp at hnew
  · exact h s hs

theorem Removing.step (h : Removing f) (e : Event) : Removing (f.step e) := by
  cases e with
  | store r callbackQueue => exact h
  | link id =>
    change Removing (f.linkBatchToParent id)
    rcases linkBatchToParent_cases f id with heq | heq | ⟨parent, -, -, -, heq⟩
    · rw [heq]
      exact h
    · rw [heq]
      exact h
    · rw [heq]
      exact h.call parent (.addChild id)
  | act a =>
    have hbefore : Removing (f.before a) := by
      intro s hs
      cases a with
      | deliver i now => exact h s (List.mem_of_mem_eraseIdx hs)
      | _ => exact h s hs
    cases hmade : f.made a with
    | none => simpa [Forest.step, hmade] using h
    | some m =>
      rw [step_act hmade]
      exact hbefore.call m.1 m.2

theorem mem_remaining {s : Signal} (hs : s ∈ f.inFlight) (a : Action) :
    s ∈ f.remaining a ∨
      ∃ now, f.made a = some (s.parent, .complete s.child s.result now) := by
  cases a with
  | deliver i now =>
    obtain ⟨j, hj, rfl⟩ := List.getElem_of_mem hs
    by_cases hij : j = i
    · subst hij
      exact .inr ⟨now, by simp [made, List.getElem?_eq_getElem hj]⟩
    · exact .inl ((List.mem_eraseIdx_iff_getElem ..).mpr ⟨j, hj, hij, rfl⟩)
  | _ => exact .inl hs

theorem Covered.act {a : Action} (h : Covered f) (hn : Names f) (hr : Removing f)
    (hp : f.Permits (.act a)) : Covered (f.step (.act a)) := by
  cases hmade : f.made a with
  | none => simpa [Forest.step, hmade] using h
  | some m =>
    obtain ⟨id, c⟩ := m
    rw [step_act hmade]
    have hnames := hn.before hp
    intro parent child hw
    have hkeep := waits_call hnames (made_ne_removeChild hmade) ?_ hw
    · rcases hkeep with hbefore | hsig
      swap
      · exact hsig
      obtain ⟨s, hs, rfl, rfl⟩ := h parent child hbefore
      rcases mem_remaining hs a with hrem | ⟨now, hdel⟩
      · exact ⟨s, inFlight_sub_call (f := f.before a) s hrem, rfl, rfl⟩
      · -- its own call: the child has been removed
        obtain ⟨rfl, rfl⟩ : s.parent = id ∧ .complete s.child s.result now = c := by
          simpa [hmade, eq_comm] using hdel
        have hin := hw.2.2.1
        rw [batch, ledger_call_self (f := f.before a) hbefore.1] at hin
        exact absurd hin (notMem_jobs_complete s.child (f.batch s.parent) now (hr s hs))
    · -- jobs are not batches
      intro hid x hx hmem
      have hjob := hn.added hp hmade hid x hx
      exact absurd (hnames.ids_sub hmem) (disjoint_left.mp hnames.disjoint hjob)

def LinksAtRest (f : Forest) : Event → Prop
  | .link id => Quiescent (f.batch id)
  | _ => False

instance (f : Forest) : (e : Event) → Decidable (f.LinksAtRest e)
  | .store _ _ | .act _ => inferInstanceAs (Decidable False)
  | .link id => inferInstanceAs (Decidable (Quiescent (f.batch id)))

theorem Covered.store (h : Covered f) (r : Request) (callbackQueue : String) :
    Covered (f.step (.store r callbackQueue)) := by
  obtain ⟨hprog, -, hold, hnew⟩ := storeLedger_spec f r callbackQueue
  rintro parent child ⟨hp, hc, hmem, hpar, hq⟩
  change child ∈ (Function.update f.ledger r.id (f.storeLedger r callbackQueue) parent).batch.jobs
    at hmem
  change (Function.update f.ledger r.id (f.storeLedger r callbackQueue) child).batch.parent = _
    at hpar
  change Quiescent (Function.update f.ledger r.id (f.storeLedger r callbackQueue) child).batch at hq
  -- a batch that has just been stored is not at rest
  have hnc : child ≠ r.id := by
    rintro rfl
    rw [Function.update_self, Quiescent, hprog] at hq
    simp [batchProgressFields, buildBatchState] at hq
  rw [Function.update_of_ne hnc] at hpar hq
  have hc' := mem_of_mem_insert_of_ne hc hnc
  by_cases hnp : parent = r.id
  · subst hnp
    rw [Function.update_self] at hmem
    by_cases hex : r.id ∈ f.ids
    · rw [(hold hex).1] at hmem
      exact h r.id child ⟨hex, hc', hmem, hpar, hq⟩
    · rw [hnew hex] at hmem
      simp [create, storeBatchState] at hmem
  · rw [Function.update_of_ne hnp] at hmem
    exact h parent child ⟨mem_of_mem_insert_of_ne hp hnp, hc', hmem, hpar, hq⟩

theorem Covered.step {e : Event} (h : Covered f) (hn : Names f)
    (hr : Removing f) (hp : f.Permits e) (hrest : ¬ f.LinksAtRest e) : Covered (f.step e) := by
  cases e with
  | store r callbackQueue => exact h.store r callbackQueue
  | link id =>
    change Covered (f.linkBatchToParent id)
    rcases linkBatchToParent_cases f id with heq | heq | ⟨parent, -, -, -, heq⟩
    · rw [heq]
      exact h
    · rw [heq]
      rintro p c ⟨hpm, hcm, hrest'⟩
      exact h p c ⟨mem_of_mem_erase hpm, mem_of_mem_erase hcm, hrest'⟩
    · rw [heq]
      refine Covered.call (c := .addChild id) h hn (by simp) ?_
      intro _ x hx _
      rw [Call.added, List.mem_singleton] at hx
      subst hx
      exact hrest
  | act a => exact h.act hn hr hp

/-! ### Each child is counted once -/

def timesRecorded (l : Ledger) (member : String) : ℕ :=
  l.recorded.countP fun e => e.1 = member ∧ e.2.removes = true

def Counted (f : Forest) : Prop :=
  ∀ parent ∈ f.ids, ∀ child ∉ f.jobIDs,
    timesRecorded (f.ledger parent) child + (if child ∈ (f.batch parent).jobs then 1 else 0) ≤
      f.links.count (parent, child)

theorem timesRecorded_step (l : Ledger) (c : Call) (child : String) (hadd : child ∉ c.added) :
    timesRecorded (l.step c) child + (if child ∈ (l.step c).batch.jobs then 1 else 0) ≤
      timesRecorded l child + (if child ∈ l.batch.jobs then 1 else 0) := by
  have hjobs : child ∈ (l.step c).batch.jobs → child ∈ l.batch.jobs := by
    intro hmem
    have hmem' := mem_union.mp (Call.jobs_apply_subset l.batch c hmem)
    exact hmem'.resolve_right fun h => hadd (List.mem_toFinset.mp h)
  by_cases hrec : ∃ result now, c = .complete child result now ∧ Accepts child result l.batch ∧
      result.removes = true
  · obtain ⟨result, now, rfl, hacc, hr⟩ := hrec
    have hgone : child ∉ (l.step (.complete child result now)).batch.jobs :=
      notMem_jobs_complete child l.batch now hr
    have hcount : timesRecorded (l.step (.complete child result now)) child =
        timesRecorded l child + 1 := by
      simp [timesRecorded, Ledger.step_complete now hacc, hr]
    rw [hcount, if_neg hgone, if_pos (hacc.mem hr)]
  · have hcount : timesRecorded (l.step c) child = timesRecorded l child := by
      cases c with
      | complete jobID result now =>
        by_cases hacc : Accepts jobID result l.batch
        · rw [Ledger.step_complete now hacc]
          refine List.countP_cons_of_neg ?_
          intro hmatch
          simp only [decide_eq_true_eq] at hmatch
          obtain ⟨rfl, hr⟩ := hmatch
          exact hrec ⟨result, now, rfl, hacc, hr⟩
        · rw [Ledger.step_refused now hacc]
      | _ => rfl
    rw [hcount]
    split_ifs with h₁ h₂
    · exact le_rfl
    · exact absurd (hjobs h₁) h₂
    · omega
    · exact le_rfl

theorem Counted.call (h : Counted f) (id : String) (c : Call)
    (hadd : id ∈ f.ids → ∀ x ∈ c.added, x ∈ f.jobIDs) : Counted (f.call id c) := by
  intro parent hp child hc
  rw [ids_call] at hp
  rw [jobIDs_call] at hc
  rw [links_call]
  have hbefore := h parent hp child hc
  rcases ledger_call_cases id c hp with heq | ⟨rfl, heq⟩
  · rw [batch, heq]
    exact hbefore
  · rw [batch, heq]
    refine le_trans (timesRecorded_step (f.ledger parent) c child ?_) hbefore
    exact fun hmem => hc (hadd hp child hmem)

theorem Counted.store (h : Counted f) (r : Request) (callbackQueue : String) :
    Counted (f.step (.store r callbackQueue)) := by
  obtain ⟨-, -, hold, hnew⟩ := storeLedger_spec f r callbackQueue
  intro parent hp child hc
  have hc' : child ∉ f.jobIDs := fun hmem => hc (mem_union_left _ hmem)
  change timesRecorded (Function.update f.ledger r.id (f.storeLedger r callbackQueue) parent) child +
    (if child ∈ (Function.update f.ledger r.id (f.storeLedger r callbackQueue) parent).batch.jobs
      then 1 else 0) ≤ f.links.count (parent, child)
  by_cases hne : parent = r.id
  · subst hne
    rw [Function.update_self]
    by_cases hex : r.id ∈ f.ids
    · rw [timesRecorded, (hold hex).1, (hold hex).2]
      exact h r.id hex child hc'
    · rw [hnew hex]
      simp [create, storeBatchState, timesRecorded]
  · rw [Function.update_of_ne hne]
    exact h parent (mem_of_mem_insert_of_ne hp hne) child hc'

theorem Counted.link (h : Counted f) (id : String) : Counted (f.linkBatchToParent id) := by
  rcases linkBatchToParent_cases f id with heq | heq | ⟨parent, hmem, -, -, heq⟩
  · rw [heq]
    exact h
  · rw [heq]
    exact fun p hp => h p (mem_of_mem_erase hp)
  · rw [heq]
    intro p hp child hc
    rw [ids_call] at hp
    rw [jobIDs_call] at hc
    have hbefore := h p hp child hc
    change timesRecorded ((f.call parent (.addChild id)).ledger p) child +
      (if child ∈ ((f.call parent (.addChild id)).batch p).jobs then 1 else 0) ≤
        ((parent, id) :: f.links).count (p, child)
    rw [List.count_cons]
    rcases ledger_call_cases parent (.addChild id) hp with hled | ⟨rfl, hled⟩
    · rw [batch, hled]
      exact hbefore.trans (Nat.le_add_right _ _)
    · rw [batch, hled]
      by_cases hchild : child = id
      · subst hchild
        have hrec : timesRecorded ((f.ledger p).step (.addChild child)) child =
            timesRecorded (f.ledger p) child := rfl
        have hlink : ((p, child) == (p, child)) = true := by simp
        rw [hrec, if_pos hlink]
        split <;> omega
      · have hstep := timesRecorded_step (f.ledger p) (.addChild id) child
          (by simpa [Call.added] using hchild)
        exact (hstep.trans hbefore).trans (Nat.le_add_right _ _)

theorem Counted.step {e : Event} (h : Counted f) (hn : Names f)
    (hp : f.Permits e) : Counted (f.step e) := by
  cases e with
  | store r callbackQueue => exact h.store r callbackQueue
  | link id => exact h.link id
  | act a =>
    -- with more job IDs there is less to show
    have hbefore : Counted (f.before a) := fun p hp c hc =>
      h p hp c fun hmem => hc (mem_union_left _ hmem)
    cases hmade : f.made a with
    | none => simpa [Forest.step, hmade] using h
    | some m =>
      rw [step_act hmade]
      exact hbefore.call m.1 m.2 fun hid => hn.added hp hmade hid

/-! ### Termination -/

def potential (f : Forest) : ℕ := ∑ id ∈ f.ids, (f.batch id).jobs.card + f.inFlight.length

def supply : Event → ℕ
  | .store .. => 0
  | .link _ => 1
  | .act (.flush _ jobs) => jobs.length
  | .act (.addJobs _ jobs) => jobs.length
  | .act (.deliver ..) => 0
  | .act _ => 1

def delivers : List Event → ℕ
  | [] => 0
  | .act (.deliver ..) :: es => delivers es + 1
  | _ :: es => delivers es

def supplied (es : List Event) : ℕ := (es.map supply).sum

theorem potential_call {id : String} (h : id ∈ f.ids) :
    potential (f.call id c) + (f.batch id).jobs.card =
      potential f + (c.apply (f.batch id)).jobs.card + (c.signal id (f.batch id)).toList.length := by
  have hrest : ∑ x ∈ f.ids.erase id, ((f.call id c).batch x).jobs.card =
      ∑ x ∈ f.ids.erase id, (f.batch x).jobs.card := by
    refine sum_congr rfl fun x hx => ?_
    rw [batch, ledger_call_of_ne (ne_of_mem_erase hx)]
  have hself : ((f.call id c).batch id).jobs.card = (c.apply (f.batch id)).jobs.card := by
    rw [batch, ledger_call_self h]
    rfl
  have hlen : (f.call id c).inFlight.length =
      f.inFlight.length + (c.signal id (f.batch id)).toList.length := by
    rw [call_of_mem h, List.length_append]
  unfold potential
  rw [ids_call, ← add_sum_erase _ _ h, ← add_sum_erase f.ids (fun x => (f.batch x).jobs.card) h,
    hrest, hself, hlen]
  omega

theorem potential_call_le (f : Forest) (id : String) (c : Call) :
    potential (f.call id c) ≤
      potential f + c.added.length + (c.signal id (f.batch id)).toList.length := by
  by_cases h : id ∈ f.ids
  · have hcall := potential_call (c := c) h
    have hcard := card_le_card (Call.jobs_apply_subset (f.batch id) c)
    have hunion := card_union_le (f.batch id).jobs c.added.toFinset
    have hadded := List.toFinset_card_le c.added
    omega
  · rw [call_of_notMem h]
    omega

theorem potential_call_le_one (f : Forest) (id : String) (hadd : c.added = []) :
    potential (f.call id c) ≤ potential f + 1 := by
  have hle := potential_call_le f id c
  have hone : (c.signal id (f.batch id)).toList.length ≤ 1 := by
    cases c.signal id (f.batch id) <;> simp
  rw [hadd, List.length_nil] at hle
  omega

theorem accepts_of_signal {batchID jobID : String} {result : Result} {now : String} {b : Batch}
    {t : Signal} (h : (Call.complete jobID result now).signal batchID b = some t) :
    Accepts jobID result b := by
  by_contra hacc
  obtain ⟨reply, heq, hne⟩ := batchComplete_of_not_accepts now hacc
  rw [Call.signal, heq] at h
  cases reply with
  | recorded r => exact hne r rfl
  | _ => simp [refuse, CompleteReply.signal] at h

/-- **A propagation's call lowers the potential.** It goes on only if the call
recorded the child, which then is a member no more. -/
theorem potential_deliver {i : ℕ} (now : String) (hr : Removing f)
    (hi : i < f.inFlight.length) :
    potential (f.step (.act (.deliver i now))) + 1 ≤ potential f := by
  have hmem := List.getElem_mem hi
  have hmade : f.made (.deliver i now) = some (f.inFlight[i].parent,
      .complete f.inFlight[i].child f.inFlight[i].result now) := by
    simp [made, List.getElem?_eq_getElem hi]
  rw [step_act hmade]
  generalize f.inFlight[i] = s at *
  have hremoves : s.result.removes = true := hr s hmem
  have herase : potential (f.before (.deliver i now)) + 1 = potential f := by
    have hlen := List.length_eraseIdx_add_one hi
    change ∑ x ∈ f.ids, (f.batch x).jobs.card + (f.inFlight.eraseIdx i).length + 1 =
      ∑ x ∈ f.ids, (f.batch x).jobs.card + f.inFlight.length
    omega
  generalize f.before (.deliver i now) = g at *
  cases hsig : (Call.complete s.child s.result now).signal s.parent (g.batch s.parent) with
  | none =>
    have hle := potential_call_le g s.parent (.complete s.child s.result now)
    rw [hsig] at hle
    simp only [Call.added, List.length_nil, Option.toList_none] at hle
    omega
  | some t =>
    by_cases hid : s.parent ∈ g.ids
    · have hcall := potential_call (c := .complete s.child s.result now) hid
      have hacc := accepts_of_signal hsig
      rw [hsig] at hcall
      simp only [Option.toList_some, List.length_singleton] at hcall
      have hcard : ((Call.complete s.child s.result now).apply (g.batch s.parent)).jobs.card + 1 =
          (g.batch s.parent).jobs.card := by
        simp only [Call.apply, batchComplete_of_accepts now hacc, record, batchAfter, hremoves,
          if_true]
        exact card_erase_add_one (hacc.mem hremoves)
      omega
    · rw [call_of_notMem hid]
      omega

theorem potential_store (f : Forest) (r : Request) (callbackQueue : String) :
    potential (f.step (.store r callbackQueue)) = potential f := by
  obtain ⟨-, -, hold, hnew⟩ := storeLedger_spec f r callbackQueue
  change ∑ id ∈ insert r.id f.ids,
      (Function.update f.ledger r.id (f.storeLedger r callbackQueue) id).batch.jobs.card +
    f.inFlight.length = ∑ id ∈ f.ids, (f.batch id).jobs.card + f.inFlight.length
  congr 1
  by_cases hex : r.id ∈ f.ids
  · rw [insert_eq_of_mem hex]
    refine sum_congr rfl fun id _ => ?_
    by_cases hne : id = r.id
    · subst hne
      rw [Function.update_self, (hold hex).1]
    · rw [Function.update_of_ne hne]
  · rw [sum_insert hex, Function.update_self, hnew hex]
    have hrest : ∑ id ∈ f.ids,
        (Function.update f.ledger r.id (create r callbackQueue) id).batch.jobs.card =
        ∑ id ∈ f.ids, (f.batch id).jobs.card := by
      refine sum_congr rfl fun id hid => ?_
      rw [Function.update_of_ne (ne_of_mem_of_not_mem hid hex)]
    rw [hrest]
    simp [create, storeBatchState]

theorem potential_step_le {e : Event} (hr : Removing f) (hp : f.Permits e) :
    delivers [e] + potential (f.step e) ≤ potential f + supply e := by
  -- a completion on its way pays for its delivery, and a member that leaves for a new one
  cases e with
  | store r callbackQueue =>
    change 0 + potential (f.step (.store r callbackQueue)) ≤ potential f + 0
    rw [potential_store]
    omega
  | link id =>
    change 0 + potential (f.linkBatchToParent id) ≤ potential f + 1
    rcases linkBatchToParent_cases f id with heq | heq | ⟨parent, -, -, -, heq⟩
    · rw [heq]
      omega
    · have hle : ∑ x ∈ f.ids.erase id, (f.batch x).jobs.card ≤ ∑ x ∈ f.ids, (f.batch x).jobs.card :=
        sum_le_sum_of_subset (erase_subset _ _)
      rw [heq]
      change 0 + (∑ x ∈ f.ids.erase id, (f.batch x).jobs.card + f.inFlight.length) ≤
        ∑ x ∈ f.ids, (f.batch x).jobs.card + f.inFlight.length + 1
      omega
    · have hle := potential_call_le f parent (.addChild id)
      rw [heq]
      change 0 + potential (f.call parent (.addChild id)) ≤ _
      simp only [Call.added, Call.signal, List.length_singleton, Option.toList_none,
        List.length_nil] at hle
      omega
  | act a =>
    cases a with
    | flush id jobs =>
      have hle := potential_call_le (f.before (.flush id jobs)) id (.enqueueJobs jobs)
      change 0 + potential ((f.before (.flush id jobs)).call id (.enqueueJobs jobs)) ≤
        potential f + jobs.length
      simp only [Call.added, Call.signal, Option.toList_none, List.length_nil] at hle
      change _ ≤ potential f + jobs.length + 0 at hle
      omega
    | addJobs id jobs =>
      have hle := potential_call_le (f.before (.addJobs id jobs)) id (.addJobs jobs)
      change 0 + potential ((f.before (.addJobs id jobs)).call id (.addJobs jobs)) ≤
        potential f + jobs.length
      simp only [Call.added, Call.signal, Option.toList_none, List.length_nil] at hle
      change _ ≤ potential f + jobs.length + 0 at hle
      omega
    | deliver i now =>
      have hle := potential_deliver now hr hp
      change 1 + potential (f.step (.act (.deliver i now))) ≤ potential f + 0
      omega
    | invalidate id =>
      have hle := potential_call_le_one (f.before (.invalidate id)) id (c := .invalidate) rfl
      exact (Nat.zero_add _).le.trans hle
    | complete id jobID result now =>
      have hle := potential_call_le_one (f.before (.complete id jobID result now)) id
        (c := .complete jobID result now) rfl
      exact (Nat.zero_add _).le.trans hle
    | callbackComplete id jobID =>
      have hle := potential_call_le_one (f.before (.callbackComplete id jobID)) id
        (c := .callbackComplete jobID) rfl
      exact (Nat.zero_add _).le.trans hle
    | empty id now =>
      have hle := potential_call_le_one (f.before (.empty id now)) id
        (c := .complete id .emptySuccess now) rfl
      exact (Nat.zero_add _).le.trans hle

theorem delivers_cons (e : Event) (es : List Event) :
    delivers (e :: es) = delivers [e] + delivers es := by
  cases e with
  | act a => cases a <;> simp [delivers, Nat.add_comm]
  | _ => simp [delivers]

theorem delivers_add_potential_le {es : List Event} (hr : Removing f)
    (legal : machine.Legal f es) :
    delivers es + potential (machine.run f es) ≤ potential f + supplied es := by
  induction es generalizing f with
  | nil => simp [delivers, supplied]
  | cons e es ih =>
    have hfirst := potential_step_le hr legal.1
    have hrest := ih (hr.step e) legal.2
    have hsum : supplied (e :: es) = supply e + supplied es := by simp [supplied]
    have hrun : machine.run f (e :: es) = machine.run (f.step e) es := rfl
    rw [delivers_cons, hsum, hrun]
    omega

def deliveries (ds : List (ℕ × String)) : List Event := ds.map fun d => .act (.deliver d.1 d.2)

theorem delivers_deliveries (ds : List (ℕ × String)) :
    delivers (deliveries ds) = ds.length ∧ supplied (deliveries ds) = 0 := by
  induction ds with
  | nil => exact ⟨rfl, rfl⟩
  | cons d ds ih =>
    refine ⟨?_, ?_⟩
    · change delivers (deliveries ds) + 1 = ds.length + 1
      rw [ih.1]
    · change 0 + supplied (deliveries ds) = 0
      rw [ih.2]

/-! ### Whole runs -/

/-- What holds of the forest after a run, whatever was linked when. -/
structure Sound (f : Forest) : Prop where
  names : Names f
  removing : Removing f
  counted : Counted f

theorem Sound.step {e : Event} (h : Sound f) (hp : f.Permits e) : Sound (f.step e) where
  names := h.names.step hp
  removing := h.removing.step e
  counted := h.counted.step h.names hp

theorem sound_init : Sound init where
  names := ⟨Subset.rfl, disjoint_empty_left _, fun _ hx => absurd hx (notMem_empty _),
    fun _ hx => absurd hx (notMem_empty _)⟩
  removing := fun _ hs => absurd hs (List.not_mem_nil)
  counted := fun _ hp => absurd hp (notMem_empty _)

theorem sound_of_legal {es : List Event} (legal : machine.Legal init es) :
    Sound (machine.run init es) :=
  legal.invariant (fun _ _ h hp => h.step hp) sound_init

theorem covered_of_legal {es : List Event} (hs : Sound f) (hcov : Covered f)
    (legal : machine.Legal f es) (hlinks : machine.Throughout (fun f e => ¬ f.LinksAtRest e) f es) :
    Covered (machine.run f es) := by
  have hboth : Sound (machine.run f es) ∧ Covered (machine.run f es) :=
    legal.invariant_throughout (I := fun f => Sound f ∧ Covered f)
      (fun _ _ h he hlink => ⟨h.1.step he, h.2.step h.1.names h.1.removing he hlink⟩) hlinks
      ⟨hs, hcov⟩
  exact hboth.2

/-- **Propagation.** In every run the propagations make a bounded number of calls,
both in the run and when left to themselves after it, and no child is recorded
more often than it was linked. If the run links no batch which is at rest already,
then when no propagation is in progress no parent waits for a finished child. -/
theorem propagation_settles (es : List Event) (legal : machine.Legal init es) :
    delivers es ≤ supplied es ∧
      (∀ ds, machine.Legal (machine.run init es) (deliveries ds) →
        ds.length ≤ potential (machine.run init es)) ∧
      (machine.Throughout (fun f e => ¬ f.LinksAtRest e) init es →
        (machine.run init es).inFlight = [] →
        ∀ parent child, ¬ Waits (machine.run init es) parent child) ∧
      ∀ parent ∈ (machine.run init es).ids, ∀ child ∈ (machine.run init es).batchIDs,
        timesRecorded ((machine.run init es).ledger parent) child ≤
          (machine.run init es).links.count (parent, child) := by
  have hsound := sound_of_legal legal
  refine ⟨?_, ?_, ?_, ?_⟩
  · have hle := delivers_add_potential_le sound_init.removing legal
    have hinit : potential init = 0 := rfl
    omega
  · intro ds hlegal
    have hle := delivers_add_potential_le hsound.removing hlegal
    rw [(delivers_deliveries ds).1, (delivers_deliveries ds).2] at hle
    omega
  · intro hlinks hempty parent child hw
    have hcov := covered_of_legal sound_init
      (fun _ _ hw => absurd hw.1 (notMem_empty _)) legal hlinks
    obtain ⟨s, hs, -⟩ := hcov parent child hw
    rw [hempty] at hs
    exact List.not_mem_nil hs
  · intro parent hp child hc
    have hnot : child ∉ (machine.run init es).jobIDs := fun hmem =>
      disjoint_left.mp hsound.names.disjoint hmem hc
    exact (Nat.le_add_right _ _).trans (hsound.counted parent hp child hnot)

def bare (id parentID : String) : Request where
  id := id
  parentID := parentID
  jobs := []
  nodup := List.nodup_nil
  onComplete := none
  onSuccess := none
  onDeath := none

/-- Batch `a` is stored, `b` below it, and `a` again, now below `b`. A child of
`a` completes, its completion goes up as far as a pending job of `b`, and from
there back to `b` when the job is done. -/
def cyclicRun : List Event :=
  [.store (bare "a" "") "", .store (bare "b" "a") "", .link "b", .store (bare "a" "b") "",
    .link "a", .act (.addJobs "b" ["j"]), .store (bare "c" "a") "", .link "c",
    .act (.empty "c" "t"), .act (.deliver 0 "t"), .act (.deliver 0 "t"),
    .act (.complete "b" "j" .success "t"), .act (.deliver 0 "t"), .act (.deliver 0 "t")]

theorem propagation_settles_cyclicRun :
    machine.Legal init cyclicRun ∧ delivers cyclicRun ≤ supplied cyclicRun ∧
      ∀ parent child, ¬ Waits (machine.run init cyclicRun) parent child := by
  have hlegal : machine.Legal init cyclicRun := by decide
  obtain ⟨hcalls, -, hwaits, -⟩ := propagation_settles cyclicRun hlegal
  exact ⟨hlegal, hcalls, hwaits (by decide) (by decide)⟩

/-- An empty batch `c` is stored; before it is linked to `p`, a batch `d` is
enqueued below it and completes. -/
def racyRun : List Event :=
  [.store { bare "p" "" with jobs := ["j"], nodup := List.nodup_singleton "j" } "",
    .act (.flush "p" ["j"]), .store (bare "c" "p") "",
    .store (bare "d" "c") "", .link "d", .act (.empty "d" "t"), .act (.deliver 0 "t"),
    .act (.deliver 0 "t"),
    .link "c", .act (.empty "c" "t")]

theorem waits_after_racyRun :
    machine.Legal init racyRun ∧ (machine.run init racyRun).inFlight = [] ∧
      Waits (machine.run init racyRun) "p" "c" := by
  decide

end Forest

end Batch

end Senna
