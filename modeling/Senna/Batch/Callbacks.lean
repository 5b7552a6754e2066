import Senna.Batch.Accounting

/-!
# When callbacks and completion signals fire

A run of a batch without rollbacks, seen from its callers: which calls push an
`on_complete`, `on_success` or `on_death` job, and which replies tell the caller
to propagate to the parent.

The argument is in what one call does to `complete_fired` and `death_fired`. A
completion that leaves nothing pending finds `complete_fired` unset, because a
batch with a member has not fired (`Accounting.not_fired`), and sets it. Only a
`batch_add_child` that adds its child unsets it. So two such completions have a
reopening between them (`Machine.exists_change`). `death_fired` is never unset,
which bounds the death callbacks of a whole run by one.

A reply carries the signal exactly when its call makes the batch quiescent:
before the call there was a member, an unfinished callback or no fired flag.
-/

namespace Senna

namespace Batch

def Quiescent (b : Batch) : Prop :=
  b.progress.pending = 0 ∧ b.progress.callbacksPending = 0 ∧ b.progress.completeFired = true

instance (b : Batch) : Decidable (Quiescent b) := by
  unfold Quiescent
  infer_instance

/-- A completion, other than a failure, that the guards let through and that leaves nothing
pending. -/
def Call.Finishes (b : Batch) : Call → Prop
  | .complete jobID result _ =>
    result ≠ .failure ∧ Accepts jobID result b ∧ pendingAfter result b = 0
  | _ => False

def Call.enqueued (t : CallbackType) (b : Batch) (c : Call) : ℕ :=
  (c.callbackJobs b).countP (·.callbackType = t)

def pushed (l : Ledger) : List Call → List CallbackJob
  | [] => []
  | c :: cs => c.callbackJobs l.batch ++ pushed (l.step c) cs

/-! ### The callback jobs of one call -/

theorem countP_makeCallbackJobs (t : CallbackType) (b : Batch) (now : String) (seq : ℤ)
    (cs : List (CallbackType × CallbackInfo)) :
    (makeCallbackJobs b now seq cs).countP (·.callbackType = t) = cs.countP (·.1 = t) := by
  induction cs generalizing seq with
  | nil => rfl
  | cons c cs ih =>
    simp only [makeCallbackJobs, List.countP_cons, ih]
    rfl

variable {result : Result} {jobID : String}

theorem enqueued_complete_call {t : CallbackType} {b : Batch}
    {now : String} (h : Accepts jobID result b) :
    (Call.complete jobID result now).enqueued t b = (callbackList result b).countP (·.1 = t) := by
  simp only [Call.enqueued, Call.callbackJobs, batchComplete_of_accepts now h, record]
  exact countP_makeCallbackJobs t b now _ _

theorem enqueued_refused {t : CallbackType} {b : Batch}
    {now : String} (h : ¬ Accepts jobID result b) :
    (Call.complete jobID result now).enqueued t b = 0 := by
  obtain ⟨reply, heq, -⟩ := batchComplete_of_not_accepts now h
  simp [Call.enqueued, Call.callbackJobs, heq, refuse]

theorem countP_part (t t' : CallbackType) (fires : Bool) (config : Option CallbackInfo) :
    (if fires then config.toList.map (t', ·) else []).countP (·.1 = t) =
      if t' = t ∧ fires = true ∧ config.isSome = true then 1 else 0 := by
  cases fires <;> cases config <;> by_cases h : t' = t <;> simp [h]

theorem countP_complete_callbackList (result : Result) (b : Batch) :
    (callbackList result b).countP (·.1 = .complete) =
      if firesComplete result b = true ∧ b.state.onComplete.isSome = true then 1 else 0 := by
  rw [callbackList, List.countP_append, List.countP_append, countP_part, countP_part, countP_part]
  simp

theorem countP_death_callbackList (result : Result) (b : Batch) :
    (callbackList result b).countP (·.1 = .death) =
      if firesDeath result b = true then 1 else 0 := by
  have hconf : firesDeath result b = true → b.state.onDeath.isSome = true := by
    simp only [firesDeath, Bool.and_eq_true]
    exact fun h => h.2
  rw [callbackList, List.countP_append, List.countP_append, countP_part, countP_part, countP_part]
  by_cases hd : firesDeath result b = true
  · simp [hd, hconf hd]
  · simp [hd]

/-! ### What one call does to the fired flags -/

section Step

variable {l : Ledger} {c : Call}

theorem Accepts.firesComplete_iff (h : Accounting l) (hacc : Accepts jobID result l.batch) :
    firesComplete result l.batch = true ↔
      result ≠ .failure ∧ pendingAfter result l.batch = 0 := by
  have hzero : firesComplete result l.batch = true ↔
      pendingAfter result l.batch = 0 ∧ l.batch.progress.completeFired = false := by
    simp [firesComplete]
  rw [hzero]
  by_cases he : result = .emptySuccess
  · subst he
    obtain ⟨-, hf⟩ := accepts_emptySuccess.mp hacc
    simp [hf]
  · have hm := (accepts_member he).mp hacc
    have hf := h.not_fired hm
    constructor
    · rintro ⟨hp, -⟩
      refine ⟨?_, hp⟩
      rintro rfl
      have hpos := h.pending_pos hm
      rw [h.pendingAfter_eq hacc] at hp
      simp only [pendingUnclamped, Result.removes] at hp
      simp at hp
      omega
    · rintro ⟨-, hp⟩
      exact ⟨hp, hf⟩

theorem finishes_complete_iff (h : Accounting l) {now : String} :
    (Call.complete jobID result now).Finishes l.batch ↔
      Accepts jobID result l.batch ∧ firesComplete result l.batch = true := by
  rw [Call.Finishes, and_left_comm]
  exact and_congr_right fun hacc => (hacc.firesComplete_iff h).symm

theorem Call.Finishes.not_fired (h : Accounting l) (hc : c.Finishes l.batch) :
    l.batch.progress.completeFired = false := by
  cases c with
  | complete jobID result now =>
    have hfires := ((finishes_complete_iff h).mp hc).2
    simp only [firesComplete, Bool.and_eq_true] at hfires
    simpa using hfires.2
  | _ => exact absurd hc (by simp [Call.Finishes])

theorem Call.Finishes.fired (h : Accounting l) (hc : c.Finishes l.batch) :
    (l.step c).batch.progress.completeFired = true := by
  cases c with
  | complete jobID result now =>
    obtain ⟨hacc, hfires⟩ := (finishes_complete_iff h).mp hc
    rw [Ledger.step_complete now hacc]
    simp [batchAfter, progressAfter, hfires]
  | _ => exact absurd hc (by simp [Call.Finishes])

theorem enqueued_complete (h : Accounting l) [Decidable (c.Finishes l.batch)] :
    c.enqueued .complete l.batch =
      if c.Finishes l.batch ∧ l.batch.state.onComplete.isSome = true then 1 else 0 := by
  cases c with
  | complete jobID result now =>
    by_cases hacc : Accepts jobID result l.batch
    · rw [enqueued_complete_call hacc, countP_complete_callbackList]
      simp [finishes_complete_iff h, hacc]
    · rw [enqueued_refused hacc]
      simp [finishes_complete_iff h, hacc]
  | _ => simp [Call.enqueued, Call.callbackJobs, Call.Finishes]

theorem reopened (hf : l.batch.progress.completeFired = true)
    (hf' : ¬ (l.step c).batch.progress.completeFired = true) :
    ∃ childID, c = .addChild childID ∧ (batchAddChild childID l.batch).1 = .success := by
  cases c with
  | addChild childID =>
    refine ⟨childID, rfl, ?_⟩
    by_contra hne
    apply hf'
    simp only [batchAddChild] at hne
    change (batchAddChild childID l.batch).2.progress.completeFired = true
    unfold batchAddChild
    split_ifs at hne ⊢ <;> simp_all
  | complete jobID result now =>
    by_cases hacc : Accepts jobID result l.batch
    · rw [Ledger.step_complete now hacc] at hf'
      simp [batchAfter, progressAfter, hf] at hf'
    · rw [Ledger.step_refused now hacc] at hf'
      exact absurd hf hf'
  | enqueueJobs ids | invalidate => exact absurd hf hf'
  | addJobs ids =>
    simp only [Ledger.step, Call.apply, batchAddJobs] at hf'
    split_ifs at hf' <;> exact absurd hf hf'
  | removeChild childID =>
    simp only [Ledger.step, Call.apply, batchRemoveChild] at hf'
    split_ifs at hf' <;> simp [hf] at hf'
  | callbackComplete jobID =>
    simp only [Ledger.step, Call.apply, batchCallbackComplete] at hf'
    split_ifs at hf' <;> exact absurd hf hf'

theorem enqueued_death (b : Batch) (c : Call) :
    c.enqueued .death b = 0 ∨ c.enqueued .death b = 1 ∧ ∃ jobID now,
      c = .complete jobID .death now ∧ jobID ∈ b.jobs ∧ b.progress.invalidated = false ∧
        b.progress.deathFired = false ∧ (c.apply b).progress.deathFired = true := by
  cases c with
  | complete jobID result now =>
    by_cases hacc : Accepts jobID result b
    · rw [enqueued_complete_call hacc, countP_death_callbackList]
      by_cases hd : firesDeath result b = true
      · right
        have hparts := hd
        simp only [firesDeath, addDeadBatch, Bool.and_eq_true, decide_eq_true_eq,
          Bool.not_eq_eq_eq_not, Bool.not_true] at hparts
        obtain ⟨⟨⟨rfl, hinv⟩, hfired⟩, -⟩ := hparts
        refine ⟨by simp [hd], jobID, now, rfl, hacc.mem rfl, hinv, hfired, ?_⟩
        simp [Call.apply, batchComplete_of_accepts now hacc, record, batchAfter, progressAfter, hd]
      · left
        simp [hd]
    · left
      exact enqueued_refused hacc
  | _ => left; rfl

theorem deathFired_step (hf : l.batch.progress.deathFired = true) :
    (l.step c).batch.progress.deathFired = true := by
  cases c with
  | complete jobID result now =>
    by_cases hacc : Accepts jobID result l.batch
    · rw [Ledger.step_complete now hacc]
      simp [batchAfter, progressAfter, hf]
    · rw [Ledger.step_refused now hacc]
      exact hf
  | addChild childID =>
    simp only [Ledger.step, Call.apply, batchAddChild]
    split_ifs <;> exact hf
  | addJobs ids =>
    simp only [Ledger.step, Call.apply, batchAddJobs]
    split_ifs <;> exact hf
  | removeChild childID =>
    simp only [Ledger.step, Call.apply, batchRemoveChild]
    split_ifs <;> exact hf
  | callbackComplete jobID =>
    simp only [Ledger.step, Call.apply, batchCallbackComplete]
    split_ifs <;> exact hf
  | enqueueJobs ids => exact hf
  | invalidate => exact hf

theorem signals_iff_of_silent (hsilent : c.signals l.batch = false)
    (hafter : Quiescent (l.step c).batch → Quiescent l.batch) :
    c.signals l.batch = true ↔ ¬ Quiescent l.batch ∧ Quiescent (l.step c).batch := by
  rw [hsilent]
  simp only [Bool.false_eq_true, false_iff]
  exact fun hq => hq.1 (hafter hq.2)

theorem signals_complete_iff (h : Accounting l) (jobID : String) (result : Result)
    (now : String) :
    (Call.complete jobID result now).signals l.batch = true ↔
      ¬ Quiescent l.batch ∧ Quiescent (l.step (.complete jobID result now)).batch := by
  by_cases hacc : Accepts jobID result l.batch
  · -- Before the call there is a member, or completion has not fired.
    have hbefore : ¬ Quiescent l.batch := by
      rintro ⟨hp, -, hf⟩
      by_cases he : result = .emptySuccess
      · subst he
        simp [(accepts_emptySuccess.mp hacc).2] at hf
      · have := h.pending_pos ((accepts_member he).mp hacc)
        omega
    -- So the reply signals exactly if the counters it writes are those of a batch at rest. It is
    -- computed from the clamped number, which is the stored one while the books balance.
    have hpend : (progressAfter jobID result l.batch).pending = pendingAfter result l.batch := by
      rw [h.pending_progressAfter hacc, h.pendingAfter_eq hacc, pendingUnclamped]
      split <;> simp
    rw [Ledger.step_complete now hacc, and_iff_right hbefore]
    simp only [Call.signals, batchComplete_of_accepts now hacc, record, completeResult,
      completedNow, Quiescent, batchAfter, hpend]
    simp [progressAfter, and_assoc]
  · -- A refused result changes nothing and does not signal.
    obtain ⟨reply, heq, hne⟩ := batchComplete_of_not_accepts now hacc
    refine signals_iff_of_silent ?_ fun hq => Ledger.step_refused now hacc ▸ hq
    cases reply with
    | recorded r => exact absurd rfl (hne r)
    | _ => simp [Call.signals, heq, refuse]

/-- **Signals.** A reply tells its caller to propagate exactly when the call
brings the batch to rest. -/
theorem signals_iff (h : Accounting l) (hc : ∀ childID, c ≠ .removeChild childID) :
    c.signals l.batch = true ↔ ¬ Quiescent l.batch ∧ Quiescent (l.step c).batch := by
  cases c with
  | complete jobID result now => exact signals_complete_iff h jobID result now
  | callbackComplete jobID =>
    by_cases hm : jobID ∈ l.batch.callbacks
    · -- Before the call this callback is unfinished, and its number is not clamped.
      have hpos := h.callbacksPending_pos hm
      have hbefore : ¬ Quiescent l.batch := by
        rintro ⟨-, hcb, -⟩
        omega
      have hclamp : ¬ l.batch.progress.callbacksPending - 1 < 0 := by omega
      rw [and_iff_right hbefore]
      simp [Call.signals, Ledger.step, Call.apply, batchCallbackComplete, hm, Quiescent, hclamp,
        and_assoc]
    · simp [Call.signals, Ledger.step, Call.apply, batchCallbackComplete, hm]
  | addChild childID =>
    -- A child that is counted takes the completion back.
    refine signals_iff_of_silent rfl ?_
    simp only [Ledger.step, Call.apply, batchAddChild]
    split_ifs
    · exact id
    · exact id
    · rintro ⟨-, -, hf⟩
      simp at hf
  | addJobs ids =>
    -- Jobs are added only before completion has fired.
    refine signals_iff_of_silent rfl ?_
    simp only [Ledger.step, Call.apply, batchAddJobs]
    split_ifs with hi hf
    · exact id
    · exact id
    · rintro ⟨-, -, hf'⟩
      exact absurd hf' hf
  | removeChild childID => exact absurd rfl (hc childID)
  | enqueueJobs ids | invalidate => exact signals_iff_of_silent rfl id

theorem fired_of_pending_zero_step (h : Accounting l)
    (hi : l.batch.progress.pending = 0 → l.batch.progress.completeFired = true)
    (hz : (l.step c).batch.progress.pending = 0) :
    (l.step c).batch.progress.completeFired = true := by
  cases c with
  | complete jobID result now =>
    by_cases hacc : Accepts jobID result l.batch
    · rw [Ledger.step_complete now hacc] at hz ⊢
      change (progressAfter jobID result l.batch).pending = 0 at hz
      change (l.batch.progress.completeFired || firesComplete result l.batch) = true
      rw [h.pending_progressAfter hacc] at hz
      have hafter : pendingAfter result l.batch = 0 := by
        rw [h.pendingAfter_eq hacc, pendingUnclamped]
        split <;> simp_all
      cases hf : l.batch.progress.completeFired <;> simp [firesComplete, hafter, hf]
    · rw [Ledger.step_refused now hacc] at hz ⊢
      exact hi hz
  | callbackComplete jobID =>
    simp only [Ledger.step, Call.apply, batchCallbackComplete] at hz ⊢
    split_ifs at hz ⊢ <;> exact hi hz
  | addChild childID =>
    have := h.pending_nonneg
    simp only [Ledger.step, Call.apply, batchAddChild] at hz ⊢
    split_ifs at hz ⊢
    · exact hi hz
    · exact hi hz
    · dsimp only at hz
      omega
  | addJobs ids =>
    have := h.pending_nonneg
    simp only [Ledger.step, Call.apply, batchAddJobs] at hz ⊢
    split_ifs at hz ⊢
    · exact hi hz
    · exact hi hz
    · dsimp only at hz
      exact hi (by omega)
  | removeChild childID =>
    simp only [Ledger.step, Call.apply, batchRemoveChild] at hz ⊢
    split_ifs at hz ⊢ <;> simp_all
  | enqueueJobs ids | invalidate => exact hi hz

end Step

/-! ### Whole runs -/

theorem countP_death_pushed (l : Ledger) (cs : List Call) :
    (pushed l cs).countP (·.callbackType = .death) ≤
      if l.batch.progress.deathFired = true then 0 else 1 := by
  -- induction on the run; the flag carries the count over the first call
  induction cs generalizing l with
  | nil => simp [pushed]
  | cons c cs ih =>
    have hrest := ih (l.step c)
    have hsum : (pushed l (c :: cs)).countP (·.callbackType = .death) =
        c.enqueued .death l.batch +
          (pushed (l.step c) cs).countP (·.callbackType = .death) := by
      simp [pushed, Call.enqueued]
    rw [hsum]
    rcases enqueued_death l.batch c with hzero | ⟨hone, jobID, now, rfl, -, -, hunset, hset⟩
    · rw [hzero]
      by_cases hf : l.batch.progress.deathFired = true
      · rw [if_pos (deathFired_step hf)] at hrest
        rw [if_pos hf]
        omega
      · rw [if_neg hf]
        split at hrest <;> omega
    · have hset' : (l.step (.complete jobID .death now)).batch.progress.deathFired = true := hset
      rw [if_pos hset'] at hrest
      rw [if_neg (by simp [hunset])]
      omega

/-- What a caller may rely on over a run from `start`. The batch in which a call
is made is the one the calls before it have left. -/
structure CallbackDiscipline (start : Ledger) (cs : List Call) : Prop where
  /-- A completion that leaves nothing pending pushes `on_complete` once, if it
  is configured. -/
  complete_once : ∀ pre c post, cs = pre ++ c :: post →
    c.Finishes (machine.run start pre).batch →
    (machine.run start pre).batch.state.onComplete.isSome = true →
    c.enqueued .complete (machine.run start pre).batch = 1
  /-- No other call pushes it. -/
  complete_only : ∀ pre c post, cs = pre ++ c :: post →
    ¬ (c.Finishes (machine.run start pre).batch ∧
      (machine.run start pre).batch.state.onComplete.isSome = true) →
    c.enqueued .complete (machine.run start pre).batch = 0
  /-- Between two such completions a child has reopened the completed batch. -/
  separated : ∀ pre c mid c' post, cs = pre ++ c :: mid ++ c' :: post →
    c.Finishes (machine.run start pre).batch →
    c'.Finishes (machine.run start (pre ++ c :: mid)).batch →
    ∃ mid₁ childID mid₂, mid = mid₁ ++ .addChild childID :: mid₂ ∧
      (machine.run start (pre ++ c :: mid₁)).batch.progress.completeFired = true ∧
      (batchAddChild childID (machine.run start (pre ++ c :: mid₁)).batch).1 = .success
  /-- From the first such completion on, a batch with nothing pending has fired. -/
  fired : ∀ pre c mid post, cs = pre ++ c :: mid ++ post →
    c.Finishes (machine.run start pre).batch →
    (machine.run start (pre ++ c :: mid)).batch.progress.pending = 0 →
    (machine.run start (pre ++ c :: mid)).batch.progress.completeFired = true
  /-- Over the whole run one death callback at most is pushed. -/
  death_once : (pushed start cs).countP (·.callbackType = .death) ≤ 1
  /-- A death callback comes with the death of a member of a batch that is not
  invalidated. -/
  death_only : ∀ pre c post, cs = pre ++ c :: post →
    c.enqueued .death (machine.run start pre).batch ≠ 0 →
    ∃ jobID now, c = .complete jobID .death now ∧
      jobID ∈ (machine.run start pre).batch.jobs ∧
      (machine.run start pre).batch.progress.invalidated = false
  /-- The replies that signal are those of the calls that bring the batch to
  rest. -/
  signals : ∀ pre c post, cs = pre ++ c :: post →
    (c.signals (machine.run start pre).batch = true ↔
      ¬ Quiescent (machine.run start pre).batch ∧
        Quiescent (c.apply (machine.run start pre).batch))

theorem exists_reopening {l : Ledger} {c c' : Call} {mid : List Call} (h : Accounting l)
    (hmid : Accounting (machine.run (l.step c) mid)) (hc : c.Finishes l.batch)
    (hc' : c'.Finishes (machine.run (l.step c) mid).batch) :
    ∃ mid₁ childID mid₂, mid = mid₁ ++ .addChild childID :: mid₂ ∧
      (machine.run (l.step c) mid₁).batch.progress.completeFired = true ∧
      (batchAddChild childID (machine.run (l.step c) mid₁).batch).1 = .success := by
  have hset := hc.fired h
  have hunset := hc'.not_fired hmid
  have hend : ¬ (machine.run (l.step c) mid).batch.progress.completeFired = true := by
    simp [hunset]
  obtain ⟨mid₁, d, mid₂, rfl, hbefore, hafter⟩ := Machine.exists_change
    (P := fun l : Ledger => ¬ l.batch.progress.completeFired = true) (not_not.mpr hset) hend
  have hfired := not_not.mp hbefore
  obtain ⟨childID, rfl, hsuccess⟩ := reopened hfired hafter
  exact ⟨mid₁, childID, mid₂, rfl, hfired, hsuccess⟩

/-- **Callbacks and signals.** Every run of a batch without rollbacks keeps the
discipline. -/
theorem callbackDiscipline_of_legal (r : Request) (callbackQueue : String) (cs : List Call)
    (legal : machine.Legal (create r callbackQueue) cs)
    (hrollback : ∀ childID, .removeChild childID ∉ cs) :
    CallbackDiscipline (create r callbackQueue) cs := by
  -- the books are balanced wherever a call of the run is made
  have hacc : ∀ pre post, cs = pre ++ post →
      Accounting (machine.run (create r callbackQueue) pre) := by
    rintro pre post rfl
    rw [Machine.legal_append] at legal
    exact .of_legal r callbackQueue legal.1
  constructor
  case complete_once =>
    classical
    intro pre c post hcs hc hconf
    rw [enqueued_complete (hacc pre _ hcs), if_pos ⟨hc, hconf⟩]
  case complete_only =>
    classical
    intro pre c post hcs hc
    rw [enqueued_complete (hacc pre _ hcs), if_neg hc]
  case separated =>
    intro pre c mid c' post hcs hc hc'
    have hpre := hacc pre (c :: mid ++ c' :: post) (by simpa using hcs)
    have hmid := hacc (pre ++ c :: mid) (c' :: post) hcs
    rw [Machine.run_append, Machine.run_cons] at hmid hc'
    obtain ⟨mid₁, childID, mid₂, rfl, hfired, hsuccess⟩ := exists_reopening hpre hmid hc hc'
    refine ⟨mid₁, childID, mid₂, rfl, ?_⟩
    rw [Machine.run_append, Machine.run_cons]
    exact ⟨hfired, hsuccess⟩
  case fired =>
    intro pre c mid post hcs hc hzero
    have hpre := hacc pre (c :: mid ++ post) (by simpa using hcs)
    have hlegal : machine.Legal (machine.run (create r callbackQueue) pre) (c :: mid) := by
      rw [hcs, Machine.legal_append, Machine.legal_append] at legal
      exact legal.1.2
    rw [Machine.run_append, Machine.run_cons] at hzero ⊢
    -- the implication holds right after `c` and every later call keeps it
    refine hlegal.2.invariant₂ (J := Accounting)
      (I := fun l => l.batch.progress.pending = 0 → l.batch.progress.completeFired = true)
      (fun _ _ h hp => h.step hp) (fun _ _ h hi _ => fired_of_pending_zero_step h hi)
      (hpre.step hlegal.1) ?_ hzero
    exact fun _ => hc.fired hpre
  case death_once =>
    have hle := countP_death_pushed (create r callbackQueue) cs
    split at hle <;> omega
  case death_only =>
    intro pre c post _ hne
    rcases enqueued_death (machine.run (create r callbackQueue) pre).batch c with
      hzero | ⟨-, jobID, now, hc, hmem, hinv, -⟩
    · exact absurd hzero hne
    · exact ⟨jobID, now, hc, hmem, hinv⟩
  case signals =>
    intro pre c post hcs
    refine signals_iff (hacc pre _ hcs) ?_
    rintro childID rfl
    exact hrollback childID (by simp [hcs])

/-- The two jobs die and succeed, their callbacks finish, and a child reopens
the batch and completes it again. -/
def reopenedRun : List Call :=
  [.enqueueJobs ["j1", "j2"], .complete "j1" .death "t1", .callbackComplete "b:callback:1",
    .complete "j2" .success "t2", .callbackComplete "b:callback:2",
    .callbackComplete "b:callback:2", .addChild "c", .complete "c" .success "t3",
    .callbackComplete "b:callback:3", .invalidate]

theorem callbackDiscipline_reopenedRun :
    machine.Legal (create twoJobs "default") reopenedRun ∧
      (∀ childID, .removeChild childID ∉ reopenedRun) ∧
      CallbackDiscipline (create twoJobs "default") reopenedRun :=
  ⟨by decide, by simp [reopenedRun],
    callbackDiscipline_of_legal twoJobs "default" reopenedRun (by decide)
      (by simp [reopenedRun])⟩

end Batch

end Senna
