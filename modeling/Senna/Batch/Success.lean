import Mathlib.Data.Fintype.EquivFin
import Senna.Batch.Propagation

/-!
# What `on_success` tells about the batches below

When `batch_complete` enqueues the `on_success` job of a batch, every member
ever recorded in it was recorded as success. For a member that is a batch this
says that its completion signal was a success, and the signal was returned when
that batch in turn was at rest with neither the dead nor the invalidated flag
set. So the same holds one level down, as of that moment, and so on: `CleanAt`.

The moments matter. A batch that has completed, and has been recorded in its
parent, may be reopened by a new child; what is recorded below it afterwards
does not reach the parent any more. `hidden_death` is such a run.

Within one batch the argument is the invariant `Honest`: as long as neither flag
is set, what has been recorded as finished has been recorded as success, because
each other result sets a flag. Over many batches it is an induction on the run,
carrying for every success on its way to a parent, and for every success recorded
there, the prefix of the run that ended with its signal (`Evidence`).

Here every batch is stored under an ID that is free (`Fresh`). Jobs may be added
under any IDs: a job that is added twice is counted twice, so that more may be
pending than there are members, but not less (`Tally`).
-/

namespace Senna

namespace Batch

open Finset

/-! ### One batch -/

/-- The flags do not hide a result that is not a success, and a member that has
only failed so far is still there. -/
structure Honest (l : Ledger) : Prop where
  flags : l.batch.progress.dead = false → l.batch.progress.invalidated = false →
    ∀ e ∈ l.recorded, e.2.removes = true → e.2 = .success
  kept : ∀ e ∈ l.recorded, e.2 ≠ .emptySuccess →
    e.1 ∈ l.batch.jobs ∨ ∃ r, r.removes = true ∧ (e.1, r) ∈ l.recorded

theorem Honest.complete {l : Ledger} (h : Honest l) {jobID : String} {result : Result}
    {now : String} (hacc : Accepts jobID result l.batch) :
    Honest (l.step (.complete jobID result now)) := by
  rw [Ledger.step_complete now hacc]
  constructor
  case flags =>
    intro hd hi e he hr
    have hd' : l.batch.progress.dead = false ∧ addDeadBatch result l.batch = false := by
      simpa [batchAfter, progressAfter, deadAfter] using hd
    have hi' : l.batch.progress.invalidated = false ∧ result ≠ .invalidated := by
      simpa [batchAfter, progressAfter, invalidatedAfter] using hi
    rcases List.mem_cons.mp he with rfl | hold
    · -- a death or an invalidation would have set its flag
      have hdeath : result ≠ .death := by
        rintro rfl
        simp [addDeadBatch, hi'.1] at hd'
      rcases (removes_iff result).mp hr with rfl | rfl | rfl
      · rfl
      · exact absurd rfl hdeath
      · exact absurd rfl hi'.2
    · exact h.flags hd'.1 hi'.1 e hold hr
  case kept =>
    intro e he hne
    by_cases hgone : e.1 = jobID ∧ result.removes = true
    · exact .inr ⟨result, hgone.2, by simp [hgone.1]⟩
    · have hstay : ∀ {x}, x ∈ l.batch.jobs → (x = jobID → result.removes = false) →
          x ∈ (batchAfter jobID result l.batch now).jobs := by
        intro x hx hkeep
        simp only [batchAfter]
        split
        · next hr =>
          refine mem_erase.mpr ⟨?_, hx⟩
          rintro rfl
          simp [hkeep rfl] at hr
        · exact hx
      have hkeep : e.1 = jobID → result.removes = false := fun heq => by
        simpa [heq] using hgone
      rcases List.mem_cons.mp he with rfl | hold
      · exact .inl (hstay ((accepts_member hne).mp hacc) hkeep)
      · rcases h.kept e hold hne with hmem | ⟨r, hr, hrec⟩
        · exact .inl (hstay hmem hkeep)
        · exact .inr ⟨r, hr, List.mem_cons_of_mem _ hrec⟩

theorem Honest.of_grows {l : Ledger} (h : Honest l) {c : Call}
    (hrec : (l.step c).recorded = l.recorded)
    (hdead : (c.apply l.batch).progress.dead = l.batch.progress.dead)
    (hinv : l.batch.progress.invalidated = true → (c.apply l.batch).progress.invalidated = true)
    (hjobs : l.batch.jobs ⊆ (c.apply l.batch).jobs) : Honest (l.step c) where
  flags := by
    intro hd hi
    have hd' : l.batch.progress.dead = false := hdead ▸ hd
    have hi' : l.batch.progress.invalidated = false := by
      by_contra hne
      have := hinv (by simpa using hne)
      rw [show (l.step c).batch = c.apply l.batch from rfl, this] at hi
      exact absurd hi (by simp)
    rw [hrec]
    exact h.flags hd' hi'
  kept := by
    rw [hrec]
    exact fun e he hne => (h.kept e he hne).imp_left fun hm => hjobs hm

theorem Honest.step {l : Ledger} (h : Honest l) {c : Call} (hc : ∀ x, c ≠ .removeChild x) :
    Honest (l.step c) := by
  cases c with
  | complete jobID result now =>
    by_cases hacc : Accepts jobID result l.batch
    · exact h.complete hacc
    · rw [Ledger.step_refused now hacc]
      exact h
  | enqueueJobs ids => exact h.of_grows rfl rfl id subset_union_left
  | addJobs ids =>
    refine h.of_grows rfl ?_ ?_ ?_ <;> simp only [Call.apply, batchAddJobs] <;> split_ifs <;> simp
  | addChild childID =>
    refine h.of_grows rfl ?_ ?_ ?_ <;> simp only [Call.apply, batchAddChild] <;> split_ifs <;> simp
  | callbackComplete jobID =>
    refine h.of_grows rfl ?_ ?_ ?_ <;> simp only [Call.apply, batchCallbackComplete] <;>
      split_ifs <;> simp
  | invalidate => exact h.of_grows rfl rfl (fun _ => rfl) Subset.rfl
  | removeChild childID => exact absurd rfl (hc childID)

/-- The batch is through, and with success: no member is left, neither flag is
set, and every member ever recorded was recorded as success. -/
structure Succeeded (l : Ledger) : Prop where
  pending : l.batch.progress.pending = 0
  jobs : l.batch.jobs = ∅
  dead : l.batch.progress.dead = false
  invalidated : l.batch.progress.invalidated = false
  members : ∀ e ∈ l.recorded, e.2 ≠ .emptySuccess → (e.1, .success) ∈ l.recorded

/-! ### Members that were counted and are none -/

def Tally (l : Ledger) : Prop :=
  ∃ unflushed, l.unflushed ⊆ unflushed ∧ Accounting { l with unflushed := unflushed }

theorem Accounting.tally {l : Ledger} (h : Accounting l) : Tally l :=
  ⟨l.unflushed, Subset.rfl, h⟩

theorem Tally.step {l : Ledger} (h : Tally l) {c : Call}
    (hc : ∀ ids, c = .enqueueJobs ids → ids.toFinset ⊆ l.unflushed) : Tally (l.step c) := by
  obtain ⟨u, hsub, hacc⟩ := h
  have hfired : l.batch.progress.completeFired = true → l.batch.progress.pending = 0 := hacc.fired
  cases c with
  | enqueueJobs ids =>
    have hids := (hc ids rfl).trans hsub
    have hcard := card_sdiff_add_card_eq_card hids
    have hunion := card_union_le l.batch.jobs ids.toFinset
    -- an ID that is a member already stays to be flushed
    obtain ⟨u', hu', hcard'⟩ := Infinite.exists_superset_card_eq (u \ ids.toFinset)
      (l.batch.jobs.card + u.card - (l.batch.jobs ∪ ids.toFinset).card) (by omega)
    refine ⟨u', (sdiff_subset_sdiff hsub Subset.rfl).trans hu', ?_⟩
    refine hacc.resize 0 (l.batch.jobs ∪ ids.toFinset) l.batch.progress.completeFired
      (by simp [Ledger.step, Call.apply, batchEnqueueJobs]; rfl) rfl (Ledger.issued_step rfl) ?_
      fun h => ?_
    · change ((l.batch.jobs ∪ ids.toFinset).card : ℤ) + u'.card = l.batch.jobs.card + u.card + 0
      omega
    · rw [add_zero]
      exact hfired h
  | addJobs ids =>
    by_cases hi : l.batch.progress.invalidated = true
    · exact ⟨u, hsub, hacc.of_unchanged (c := .addJobs ids)
        (by simp [Call.apply, batchAddJobs, hi]) rfl rfl rfl⟩
    by_cases hf : l.batch.progress.completeFired = true
    · exact ⟨u, hsub, hacc.of_unchanged (c := .addJobs ids)
        (by simp [Call.apply, batchAddJobs, hi, hf]) rfl rfl rfl⟩
    have hunion := card_union_le l.batch.jobs ids.toFinset
    have hlength := ids.toFinset_card_le
    obtain ⟨u', hu', hcard'⟩ := Infinite.exists_superset_card_eq u
      (l.batch.jobs.card + u.card + ids.length - (l.batch.jobs ∪ ids.toFinset).card) (by omega)
    refine ⟨u', hsub.trans hu', hacc.resize ids.length (l.batch.jobs ∪ ids.toFinset)
      l.batch.progress.completeFired (by simp [Ledger.step, Call.apply, batchAddJobs, hi, hf]; rfl)
      rfl (Ledger.issued_step rfl) ?_ fun h => absurd h hf⟩
    change ((l.batch.jobs ∪ ids.toFinset).card : ℤ) + u'.card =
      l.batch.jobs.card + u.card + ids.length
    omega
  | addChild childID => exact ⟨u, hsub, hacc.addChild childID⟩
  | removeChild childID => exact ⟨u, hsub, hacc.removeChild childID⟩
  | complete jobID result now => exact ⟨u, hsub, hacc.complete jobID result now⟩
  | callbackComplete jobID => exact ⟨u, hsub, hacc.callbackComplete jobID⟩
  | invalidate => exact ⟨u, hsub, hacc.invalidate⟩

theorem Honest.succeeded {l : Ledger} (h : Honest l) (htally : Tally l)
    (hp : l.batch.progress.pending = 0) (hd : l.batch.progress.dead = false)
    (hi : l.batch.progress.invalidated = false) : Succeeded l := by
  have hjobs : l.batch.jobs = ∅ := by
    by_contra hne
    obtain ⟨id, hid⟩ := nonempty_iff_ne_empty.mpr hne
    obtain ⟨u, -, hacc⟩ := htally
    have hpos : 0 < l.batch.progress.pending := hacc.pending_pos hid
    omega
  refine ⟨hp, hjobs, hd, hi, ?_⟩
  intro e he hne
  rcases h.kept e he hne with hmem | ⟨r, hr, hrec⟩
  · simp [hjobs] at hmem
  · have hsucc : r = .success := h.flags hd hi _ hrec hr
    rw [← hsucc]
    exact hrec

theorem enqueued_success {l : Ledger} (htally : Tally l) {c : Call}
    (hs : c.enqueued .success l.batch ≠ 0) :
    (l.step c).batch.progress.pending = 0 ∧ (l.step c).batch.progress.dead = false ∧
      (l.step c).batch.progress.invalidated = false := by
  obtain ⟨u, -, h⟩ := htally
  cases c with
  | complete jobID result now =>
    by_cases hacc : Accepts jobID result l.batch
    · rw [enqueued_complete_call hacc] at hs
      have hfires : firesSuccess result l.batch = true := by
        by_contra hf
        apply hs
        rw [callbackList, List.countP_append, List.countP_append, countP_part, countP_part,
          countP_part]
        simp [hf]
      simp only [firesSuccess, Bool.and_eq_true, Bool.not_eq_eq_eq_not, Bool.not_true] at hfires
      obtain ⟨⟨⟨⟨hcomplete, hd⟩, hi⟩, -⟩, -⟩ := hfires
      have hzero := ((hacc.firesComplete_iff h).mp hcomplete).2
      rw [Ledger.step_complete now hacc]
      refine ⟨?_, hd, hi⟩
      change (progressAfter jobID result l.batch).pending = 0
      rw [h.pendingAfter_eq hacc, pendingUnclamped] at hzero
      rw [h.pending_progressAfter hacc]
      split at hzero <;> simp_all
    · exact absurd (enqueued_refused hacc) hs
  | _ => exact absurd rfl hs

namespace Forest

/-! ### Many batches -/

def Fresh (f : Forest) : Event → Prop
  | .store r _ => r.id ∉ f.ids
  | _ => True

instance (f : Forest) : (e : Event) → Decidable (f.Fresh e)
  | .store r _ => inferInstanceAs (Decidable (r.id ∉ f.ids))
  | .link _ | .act _ => inferInstanceAs (Decidable True)

def Books (f : Forest) : Prop := ∀ id ∈ f.ids, Tally (f.ledger id) ∧ Honest (f.ledger id)

variable {id : String} {f : Forest}

theorem Permits.flushes {a : Action} (hp : f.Permits (.act a)) {m : String × Call}
    (hmade : f.made a = some m) (ids : List String) (hids : m.2 = .enqueueJobs ids) :
    ids.toFinset ⊆ (f.ledger m.1).unflushed := by
  cases a with
  | flush id jobs =>
    obtain rfl := Option.some.inj hmade
    obtain rfl := Call.enqueueJobs.inj hids
    exact hp
  | deliver i now =>
    obtain ⟨s, -, rfl⟩ := Option.map_eq_some_iff.mp hmade
    cases hids
  | _ =>
    obtain rfl := Option.some.inj hmade
    cases hids

theorem Books.call {c : Call} (h : Books f)
    (hp : ∀ ids, c = .enqueueJobs ids → ids.toFinset ⊆ (f.ledger id).unflushed)
    (hc : ∀ x, c ≠ .removeChild x) : Books (f.call id c) := by
  intro x hx
  rw [ids_call] at hx
  rcases ledger_call_cases id c hx with heq | ⟨rfl, heq⟩
  · rw [heq]
    exact h x hx
  · rw [heq]
    exact ⟨(h x hx).1.step hp, (h x hx).2.step hc⟩

theorem honest_create (r : Request) (callbackQueue : String) : Honest (create r callbackQueue) where
  flags := fun _ _ _ he => absurd he List.not_mem_nil
  kept := fun _ he => absurd he List.not_mem_nil

theorem Books.step {e : Event} (h : Books f) (hp : f.Permits e) (hfresh : f.Fresh e) :
    Books (f.step e) := by
  cases e with
  | store r callbackQueue =>
    intro x hx
    change Tally (Function.update f.ledger r.id (f.storeLedger r callbackQueue) x) ∧
      Honest (Function.update f.ledger r.id (f.storeLedger r callbackQueue) x)
    by_cases hne : x = r.id
    · subst hne
      rw [Function.update_self, (storeLedger_spec f r callbackQueue).2.2.2 hfresh]
      exact ⟨(Accounting.create r callbackQueue).tally, honest_create r callbackQueue⟩
    · rw [Function.update_of_ne hne]
      exact h x (mem_of_mem_insert_of_ne hx hne)
  | link id =>
    change Books (f.linkBatchToParent id)
    rcases linkBatchToParent_cases f id with heq | heq | ⟨parent, -, -, -, heq⟩
    · rw [heq]
      exact h
    · rw [heq]
      exact fun x hx => h x (mem_of_mem_erase hx)
    · rw [heq]
      exact Books.call (c := .addChild id) h nofun (by simp)
  | act a =>
    cases hmade : f.made a with
    | none => simpa [Forest.step, hmade] using h
    | some m =>
      rw [step_act hmade]
      exact Books.call (f := f.before a) h (Permits.flushes hp hmade) (made_ne_removeChild hmade)

/-! ### Signals that were returned -/

def returned (f : Forest) : Event → Option Signal
  | .act a =>
    match f.made a with
    | some (id, c) => if id ∈ f.ids then c.signal id (f.batch id) else none
    | none => none
  | _ => none

/-- The state after a run. -/
abbrev after (es : List Event) : Forest := machine.run init es

theorem after_snoc (es : List Event) (e : Event) : after (es ++ [e]) = (after es).step e := by
  rw [after, Machine.run_append]
  rfl

/-- The run ends with the call that returned the signal, and its batch is at
rest then. -/
def EndsWith (es : List Event) (s : Signal) : Prop :=
  (∃ pre e, es = pre ++ [e] ∧ (after pre).returned e = some s) ∧ Quiescent ((after es).batch s.child)

/-- At the end of the run the batch has succeeded, and so had each batch recorded
as a success in it when its own signal was returned, at an earlier end. -/
inductive CleanAt : List Event → String → Prop
  | intro {es : List Event} {id : String} (moment : String → List Event)
      (succeeded : Succeeded ((after es).ledger id))
      (returned : ∀ child ∈ (after es).batchIDs, (child, .success) ∈ ((after es).ledger id).recorded →
        moment child <+: es ∧
          EndsWith (moment child) { child := child, parent := id, result := .success })
      (below : ∀ child ∈ (after es).batchIDs, (child, .success) ∈ ((after es).ledger id).recorded →
        CleanAt (moment child) child) :
      CleanAt es id

variable {es : List Event}

theorem CleanAt.succeeded (h : CleanAt es id) :
    Succeeded ((after es).ledger id) := by
  cases h with
  | intro _ succeeded _ _ => exact succeeded

def Traced (es : List Event) (s : Signal) : Prop :=
  ∃ pre, pre <+: es ∧ EndsWith pre s ∧ CleanAt pre s.child

theorem Traced.snoc {s : Signal} (h : Traced es s) (e : Event) :
    Traced (es ++ [e]) s := by
  obtain ⟨pre, hpre, hrest⟩ := h
  exact ⟨pre, hpre.trans (List.prefix_append es [e]), hrest⟩

/-- What is known of the successes after a run. -/
structure Evidence (es : List Event) : Prop where
  /-- On the way to a parent. -/
  flying : ∀ s ∈ (after es).inFlight, s.result = .success → Traced es s
  /-- Recorded in a parent. -/
  recorded : ∀ id ∈ (after es).ids, ∀ child ∈ (after es).batchIDs,
    (child, .success) ∈ ((after es).ledger id).recorded →
    Traced es { child := child, parent := id, result := .success }
  flying_named : ∀ s ∈ (after es).inFlight, s.child ∈ (after es).batchIDs
  recorded_named : ∀ id ∈ (after es).ids, ∀ member,
    (member, .success) ∈ ((after es).ledger id).recorded →
    member ∈ (after es).jobIDs ∪ (after es).batchIDs

theorem evidence_nil : Evidence [] where
  flying := fun _ hs => absurd hs List.not_mem_nil
  recorded := fun _ hid => absurd hid (notMem_empty _)
  flying_named := fun _ hs => absurd hs List.not_mem_nil
  recorded_named := fun _ hid => absurd hid (notMem_empty _)

theorem success_recorded {a : Action} {member : String} {c : Call}
    (hmade : f.made a = some (id, c)) (hrec : (member, .success) ∈ c.records (f.batch id)) :
    member ∈ a.jobNames ∨
      { child := member, parent := id, result := .success } ∈ f.inFlight := by
  -- the call is a recorded completion
  have hcall : ∃ now, c = .complete member .success now := by
    cases c with
    | complete jobID result now =>
      simp only [Call.records] at hrec
      split at hrec
      · obtain ⟨rfl, rfl⟩ : member = jobID ∧ .success = result := by simpa using hrec
        exact ⟨now, rfl⟩
      · simp at hrec
    | _ => simp [Call.records] at hrec
  obtain ⟨now, rfl⟩ := hcall
  cases a with
  | complete id' jobID result now' =>
    left
    obtain ⟨-, rfl, -⟩ : id' = id ∧ jobID = member ∧ result = .success ∧ now' = now := by
      simpa [made] using hmade
    simp [Action.jobNames]
  | deliver i now' =>
    right
    obtain ⟨s, hs, rfl, rfl, hres, -⟩ : ∃ s, f.inFlight[i]? = some s ∧ s.parent = id ∧
        s.child = member ∧ s.result = .success ∧ now' = now := by
      simpa [made] using hmade
    rw [← hres]
    exact List.mem_of_getElem? hs
  | _ => simp [made] at hmade

theorem success_step {e : Event} (hfresh : f.Fresh e) {member : String}
    (hid : id ∈ (f.step e).ids) (hrec : (member, .success) ∈ ((f.step e).ledger id).recorded) :
    id ∈ f.ids ∧ (member, .success) ∈ (f.ledger id).recorded ∨
      (∃ a, e = .act a ∧ member ∈ a.jobNames ∧ member ∈ (f.step e).jobIDs) ∨
      { child := member, parent := id, result := .success } ∈ f.inFlight := by
  cases e with
  | store r callbackQueue =>
    -- nothing is recorded in a batch that is stored under a free ID
    left
    change (member, .success) ∈
      (Function.update f.ledger r.id (f.storeLedger r callbackQueue) id).recorded at hrec
    by_cases hne : id = r.id
    · subst hne
      rw [Function.update_self, (storeLedger_spec f r callbackQueue).2.2.2 hfresh] at hrec
      exact absurd hrec List.not_mem_nil
    · rw [Function.update_of_ne hne] at hrec
      exact ⟨mem_of_mem_insert_of_ne hid hne, hrec⟩
  | link x =>
    left
    change id ∈ (f.linkBatchToParent x).ids at hid
    change _ ∈ ((f.linkBatchToParent x).ledger id).recorded at hrec
    rcases linkBatchToParent_cases f x with heq | heq | ⟨parent, -, -, -, heq⟩
    · rw [heq] at hid hrec
      exact ⟨hid, hrec⟩
    · rw [heq] at hid hrec
      exact ⟨mem_of_mem_erase hid, hrec⟩
    · rw [heq] at hid hrec
      rw [ids_call] at hid
      refine ⟨hid, ?_⟩
      rcases ledger_call_cases parent (.addChild x) hid with hled | ⟨rfl, hled⟩
      · rwa [← hled]
      · change _ ∈ ((f.call id (.addChild x)).ledger id).recorded at hrec
        rwa [hled] at hrec
  | act a =>
    cases hmade : f.made a with
    | none =>
      simp only [Forest.step, hmade] at hid hrec
      exact .inl ⟨hid, hrec⟩
    | some m =>
      obtain ⟨x, c⟩ := m
      rw [step_act hmade] at hid hrec
      rw [ids_call] at hid
      rcases ledger_call_cases (f := f.before a) x c hid with hled | ⟨rfl, hled⟩
      · rw [hled] at hrec
        exact .inl ⟨hid, hrec⟩
      · rw [hled] at hrec
        rcases List.mem_append.mp hrec with hnew | hold
        · refine .inr ((success_recorded hmade hnew).imp_left fun hjob => ⟨a, rfl, hjob, ?_⟩)
          rw [step_act hmade, jobIDs_call]
          exact mem_union_right _ hjob
        · exact .inl ⟨hid, hold⟩

theorem batchIDs_step (f : Forest) (e : Event) :
    (f.step e).batchIDs = f.batchIDs ∨
      ∃ r q, e = .store r q ∧ (f.step e).batchIDs = insert r.id f.batchIDs := by
  cases e with
  | store r callbackQueue => exact .inr ⟨r, callbackQueue, rfl, rfl⟩
  | link id =>
    left
    change (f.linkBatchToParent id).batchIDs = _
    rcases linkBatchToParent_cases f id with heq | heq | ⟨parent, -, -, -, heq⟩
    · rw [heq]
    · rw [heq]
      rfl
    · rw [heq]
      exact batchIDs_call
  | act a =>
    left
    cases hmade : f.made a with
    | none => simp only [Forest.step, hmade]
    | some m =>
      rw [step_act hmade]
      exact batchIDs_call

theorem jobIDs_subset_step (f : Forest) (e : Event) : f.jobIDs ⊆ (f.step e).jobIDs := by
  cases e with
  | store r callbackQueue => exact subset_union_left
  | link id =>
    change f.jobIDs ⊆ (f.linkBatchToParent id).jobIDs
    rcases linkBatchToParent_cases f id with heq | heq | ⟨parent, -, -, -, heq⟩
    · rw [heq]
    · rw [heq]
      exact Subset.rfl
    · rw [heq]
      exact jobIDs_call.symm.subset
  | act a =>
    cases hmade : f.made a with
    | none => simp only [Forest.step, hmade, Subset.rfl]
    | some m =>
      rw [step_act hmade, jobIDs_call]
      exact subset_union_left

theorem Evidence.recorded_snoc {e : Event} (h : Evidence es)
    (hp : (after es).Permits e) (hfresh : (after es).Fresh e) {child : String}
    (hid : id ∈ ((after es).step e).ids) (hc : child ∈ ((after es).step e).batchIDs)
    (hrec : (child, .success) ∈ (((after es).step e).ledger id).recorded) :
    Traced es { child := child, parent := id, result := .success } := by
  rcases success_step hfresh hid hrec with ⟨hid', hold⟩ | ⟨a, rfl, hjob, -⟩ | hfly
  · rcases batchIDs_step (after es) e with heq | ⟨r, q, rfl, heq⟩
    · exact h.recorded id hid' child (heq ▸ hc) hold
    · -- the new batch's ID was no job's, so it has not been recorded anywhere
      rcases mem_union.mp (h.recorded_named id hid' child hold) with hjob | hbatch
      · have hne : child ≠ r.id := fun hne => hp.1 (hne ▸ hjob)
        rw [heq] at hc
        exact h.recorded id hid' child (mem_of_mem_insert_of_ne hc hne) hold
      · exact h.recorded id hid' child hbatch hold
  · have hnot := disjoint_left.mp (jobNames_disjoint hp) hjob
    rcases batchIDs_step (after es) (.act a) with heq | ⟨r, q, habs, -⟩
    · exact absurd (heq ▸ hc) hnot
    · simp at habs
  · exact h.flying _ hfly rfl

theorem cleanAt_of_traced (hsucc : Succeeded ((after es).ledger id))
    (htraced : ∀ child ∈ (after es).batchIDs,
      (child, .success) ∈ ((after es).ledger id).recorded →
      Traced es { child := child, parent := id, result := .success }) : CleanAt es id := by
  choose! moment hpre hends hclean using htraced
  exact .intro moment hsucc (fun child hc hrec => ⟨hpre child hc hrec, hends child hc hrec⟩) hclean

theorem mem_inFlight_call {c : Call} {s : Signal}
    (hs : s ∈ (f.call id c).inFlight) :
    s ∈ f.inFlight ∨ id ∈ f.ids ∧ c.signal id (f.batch id) = some s := by
  unfold call at hs
  split at hs
  · next hid => exact (List.mem_append.mp hs).imp_right fun h => ⟨hid, by simpa using h⟩
  · exact .inl hs

theorem mem_inFlight_step {e : Event} {s : Signal} (hs : s ∈ (f.step e).inFlight) :
    s ∈ f.inFlight ∨ ∃ a c, e = .act a ∧ f.made a = some (s.child, c) ∧ s.child ∈ f.ids ∧
      c.signal s.child (f.batch s.child) = some s := by
  cases e with
  | store r callbackQueue => exact .inl hs
  | link id =>
    change s ∈ (f.linkBatchToParent id).inFlight at hs
    rcases linkBatchToParent_cases f id with heq | heq | ⟨parent, -, -, -, heq⟩
    · rw [heq] at hs
      exact .inl hs
    · rw [heq] at hs
      exact .inl hs
    · rw [heq] at hs
      refine .inl ((mem_inFlight_call (c := .addChild id) hs).resolve_right ?_)
      simp [Call.signal]
  | act a =>
    cases hmade : f.made a with
    | none =>
      simp only [Forest.step, hmade] at hs
      exact .inl hs
    | some m =>
      obtain ⟨id, c⟩ := m
      rw [step_act hmade] at hs
      rcases mem_inFlight_call hs with hrem | ⟨hid, hsig⟩
      · left
        cases a with
        | deliver i now => exact List.mem_of_mem_eraseIdx hrem
        | _ => exact hrem
      · right
        obtain rfl : id = s.child := by
          rw [Call.signal_eq] at hsig
          split at hsig
          · obtain ⟨parent, -, rfl⟩ := Option.map_eq_some_iff.mp hsig
            rfl
          · simp at hsig
        exact ⟨a, c, rfl, hmade, hid, hsig⟩

theorem succeeded_of_signal {a : Action} {c : Call} {s : Signal} (hb : Books f)
    (hp : f.Permits (.act a)) (hmade : f.made a = some (s.child, c)) (hid : s.child ∈ f.ids)
    (hsig : c.signal s.child (f.batch s.child) = some s) (hres : s.result = .success) :
    Quiescent ((f.step (.act a)).batch s.child) ∧ Succeeded ((f.step (.act a)).ledger s.child) := by
  have hc := made_ne_removeChild hmade
  have hled : (f.step (.act a)).ledger s.child = (f.ledger s.child).step c := by
    rw [step_act hmade]
    exact ledger_call_self (f := f.before a) hid
  obtain ⟨htally, hhon⟩ := hb s.child hid
  obtain ⟨u, -, hacc⟩ := id htally
  rw [Call.signal_eq] at hsig
  split at hsig
  swap
  · simp at hsig
  next hsignals =>
  obtain ⟨parent, -, hs⟩ := Option.map_eq_some_iff.mp hsig
  have hq := ((signals_iff hacc hc).mp hsignals).2
  -- the result is a success, so neither flag is set
  have hflags : (c.apply (f.batch s.child)).progress.dead = false ∧
      (c.apply (f.batch s.child)).progress.invalidated = false := by
    have hpr : parentResult (c.apply (f.batch s.child)) = .success := by
      rw [← hres, ← hs]
    unfold parentResult at hpr
    split at hpr
    · simp at hpr
    · next hd =>
      split at hpr
      · simp at hpr
      · next hi => exact ⟨by simpa using hd, by simpa using hi⟩
  rw [batch, hled]
  exact ⟨hq, (hhon.step hc).succeeded (htally.step (Permits.flushes hp hmade)) hq.1 hflags.1 hflags.2⟩

/-- **One event.** What is known of the successes is known after the event. -/
theorem Evidence.snoc {e : Event} (h : Evidence es) (hb : Books (after es))
    (hn : Names (after es)) (hp : (after es).Permits e) (hfresh : (after es).Fresh e) :
    Evidence (es ++ [e]) := by
  have hbatch : (after es).batchIDs ⊆ ((after es).step e).batchIDs := by
    rcases batchIDs_step (after es) e with heq | ⟨r, q, -, heq⟩
    · rw [heq]
    · rw [heq]
      exact subset_insert _ _
  constructor <;> rw [after_snoc]
  case recorded =>
    exact fun id hid child hc hrec => (h.recorded_snoc hp hfresh hid hc hrec).snoc e
  case flying =>
    intro s hs hres
    rcases mem_inFlight_step hs with hold | ⟨a, c, rfl, hmade, hid, hsig⟩
    · exact (h.flying s hold hres).snoc e
    · -- the signal has just been returned: the run up to here is its moment
      obtain ⟨hq, hsucc⟩ := succeeded_of_signal hb hp hmade hid hsig hres
      have hid' : s.child ∈ ((after es).step (.act a)).ids := by
        rw [step_act hmade, ids_call]
        exact hid
      refine ⟨es ++ [.act a], List.prefix_rfl, ⟨⟨es, .act a, rfl, ?_⟩, ?_⟩, ?_⟩
      · simp [returned, hmade, hid, hsig]
      · rw [after_snoc]
        exact hq
      · refine cleanAt_of_traced ?_ ?_ <;> rw [after_snoc]
        · exact hsucc
        · exact fun child hc hrec => (h.recorded_snoc hp hfresh hid' hc hrec).snoc (.act a)
  case flying_named =>
    intro s hs
    rcases mem_inFlight_step hs with hold | ⟨a, c, rfl, -, hid, -⟩
    · exact hbatch (h.flying_named s hold)
    · exact hbatch (hn.ids_sub hid)
  case recorded_named =>
    intro id hid member hrec
    rcases success_step hfresh hid hrec with ⟨hid', hold⟩ | ⟨a, rfl, -, hjob⟩ | hfly
    · rcases mem_union.mp (h.recorded_named id hid' member hold) with hmem | hmem
      · exact mem_union_left _ (jobIDs_subset_step _ e hmem)
      · exact mem_union_right _ (hbatch hmem)
    · exact mem_union_left _ hjob
    · exact mem_union_right _ (hbatch (h.flying_named _ hfly))

/-- **Whole runs.** -/
theorem evidence_of_legal (legal : machine.Legal init es)
    (fresh : machine.Throughout Fresh init es) : Evidence es ∧ Books (after es) := by
  -- induction on the run from its end: the last event is the new one
  induction es using List.reverseRecOn with
  | nil => exact ⟨evidence_nil, fun _ hid => absurd hid (notMem_empty _)⟩
  | append_singleton es e ih =>
    rw [Machine.legal_append] at legal
    rw [Machine.throughout_append] at fresh
    obtain ⟨hevidence, hbooks⟩ := ih legal.1 fresh.1
    have hnames := (sound_of_legal legal.1).names
    refine ⟨hevidence.snoc hbooks hnames legal.2.1 fresh.2.1, ?_⟩
    rw [after_snoc]
    exact hbooks.step legal.2.1 fresh.2.1

/-- **Soundness of `on_success`.** A call that enqueues an `on_success` job leaves
its batch clean: no member left, neither flag set, every member recorded as
success, and the batches among them clean when their signals were returned. And
every batch recorded as a success in its parent was at rest, with neither flag
set, when its signal was returned. -/
theorem success_sound (es : List Event) (legal : machine.Legal init es)
    (fresh : machine.Throughout Fresh init es) :
    (∀ pre a post id c, es = pre ++ .act a :: post → (after pre).made a = some (id, c) →
      id ∈ (after pre).ids → c.enqueued .success ((after pre).batch id) ≠ 0 →
      CleanAt (pre ++ [.act a]) id) ∧
    (∀ parent ∈ (after es).ids, ∀ child ∈ (after es).batchIDs,
      (child, .success) ∈ ((after es).ledger parent).recorded →
      ∃ moment, moment <+: es ∧
        EndsWith moment { child := child, parent := parent, result := .success } ∧
        ((after moment).batch child).progress.dead = false ∧
        ((after moment).batch child).progress.invalidated = false) := by
  refine ⟨?_, ?_⟩
  · rintro pre a post id c rfl hmade hid hs
    have hsplit : pre ++ .act a :: post = (pre ++ [.act a]) ++ post := by simp
    rw [hsplit, Machine.legal_append] at legal
    rw [hsplit, Machine.throughout_append] at fresh
    have hlegal := legal.1
    have hfresh := fresh.1
    rw [Machine.legal_append] at hlegal
    rw [Machine.throughout_append] at hfresh
    obtain ⟨-, hbooks⟩ := evidence_of_legal hlegal.1 hfresh.1
    obtain ⟨hevidence', hbooks'⟩ := evidence_of_legal legal.1 fresh.1
    -- the batch of the call, before and after it
    have hled : (after (pre ++ [.act a])).ledger id = ((after pre).ledger id).step c := by
      rw [after_snoc, step_act hmade]
      exact ledger_call_self (f := (after pre).before a) hid
    have hid' : id ∈ (after (pre ++ [.act a])).ids := by
      rw [after_snoc, step_act hmade, ids_call]
      exact hid
    obtain ⟨hp, hd, hi⟩ := enqueued_success (hbooks id hid).1 hs
    rw [← hled] at hp hd hi
    obtain ⟨htally, hhonest⟩ := hbooks' id hid'
    exact cleanAt_of_traced (hhonest.succeeded htally hp hd hi) (hevidence'.recorded id hid')
  · intro parent hp child hc hrec
    obtain ⟨moment, hpre, hends, hclean⟩ :=
      (evidence_of_legal legal fresh).1.recorded parent hp child hc hrec
    exact ⟨moment, hpre, hends, hclean.succeeded.dead, hclean.succeeded.invalidated⟩

/-- Batch `p` has a job and an `on_success` callback; its child `c` has a job of
its own and completes; `p` records it. -/
def childSucceeds : List Event :=
  [.store { bare "p" "" with
      jobs := ["j"], nodup := List.nodup_singleton "j"
      onSuccess := some { jobType := "Celebrate", options := [] } } "default",
    .act (.flush "p" ["j"]),
    .store { bare "c" "p" with jobs := ["k"], nodup := List.nodup_singleton "k" } "default", .link "c",
    .act (.flush "c" ["k"]), .act (.complete "c" "k" .success "t"), .act (.deliver 0 "t")]

theorem success_sound_childSucceeds :
    machine.Legal init (childSucceeds ++ [.act (.complete "p" "j" .success "t")]) ∧
      machine.Throughout Fresh init (childSucceeds ++ [.act (.complete "p" "j" .success "t")]) ∧
      CleanAt (childSucceeds ++ [.act (.complete "p" "j" .success "t")]) "p" :=
  ⟨by decide, by decide,
    (success_sound (childSucceeds ++ [.act (.complete "p" "j" .success "t")]) (by decide)
      (by decide)).1 childSucceeds (.complete "p" "j" .success "t") [] "p"
      (.complete "j" .success "t") rfl rfl (by decide) (by decide)⟩

def Below (f : Forest) (id ancestor : String) : Prop :=
  Relation.ReflTransGen (fun child parent => (f.batch child).parent = some parent) id ancestor

/-- After `p` has recorded `c`, batch `d` is enqueued below `c` and its job dies. -/
def reopenedChild : List Event :=
  childSucceeds ++
    [.store { bare "d" "c" with jobs := ["x"], nodup := by decide } "default", .link "d",
      .act (.flush "d" ["x"]), .act (.complete "d" "x" .death "t"), .act (.deliver 0 "t"),
      .act (.deliver 0 "t")]

theorem hidden_death :
    machine.Legal init (reopenedChild ++ [.act (.complete "p" "j" .success "t")]) ∧
      machine.Throughout Fresh init (reopenedChild ++ [.act (.complete "p" "j" .success "t")]) ∧
      (Call.complete "j" .success "t").enqueued .success ((after reopenedChild).batch "p") ≠ 0 ∧
      Below (after reopenedChild) "d" "p" ∧
      ("x", .death) ∈ ((after reopenedChild).ledger "d").recorded ∧
      ((after reopenedChild).batch "c").progress.dead = true := by
  refine ⟨by decide, by decide, by decide, ?_, by decide, by decide⟩
  exact .tail (.tail .refl (by decide : ((after reopenedChild).batch "d").parent = some "c"))
    (by decide : ((after reopenedChild).batch "c").parent = some "p")

end Forest

end Batch

end Senna
