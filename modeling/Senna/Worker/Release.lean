import Senna.Job.Normal
import Senna.System.Machine
import Senna.Worker.Unique

/-!
# When scheduled work is released

A job that is to run later waits in the scheduled set, one that is to be retried in the retry
set, with its due time as the score. `enqueue_scheduled.lua` moves what is due to its queue.
**Both sides round to whole seconds**: the writers store `t.Unix()`, which drops the fraction,
and the script compares with the first part of `TIME`, which drops its microseconds. A job that
is due in the middle of a second is therefore due, for the script, when that second begins.

The model is a machine over the keyspace. Its labels are the calls that write one of the two
sets (`enqueueAt`, `enqueueUniqueAt`, a chunk of `EnqueueBulk`, `NackAt`), the calls of
`enqueue_scheduled.lua`, and anything else that leaves the two sets alone. A ghost field
remembers the due time each payload was given last. The invariant `Scored` ties the score of
every payload to that time, and what is moved when follows from it.

Points in time are nanoseconds since the epoch.
-/

namespace Senna

namespace Release

open Redis

/-! ### Times -/

def second : ℤ := 1000000000

def unix (t : ℤ) : ℤ := t / second

theorem lt_unix_succ_mul (t : ℤ) : t < (unix t + 1) * second := by
  unfold unix second
  omega

/-- The reply of `TIME`. -/
structure RedisTime where
  seconds : ℕ
  micros : ℕ
  micros_lt : micros < 1000000

/-- The point in time of a reply of `TIME`. -/
def RedisTime.instant (now : RedisTime) : ℤ := now.seconds * second + now.micros * 1000

theorem RedisTime.seconds_le (now : RedisTime) : now.seconds * second ≤ now.instant := by
  unfold RedisTime.instant
  omega

theorem RedisTime.instant_nonneg (now : RedisTime) : 0 ≤ now.instant := by
  unfold RedisTime.instant second
  omega

/-- When a job is due. -/
inductive Due where
  /-- At a time that is given: `EnqueueAt`, `EnqueueBulkAt`, `NackAt`. -/
  | moment (t : ℤ)
  /-- A delay after the time Redis has: `EnqueueIn`, `EnqueueBulkIn`, a retry. -/
  | delay (now : RedisTime) (d : ℤ)

def Due.time : Due → ℤ
  | .moment t => t
  | .delay now d => now.instant + d

/-! ### The machine -/

/-- The keyspace, and the due time each payload was given last. -/
structure World where
  db : Db Key
  due : Key → String → Option ℤ

def World.init : World := ⟨fun _ => none, fun _ _ => none⟩

/-- What can happen. -/
inductive Event where
  /-- `enqueueAt` and `enqueueIn`. -/
  | enqueueAt (due : Due) (data : String)
  /-- `enqueueUniqueAt` and `enqueueUniqueIn`. -/
  | enqueueUniqueAt (uniqueKey jobID : String) (due : Due) (data : String)
  /-- One chunk of `EnqueueBulkAt` and `EnqueueBulkIn`. -/
  | enqueueBulkChunk (due : Due) (data : List String)
  /-- `NackAt`. -/
  | nackAt (workerID jobID payload : String) (due : Due) (newData : String)
  /-- A call of `enqueue_scheduled.lua`. -/
  | enqueueScheduled (k : Key) (limit : ℕ) (now : RedisTime)
  /-- Anything else, with the keyspace it leaves. -/
  | elsewhere (db : Db Key)

/-- `ZADD` with several members. -/
def zaddAll (k : Key) (score : ℤ) : List String → Script Key Unit
  | [] => pure ()
  | v :: vs => do
    zadd k score v
    zaddAll k score vs

theorem run_zaddAll {db : Db Key} {k : Key} (h : db.HasType k .zset) (score : ℤ)
    (vs : List String) :
    (zaddAll k score vs).run db =
      .ok () (vs.foldl (fun db v => db.putZset k (zinsert (db.zset k) v score)) db) := by
  induction vs generalizing db with
  | nil => rfl
  | cons v vs ih =>
    rw [zaddAll, Script.run_bind_ok (run_zadd h score v), ih (h.write fun _ => Db.typeOf_ofZset _),
      List.foldl_cons]

def Waiting (k : Key) : Prop := k = .scheduled ∨ k = .retry

instance (k : Key) : Decidable (Waiting k) := inferInstanceAs (Decidable (_ ∨ _))

section Step

variable (cj : Cjson) (s : World)

/-- The world after a call that is to store payloads in a set: if it replies that it did, their
due time is remembered. -/
def World.store (k : Key) (data : List String) (due : Due) : Outcome Key Bool → World
  | .ok true db =>
    ⟨db, fun k' p => if k' = k ∧ p ∈ data then some due.time else s.due k' p⟩
  | out => { s with db := out.db }

def World.call : Event → Outcome Key Bool
  | .enqueueAt due data =>
    (do zadd .scheduled (unix due.time) data; pure true : Script Key Bool).run s.db
  | .enqueueUniqueAt uniqueKey jobID due data =>
    (do
      let claimed ← Senna.enqueueUniqueAt uniqueKey jobID (unix due.time) data
      pure (decide (claimed = 1)) : Script Key Bool).run s.db
  | .enqueueBulkChunk due data =>
    (do zaddAll .scheduled (unix due.time) data; pure true : Script Key Bool).run s.db
  | .nackAt workerID jobID payload due newData =>
    (do
      let removed ← retryJob workerID jobID payload (unix due.time) newData
      pure (decide (0 < removed)) : Script Key Bool).run s.db
  | .enqueueScheduled k limit now =>
    (do
      let _ ← Senna.enqueueScheduled cj k limit now.seconds
      pure false : Script Key Bool).run s.db
  | .elsewhere db => .ok false db

def World.step (e : Event) : World :=
  match e with
  | .enqueueAt due data => s.store .scheduled [data] due (s.call cj e)
  | .enqueueUniqueAt _ _ due data => s.store .scheduled [data] due (s.call cj e)
  | .enqueueBulkChunk due data => s.store .scheduled data due (s.call cj e)
  | .nackAt _ _ _ due newData => s.store .retry [newData] due (s.call cj e)
  | _ => { s with db := (s.call cj e).db }

def World.Permits : Event → Prop
  | .enqueueScheduled k _ _ => Waiting k
  | .elsewhere db => WellTyped db ∧ ∀ k, Waiting k → db.zset k = s.db.zset k
  | _ => True

end Step

def machine (cj : Cjson) : Machine World Event where
  permits := World.Permits
  step := World.step cj

/-- A call of `enqueue_scheduled.lua` moves a payload: it leaves its set and is on a queue. -/
def World.Moves (cj : Cjson) (s : World) (k : Key) (limit : ℕ) (now : RedisTime) (p : String) :
    Prop :=
  p ∈ (s.db.zset k).map Prod.fst ∧
    p ∉ ((s.step cj (.enqueueScheduled k limit now)).db.zset k).map Prod.fst ∧
    ∃ queue, p ∈ (s.step cj (.enqueueScheduled k limit now)).db.list (.queue queue)

/-- Work that is due at `t` is never released early: in no run does a call move a payload with
this due time before it. -/
def NeverEarly (cj : Cjson) (t : ℤ) : Prop :=
  ∀ es : List Event, (machine cj).Legal .init es →
    ∀ (k : Key) (limit : ℕ) (now : RedisTime) (p : String), Waiting k →
      ((machine cj).run .init es).due k p = some t →
      ((machine cj).run .init es).Moves cj k limit now p → t ≤ now.instant

/-! ### Scores -/

/-- Every score is the second of the due time. -/
structure Scored (s : World) : Prop where
  typed : WellTyped s.db
  scores : ∀ k, Waiting k → ∀ p score, (p, score) ∈ s.db.zset k →
    ∃ t, s.due k p = some t ∧ score = unix t

theorem Scored.init : Scored .init where
  typed := WellTyped.empty
  scores := by
    intro k _ p score hp
    cases hp

theorem Waiting.kind {k : Key} (h : Waiting k) : k.kind = .zset := by
  rcases h with rfl | rfl <;> rfl

/-- What a call may do to the sets: the payloads it stores get its score, the others keep theirs. -/
structure Stores (k : Key) (data : List String) (score : ℤ) (db db' : Db Key) : Prop where
  typed : WellTyped db'
  entries : ∀ k', Waiting k' → ∀ p n, (p, n) ∈ db'.zset k' →
    (k' = k ∧ p ∈ data ∧ n = score) ∨ (¬ (k' = k ∧ p ∈ data) ∧ (p, n) ∈ db.zset k')

section Stores

variable {k : Key} {score : ℤ} {db db' : Db Key}

theorem Stores.zadd (h : WellTyped db) (hk : Waiting k) (v : String)
    (hsame : ∀ k', Waiting k' → db.zset k' = db'.zset k') :
    Stores k [v] score db' (db.putZset k (zinsert (db.zset k) v score)) where
  typed := h.putZset hk.kind _
  entries k' hk' p n hin := by
    rw [Db.zset_write] at hin
    by_cases hkk : k' = k
    · subst hkk
      rw [if_pos rfl, Db.zsetOf_ofZset, zinsert, List.mem_cons] at hin
      rcases hin with heq | hin
      · cases heq
        exact Or.inl ⟨rfl, List.mem_singleton_self _, rfl⟩
      · obtain ⟨hold, hne⟩ := List.mem_filter.mp hin
        refine Or.inr ⟨fun hnew => ?_, hsame k' hk' ▸ hold⟩
        simp [List.mem_singleton.mp hnew.2] at hne
    · rw [if_neg hkk] at hin
      exact Or.inr ⟨fun hnew => hkk hnew.1, hsame k' hk' ▸ hin⟩

theorem Stores.cons {v : String} {vs : List String} {db'' : Db Key}
    (h : Stores k [v] score db db') (hrest : Stores k vs score db' db'') :
    Stores k (v :: vs) score db db'' where
  typed := hrest.typed
  entries k' hk' p n hin := by
    rcases hrest.entries k' hk' p n hin with ⟨hkk, hp, hn⟩ | ⟨hnot, hin⟩
    · exact Or.inl ⟨hkk, List.mem_cons_of_mem _ hp, hn⟩
    · rcases h.entries k' hk' p n hin with ⟨hkk, hp, hn⟩ | ⟨hnot', hin⟩
      · exact Or.inl ⟨hkk, List.mem_singleton.mp hp ▸ List.mem_cons_self .., hn⟩
      · refine Or.inr ⟨?_, hin⟩
        rintro ⟨hkk, hp⟩
        rcases List.mem_cons.mp hp with rfl | hp
        · exact hnot' ⟨hkk, List.mem_singleton_self _⟩
        · exact hnot ⟨hkk, hp⟩

theorem Stores.zaddAll (h : WellTyped db) (hk : Waiting k) (vs : List String) :
    Stores k vs score db
      (vs.foldl (fun db v => db.putZset k (zinsert (db.zset k) v score)) db) := by
  induction vs generalizing db with
  | nil => exact ⟨h, fun k' _ p n hin => Or.inr ⟨by simp, hin⟩⟩
  | cons v vs ih =>
    have hfirst : Stores k [v] score db (db.putZset k (zinsert (db.zset k) v score)) :=
      .zadd h hk v fun _ _ => rfl
    exact hfirst.cons (ih hfirst.typed)

end Stores

theorem Scored.store {s : World} (h : Scored s) {k : Key} {data : List String} {due : Due}
    {db : Db Key} (hdb : Stores k data (unix due.time) s.db db) :
    Scored (s.store k data due (.ok true db)) where
  typed := hdb.typed
  scores k' hk' p score hin := by
    rcases hdb.entries k' hk' p score hin with ⟨hkk, hp, hscore⟩ | ⟨hnot, hold⟩
    · exact ⟨due.time, if_pos ⟨hkk, hp⟩, hscore⟩
    · obtain ⟨t, ht, hscore⟩ := h.scores k' hk' p score hold
      exact ⟨t, (if_neg hnot).trans ht, hscore⟩

theorem Scored.shrink {s : World} (h : Scored s) {db : Db Key} (htyped : WellTyped db)
    (hsub : ∀ k, Waiting k → ∀ e ∈ db.zset k, e ∈ s.db.zset k) : Scored { s with db := db } where
  typed := htyped
  scores k hk p score hin := h.scores k hk p score (hsub k hk _ hin)

/-! ### Releasing -/

theorem zset_enqueueScheduled (cj : Cjson) {s : World} (h : WellTyped s.db) {k : Key}
    (hk : Waiting k) (limit : ℕ) (now : RedisTime) :
    ∃ db', (s.step cj (.enqueueScheduled k limit now)).db =
        ((zrange (s.db.zset k) now.seconds limit).filterMap (dueTarget cj)).foldl pushTarget db' ∧
      WellTyped db' ∧
      db'.zset k = dropMembers (s.db.zset k) (zrange (s.db.zset k) now.seconds limit) ∧
      ∀ k', k' ≠ k → db' k' = s.db k' := by
  obtain ⟨db', hzset, htyped, hother, hrun⟩ :=
    @run_enqueueScheduled cj _ h _ hk.kind limit now.seconds
  refine ⟨db', ?_, htyped, hzset, hother⟩
  rw [← hrun]
  simp only [World.step, World.call, Script.run_bind]
  cases (Senna.enqueueScheduled cj k limit now.seconds).run s.db <;> rfl

theorem Scored.step {cj : Cjson} {s : World} (h : Scored s) {e : Event} (he : s.Permits e) :
    Scored (s.step cj e) := by
  have hsched : Waiting .scheduled := Or.inl rfl
  -- a step stores payloads under the score of their time, or takes some away
  cases e with
  | enqueueAt due data =>
    have hrun := run_zadd (h.typed .scheduled) (unix due.time) data
    have hstores : Stores .scheduled [data] (unix due.time) s.db _ :=
      .zadd h.typed hsched data fun _ _ => rfl
    simp only [World.step, World.call, Script.run_bind_ok hrun]
    exact h.store hstores
  | enqueueUniqueAt uniqueKey jobID due data =>
    have hrun := run_enqueueUniqueAt h.typed uniqueKey jobID (unix due.time) data
    simp only [World.step, World.call]
    by_cases hfree : s.db.str (.unique uniqueKey) = none
    · have htyped := h.typed.putStr (k := .unique uniqueKey) rfl jobID
      have hstores : Stores .scheduled [data] (unix due.time) s.db _ :=
        .zadd htyped hsched data fun k' hk' => by
          rcases hk' with rfl | rfl <;> simp [Db.zset_write]
      rw [if_pos hfree, run_zadd (htyped .scheduled)] at hrun
      simp only [Script.run_bind_ok hrun]
      exact h.store hstores
    · rw [if_neg hfree] at hrun
      simp only [Script.run_bind_ok hrun]
      exact h.shrink h.typed fun _ _ _ hin => hin
  | enqueueBulkChunk due data =>
    have hrun := run_zaddAll (hsched.kind ▸ h.typed .scheduled) (unix due.time) data
    have hstores := @Stores.zaddAll _ (unix due.time) _ h.typed hsched data
    simp only [World.step, World.call, Script.run_bind_ok hrun]
    exact h.store hstores
  | nackAt workerID jobID payload due newData =>
    have hrun := run_retryJob h.typed workerID jobID payload (unix due.time) newData
    simp only [World.step, World.call]
    by_cases hin : payload ∈ s.db.list (.inFlight workerID)
    · have htyped := (h.typed.putList (k := .inFlight workerID) rfl
        ((s.db.list (.inFlight workerID)).erase payload)).del (.finalization jobID)
      have hstores : Stores .retry [newData] (unix due.time) s.db _ :=
        .zadd htyped (Or.inr rfl) newData fun k' hk' => by
          rcases hk' with rfl | rfl <;> simp [Db.zset_write]
      have hzset : ((s.db.putList (.inFlight workerID)
          ((s.db.list (.inFlight workerID)).erase payload)).del (.finalization jobID)).zset .retry =
          s.db.zset .retry := by simp [Db.zset_write]
      rw [hzset] at hstores
      rw [if_pos hin] at hrun
      simp only [Script.run_bind_ok hrun]
      exact h.store hstores
    · rw [if_neg hin] at hrun
      simp only [Script.run_bind_ok hrun]
      exact h.shrink h.typed fun _ _ _ hin => hin
  | enqueueScheduled k limit now =>
    obtain ⟨db', hrun, htyped, hzset, hother⟩ :=
      zset_enqueueScheduled cj (s := s) h.typed he limit now
    change Scored { s with db := (s.step cj (.enqueueScheduled k limit now)).db }
    rw [hrun]
    refine h.shrink (htyped.foldl_pushTarget _) fun k' hk' e hin => ?_
    rw [zset_foldl_pushTarget hk'.kind] at hin
    by_cases hkk : k' = k
    · subst hkk
      rw [hzset] at hin
      exact List.mem_of_mem_filter hin
    · rw [Db.zset, hother k' hkk] at hin
      exact hin
  | elsewhere db =>
    refine @Scored.shrink s h db he.1 fun k hk e hin => ?_
    rw [he.2 k hk] at hin
    exact hin

theorem scored_of_legal {cj : Cjson} {es : List Event} (legal : (machine cj).Legal .init es) :
    Scored ((machine cj).run .init es) :=
  legal.invariant (I := Scored) (fun _ _ h hp => h.step hp) Scored.init

/-- **What is moved is due by its second.** -/
theorem unix_le_of_moves {cj : Cjson} {s : World} (h : Scored s) {k : Key} (hk : Waiting k)
    {limit : ℕ} {now : RedisTime} {p : String} {t : ℤ} (hdue : s.due k p = some t)
    (hmoves : s.Moves cj k limit now p) : unix t ≤ now.seconds := by
  obtain ⟨hin, hout, -⟩ := hmoves
  obtain ⟨⟨q, score⟩, hentry, rfl⟩ := List.mem_map.mp hin
  obtain ⟨t', hdue', hscore⟩ := h.scores k hk q score hentry
  cases hdue.symm.trans hdue'
  obtain ⟨db', hrun, -, hzset, -⟩ := zset_enqueueScheduled cj (s := s) h.typed hk limit now
  rw [hrun, zset_foldl_pushTarget hk.kind, hzset] at hout
  -- it has left the set, so it was in the range that was read
  have hrange : q ∈ zrange (s.db.zset k) now.seconds limit := by
    by_contra hnot
    have hkept : (q, score) ∈ dropMembers (s.db.zset k) (zrange (s.db.zset k) now.seconds limit) :=
      List.mem_filter.mpr ⟨hentry, by simpa using hnot⟩
    exact hout (List.mem_map.mpr ⟨(q, score), hkept, rfl⟩)
  obtain ⟨⟨q', score'⟩, hsorted, hq⟩ := List.mem_map.mp hrange
  have hq' : q' = q := hq
  subst hq'
  have hfiltered := (List.perm_insertionSort zle _).mem_iff.mp (List.mem_of_mem_take hsorted)
  obtain ⟨hentry', hle⟩ := List.mem_filter.mp hfiltered
  obtain ⟨t'', hdue'', hscore'⟩ := h.scores k hk q' score' hentry'
  cases hdue.symm.trans hdue''
  rw [← hscore']
  simpa using hle

/-! ### The first moment of the second -/

section Booked

variable {cj : Cjson} {p queue : String}

/-- The world with one payload scheduled for `t`. -/
def booked (p : String) (t : ℤ) : World :=
  ⟨World.init.db.putZset .scheduled [(p, unix t)],
    fun k q => if k = .scheduled ∧ q ∈ [p] then some t else none⟩

theorem due_booked (p : String) (t : ℤ) : (booked p t).due .scheduled p = some t :=
  if_pos ⟨rfl, List.mem_singleton_self _⟩

theorem scored_booked (p : String) (t : ℤ) : Scored (booked p t) :=
  @scored_of_legal .plain [.enqueueAt (.moment t) p] ⟨trivial, trivial⟩

theorem moves_booked (hp : dueTarget cj p = some ⟨queue, p, none⟩) {t : ℤ} {now : RedisTime}
    (hnow : (now.seconds : ℤ) = unix t) : (booked p t).Moves cj .scheduled 1 now p := by
  have hzset : (booked p t).db.zset .scheduled = [(p, unix t)] := by
    simp [booked, Db.zset_write]
  have hrange : zrange [(p, unix t)] (unix t) 1 = [p] := by simp [zrange]
  obtain ⟨db', hrun, -, hleft, -⟩ :=
    zset_enqueueScheduled cj (scored_booked p t).typed (Or.inl rfl) 1 now
  rw [hzset, hnow, hrange] at hleft hrun
  refine ⟨by rw [hzset]; exact List.mem_singleton_self p, ?_, queue, ?_⟩
  · rw [hrun, zset_foldl_pushTarget (k := .scheduled) rfl, hleft]
    simp [dropMembers]
  · rw [hrun]
    simp [hp, pushTarget, Db.list_write]

end Booked

def sample : Job := Job.plain "j" "q"

theorem dueTarget_sample (cj : Cjson) :
    dueTarget cj sample.marshal = some ⟨"q", sample.marshal, none⟩ :=
  dueTarget_marshal.resolve_left (Job.Readable.dueTarget ⟨by decide, by decide⟩)

def beginning (t : ℤ) : RedisTime := ⟨(unix t).toNat, 0, by decide⟩

theorem seconds_beginning {t : ℤ} (ht : 0 ≤ t) : ((beginning t).seconds : ℤ) = unix t :=
  Int.toNat_of_nonneg (Int.ediv_nonneg ht (by decide))

theorem instant_beginning {t : ℤ} (ht : 0 ≤ t) : (beginning t).instant = unix t * second := by
  rw [RedisTime.instant, seconds_beginning ht]
  simp [beginning]

/-! ### When work is released early -/

/-- **Scheduled work is released on time exactly when it is due at a whole second**, or before
the epoch, where Redis has no time to be early. -/
theorem never_early_iff (cj : Cjson) (t : ℤ) : NeverEarly cj t ↔ t % second = 0 ∨ t < 0 := by
  constructor
  · intro h
    by_contra hnot
    obtain ⟨hfrac, hneg⟩ := not_or.mp hnot
    have ht : 0 ≤ t := by omega
    have hlate := h [.enqueueAt (.moment t) sample.marshal] ⟨trivial, trivial⟩ .scheduled 1
      (beginning t) sample.marshal (Or.inl rfl) (due_booked _ t)
      (moves_booked (dueTarget_sample cj) (seconds_beginning ht))
    rw [instant_beginning ht] at hlate
    have hsplit : unix t * second + t % second = t := Int.ediv_mul_add_emod t second
    have hpos : 0 ≤ t % second := Int.emod_nonneg t (by decide)
    omega
  · intro ht es legal k limit now p hk hdue hmoves
    have hle := unix_le_of_moves (scored_of_legal legal) hk hdue hmoves
    have hnow := now.seconds_le
    rcases ht with hwhole | hneg
    · have hmul : unix t * second ≤ now.seconds * second :=
        Int.mul_le_mul_of_nonneg_right hle (by decide)
      have heq : unix t * second = t := Int.ediv_mul_cancel_of_emod_eq_zero hwhole
      omega
    · have := now.instant_nonneg
      omega

theorem moves_within_second {cj : Cjson} {es : List Event} (legal : (machine cj).Legal .init es)
    {k : Key} (hk : Waiting k) {limit : ℕ} {now : RedisTime} {p : String} {t : ℤ}
    (hdue : ((machine cj).run .init es).due k p = some t)
    (hmoves : ((machine cj).run .init es).Moves cj k limit now p) : t < now.instant + second := by
  have hle := unix_le_of_moves (scored_of_legal legal) hk hdue hmoves
  have hnow := now.seconds_le
  have hlt := lt_unix_succ_mul t
  have hmul : (unix t + 1) * second ≤ (now.seconds + 1) * second :=
    Int.mul_le_mul_of_nonneg_right (by omega) (by decide)
  rw [Int.add_mul (now.seconds : ℤ), Int.one_mul] at hmul
  omega

def ten : RedisTime := ⟨10, 0, by decide⟩

/-- **A delay of 900 milliseconds is none.** The job is enqueued with it at ten seconds, and a call
at the same time, 900 milliseconds early, moves it to its queue. -/
theorem released_at_once :
    (machine .plain).Legal .init [.enqueueAt (.delay ten 900000000) sample.marshal] ∧
      ((machine .plain).run .init
        [.enqueueAt (.delay ten 900000000) sample.marshal]).due .scheduled sample.marshal =
          some 10900000000 ∧
      ((machine .plain).run .init
        [.enqueueAt (.delay ten 900000000) sample.marshal]).Moves .plain .scheduled 1 ten
          sample.marshal ∧
      ten.instant < 10900000000 :=
  ⟨⟨trivial, trivial⟩, due_booked _ 10900000000,
    moves_booked (t := 10900000000) (dueTarget_sample .plain) (by decide), by decide⟩

theorem moves_within_second_delayed : (10900000000 : ℤ) < ten.instant + second :=
  @moves_within_second .plain [.enqueueAt (.delay ten 900000000) sample.marshal]
    ⟨trivial, trivial⟩ .scheduled (Or.inl rfl) 1 ten sample.marshal _ (due_booked _ 10900000000)
    (moves_booked (dueTarget_sample .plain) (by decide))

end Release

end Senna
