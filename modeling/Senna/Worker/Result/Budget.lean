import Senna.System.Machine
import Senna.Worker.Conservation
import Senna.Worker.Result.Attempts

/-!
# The retry budget

A job that fails on every execution goes round: it is fetched from its queue, processed, stored
in the retry set with a higher count, promoted to its queue again, and so on, until its limit is
reached and it is stored in the dead set. The limit is not kept anywhere. It is computed anew on
every delivery, from the payload and from the options of the handler, and the count travels
through the marker, the retry set and the promotion.

The machine has one job in view and everything else around it. Its labels are the fetch of the
job, the whole of `processJob`, the promotion of due jobs, and anything that other jobs and
other workers do meanwhile, as long as it leaves the payloads of the job where they are. Nobody
crashes and every command succeeds.

The invariant `Going` follows the one copy of the job through its phases (`Phase`): it waits on a
queue or in the retry set, it is in flight with a worker that has it in memory, or it is buried
in the dead set. **The number of executions so far is the retry count of the copy**, which is what
the budget is compared with.

Promotion reads the payload with `cjson`, and a payload it cannot read is dropped. Only the
arguments of a job can nest deep, and they stay the same, so the condition is one on the job.
-/

namespace Senna

namespace Retries

open Redis Proc

/-! ### The machine -/

/-- The keyspace and the batches, the job a worker has in memory, and the retry counts the
executions of the job have seen, in order. -/
structure World where
  db : Db Key
  batches : String → Option Batch
  callbackJobs : List Batch.CallbackJob
  running : Option (String × Job)
  seen : List ℤ

/-- What can happen. -/
inductive Event where
  /-- A worker fetches the job. -/
  | fetch (w : Setting) (queue : String)
  /-- `processJob`, by the worker that has the job. -/
  | process (w : Setting) (rounds : ℕ)
  /-- `enqueue_scheduled` on the retry set. -/
  | promote (limit : ℕ) (now : ℤ)
  /-- Anything else, with what it leaves. -/
  | elsewhere (db : Db Key) (batches : String → Option Batch)
      (callbackJobs : List Batch.CallbackJob)

section Machine

variable (cj : Cjson) (handler : Handler)

def fetchScript (w : Setting) (queue : String) : Script Key FetchReply :=
  if w.sequential queue then sequentialFetch cj queue w.worker else fetchJob cj queue w.worker

/-- After a fetch script replied: the payload is read, and the job is in memory. -/
def World.fetched (s : World) (worker : String) : Outcome Key FetchReply → World
  | .ok (.job p) db =>
    match unmarshalJob p with
    | some j => { s with db := db, running := some (worker, j.readFrom p) }
    | none => { s with db := db }
  | out => { s with db := out.db }

def World.env (s : World) (job : Job) : Env := ⟨s.db, s.batches, s.callbackJobs, job⟩

/-- What `processJob` leaves of its surroundings. -/
def processed (w : Setting) (rounds : ℕ) (env : Env) : Env :=
  (processJob w (rounds + 1) ⟨env, none⟩ handler).2.state

/-- After `processJob`: a job without a marker was executed. -/
def World.process (s : World) (w : Setting) (rounds : ℕ) (job : Job) : World where
  db := (processed handler w rounds (s.env job)).db
  batches := (processed handler w rounds (s.env job)).batches
  callbackJobs := (processed handler w rounds (s.env job)).callbackJobs
  running := none
  seen := if job.finalization = none then s.seen ++ [job.retryCount] else s.seen

def World.step (s : World) : Event → World
  | .fetch w queue => s.fetched w.worker ((fetchScript cj w queue).run s.db)
  | .process w rounds =>
    match s.running with
    | some (_, job) => s.process handler w rounds job
    | none => s
  | .promote limit now =>
    { s with db := ((enqueueScheduled cj .retry limit now).run s.db).db }
  | .elsewhere db batches callbackJobs =>
    { s with db := db, batches := batches, callbackJobs := callbackJobs }

/-- A fetch is one of the job, a worker processes what it has, and nobody else touches the
payloads of the job. -/
def World.Permits (id : String) (s : World) : Event → Prop
  | .fetch _ queue => ∃ p, (s.db.list (.queue queue)).getLast? = some p ∧ payloadID p = some id
  | .process w _ => ∃ job, s.running = some (w.worker, job)
  | .promote _ _ => True
  | .elsewhere db _ _ => WellTyped db ∧
      ∀ k p, payloadID p = some id → ((stock db).stored k).count p = ((stock s.db).stored k).count p

end Machine

def machine (cj : Cjson) (handler : Handler) (id : String) : Machine World Event where
  permits := World.Permits id
  step := World.step cj handler

/-! ### The one copy -/

/-- A payload is the only copy of its job. -/
structure Sole (id : String) (st : Stock) (k : Key) (p : String) : Prop where
  mem : p ∈ st.stored k
  payload : payloadID p = some id
  copies : st.copies id = Pi.single k 1

namespace Sole

variable {id : String} {st st' : Stock} {k k' : Key} {p p' : String}

theorem single (h : Sole id st k p) : st.Single id := Or.inr ⟨k, h.copies⟩

theorem eq_of_mem (h : Sole id st k p) (hp : p' ∈ st.stored k') (hid : payloadID p' = some id) :
    k' = k ∧ p' = p := h.single.eq_of_mem h.mem h.payload hp hid

theorem copies_take (h : Sole id st k p) : (st.take k p).copies id = 0 :=
  h.single.copies_take h.mem h.payload

theorem of_put (hzero : st.copies id = 0) (hid : payloadID p = some id)
    (hst : ∀ k', st'.stored k' = (st.put k p).stored k') : Sole id st' k p where
  mem := by
    rw [hst, Stock.stored_put, if_pos rfl]
    exact Multiset.mem_cons_self _ _
  payload := hid
  copies := by
    rw [← Stock.copies_put_self hzero hid]
    funext k'
    unfold Stock.copies
    rw [hst]

theorem congr (h : Sole id st k p)
    (hsame : ∀ k p, payloadID p = some id → (st'.stored k).count p = (st.stored k).count p) :
    Sole id st' k p where
  mem := Multiset.count_pos.mp ((hsame k p h.payload).symm ▸ Multiset.count_pos.mpr h.mem)
  payload := h.payload
  copies := by
    rw [← h.copies]
    funext k'
    have hfilter : (st'.stored k').filter (fun q => payloadID q = some id) =
        (st.stored k').filter fun q => payloadID q = some id := by
      ext q
      by_cases hq : payloadID q = some id
      · simp only [Multiset.count_filter, if_pos hq, hsame k' q hq]
      · simp only [Multiset.count_filter, if_neg hq]
    unfold Stock.copies
    rw [Multiset.countP_eq_card_filter, Multiset.countP_eq_card_filter, hfilter]

end Sole

/-! ### Fetching -/

variable {queue p : String}

theorem run_fetchScript {cj : Cjson} {db : Db Key} (hdb : WellTyped db) (w : Setting)
    (hlast : (db.list (.queue queue)).getLast? = some p)
    (hheld : held cj (trustedIn db) p = some p) :
    (w.sequential queue = true ∧ (fetchScript cj w queue).run db = .ok .locked db) ∨
      ∃ db', (fetchScript cj w queue).run db = .ok (.job p) db' ∧ WellTyped db' ∧
        stock db' = ((stock db).take (.queue queue) p).put (.inFlight w.worker) p := by
  have htyped := (hdb.putList (k := .queue queue) rfl (db.list (.queue queue)).dropLast).putList
    (k := .inFlight w.worker) rfl (p :: db.list (.inFlight w.worker))
  have hstock : stock ((db.putList (.queue queue) (db.list (.queue queue)).dropLast).putList
      (.inFlight w.worker) (p :: db.list (.inFlight w.worker))) =
      ((stock db).take (.queue queue) p).put (.inFlight w.worker) p := by
    rw [stock_putList _ rfl, stock_putList db rfl, coe_dropLast hlast]
    simp [Stock.put, Stock.take]
  unfold fetchScript
  split
  · next hsequential =>
    rw [run_sequentialFetch (hdb _) (hdb _) (hdb _)]
    split
    · exact Or.inl ⟨hsequential, rfl⟩
    · simp only [hlast, hheld]
      refine Or.inr ⟨_, rfl, htyped.putStr rfl _, ?_⟩
      exact (stock_lock _ queue _).trans hstock
  · rw [run_fetchJob (hdb _) (hdb _)]
    simp only [hlast, hheld]
    exact Or.inr ⟨_, rfl, htyped, hstock⟩

/-! ### Promoting -/

section Promote

variable (cj : Cjson) {id : String} {st : Stock} {k : Key} {p : String}

theorem Sole.promote_other (h : Sole id st k p) {p' : String} (hother : payloadID p' ≠ some id) :
    Sole id (Stock.promote cj .retry st p') k p := by
  refine h.congr fun k' q hq => ?_
  have hne : q ≠ p' := fun heq => hother (heq ▸ hq)
  have hdrop : ∀ k', ((st.drop .retry p').stored k').count q = (st.stored k').count q := by
    intro k'
    rw [Stock.stored_drop]
    split
    · next hk => simp only [hk, Multiset.count_filter, if_pos hne]
    · rfl
  unfold Stock.promote Stock.route
  split
  · next t ht =>
    have hdata : t.data = p' := data_of_dueTarget ht
    have hput : ((Stock.put (st.drop .retry p') (.queue t.queue) t.data).stored k').count q =
        (st.stored k').count q := by
      rw [Stock.stored_put]
      split
      · next hk => rw [hk, Multiset.count_cons_of_ne (hdata.symm ▸ hne), hdrop]
      · exact hdrop k'
    unfold Stock.push
    split
    · exact hput
    · exact hput
  · exact hdrop k'

theorem Sole.foldl_promote_other (h : Sole id st k p) {ps : List String}
    (hother : ∀ p' ∈ ps, payloadID p' ≠ some id) :
    Sole id (ps.foldl (Stock.promote cj .retry) st) k p := by
  induction ps generalizing st with
  | nil => exact h
  | cons p' ps ih =>
    exact ih (h.promote_other cj (hother p' List.mem_cons_self))
      fun q hq => hother q (List.mem_cons_of_mem _ hq)

theorem Sole.promote_self (h : Sole id st .retry p) :
    (∃ t, dueTarget cj p = some t ∧ Sole id (Stock.promote cj .retry st p) (.queue t.queue) p) ∨
      (dueTarget cj p = none ∧ (Stock.promote cj .retry st p).copies id = 0) := by
  have hdrop : st.drop .retry p = st.take .retry p := h.single.drop_eq_take h.payload
  cases htarget : dueTarget cj p with
  | none =>
    refine Or.inr ⟨rfl, ?_⟩
    rw [Stock.promote, Stock.route, htarget, hdrop]
    exact h.single.copies_take h.mem h.payload
  | some t =>
    refine Or.inl ⟨t, rfl, .of_put h.copies_take h.payload fun k' => ?_⟩
    have hdata : t.data = p := data_of_dueTarget htarget
    unfold Stock.promote Stock.route
    simp only [htarget, hdrop]
    unfold Stock.push
    rw [hdata]
    split <;> rfl

theorem copies_foldl_promote_zero {ps : List String} (h : st.copies id = 0)
    (hother : ∀ p' ∈ ps, payloadID p' ≠ some id) :
    (ps.foldl (Stock.promote cj .retry) st).copies id = 0 := by
  induction ps generalizing st with
  | nil => exact h
  | cons p' ps ih =>
    refine ih ?_ fun q hq => hother q (List.mem_cons_of_mem _ hq)
    have hne := hother p' List.mem_cons_self
    have hzero := Stock.copies_drop_zero (k := .retry) (p := p') h
    unfold Stock.promote Stock.route
    split
    · next t ht =>
      have hdata : t.data = p' := data_of_dueTarget ht
      unfold Stock.push
      rw [hdata]
      split
      · rw [Stock.copies_trust, Stock.copies_put_other hne, hzero]
      · rw [Stock.copies_put_other hne, hzero]
    · exact hzero

end Promote

theorem dueTarget_of_shallow (cj : Cjson) {j : Job} (h : j.toJson.depth ≤ cjsonMaxDepth) :
    dueTarget cj j.marshal = some ⟨j.queue, j.marshal, none⟩ := by
  obtain ⟨v, hdecode⟩ := cj.decode_shallow _ h
  change cj.decode j.marshal = some v at hdecode
  obtain ⟨htable, -, -, hqueue, -⟩ := Cjson.decode_marshal hdecode
  simp [dueTarget, hdecode, htable, queueOf, hqueue]

theorem mem_zrange_of_le {z : List (String × ℤ)} {score max : ℤ} {limit : ℕ}
    (h : (p, score) ∈ z) (hle : score ≤ max) (hlimit : z.length ≤ limit) :
    p ∈ zrange z max limit := by
  have hlength : ((z.filter fun e => e.2 ≤ max).insertionSort zle).length ≤ limit := by
    rw [List.length_insertionSort]
    exact (List.length_filter_le _ z).trans hlimit
  refine List.mem_map.mpr ⟨(p, score), ?_, rfl⟩
  rw [List.take_of_length_le hlength]
  exact (List.perm_insertionSort zle _).mem_iff.mpr
    (List.mem_filter.mpr ⟨h, by simpa using hle⟩)

theorem Sole.enqueueScheduled (cj : Cjson) {id : String} {db : Db Key} {k : Key}
    (hdb : WellTyped db) (h : Sole id (stock db) k p) (limit : ℕ) (now : ℤ) :
    Sole id (stock ((Senna.enqueueScheduled cj .retry limit now).run db).db) k p ∧
        (k = .retry → p ∉ zrange (db.zset .retry) now limit) ∨
      k = .retry ∧ ((∃ t, dueTarget cj p = some t ∧
          Sole id (stock ((Senna.enqueueScheduled cj .retry limit now).run db).db)
            (.queue t.queue) p) ∨
        (dueTarget cj p = none ∧
          (stock ((Senna.enqueueScheduled cj .retry limit now).run db).db).copies id = 0)) := by
  have hkind : Key.retry.kind = .zset := rfl
  rw [(stock_enqueueScheduled hdb hkind limit now).2]
  have hsub := zrange_subperm (db.zset .retry) now limit
  -- what is in the range is in the set, and nothing is there more often than in the set
  have hmem : ∀ q ∈ zrange (db.zset .retry) now limit, q ∈ (stock db).stored .retry := by
    intro q hq
    rw [stored_zset db hkind]
    exact Multiset.mem_coe.mpr (hsub.subset hq)
  have hcount : (zrange (db.zset .retry) now limit).count p ≤ 1 := by
    have hone := h.single.count_le (k := .retry) h.payload
    rw [stored_zset db hkind, Multiset.coe_count] at hone
    exact (hsub.count_le p).trans hone
  have hall : ∀ q ∈ zrange (db.zset .retry) now limit,
      payloadID q = some id → k = .retry ∧ q = p := by
    intro q hq hid
    obtain ⟨hk, hqp⟩ := h.eq_of_mem (hmem q hq) hid
    exact ⟨hk.symm, hqp⟩
  by_cases hin : p ∈ zrange (db.zset .retry) now limit
  · obtain ⟨rfl, -⟩ := hall p hin h.payload
    right
    refine ⟨rfl, ?_⟩
    obtain ⟨before, after, hsplit⟩ := List.append_of_mem hin
    rw [hsplit, List.count_append, List.count_cons_self] at hcount
    have hbefore : ∀ q ∈ before, payloadID q ≠ some id := by
      intro q hq hid
      have heq := (hall q (hsplit ▸ List.mem_append_left _ hq) hid).2
      have := List.count_pos_iff.mpr (heq ▸ hq)
      omega
    have hafter : ∀ q ∈ after, payloadID q ≠ some id := by
      intro q hq hid
      have heq := (hall q (hsplit ▸ List.mem_append_right _ (List.mem_cons_of_mem _ hq)) hid).2
      have := List.count_pos_iff.mpr (heq ▸ hq)
      omega
    rw [hsplit, List.foldl_append, List.foldl_cons]
    rcases (h.foldl_promote_other cj hbefore).promote_self cj with
      ⟨t, ht, hmoved⟩ | ⟨hnone, hgone⟩
    · exact Or.inl ⟨t, ht, hmoved.foldl_promote_other cj hafter⟩
    · exact Or.inr ⟨hnone, copies_foldl_promote_zero cj hgone hafter⟩
  · refine Or.inl ⟨h.foldl_promote_other cj fun q hq hid => ?_, fun _ => hin⟩
    exact hin ((hall q hq hid).2 ▸ hq)

/-! ### The payloads of the rounds -/

section Rounds

variable (job : Job) (n : ℕ)

/-- What the payload of the job says after `n` executions. -/
structure Round (j : Job) : Prop where
  id : j.id = job.id
  retry : j.retry = job.retry
  retryCount : j.retryCount = n
  unmarked : j.finalization = none
  /-- The arguments are those the job was enqueued with, or what a worker has read of them. -/
  args : j.args = job.args ∨ j.args = job.args.map goMembers

variable {job n} {j j' later : Job}

theorem map_goMembers_idem (args : Args) :
    (args.map goMembers).map goMembers = args.map goMembers := by
  cases args with
  | none => rfl
  | some ms => exact congrArg some (Json.obj.inj (goValue_goValue (.obj ms)))

theorem depth_map_goMembers_le (args : Args) :
    (Args.toJson (args.map goMembers)).depth ≤ args.toJson.depth := by
  cases args with
  | none => exact le_rfl
  | some ms => exact depth_goValue_le (.obj ms)

namespace Round

variable (h : Round job n j)

include h

theorem retryLimit_eq (opts : Option JobOptions) : retryLimit j opts = retryLimit job opts := by
  cases opts with
  | none => exact h.retry
  | some o => exact congrArg (min · o.maxRetries) h.retry

theorem depth_args_le : j.args.toJson.depth ≤ job.args.toJson.depth := by
  rcases h.args with hsame | hread
  · rw [hsame]
  · rw [hread]
    exact depth_map_goMembers_le job.args

theorem depth_le {d : ℕ} (hd : max job.args.toJson.depth 1 + 1 ≤ d) : j.toJson.depth ≤ d :=
  (Job.depth_toJson_le j).trans
    ((Nat.succ_le_succ (max_le_max h.depth_args_le le_rfl)).trans hd)

theorem read (hread : unmarshalJob j.marshal = some j') : Round job n j' := by
  obtain rfl := unmarshalJob_marshal hread
  refine ⟨h.id, h.retry, h.retryCount, h.unmarked, Or.inr ?_⟩
  change j.args.map goMembers = _
  rcases h.args with hsame | hread
  · rw [hsame]
  · rw [hread, map_goMembers_idem]

theorem continues (hnext : j.Continues later)
    (hcount : later.retryCount = j.retryCount + 1) : Round job (n + 1) later where
  id := hnext.id.trans h.id
  retry := hnext.retry.trans h.retry
  retryCount := by rw [hcount, h.retryCount]; rfl
  unmarked := hnext.unmarked
  args := hnext.args.symm ▸ h.args

theorem readable_next {payload : String} {opts : Option JobOptions}
    (hread : unmarshalJob payload = some j) (hnext : j.Continues later)
    (hcount : later.retryCount = j.retryCount + 1) (hlt : j.retryCount < retryLimit j opts) :
    ∃ j', unmarshalJob later.marshal = some j' := by
  have hsane := sane_of_unmarshalJob hread
  have hretry : retryLimit j opts ≤ j.retry := by
    cases opts with
    | none => exact le_rfl
    | some o => exact min_le_left _ _
  have hlater : later.Sane := by
    refine ⟨hnext.retry.symm ▸ hsane.retry, ?_, hnext.uniqueTTL.symm ▸ hsane.uniqueTTL, ?_⟩
    · -- the count stays below a limit that is an `int`
      have hbounds := hsane.retry
      have hzero := h.retryCount
      unfold InInt64 at hbounds ⊢
      omega
    · rw [hnext.args]
      exact hsane.args
  have hdepth : later.toJson.depth ≤ maxNestingDepth := by
    have hargs := depth_args_of_unmarshalJob hread
    refine (Job.depth_toJson_le _).trans (Nat.succ_le_of_lt (Nat.max_lt.mpr ⟨?_, by decide⟩))
    rw [hnext.args]
    exact hargs
  exact ⟨_, unmarshalJob_marshal_of_sane hlater hdepth⟩

end Round

end Rounds

/-! ### The invariant -/

def budget (job : Job) (opts : Option JobOptions) : ℕ := (retryLimit job opts).toNat

/-- The worker can read the payload, and so can the script that promotes it, if it is ever to be
promoted. -/
structure Survives (job : Job) (opts : Option JobOptions) : Prop where
  readable : ∃ j, unmarshalJob job.marshal = some j
  shallow : 0 < retryLimit job opts → max job.args.toJson.depth 1 + 1 ≤ cjsonMaxDepth

section Invariant

variable (job : Job) (opts : Option JobOptions)

/-- Where the copy of the job is after `n` executions. -/
inductive Phase (db : Db Key) (n : ℕ) : Option (String × Job) → Prop where
  /-- On a queue, or in the retry set. -/
  | waiting {k : Key} {j j' : Job} (hkey : k = .retry ∧ 1 ≤ n ∨ ∃ queue, k = .queue queue)
      (hround : Round job n j) (hread : unmarshalJob j.marshal = some j')
      (hsole : Sole job.id (stock db) k j.marshal) (hle : n ≤ budget job opts) : Phase db n none
  /-- In flight, with the worker that processes it. -/
  | held {worker p : String} {j : Job} (hround : Round job n j) (hread : unmarshalJob p = some j)
      (hsole : Sole job.id (stock db) (.inFlight worker) p) (hle : n ≤ budget job opts) :
      Phase db n (some (worker, j.readFrom p))
  /-- In the dead set. -/
  | buried {p : String} (hsole : Sole job.id (stock db) .dead p) (hlast : n = budget job opts + 1) :
      Phase db n none

/-- **The executions so far are numbered**, and the copy of the job is where their number says. -/
structure Going (s : World) : Prop where
  typed : WellTyped s.db
  seen : s.seen = (List.range s.seen.length).map Nat.cast
  phase : Phase job opts s.db s.seen.length s.running

/-- After execution number `n` the job is in the retry set, or in the dead set if it was the last
one. -/
structure Attempted (n : ℕ) (s : World) : Prop where
  typed : WellTyped s.db
  idle : s.running = none
  seen : s.seen = (List.range (n + 1)).map Nat.cast
  place : n < budget job opts ∧ (∃ j j', Round job (n + 1) j ∧ unmarshalJob j.marshal = some j' ∧
      Sole job.id (stock s.db) .retry j.marshal) ∨
    n = budget job opts ∧ ∃ p, Sole job.id (stock s.db) .dead p

/-- A new job that was enqueued. -/
structure Start (s : World) : Prop where
  typed : WellTyped s.db
  unseen : s.seen = []
  idle : s.running = none
  retryCount : job.retryCount = 0
  unmarked : job.finalization = none
  sole : Sole job.id (stock s.db) (.queue job.queue) job.marshal

variable {job opts} {s : World}

theorem Start.going (h : Start job s) (hread : ∃ j, unmarshalJob job.marshal = some j) :
    Going job opts s := by
  obtain ⟨j', hread⟩ := hread
  have hround : Round job 0 job := ⟨rfl, rfl, h.retryCount, h.unmarked, Or.inl rfl⟩
  refine ⟨h.typed, by simp [h.unseen], ?_⟩
  rw [h.unseen, h.idle]
  exact .waiting (Or.inr ⟨_, rfl⟩) hround hread h.sole (Nat.zero_le _)

theorem Attempted.length_seen {n : ℕ} (h : Attempted job opts n s) : s.seen.length = n + 1 := by
  rw [h.seen, List.length_map, List.length_range]

theorem Attempted.going {n : ℕ} (h : Attempted job opts n s) : Going job opts s := by
  refine ⟨h.typed, by rw [h.length_seen]; exact h.seen, ?_⟩
  rw [h.length_seen, h.idle]
  rcases h.place with ⟨hlt, j, j', hround, hread, hsole⟩ | ⟨hlast, p, hsole⟩
  · exact .waiting (Or.inl ⟨rfl, Nat.le_add_left 1 _⟩) hround hread hsole hlt
  · exact .buried hsole (congrArg (· + 1) hlast)

end Invariant

/-! ### One step -/

section Step

variable (cj : Cjson) {handler : Handler} {job : Job} {opts : Option JobOptions} {s : World}

theorem Phase.congr {db db' : Db Key} {n : ℕ} {running : Option (String × Job)}
    (h : Phase job opts db n running) (hsame : ∀ k p, payloadID p = some job.id →
      ((stock db').stored k).count p = ((stock db).stored k).count p) :
    Phase job opts db' n running := by
  cases h with
  | waiting hkey hround hread hsole hle => exact .waiting hkey hround hread (hsole.congr hsame) hle
  | held hround hread hsole hle => exact .held hround hread (hsole.congr hsame) hle
  | buried hsole hlast => exact .buried (hsole.congr hsame) hlast

theorem Going.fetch (handler : Handler) (h : Going job opts s) (w : Setting)
    (hp : s.Permits job.id (.fetch w queue)) :
    s.running = none ∧ s.seen.length ≤ budget job opts ∧
      (w.sequential queue = true ∧ s.step cj handler (.fetch w queue) = s ∨
        ∃ j p db', unmarshalJob p = some j ∧ Round job s.seen.length j ∧ WellTyped db' ∧
          Sole job.id (stock db') (.inFlight w.worker) p ∧
          s.step cj handler (.fetch w queue) =
            { s with db := db', running := some (w.worker, j.readFrom p) }) := by
  obtain ⟨htyped, hseen, hphase⟩ := h
  obtain ⟨p, hlast, hid⟩ := hp
  have hmem : p ∈ (stock s.db).stored (.queue queue) := by
    rw [stored_queue]
    exact Multiset.mem_coe.mpr (List.mem_of_getLast? hlast)
  generalize hn : s.seen.length = n at hphase ⊢
  generalize hrunning : s.running = running at hphase
  cases hphase with
  | @waiting k j j' hkey hround hread hsole hle =>
    refine ⟨rfl, hle, ?_⟩
    obtain ⟨rfl, rfl⟩ := hsole.eq_of_mem hmem hid
    have hheld : held cj (trustedIn s.db) j.marshal = some j.marshal :=
      held_of_unmarked hround.unmarked
    rcases run_fetchScript htyped w hlast hheld with ⟨hsequential, hrun⟩ | ⟨db', hrun, htyped', hst⟩
    · exact Or.inl ⟨hsequential, by rw [World.step, hrun]; rfl⟩
    · refine Or.inr ⟨j', _, db', hread, hround.read hread, htyped',
        .of_put hsole.copies_take hsole.payload fun k => by rw [hst], ?_⟩
      rw [World.step, hrun, World.fetched, hread]
  | held hround hread hsole hle | buried hsole hlast => cases (hsole.eq_of_mem hmem hid).1

/-- **An execution.** -/
theorem Going.process (hfail : Failing handler opts) (h : Going job opts s) {w : Setting}
    {job' : Job} (hrunning : s.running = some (w.worker, job')) (rounds : ℕ) :
    Attempted job opts s.seen.length (s.process handler w rounds job') := by
  obtain ⟨htyped, hseen, hphase⟩ := h
  generalize s.seen.length = n at hphase hseen ⊢
  rw [hrunning] at hphase
  cases hphase with
  | @held _ p j hround hread hsole hle =>
    have hstored : ∀ k, (stock s.db).stored k =
        (((stock s.db).take (.inFlight w.worker) p).put (.inFlight w.worker) p).stored k := by
      intro k
      rw [Stock.stored_put, Stock.stored_take, Stock.stored_take]
      split
      · next hk => rw [if_pos rfl, hk, Multiset.cons_erase hsole.mem]
      · rfl
    have hhand : Hand w ((stock s.db).take (.inFlight w.worker) p) p (j.readFrom p)
        (s.env (j.readFrom p)) :=
      ⟨htyped, hstored, rfl, if_pos (@raw_ne_empty (j.readFrom p) ⟨j, hread⟩)⟩
    -- what is stored is the only copy, for there is none besides the one in flight
    have hshelved : ∀ {k : Key} {q : String} {env : Env}, payloadID q = some job.id →
        Shelved ((stock s.db).take (.inFlight w.worker) p) k q env →
        WellTyped env.db ∧ Sole job.id (stock env.db) k q := fun hq hshelved =>
      ⟨hshelved.typed, .of_put (Stock.copies_drop_zero hsole.copies_take) hq hshelved.remains⟩
    have hid : ∀ j' : Job, j'.id = j.id → payloadID j'.marshal = some job.id := by
      intro j' heq
      rw [payloadID_marshal, heq, hround.id]
    have hexecuted : (s.process handler w rounds (j.readFrom p)).seen =
        (List.range (n + 1)).map Nat.cast := by
      refine (if_pos hround.unmarked).trans ?_
      rw [show (j.readFrom p).retryCount = n from hround.retryCount, hseen, List.range_succ,
        List.map_append]
      rfl
    have hcount := hround.retryCount
    have hlimit := hround.retryLimit_eq opts
    unfold budget at hle
    rcases processJob_failing hfail hread hround.unmarked hhand rounds with
      ⟨hlt, next, hnext, hcount', hout⟩ | ⟨hge, dead, hdead, hout⟩
    · obtain ⟨htyped', hsole'⟩ := hshelved (hid next hnext.id) hout
      obtain ⟨j', hread'⟩ := hround.readable_next hread hnext hcount' hlt
      refine ⟨htyped', rfl, hexecuted, Or.inl ⟨?_, next, j', hround.continues hnext hcount',
        hread', hsole'⟩⟩
      unfold budget
      omega
    · obtain ⟨htyped', hsole'⟩ := hshelved (hid dead hdead) hout
      refine ⟨htyped', rfl, hexecuted, Or.inr ⟨?_, _, hsole'⟩⟩
      unfold budget
      omega

theorem Going.promote (handler : Handler) (hsurvives : Survives job opts) (h : Going job opts s)
    (limit : ℕ) (now : ℤ) :
    Going job opts (s.step cj handler (.promote limit now)) := by
  obtain ⟨htyped, hseen, hphase⟩ := h
  have htyped' := (@stock_enqueueScheduled cj _ htyped .retry rfl limit now).1
  refine ⟨htyped', hseen, ?_⟩
  change Phase job opts ((enqueueScheduled cj .retry limit now).run s.db).db s.seen.length s.running
  generalize s.seen.length = n at hphase ⊢
  generalize s.running = running at hphase ⊢
  cases hphase with
  | waiting hkey hround hread hsole hle =>
    rcases hsole.enqueueScheduled cj htyped limit now with
      ⟨hsole', -⟩ | ⟨rfl, ⟨t, -, hsole'⟩ | ⟨hnone, -⟩⟩
    · exact .waiting hkey hround hread hsole' hle
    · exact .waiting (Or.inr ⟨_, rfl⟩) hround hread hsole' hle
    · -- a job that waits for a retry has a budget, so the script can read it
      obtain ⟨-, hn⟩ | ⟨queue, hqueue⟩ := hkey
      · have hlimit : 0 < retryLimit job opts := by unfold budget at hle; omega
        rw [dueTarget_of_shallow cj (hround.depth_le (hsurvives.shallow hlimit))] at hnone
        cases hnone
      · cases hqueue
  | held hround hread hsole hle =>
    rcases hsole.enqueueScheduled cj htyped limit now with ⟨hsole', -⟩ | ⟨hkey, -⟩
    · exact .held hround hread hsole' hle
    · cases hkey
  | buried hsole hlast =>
    rcases hsole.enqueueScheduled cj htyped limit now with ⟨hsole', -⟩ | ⟨hkey, -⟩
    · exact .buried hsole' hlast
    · cases hkey

theorem Going.step_fetch (handler : Handler) (h : Going job opts s) {w : Setting}
    (hp : s.Permits job.id (.fetch w queue)) :
    Going job opts (s.step cj handler (.fetch w queue)) := by
  obtain ⟨-, hle, ⟨-, hstep⟩ | ⟨j, p, db', hread, hround, htyped, hsole, hstep⟩⟩ :=
    h.fetch cj handler w hp
  · exact hstep.symm ▸ h
  · rw [hstep]
    exact ⟨htyped, h.seen, .held hround hread hsole hle⟩

theorem Going.step_elsewhere (handler : Handler) (h : Going job opts s) {db : Db Key}
    {batches : String → Option Batch}
    {callbackJobs : List Batch.CallbackJob}
    (hp : s.Permits job.id (.elsewhere db batches callbackJobs)) :
    Going job opts (s.step cj handler (.elsewhere db batches callbackJobs)) :=
  ⟨hp.1, h.seen, h.phase.congr hp.2⟩

/-- **Every label keeps the invariant.** -/
theorem Going.step (hfail : Failing handler opts) (hsurvives : Survives job opts)
    (h : Going job opts s) {e : Event} (hp : s.Permits job.id e) :
    Going job opts (s.step cj handler e) := by
  cases e with
  | fetch w queue => exact h.step_fetch cj handler hp
  | process w rounds =>
    obtain ⟨job', hrunning⟩ := hp
    simp only [World.step, hrunning]
    exact (h.process hfail hrunning rounds).going
  | promote limit now => exact h.promote cj handler hsurvives limit now
  | elsewhere db batches callbackJobs => exact h.step_elsewhere cj handler hp

/-! ### Another execution is always possible -/

theorem reaches_step {e : Event} {P : World → Prop} (hp : s.Permits job.id e)
    (h : (machine cj handler job.id).Reaches (s.step cj handler e) P) :
    (machine cj handler job.id).Reaches s P :=
  @Machine.Reaches.step _ _ (machine cj handler job.id) s P e hp h

theorem Going.reaches_of_running (hfail : Failing handler opts) (h : Going job opts s)
    {worker : String} {job' : Job} (hrunning : s.running = some (worker, job')) :
    (machine cj handler job.id).Reaches s (Attempted job opts s.seen.length) := by
  have hp : s.Permits job.id (.process (.fixed worker) 0) := ⟨job', hrunning⟩
  refine reaches_step cj hp (.here ?_)
  simp only [World.step, hrunning]
  exact h.process hfail (w := .fixed worker) hrunning 0

theorem Going.reaches_of_queue (hfail : Failing handler opts) (h : Going job opts s)
    (hsole : Sole job.id (stock s.db) (.queue queue) p) :
    (machine cj handler job.id).Reaches s (Attempted job opts s.seen.length) := by
  have hmem : p ∈ s.db.list (.queue queue) := Multiset.mem_coe.mp hsole.mem
  let db' := s.db.putList (.queue queue) ((s.db.list (.queue queue)).erase p ++ [p])
  have hstock : stock db' = stock s.db := by
    have hperm : ((s.db.list (.queue queue)).erase p ++ [p]).Perm (s.db.list (.queue queue)) :=
      (List.perm_append_singleton p _).trans (List.perm_cons_erase hmem).symm
    rw [stock_putList s.db rfl, Multiset.coe_eq_coe.mpr hperm]
    exact Stock.ext (fun k => by simp +contextual [Stock.stored_fill]) fun _ => rfl
  have helsewhere : s.Permits job.id (.elsewhere db' s.batches s.callbackJobs) :=
    ⟨h.typed.putList rfl _, fun k p _ => by rw [hstock]⟩
  refine reaches_step cj helsewhere ?_
  have hgoing := h.step_elsewhere cj handler helsewhere
  set s' := s.step cj handler (.elsewhere db' s.batches s.callbackJobs) with hs'
  have hfetch : s'.Permits job.id (.fetch (.fixed "w") queue) := by
    refine ⟨p, ?_, hsole.payload⟩
    change (db'.list (.queue queue)).getLast? = some p
    simp [db']
  obtain ⟨-, -, ⟨hsequential, -⟩ | ⟨j, p', db'', hread, hround, htyped, hsole', hstep⟩⟩ :=
    hgoing.fetch cj handler (.fixed "w") hfetch
  · cases hsequential
  · have hheld := hgoing.step_fetch cj handler hfetch
    refine reaches_step cj hfetch ?_
    rw [hstep] at hheld ⊢
    exact hheld.reaches_of_running cj hfail rfl

theorem Going.promote_due (handler : Handler) (h : Going job opts s)
    (hsole : Sole job.id (stock s.db) .retry p) : ∃ limit now,
      (∃ t, dueTarget cj p = some t ∧
        Sole job.id (stock (s.step cj handler (.promote limit now)).db) (.queue t.queue) p) ∨
      (dueTarget cj p = none ∧
        (stock (s.step cj handler (.promote limit now)).db).copies job.id = 0) := by
  have hmem : p ∈ (s.db.zset .retry).map Prod.fst := Multiset.mem_coe.mp hsole.mem
  obtain ⟨⟨_, score⟩, hscore, rfl⟩ := List.mem_map.mp hmem
  refine ⟨(s.db.zset .retry).length, score, ?_⟩
  rcases hsole.enqueueScheduled cj h.typed (s.db.zset .retry).length score with
    ⟨-, hnot⟩ | ⟨-, hpromoted⟩
  · exact absurd (mem_zrange_of_le hscore le_rfl le_rfl) (hnot rfl)
  · exact hpromoted

theorem Going.reaches_attempt (hfail : Failing handler opts) (hsurvives : Survives job opts)
    (h : Going job opts s) (hle : s.seen.length ≤ budget job opts) :
    (machine cj handler job.id).Reaches s (Attempted job opts s.seen.length) := by
  have hphase := h.phase
  generalize hn : s.seen.length = n at hphase
  generalize hrunning : s.running = running at hphase
  cases hphase with
  | @waiting k j j' hkey hround hread hsole hle' =>
    rcases hkey with ⟨rfl, hpos⟩ | ⟨queue, rfl⟩
    · have hlimit : 0 < retryLimit job opts := by unfold budget at hle'; omega
      have htarget := dueTarget_of_shallow cj (hround.depth_le (hsurvives.shallow hlimit))
      obtain ⟨limit, now, ⟨t, -, hsole'⟩ | ⟨hnone, -⟩⟩ := h.promote_due cj handler hsole
      · have hgoing := h.promote cj handler hsurvives limit now
        exact reaches_step cj (e := .promote limit now) trivial
          (hn ▸ hgoing.reaches_of_queue cj hfail hsole')
      · rw [htarget] at hnone
        cases hnone
    · exact hn ▸ h.reaches_of_queue cj hfail hsole
  | held hround hread hsole hle' => exact hn ▸ h.reaches_of_running cj hfail hrunning
  | buried hsole hlast => omega

theorem Going.reaches_last (hfail : Failing handler opts) (hsurvives : Survives job opts)
    (h : Going job opts s) (hle : s.seen.length ≤ budget job opts + 1) :
    (machine cj handler job.id).Reaches s fun s' => s'.seen.length = budget job opts + 1 := by
  obtain ⟨left, hleft⟩ := Nat.exists_eq_add_of_le hle
  -- by the number of executions that are left
  induction left generalizing s with
  | zero => exact .here hleft.symm
  | succ left ih =>
    refine (h.reaches_attempt cj hfail hsurvives (by omega)).trans fun s' hattempted => ?_
    have hlength := hattempted.length_seen
    exact ih hattempted.going (by omega) (by omega)

end Step

/-! ### The budget -/

/-- **The retry budget.** In every run the executions see the counts `0, 1, 2, …`, and there are
at most `budget + 1` of them. Until the last one the job has one copy, which is not in the dead
set, and after it the one copy is there. As long as the last execution has not taken place the run
can be continued up to it. -/
theorem retry_budget_of_survives (cj : Cjson) {handler : Handler} {opts : Option JobOptions}
    (hfail : Failing handler opts) {job : Job} (hsurvives : Survives job opts) {s : World}
    (hstart : Start job s) {es : List Event} (legal : (machine cj handler job.id).Legal s es) :
    let s' := (machine cj handler job.id).run s es
    s'.seen = (List.range s'.seen.length).map Nat.cast ∧
      (s'.seen.length : ℤ) ≤ max 0 (retryLimit job opts) + 1 ∧
      ((s'.seen.length : ℤ) < max 0 (retryLimit job opts) + 1 →
        ∃ k, k ≠ .dead ∧ (stock s'.db).copies job.id = Pi.single k 1) ∧
      ((s'.seen.length : ℤ) = max 0 (retryLimit job opts) + 1 →
        (stock s'.db).copies job.id = Pi.single .dead 1) ∧
      (machine cj handler job.id).Reaches s' fun s'' =>
        (s''.seen.length : ℤ) = max 0 (retryLimit job opts) + 1 := by
  intro s'
  have hgoing : Going job opts s' := legal.invariant (I := Going job opts)
    (fun _ _ hgoing hp => hgoing.step cj hfail hsurvives hp) (hstart.going hsurvives.readable)
  have hbudget : max 0 (retryLimit job opts) = (budget job opts : ℤ) := by unfold budget; omega
  rw [hbudget]
  have hphase := hgoing.phase
  have hplace : s'.seen.length ≤ budget job opts ∧
        (∃ k, k ≠ .dead ∧ (stock s'.db).copies job.id = Pi.single k 1) ∨
      s'.seen.length = budget job opts + 1 ∧ (stock s'.db).copies job.id = Pi.single .dead 1 := by
    generalize s'.seen.length = n at hphase ⊢
    generalize s'.running = running at hphase
    cases hphase with
    | waiting hkey hround hread hsole hle =>
      refine Or.inl ⟨hle, _, ?_, hsole.copies⟩
      rcases hkey with ⟨rfl, -⟩ | ⟨queue, rfl⟩ <;> exact Key.noConfusion
    | held hround hread hsole hle => exact Or.inl ⟨hle, _, Key.noConfusion, hsole.copies⟩
    | buried hsole hlast => exact Or.inr ⟨hlast, hsole.copies⟩
  have hle : s'.seen.length ≤ budget job opts + 1 := by omega
  obtain ⟨es', hlegal', hlength⟩ := hgoing.reaches_last cj hfail hsurvives hle
  refine ⟨hgoing.seen, by omega, ?_, ?_, es', hlegal', by omega⟩
  · rintro hlt
    rcases hplace with ⟨-, hk⟩ | ⟨hlast, -⟩
    · exact hk
    · omega
  · rintro hlast
    rcases hplace with ⟨hle', -⟩ | ⟨-, hdead⟩
    · omega
    · exact hdead

def enqueued (job : Job) : World where
  db := Db.putList (fun _ => none) (.queue job.queue) [job.marshal]
  batches := fun _ => none
  callbackJobs := []
  running := none
  seen := []

theorem start_enqueued {job : Job} (hcount : job.retryCount = 0)
    (hunmarked : job.finalization = none) : Start job (enqueued job) := by
  have hempty : ∀ k, (stock fun _ => none).stored k = 0 := by
    intro k
    change payloadsOf k none = 0
    unfold payloadsOf
    split <;> rfl
  have hzero : (stock fun _ => none).copies job.id = 0 := by
    refine Stock.copies_eq_zero.mpr fun k p hp => ?_
    rw [hempty k] at hp
    exact absurd hp (Multiset.notMem_zero p)
  refine ⟨WellTyped.empty.putList rfl _, rfl, rfl, hcount, hunmarked, .of_put hzero
    (payloadID_marshal job) fun k => ?_⟩
  rw [enqueued, stock_putList _ rfl, Stock.stored_fill, Stock.stored_put, hempty, hempty]
  rfl

def alwaysFails (opts : Option JobOptions) : Handler where
  run job := ⟨job, some ⟨"failed", false, none, none⟩, opts, false⟩
  raw_run _ := rfl
  finalization_run _ := rfl

theorem failing_alwaysFails {opts : Option JobOptions} (h : ∀ o ∈ opts, o.retryBackoff = none) :
    Failing (alwaysFails opts) opts where
  fails _ := ⟨_, rfl, rfl, rfl, rfl⟩
  options _ := rfl
  backoff o ho := by rw [h o ho]; rfl
  leaves job := ⟨job.processedAt, job.args, job.encrypted, rfl, fun hplain => ⟨rfl, hplain⟩⟩

def twiceJob : Job := { Job.plain "j" "q" with retry := 2 }

def onceOptions : Option JobOptions := some ⟨1, none⟩

theorem retry_budget_of_survives_twiceJob :
    ∃ es, (machine .plain (alwaysFails onceOptions) "j").Legal (enqueued twiceJob) es ∧
      (((machine .plain (alwaysFails onceOptions) "j").run (enqueued twiceJob) es).seen.length : ℤ) =
        2 := by
  have hsurvives : Survives twiceJob onceOptions :=
    ⟨⟨_, unmarshalJob_of_args_eq_none rfl (by decide) (by decide) (by decide)⟩, fun _ => by decide⟩
  exact (retry_budget_of_survives .plain
    (failing_alwaysFails (by rintro o ⟨⟩; rfl)) hsurvives (start_enqueued rfl rfl)
    (Machine.legal_nil _ _)).2.2.2.2

/-! ### Jobs that a promotion drops -/

/-- No worker has the job, and there is no copy of it. -/
structure Gone (id : String) (s : World) : Prop where
  typed : WellTyped s.db
  idle : s.running = none
  copies : (stock s.db).copies id = 0

theorem Gone.step {cj : Cjson} {handler : Handler} {id : String} {s : World} (h : Gone id s)
    {e : Event} (hp : s.Permits id e) :
    Gone id (s.step cj handler e) ∧ (s.step cj handler e).seen = s.seen := by
  have hnone := Stock.copies_eq_zero.mp h.copies
  cases e with
  | fetch w queue =>
    obtain ⟨p, hlast, hid⟩ := hp
    refine absurd hid (hnone (.queue queue) p ?_)
    rw [stored_queue]
    exact Multiset.mem_coe.mpr (List.mem_of_getLast? hlast)
  | process w rounds =>
    obtain ⟨job, hrunning⟩ := hp
    rw [h.idle] at hrunning
    cases hrunning
  | promote limit now =>
    obtain ⟨htyped, hstock⟩ := @stock_enqueueScheduled cj _ h.typed .retry rfl limit now
    refine ⟨⟨htyped, h.idle, ?_⟩, rfl⟩
    change (stock ((enqueueScheduled cj .retry limit now).run s.db).db).copies id = 0
    rw [hstock]
    refine copies_foldl_promote_zero cj h.copies fun p hmem => hnone .retry p ?_
    rw [stored_zset s.db rfl]
    exact Multiset.mem_coe.mpr ((zrange_subperm _ now limit).subset hmem)
  | elsewhere db batches callbackJobs =>
    refine ⟨⟨hp.1, h.idle, Stock.copies_eq_zero.mpr fun k p hmem hid => ?_⟩, rfl⟩
    refine hnone k p (Multiset.count_pos.mp ?_) hid
    rw [← hp.2 k p hid]
    exact Multiset.count_pos.mpr hmem

/-- **A job that nests too deep for the promotion is executed once**, whatever its budget: it is
dropped on its way to the first retry. -/
theorem reaches_gone_of_deep {handler : Handler} {opts : Option JobOptions}
    (hfail : Failing handler opts) {job : Job} {s : World} (hstart : Start job s)
    (hread : ∃ j, unmarshalJob job.marshal = some j) (hlimit : 0 < retryLimit job opts)
    (hdeep : cjsonMaxDepth ≤ (Args.toJson (job.args.map goMembers)).depth) :
    (machine .plain handler job.id).Reaches s fun s' => s'.seen = [0] ∧ Gone job.id s' := by
  have hgoing : Going job opts s := hstart.going hread
  refine (hgoing.reaches_of_queue .plain hfail hstart.sole).trans fun s' hattempted => ?_
  rw [hstart.unseen] at hattempted
  obtain ⟨-, j, j', hround, -, hsole⟩ | ⟨hlast, -⟩ := hattempted.place
  · have hargs : cjsonMaxDepth ≤ j.args.toJson.depth := by
      rcases hround.args with hsame | hread
      · rw [hsame]
        exact hdeep.trans (depth_map_goMembers_le job.args)
      · rw [hread]
        exact hdeep
    have hnone : dueTarget .plain j.marshal = none := by
      rw [dueTarget, plain_decode_of_args hargs]
      rfl
    obtain ⟨limit, now, ⟨t, htarget, -⟩ | ⟨-, hgone⟩⟩ :=
      hattempted.going.promote_due .plain handler hsole
    · rw [hnone] at htarget
      cases htarget
    · refine reaches_step .plain (e := .promote limit now) trivial (.here ⟨hattempted.seen, ?_⟩)
      exact ⟨(@stock_enqueueScheduled .plain _ hattempted.typed .retry rfl limit now).1,
        hattempted.idle, hgone⟩
  · unfold budget at hlast
    rw [List.length_nil] at hlast
    omega

theorem goValue_nested (n : ℕ) : goValue (nested n) = nested n := by
  induction n with
  | zero => rfl
  | succ n ih => rw [nested, goValue, goItems_eq_map, List.map_singleton, ih]

/-- A job with one retry, which `encoding/json` reads and `cjson` does not. -/
def deepJob : Job := { Job.plain "j" "q" with retry := 1, args := deepArgs }

theorem deepJob_readable : ∃ j, unmarshalJob deepJob.marshal = some j :=
  unmarshalJob_deepArgs rfl (by decide) (by decide) (by decide)

/-- **The job is executed once where it should be executed twice.** It is in neither set and on no
queue afterwards, so no continuation executes it again or buries it. -/
theorem deepJob_executed_once :
    Failing (alwaysFails none) none ∧ Start deepJob (enqueued deepJob) ∧
      max 0 (retryLimit deepJob none) + 1 = 2 ∧
      ∃ es, (machine .plain (alwaysFails none) "j").Legal (enqueued deepJob) es ∧
        ∀ es', (machine .plain (alwaysFails none) "j").Legal (enqueued deepJob) (es ++ es') →
          ((machine .plain (alwaysFails none) "j").run (enqueued deepJob) (es ++ es')).seen = [0] ∧
          (stock ((machine .plain (alwaysFails none) "j").run (enqueued deepJob)
            (es ++ es')).db).copies "j" = 0 := by
  have hfail : Failing (alwaysFails none) none := failing_alwaysFails (by rintro o ⟨⟩)
  have hstart : Start deepJob (enqueued deepJob) := start_enqueued rfl rfl
  have hdeep : cjsonMaxDepth ≤ (Args.toJson (deepJob.args.map goMembers)).depth := by
    have hargs : Args.toJson (deepJob.args.map goMembers) = .obj [("x", nested cjsonMaxDepth)] := by
      simp [deepJob, deepArgs, Args.toJson, goMembers, insertMember, goValue_nested]
    rw [hargs, Json.depth_obj, Json.depthMembers_cons, depth_nested]
    omega
  obtain ⟨es, legal, hseen, hgone⟩ :=
    reaches_gone_of_deep hfail hstart deepJob_readable (by decide) hdeep
  refine ⟨hfail, hstart, rfl, es, legal, fun es' legal' => ?_⟩
  rw [Machine.legal_append] at legal'
  rw [Machine.run_append]
  have hend := legal'.2.invariant (I := fun s => Gone "j" s ∧ s.seen = [0])
    (fun s e h hp => ⟨(h.1.step hp).1, (h.1.step hp).2.trans h.2⟩) ⟨hgone, hseen⟩
  exact ⟨hend.2, hend.1.copies⟩

end Retries

end Senna
