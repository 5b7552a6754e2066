import Senna.Worker.Delivery

/-!
# What a step can do

The one place where the steps of `Worker.Delivery` are taken apart. `Moves` lists what a
step can do to the payloads and to the records, as operations on the `Stock`;
`NewThread` lists the threads it can add to the pool. `moves_step` and `threads_step`
say that these lists are complete. Every invariant of the system is proved from them, by
cases on the kind of move, and none of them unfolds a script again.

Most steps of stale or repeated threads find nothing to do: the payload they want to
finish is not in flight any more, and the script leaves everything as it is. All of
these are the one case `quiet`.
-/

namespace Senna

open Redis

/-- The payloads of the system and its records. -/
structure View where
  stock : Stock
  issued : List String
  acked : List String
  marked : List String

def World.view (s : World) : View := ⟨stock s.db, s.issued, s.acked, s.marked⟩

def Event.Fetches (e : Event) (worker queue : String) : Prop :=
  e = .fetch worker queue ∨ e = .sequentialFetch worker queue

def World.Raises (cj : Cjson) (s : World) : Event → Prop
  | .fetch worker queue => ∃ err db, (fetchJob cj queue worker).run s.db = .error err db
  | .sequentialFetch worker queue =>
    ∃ err db, (sequentialFetch cj queue worker).run s.db = .error err db
  | _ => False

/-- What a step does to payloads and records. Whether its script raises is given. -/
inductive Moves (cj : Cjson) (raises : Prop) (v : View) : Event → View → Prop where
  | quiet (e : Event) : Moves cj raises v e v
  | enqueue (job : Job) :
      Moves cj raises v (.enqueue job)
        { v with
          stock := v.stock.put (.queue job.queue) job.marshal
          issued := job.id :: v.issued }
  | enqueueAt (job : Job) (score : ℤ) :
      Moves cj raises v (.enqueueAt job score)
        { v with
          stock := (v.stock.drop .scheduled job.marshal).put .scheduled job.marshal
          issued := job.id :: v.issued }
  | push (queue payload : String) :
      Moves cj raises v (.push queue payload) { v with stock := v.stock.put (.queue queue) payload }
  | pushAt {k : Key} (hk : k = .scheduled ∨ k = .retry) (payload : String) (score : ℤ) :
      Moves cj raises v (.pushAt k payload score)
        { v with stock := (v.stock.drop k payload).put k payload }
  | promote {k : Key} (hk : k = .scheduled ∨ k = .retry) (now : ℤ) {items : List String}
      (hitems : (items : Multiset String) ≤ v.stock.stored k) :
      Moves cj raises v (.promote k now) { v with stock := items.foldl (Stock.promote cj k) v.stock }
  | claim {e : Event} {worker queue p p' : String} (he : e.Fetches worker queue)
      (hp : p ∈ v.stock.stored (.queue queue)) (hheld : held cj v.stock.trusted p = some p') :
      Moves cj raises v e
        { v with stock := (v.stock.take (.queue queue) p).put (.inFlight worker) p' }
  /-- `cjson.encode` raises in `fetch_job`. -/
  | lose {worker queue p : String} (hraises : raises)
      (hp : p ∈ v.stock.stored (.queue queue))
      (hheld : held cj v.stock.trusted p = none) :
      Moves cj raises v (.fetch worker queue) { v with stock := v.stock.take (.queue queue) p }
  /-- `cjson.encode` raises in `sequential_fetch`. -/
  | strand {worker queue p : String} (hraises : raises)
      (hp : p ∈ v.stock.stored (.queue queue))
      (hheld : held cj v.stock.trusted p = none) :
      Moves cj raises v (.sequentialFetch worker queue)
        { v with stock := (v.stock.take (.queue queue) p).put (.inFlight worker) p }
  | discard (t : Thread) :
      Moves cj raises v (.discard t) { v with stock := v.stock.take (.inFlight t.worker) t.payload }
  | sanitize {t : Thread} (hp : t.payload ∈ v.stock.stored (.inFlight t.worker)) :
      Moves cj raises v (.sanitize t)
        { v with
          stock := (v.stock.take (.inFlight t.worker) t.payload).put (.inFlight t.worker)
            t.sanitized.marshal }
  | requeue {t : Thread} {job durable : Job} (hdurable : durableJobPayload job = some durable)
      (hp : jobPayload job ∈ v.stock.stored (.inFlight t.worker)) :
      Moves cj raises v (.interrupted t job)
        { v with
          stock := (v.stock.take (.inFlight t.worker) (jobPayload job)).put (.queue job.queue)
            durable.marshal }
  | replace {t : Thread} {op : Operation} {p' : String} {k : Key}
      (hstage : t.stage = .finalizing op)
      (hp' : payloadWithFinalization (jobPayload t.job) op.finalization = some p')
      (hk : k = .inFlight t.worker ∨ k = .queue t.job.queue)
      (hp : jobPayload t.job ∈ v.stock.stored k) :
      Moves cj raises v (.mark t)
        { v with
          stock := ((v.stock.take k (jobPayload t.job)).put k p').trust t.job.id (some p')
          marked := p' :: v.marked }
  /-- The payload carries the marker already. -/
  | found {t : Thread} {op : Operation} {p' : String} {k : Key}
      (hstage : t.stage = .finalizing op)
      (hp' : payloadWithFinalization (jobPayload t.job) op.finalization = some p')
      (hk : k = .inFlight t.worker ∨ k = .queue t.job.queue) (hp : p' ∈ v.stock.stored k) :
      Moves cj raises v (.mark t)
        { v with
          stock := v.stock.trust t.job.id (some p')
          marked := p' :: v.marked }
  | ack {t : Thread} {now : Time}
      (hstage : t.stage = .calledBack .complete ∨
        ∃ retryAt : Time, t.stage = .progressed (.retry retryAt) ∧ retryAt.isZero = true)
      (hp : jobPayload t.job ∈ v.stock.stored (.inFlight t.worker)) :
      Moves cj raises v (.finish t now)
        { v with
          stock := (v.stock.take (.inFlight t.worker) (jobPayload t.job)).trust t.job.id none
          acked := t.job.id :: v.acked }
  | bury {t : Thread} {now : Time} {error : String} {dead : Job}
      (hstage : t.stage = .calledBack (.kill error)) (hdead : deadJob t.job now = some dead)
      (hp : jobPayload t.job ∈ v.stock.stored (.inFlight t.worker)) :
      Moves cj raises v (.finish t now)
        { v with
          stock := (((v.stock.take (.inFlight t.worker) (jobPayload t.job)).trust t.job.id
            none).drop .dead dead.marshal).put .dead dead.marshal }
  | retry {t : Thread} {now retryAt : Time} {next : Job}
      (hstage : t.stage = .progressed (.retry retryAt)) (hretryAt : retryAt.isZero = false)
      (hnext : nextJob t.job = some next)
      (hp : jobPayload t.job ∈ v.stock.stored (.inFlight t.worker)) :
      Moves cj raises v (.finish t now)
        { v with
          stock := (((v.stock.take (.inFlight t.worker) (jobPayload t.job)).trust t.job.id
            none).drop .retry next.marshal).put .retry next.marshal }
  | reap {worker : String} {ps : List String} (hps : v.stock.stored (.inFlight worker) = ps) :
      Moves cj raises v (.reap worker) { v with stock := ps.foldl (Stock.recover cj worker) v.stock }

def Event.Writes : Event → Job → Prop
  | .enqueue job, j | .enqueueAt job _, j => j = job
  | .sanitize t, j => j = t.sanitized
  | .interrupted _ job, j => durableJobPayload job = some j
  | .mark t, j => ∃ op job, t.stage = .finalizing op ∧ unmarshalJob (jobPayload t.job) = some job ∧
      j = { job with finalization := some op.finalization }
  | .finish t now, j =>
    (∃ retryAt, t.stage = .progressed (.retry retryAt) ∧ retryAt.isZero = false ∧
        nextJob t.job = some j) ∨
      ∃ error, t.stage = .calledBack (.kill error) ∧ deadJob t.job now = some j
  | _, _ => False

def Event.anchor : Event → Option String
  | .sanitize t => some t.payload
  | .interrupted _ job => some (jobPayload job)
  | .mark t | .finish t _ => some (jobPayload t.job)
  | _ => none

/-- Where a payload at a key was before a step: at a key from where it can have come, or it is
written by the step. A thread writes it in place of another one. -/
def Origin (v : View) (e : Event) (k : Key) (q : String) : Prop :=
  (∃ k', (k.Live → k'.Live) ∧ q ∈ v.stock.stored k') ∨
    ∃ j, e.Writes j ∧ q = j.marshal ∧
      (e.thread = none ∨
        ∃ t p k', e.thread = some t ∧ e.anchor = some p ∧ k'.Live ∧ p ∈ v.stock.stored k')

theorem origin_of_thread {cj : Cjson} {raises : Prop} {v v' : View} {e : Event} {t : Thread}
    {k : Key} {q : String} (hmoves : Moves cj raises v e v') (hthread : e.thread = some t)
    (hq : q ∈ v'.stock.stored k) : Origin v e k q := by
  have hold (h : q ∈ v.stock.stored k) : Origin v e k q := Or.inl ⟨k, id, h⟩
  have hnew {j : Job} {p : String} {c : Key} (hwrites : e.Writes j) (hj : q = j.marshal)
      (hanchor : e.anchor = some p) (hc : c.Live) (hp : p ∈ v.stock.stored c) : Origin v e k q :=
    Or.inr ⟨j, hwrites, hj, Or.inr ⟨t, p, c, hthread, hanchor, hc, hp⟩⟩
  cases hmoves with
  | quiet e | found hstage hp' hk hp => exact hold hq
  | claim he => obtain rfl | rfl := he <;> cases hthread
  | discard t | ack hstage hp => exact hold (Stock.mem_take hq)
  | @sanitize t hp =>
    obtain h | h := Stock.mem_put hq
    · exact hold (Stock.mem_take h)
    · exact hnew rfl h rfl (c := .inFlight t.worker) trivial hp
  | @requeue t job durable hdurable hp =>
    obtain h | h := Stock.mem_put hq
    · exact hold (Stock.mem_take h)
    · exact hnew hdurable h rfl (c := .inFlight t.worker) trivial hp
  | @replace t op p' k' hstage hp' hk' hp =>
    obtain h | rfl := Stock.mem_put hq
    · exact hold (Stock.mem_take h)
    · obtain ⟨job, hread, rfl⟩ := Option.map_eq_some_iff.mp hp'
      have hlive : k'.Live := by obtain rfl | rfl := hk' <;> trivial
      exact hnew ⟨op, job, hstage, hread, rfl⟩ rfl rfl hlive hp
  | @bury t now error dead hstage hdead hp =>
    obtain h | h := Stock.mem_put hq
    · exact hold (Stock.mem_take (Stock.mem_drop h))
    · exact hnew (Or.inr ⟨error, hstage, hdead⟩) h rfl (c := .inFlight t.worker) trivial hp
  | @retry t now retryAt next hstage hretryAt hnext hp =>
    obtain h | h := Stock.mem_put hq
    · exact hold (Stock.mem_take (Stock.mem_drop h))
    · exact hnew (Or.inl ⟨retryAt, hstage, hretryAt, hnext⟩) h rfl (c := .inFlight t.worker) trivial
        hp
  | _ => cases hthread

/-- The threads a step can add, from the views before and after it. -/
inductive NewThread (cj : Cjson) (v v' : View) : Event → Thread → Prop where
  | run {e : Event} {worker queue p p' : String} {job : Job} (he : e.Fetches worker queue)
      (hp : p ∈ v.stock.stored (.queue queue)) (hheld : held cj v.stock.trusted p = some p')
      (hread : unmarshalJob p' = some job) (hnone : job.finalization = none) :
      NewThread cj v v' e ⟨worker, queue, p', { job with raw := p' }, .running⟩
  | claimed {e : Event} {worker queue p p' : String} {job : Job} (he : e.Fetches worker queue)
      (hp : p ∈ v.stock.stored (.queue queue)) (hheld : held cj v.stock.trusted p = some p')
      (hread : unmarshalJob p' = some job) (hsome : job.finalization ≠ none) :
      NewThread cj v v' e ⟨worker, queue, p', job, .claimed⟩
  | undecodable {e : Event} {worker queue p p' : String} (he : e.Fetches worker queue)
      (hp : p ∈ v.stock.stored (.queue queue)) (hheld : held cj v.stock.trusted p = some p')
      (hread : unmarshalJob p' = none) :
      NewThread cj v v' e ⟨worker, queue, p', .zero, .undecodable⟩
  | typed {t : Thread} (hstage : t.stage = .claimed) :
      NewThread cj v v' (.readType t) { t with stage := .typed }
  | untyped {t : Thread} (hstage : t.stage = .claimed)
      (hnone : t.job.id = "" ∨ v.stock.trusted t.job.id = none) :
      NewThread cj v v' (.readType t) { t with stage := .distrusted }
  | trusted {t : Thread} (hstage : t.stage = .typed)
      (htrust : v.stock.trusted t.job.id = some t.payload) :
      NewThread cj v v' (.readTrust t) (t.process { t.job with raw := t.payload })
  | distrusted {t : Thread} (hstage : t.stage = .typed)
      (htrust : v.stock.trusted t.job.id ≠ some t.payload) :
      NewThread cj v v' (.readTrust t) { t with stage := .distrusted }
  | sanitized {t : Thread} (hstage : t.stage = .distrusted)
      (hp : t.sanitized.marshal = t.payload ∨ t.payload ∈ v.stock.stored (.inFlight t.worker)) :
      NewThread cj v v' (.sanitize t)
        { t with job := { t.sanitized with raw := t.sanitized.marshal }, stage := .running }
  | handled {t : Thread} (hstage : t.stage = .running) (job : Job) (op : Operation) :
      NewThread cj v v' (.handled t job op) (t.finalize (withError job op) op)
  | marked {t : Thread} {op : Operation} {p' : String} (hstage : t.stage = .finalizing op)
      (hp' : payloadWithFinalization (jobPayload t.job) op.finalization = some p')
      (hmarked : p' ∈ v'.marked) (htrusted : v'.stock.trusted t.job.id = some p') :
      NewThread cj v v' (.mark t)
        { t with
          job := { t.job with finalization := some op.finalization, raw := p' }
          stage := .recording op }
  | unmarked {t : Thread} {op : Operation} (hstage : t.stage = .finalizing op) :
      NewThread cj v v' (.mark t) { t with stage := .recording op }
  | progressed {t : Thread} {op : Operation} (hstage : t.stage = .recording op) :
      NewThread cj v v' (.progress t) { t with stage := .progressed op }
  | calledBack {t : Thread} {op : Operation} (hstage : t.stage = .progressed op) :
      NewThread cj v v' (.callback t) { t with stage := .calledBack op }

section Inversion

variable {cj : Cjson} {raises : Prop} {s : World} {e : Event} {v' : View}

theorem view_db {db' : Db Key} {st : Stock} (hstock : stock db' = st) :
    ({ s with db := db' } : World).view = { s.view with stock := st } := by
  rw [← hstock]
  rfl

theorem view_db_same {db' : Db Key} (hstock : stock db' = stock s.db) :
    ({ s with db := db' } : World).view = s.view := view_db hstock

theorem view_claim (worker queue payload : String) (sequential : Bool) :
    (s.claim worker queue payload sequential).view = s.view ∧
      (s.claim worker queue payload sequential).db = s.db := by
  unfold World.claim
  split
  · split <;> exact ⟨rfl, rfl⟩
  · split <;> exact ⟨rfl, rfl⟩

theorem moves_fetched {worker queue : String} {sequential : Bool} {stranded : String → Stock}
    {out : Outcome Key FetchReply} (heffect : FetchEffect cj s.db queue worker stranded out)
    (he : e.Fetches worker queue)
    (hraised : (∃ err db, out = .error err db) → ∀ p ∈ (stock s.db).stored (.queue queue),
      held cj (stock s.db).trusted p = none →
      Moves cj raises s.view e { s.view with stock := stranded p }) :
    WellTyped (s.fetched out worker queue sequential).db ∧
      Moves cj raises s.view e (s.fetched out worker queue sequential).view := by
  cases heffect with
  | @idle r db' hreply htyped hstock =>
    cases r with
    | job p => exact absurd rfl (hreply p)
    | empty | locked => exact ⟨htyped, (view_db_same hstock).symm ▸ .quiet e⟩
  | @claimed p p' db' hp hheld htyped hstock =>
    obtain ⟨hview, hdb⟩ := @view_claim { s with db := db' } worker queue p' sequential
    refine ⟨?_, ?_⟩
    · exact hdb.symm ▸ htyped
    · rw [World.fetched, hview, view_db hstock]
      exact .claim he hp hheld
  | @raised p err db' hp hheld htyped hstock =>
    refine ⟨htyped, ?_⟩
    change Moves cj raises s.view e ({ s with db := db' } : World).view
    rw [view_db hstock]
    exact hraised ⟨_, _, rfl⟩ p hp hheld

section

variable (hdb : WellTyped s.db)

include hdb

theorem moves_taken {worker payload : String} {st : Stock} {out : Outcome Key ℕ}
    (heffect : TakeEffect s.db worker payload st out)
    (hmove : payload ∈ (stock s.db).stored (.inFlight worker) →
      Moves cj raises s.view e { s.view with stock := st }) :
    WellTyped out.db ∧ Moves cj raises s.view e ({ s with db := out.db } : World).view := by
  cases heffect with
  | taken hp htyped hstock =>
    refine ⟨htyped, ?_⟩
    rw [Outcome.db_ok, view_db hstock]
    exact hmove hp
  | missed => exact ⟨hdb, .quiet _⟩

theorem moves_sanitize (t : Thread) :
    WellTyped (s.sanitize t).db ∧ Moves cj raises s.view (.sanitize t) (s.sanitize t).view := by
  unfold World.sanitize
  split
  · exact ⟨hdb, .quiet _⟩
  · have heffect := stock_sanitizeJobFinalization hdb t.worker t.payload t.sanitized.marshal
    generalize (sanitizeJobFinalization t.worker t.payload t.sanitized.marshal).run s.db = out
      at heffect
    have hmoves := @moves_taken cj raises s (.sanitize t) hdb _ _ _ _ heffect fun hp => .sanitize hp
    cases heffect with
    | taken | missed => exact hmoves

theorem moves_mark {t : Thread} {op : Operation}
    (hstage : t.stage = .finalizing op) :
    WellTyped (s.mark t op).db ∧ Moves cj raises s.view (.mark t) (s.mark t op).view := by
  unfold World.mark
  split
  · exact ⟨hdb, .quiet _⟩
  · next p' hp' =>
    have heffect := stock_markJobFinalization hdb t.worker t.job.queue t.job.id
      (jobPayload t.job) p'
    generalize (markJobFinalization t.worker t.job.queue t.job.id (jobPayload t.job) p').run s.db
      = out at heffect
    have hview : ∀ {db' : Db Key} {st : Stock}, stock db' = st →
        ({ s with db := db', marked := p' :: s.marked } : World).view
          = { s.view with stock := st, marked := p' :: s.marked } := fun h => h ▸ rfl
    cases heffect with
    | @replaced k n db' hk hn hp htyped hstock =>
      have hmove : Moves cj raises s.view (.mark t) _ := .replace hstage hp' hk hp
      obtain rfl | rfl := hn
      · exact ⟨htyped, (hview hstock).symm ▸ hmove⟩
      · exact ⟨htyped, (hview hstock).symm ▸ hmove⟩
    | @found k n db' hk hn hp htyped hstock =>
      have hmove : Moves cj raises s.view (.mark t) _ := .found hstage hp' hk hp
      obtain rfl | rfl := hn
      · exact ⟨htyped, (hview hstock).symm ▸ hmove⟩
      · exact ⟨htyped, (hview hstock).symm ▸ hmove⟩
    | missed => exact ⟨hdb, .quiet _⟩

theorem moves_acknowledge {t : Thread} {now : Time} (unique : Option String)
    (hstage : t.stage = .calledBack .complete ∨
      ∃ retryAt : Time, t.stage = .progressed (.retry retryAt) ∧ retryAt.isZero = true) :
    WellTyped (s.acknowledge t unique).db ∧
      Moves cj raises s.view (.finish t now) (s.acknowledge t unique).view := by
  have heffect := stock_ackJob hdb t.worker t.job.id unique (jobPayload t.job)
  unfold World.acknowledge
  generalize (ackJob t.worker t.job.id unique (jobPayload t.job)).run s.db = out at heffect
  cases heffect with
  | @taken db' hp htyped hstock =>
    refine ⟨htyped, ?_⟩
    have hview : ({ s with db := db', acked := t.job.id :: s.acked } : World).view
        = { s.view with
            stock := ((stock s.db).take (.inFlight t.worker) (jobPayload t.job)).trust t.job.id none
            acked := t.job.id :: s.acked } := hstock ▸ rfl
    exact hview.symm ▸ .ack hstage hp
  | missed => exact ⟨hdb, .quiet _⟩

theorem moves_finish (t : Thread) (now : Time) :
    WellTyped (s.finish t now).db ∧ Moves cj raises s.view (.finish t now) (s.finish t now).view := by
  unfold World.finish
  split
  · next hstage => exact moves_acknowledge hdb _ (Or.inl hstage)
  · next error hstage =>
    split
    · exact ⟨hdb, .quiet _⟩
    · next dead hdead =>
      exact moves_taken hdb (stock_moveToDeadJob hdb _ _ _ _ _ _)
        fun hp => .bury hstage hdead hp
  · next retryAt hstage =>
    split
    · next hzero => exact moves_acknowledge hdb _ (Or.inr ⟨retryAt, hstage, hzero⟩)
    · next hzero =>
      split
      · exact ⟨hdb, .quiet _⟩
      · next next hnext =>
        exact moves_taken hdb (stock_retryJob hdb _ _ _ _ _)
          fun hp => .retry hstage (by simpa using hzero) hnext hp
  · exact ⟨hdb, .quiet _⟩

theorem moves_requeue (t : Thread) (job : Job) :
    WellTyped (s.requeue t job).db ∧
      Moves cj raises s.view (.interrupted t job) (s.requeue t job).view := by
  unfold World.requeue
  split
  · exact ⟨hdb, .quiet _⟩
  · next durable hdurable =>
    exact moves_taken hdb (stock_requeueJob hdb _ _ _ _) fun hp => .requeue hdurable hp

/-- **Everything a step can do to payloads and records.** -/
theorem moves_step (he : s.Permits e) :
    WellTyped (s.step cj e).db ∧ Moves cj (s.Raises cj e) s.view e (s.step cj e).view := by
  obtain ⟨-, hready, hsensible⟩ := he
  cases e with
  | enqueue job =>
    obtain ⟨htyped, hstock⟩ := stock_enqueueNow hdb job.queue job.marshal
    have hview : (s.step cj (.enqueue job)).view
        = { s.view with
            stock := (stock s.db).put (.queue job.queue) job.marshal
            issued := job.id :: s.issued } := hstock ▸ rfl
    exact ⟨htyped, hview ▸ .enqueue job⟩
  | enqueueAt job score =>
    have hrun := run_zadd (hdb .scheduled) score job.marshal
    have hstock := @stock_zinsert s.db .scheduled rfl job.marshal score
    have hview : (s.step cj (.enqueueAt job score)).view
        = { s.view with
            stock := ((stock s.db).drop .scheduled job.marshal).put .scheduled job.marshal
            issued := job.id :: s.issued } := by
      rw [← hstock, World.step, hrun]
      rfl
    refine ⟨?_, hview ▸ .enqueueAt job score⟩
    rw [World.step, hrun]
    exact hdb.putZset (k := .scheduled) rfl _
  | push queue payload =>
    have hrun := run_lpush (hdb (.queue queue)) payload
    rw [World.step, hrun]
    refine ⟨hdb.putList (k := .queue queue) rfl _, ?_⟩
    rw [Outcome.db_ok, view_db (stock_putList s.db rfl _)]
    exact .push queue payload
  | pushAt k payload score =>
    have hk : k.kind = .zset := by obtain rfl | rfl := hsensible <;> rfl
    have hrun := run_zadd (show s.db.HasType k .zset from hk ▸ hdb k) score payload
    rw [World.step, hrun]
    refine ⟨hdb.putZset hk _, ?_⟩
    rw [Outcome.db_ok, view_db (stock_zinsert hk payload score)]
    exact .pushAt hsensible payload score
  | promote k now =>
    have hk : k.kind = .zset := by obtain rfl | rfl := hsensible <;> rfl
    obtain ⟨htyped, hstock⟩ := @stock_enqueueScheduled cj s.db hdb k hk 100 now
    refine ⟨htyped, ?_⟩
    rw [World.step, view_db hstock]
    refine .promote hsensible now ?_
    change _ ≤ (stock s.db).stored k
    rw [stored_zset s.db hk]
    exact zrange_subperm _ _ _
  | fetch worker queue =>
    exact moves_fetched (stock_fetchJob hdb queue worker) (Or.inl rfl)
      fun hraises p hp hheld => .lose hraises hp hheld
  | sequentialFetch worker queue =>
    exact moves_fetched (stock_sequentialFetch hdb queue worker) (Or.inr rfl)
      fun hraises p hp hheld => .strand hraises hp hheld
  | unlock queue => exact ⟨hdb.del _, (view_db_same (stock_lock s.db queue none)).symm ▸ .quiet _⟩
  | discard t =>
    obtain ⟨htyped, hstock⟩ := stock_discardSequentialFetch hdb t.queue t.worker t.payload
    refine ⟨htyped, ?_⟩
    rw [World.step, view_db hstock]
    exact .discard t
  | readType t | handled t job op => exact ⟨hdb, .quiet _⟩
  | readTrust t =>
    rw [World.step]
    split <;> exact ⟨hdb, .quiet _⟩
  | sanitize t => exact moves_sanitize hdb t
  | interrupted t job => exact moves_requeue hdb t job
  | mark t =>
    obtain ⟨op, hstage⟩ := hready
    rw [World.step, hstage]
    exact moves_mark hdb hstage
  | progress t =>
    obtain ⟨op, hstage⟩ := hready
    rw [World.step, hstage]
    exact ⟨hdb, .quiet _⟩
  | callback t =>
    obtain ⟨op, hstage, -⟩ := hready
    rw [World.step, hstage]
    exact ⟨hdb, .quiet _⟩
  | finish t now => exact moves_finish hdb t now
  | reap worker =>
    obtain ⟨htyped, hstock⟩ := @stock_requeueOrphaned cj s.db hdb worker
    refine ⟨htyped, ?_⟩
    rw [World.step, view_db hstock]
    exact .reap rfl

end

def Grown (cj : Cjson) (v v' : View) (e : Event) (old new : List Thread) : Prop :=
  new = old ∨ ∃ t, new = t :: old ∧ NewThread cj v v' e t

theorem grown_fetched {worker queue : String} {sequential : Bool} {stranded : String → Stock}
    {out : Outcome Key FetchReply} (heffect : FetchEffect cj s.db queue worker stranded out)
    (he : e.Fetches worker queue) :
    Grown cj s.view v' e s.threads (s.fetched out worker queue sequential).threads := by
  cases heffect with
  | @idle r db' hreply htyped hstock =>
    cases r with
    | job p => exact absurd rfl (hreply p)
    | empty | locked => exact Or.inl rfl
  | raised => exact Or.inl rfl
  | @claimed p p' db' hp hheld htyped hstock =>
    simp only [World.fetched, World.claim]
    split
    · next job hread =>
      split
      · next hnone => exact Or.inr ⟨_, rfl, .run he hp hheld hread hnone⟩
      · next f hsome => exact Or.inr ⟨_, rfl, .claimed he hp hheld hread (by rw [hsome]; nofun)⟩
    · next hread =>
      split
      · exact Or.inr ⟨_, rfl, .undecodable he hp hheld hread⟩
      · exact Or.inl rfl

theorem typeOf_trust (hdb : WellTyped s.db) (id : String) :
    Db.typeOf (s.db (.finalization id)) = .string ↔ (stock s.db).trusted id ≠ none := by
  change _ ↔ Db.strOf (s.db (.finalization id)) ≠ none
  have htype : Db.typeOf (s.db (.finalization id)) = .none ∨
      Db.typeOf (s.db (.finalization id)) = .string := hdb (.finalization id)
  rcases s.db (.finalization id) with _ | (_ | _ | _ | _ | _) <;>
    simp_all [Db.typeOf, Db.strOf]

theorem grown_sanitize (hdb : WellTyped s.db) {t : Thread} (hstage : t.stage = .distrusted) :
    Grown cj s.view v' (.sanitize t) s.threads (s.sanitize t).threads := by
  unfold World.sanitize
  split
  · next hsame => exact Or.inr ⟨_, rfl, .sanitized hstage (Or.inl hsame)⟩
  · have heffect := stock_sanitizeJobFinalization hdb t.worker t.payload t.sanitized.marshal
    generalize (sanitizeJobFinalization t.worker t.payload t.sanitized.marshal).run s.db = out
      at heffect
    cases heffect with
    | taken hp => exact Or.inr ⟨_, rfl, .sanitized hstage (Or.inr hp)⟩
    | missed => exact Or.inl rfl

theorem grown_mark (hdb : WellTyped s.db) {t : Thread} {op : Operation}
    (hstage : t.stage = .finalizing op) :
    Grown cj s.view (s.mark t op).view (.mark t) s.threads (s.mark t op).threads := by
  unfold World.mark
  split
  · exact Or.inl rfl
  · next p' hp' =>
    have heffect := stock_markJobFinalization hdb t.worker t.job.queue t.job.id
      (jobPayload t.job) p'
    dsimp only
    generalize (markJobFinalization t.worker t.job.queue t.job.id (jobPayload t.job) p').run s.db
      = out at heffect
    -- A thread that goes on with the marker has it recorded and trusted.
    have hmarked : ∀ {db' : Db Key} {threads : List Thread},
        (stock db').trusted t.job.id = some p' →
        NewThread cj s.view
          ({ s with db := db', threads := threads, marked := p' :: s.marked } : World).view
          (.mark t) _ :=
      fun htrusted => .marked hstage hp' List.mem_cons_self htrusted
    cases heffect with
    | @replaced k n db' hk hn hp htyped hstock | @found k n db' hk hn hp htyped hstock =>
      have htrusted : (stock db').trusted t.job.id = some p' := by rw [hstock]; simp
      obtain rfl | rfl := hn <;> exact Or.inr ⟨_, rfl, hmarked htrusted⟩
    | missed => exact Or.inr ⟨_, rfl, .unmarked hstage⟩

theorem threads_finish (t : Thread) (now : Time) : (s.finish t now).threads = s.threads := by
  have hack : ∀ unique, (s.acknowledge t unique).threads = s.threads := by
    intro unique
    unfold World.acknowledge
    split <;> rfl
  unfold World.finish
  split
  · exact hack _
  · split <;> rfl
  · split
    · exact hack _
    · split <;> rfl
  · rfl

/-- **Every thread a step can add.** -/
theorem grown_step (hdb : WellTyped s.db) (he : s.Permits e) :
    Grown cj s.view (s.step cj e).view e s.threads (s.step cj e).threads := by
  obtain ⟨-, hready, hsensible⟩ := he
  cases e with
  | fetch worker queue => exact grown_fetched (stock_fetchJob hdb queue worker) (Or.inl rfl)
  | sequentialFetch worker queue =>
    exact grown_fetched (stock_sequentialFetch hdb queue worker) (Or.inr rfl)
  | readType t =>
    refine Or.inr ⟨_, rfl, ?_⟩
    split
    · exact .typed hready
    · next hnot =>
      refine .untyped hready ?_
      by_cases hid : t.job.id = ""
      · exact Or.inl hid
      · refine Or.inr ?_
        by_contra hsome
        exact hnot ⟨hid, (typeOf_trust hdb _).mpr hsome⟩
  | readTrust t =>
    rw [World.step]
    split
    · next htrust => exact Or.inr ⟨_, rfl, .trusted hready htrust⟩
    · next htrust => exact Or.inr ⟨_, rfl, .distrusted hready htrust⟩
  | sanitize t => exact grown_sanitize hdb hready
  | handled t job op => exact Or.inr ⟨_, rfl, .handled hready job op⟩
  | interrupted t job =>
    left
    rw [World.step, World.requeue]
    split <;> rfl
  | mark t =>
    obtain ⟨op, hstage⟩ := hready
    have hstep : s.step cj (.mark t) = s.mark t op := by rw [World.step, hstage]
    rw [hstep]
    exact grown_mark hdb hstage
  | progress t =>
    obtain ⟨op, hstage⟩ := hready
    rw [World.step, hstage]
    exact Or.inr ⟨_, rfl, .progressed hstage⟩
  | callback t =>
    obtain ⟨op, hstage, -⟩ := hready
    rw [World.step, hstage]
    exact Or.inr ⟨_, rfl, .calledBack hstage⟩
  | finish t now => exact Or.inl (threads_finish t now)
  | _ => exact Or.inl rfl

theorem threads_step (hdb : WellTyped s.db) (he : s.Permits e) {t' : Thread}
    (ht' : t' ∈ (s.step cj e).threads) :
    t' ∈ s.threads ∨ NewThread cj s.view (s.step cj e).view e t' := by
  obtain hsame | ⟨t, hcons, hnew⟩ := @grown_step cj s e hdb he
  · exact Or.inl (hsame ▸ ht')
  · rw [hcons] at ht'
    obtain rfl | hold := List.mem_cons.mp ht'
    · exact Or.inr hnew
    · exact Or.inl hold

theorem spawned_step (hdb : WellTyped s.db) (he : s.Permits e) {t' : Thread}
    (ht' : (s.step cj e).threads = t' :: s.threads) :
    NewThread cj s.view (s.step cj e).view e t' := by
  obtain hsame | ⟨t, hcons, hnew⟩ := @grown_step cj s e hdb he
  · exact absurd (congrArg List.length (hsame.symm.trans ht')) (by simp)
  · obtain ⟨rfl, -⟩ := List.cons.inj (ht'.symm.trans hcons)
    exact hnew

end Inversion

theorem World.permits_of_thread_eq_none {s : World} {e : Event} (hthread : e.thread = none)
    (hready : e.Ready) (hsensible : e.Sensible) : s.Permits e := by
  refine ⟨fun t ht => ?_, hready, hsensible⟩
  rw [hthread] at ht
  exact absurd ht (Option.not_mem_none t)

theorem step_fetch {cj : Cjson} {s : World} {worker queue p p' : String} (hdb : WellTyped s.db)
    (hlast : (s.db.list (.queue queue)).getLast? = some p)
    (hheld : held cj (trustedIn s.db) p = some p') :
    s.step cj (.fetch worker queue) =
      ({ s with
        db := (s.db.putList (.queue queue) (s.db.list (.queue queue)).dropLast).putList
          (.inFlight worker) (p' :: s.db.list (.inFlight worker)) } : World).claim
        worker queue p' false := by
  rw [World.step, run_fetchJob (hdb _) (hdb _), hlast]
  simp only [hheld]
  rfl

theorem step_fetch_only {cj : Cjson} {s : World} {worker queue p : String} (hdb : WellTyped s.db)
    (hqueue : s.db.list (.queue queue) = [p]) (hinFlight : s.db.list (.inFlight worker) = [])
    (hheld : held cj (trustedIn s.db) p = some p) :
    ∃ db, WellTyped db ∧ db.list (.inFlight worker) = [p] ∧
      stock db = ((stock s.db).take (.queue queue) p).put (.inFlight worker) p ∧
      s.step cj (.fetch worker queue) =
        ({ s with db := db } : World).claim worker queue p false := by
  have hlast : (s.db.list (.queue queue)).getLast? = some p := by rw [hqueue]; rfl
  refine ⟨(s.db.putList (.queue queue) []).putList (.inFlight worker) [p], ?_, by simp, ?_, ?_⟩
  · exact (hdb.putList (k := .queue queue) rfl _).putList (k := .inFlight worker) rfl _
  · rw [stock_putList _ rfl, stock_putList _ rfl]
    simp [Stock.put, Stock.take, hqueue, hinFlight]
  · rw [step_fetch hdb hlast hheld, hqueue, hinFlight]
    rfl

end Senna
