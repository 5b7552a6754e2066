import Senna.Worker.Census
import Senna.Worker.Moves

/-!
# The system as its own clients drive it

The machine of `Worker.Delivery` lets producers push any text. Here producers are
senna's own clients: they enqueue jobs with a new ID and nothing else, and a handler
leaves alone what the job is known by: its ID, its retry count and its batch
(`World.FromClient`). That is all that `clientMachine` adds.

Every state of it is `Sound`. The payloads in the keyspace are jobs that the worker or a
client has written, at most one for each job, and a payload with a marker is the trusted
one of its job (`Books`). And every thread, at whatever stage and however stale, knows
the job it was given (`Thread.Faithful`). So no script ever meets a marker it does not
trust, and none has to encode a payload itself.
-/

namespace Senna

open Redis

def World.FromClient (s : World) : Event → Prop
  | .enqueue job | .enqueueAt job _ => job.id ≠ "" ∧ job.id ∉ s.issued
  | .push _ _ | .pushAt _ _ _ => False
  | .handled t job _ | .interrupted t job =>
    job.id = t.job.id ∧ job.retryCount = t.job.retryCount ∧ job.batchID = t.job.batchID
  | _ => True

def clientMachine (cj : Cjson) : Machine World Event where
  permits s e := s.Permits e ∧ s.FromClient e
  step := World.step cj

/-! ### Jobs and markers -/

def Operation.Matches (op : Operation) (f : JobFinalization) : Prop :=
  match op with
  | .complete => f.operation = "complete"
  | .retry retryAt => f.operation = "retry" ∧ retryAt.isZero = f.retryAt.isZero ∧
      (retryAt.isZero = false → retryAt = f.retryAt)
  | .kill error => f.operation = "kill" ∧ f.error = error

theorem Operation.matches_finalization (op : Operation) : op.Matches op.finalization := by
  cases op with
  | complete => rfl
  | retry retryAt => exact ⟨rfl, rfl, fun _ => rfl⟩
  | kill error => exact ⟨rfl, rfl⟩

/-- Two versions of one job agree on what it is known by, and on its marker. -/
structure Job.Alike (job job' : Job) : Prop where
  id : job.id = job'.id
  retryCount : job.retryCount = job'.retryCount
  batchID : job.batchID = job'.batchID
  finalization : job.finalization = job'.finalization

variable {job j : Job}

theorem jobPayload_raw (h : job.raw = j.marshal) : jobPayload job = job.raw := by
  rw [jobPayload, if_pos]
  rw [h]
  exact marshal_ne_empty j

theorem alike_of_unmarshalJob (h : unmarshalJob j.marshal = some job) :
    j.Alike job := by
  rw [unmarshalJob_marshal h]
  exact ⟨rfl, rfl, rfl, rfl⟩

theorem alike_of_marshal_eq {j' : Job} (h : j.marshal = j'.marshal) : j.Alike j' := by
  have hmember := member_of_marshal_eq h
  refine ⟨?_, ?_, ?_, ?_⟩
  · have hid := hmember .id
    rw [Job.member_id, Job.member_id] at hid
    exact Json.str.inj (Option.some.inj hid)
  · have hcount := hmember .retryCount
    rw [Job.member_retryCount, Job.member_retryCount] at hcount
    have hnumber := congrArg Json.Number.toInt? (Json.num.inj (Option.some.inj hcount))
    rw [Json.Number.toInt?_ofInt, Json.Number.toInt?_ofInt] at hnumber
    exact Option.some.inj hnumber
  · have hbatch := hmember .batchID
    rw [Job.member_batchID, Job.member_batchID] at hbatch
    split at hbatch <;> split at hbatch <;> simp_all
  · have hmarker := hmember .finalization
    rw [Job.member_finalization, Job.member_finalization] at hmarker
    -- A marker can be read off its document.
    refine Option.map_injective (fun f f' hf => ?_) hmarker
    have hread := readFinalization_toJson f
    rw [hf, readFinalization_toJson] at hread
    exact (Option.some.inj (Option.some.inj hread)).symm

theorem durableJobPayload_id {durable : Job} (h : durableJobPayload job = some durable) :
    durable.id = job.id ∧ durable.finalization = none := by
  obtain ⟨args, encrypted, rfl⟩ := durableJobPayload_eq h
  exact ⟨rfl, rfl⟩

theorem deadJob_id {dead : Job} {now : Time} (h : deadJob job now = some dead) :
    dead.id = job.id ∧ dead.finalization = none := by
  obtain ⟨durable, hdurable, rfl⟩ := Option.map_eq_some_iff.mp h
  obtain ⟨hid, hnone⟩ := durableJobPayload_id hdurable
  exact ⟨hid, hnone⟩

theorem nextJob_id {next : Job} (h : nextJob job = some next) :
    next.id = job.id ∧ next.finalization = none := by
  obtain ⟨durable, hdurable, rfl⟩ := Option.map_eq_some_iff.mp h
  obtain ⟨hid, hnone⟩ := durableJobPayload_id hdurable
  exact ⟨hid, hnone⟩

theorem payloadWithFinalization_alike {f : JobFinalization} {p : String}
    (h : payloadWithFinalization j.marshal f = some p) :
    ∃ j' : Job, p = j'.marshal ∧ j'.id = j.id ∧ j'.Alike { j with finalization := some f } := by
  obtain ⟨args, hp⟩ := payloadWithFinalization_marshal h
  exact ⟨_, hp, rfl, rfl, rfl, rfl, rfl⟩

/-! ### The payloads -/

/-- A payload is the written form of a job that was enqueued. If it carries a marker, it is on a
queue or in flight, and it is the trusted payload of its job. -/
structure Entry (issued : List String) (st : Stock) (k : Key) (p : String) (j : Job) : Prop where
  payload : p = j.marshal
  id_ne : j.id ≠ ""
  issued : j.id ∈ issued
  list : j.finalization ≠ none → k.kind = .list
  trusted : ∀ f, j.finalization = some f → st.trusted j.id = some p
  known : ∀ f, j.finalization = some f → ∃ op : Operation, op.Matches f

theorem Entry.unmarked {issued : List String} {st : Stock} {k : Key} (hid : j.id ≠ "")
    (hissued : j.id ∈ issued) (hj : j.finalization = none) : Entry issued st k j.marshal j where
  payload := rfl
  id_ne := hid
  issued := hissued
  list := fun h => absurd hj h
  trusted := fun f hf => by rw [hj] at hf; cases hf
  known := fun f hf => by rw [hj] at hf; cases hf

theorem Entry.id_eq {issued : List String} {st : Stock} {k : Key} {p id : String}
    (h : Entry issued st k p j) (hid : payloadID p = some id) : j.id = id := by
  rw [h.payload, payloadID_marshal] at hid
  exact Option.some.inj hid

/-- The payloads are in order. -/
structure Books (issued : List String) (st : Stock) : Prop where
  /-- Every payload is an enqueued job. -/
  entry : ∀ k, ∀ p ∈ st.stored k, ∃ j, Entry issued st k p j
  /-- No job has two. -/
  single : ∀ id, st.Single id

namespace Books

variable {issued : List String} {st : Stock} {k : Key} {p : String} {j : Job}

theorem of_le {st' : Stock} (h : Books issued st) (hle : ∀ k, st'.stored k ≤ st.stored k)
    (htrusted : st'.trusted = st.trusted) (hsingle : ∀ id, st'.Single id) : Books issued st' where
  entry := by
    intro k p hp
    obtain ⟨j, hj⟩ := h.entry k p (Multiset.mem_of_le (hle k) hp)
    exact ⟨j, { hj with trusted := htrusted ▸ hj.trusted }⟩
  single := hsingle

theorem stored_take_le (k k' : Key) (p : String) : (st.take k p).stored k' ≤ st.stored k' := by
  rw [Stock.stored_take]
  split
  · next hk => rw [hk]; exact Multiset.erase_le _ _
  · exact le_rfl

section

variable (h : Books issued st)

include h

theorem take (hp : p ∈ st.stored k) (hid : payloadID p = some j.id) :
    Books issued (st.take k p) ∧ (st.take k p).copies j.id = 0 := by
  refine ⟨h.of_le (fun k' => stored_take_le k k' p) rfl fun id => ?_,
    (h.single _).copies_take hp hid⟩
  exact (Stock.evolves_take h.single hp hid).single (h.single id)

theorem trust {id : String} (hzero : st.copies id = 0) (o : Option String) :
    Books issued (st.trust id o) where
  entry := by
    intro k p hp
    obtain ⟨j, hj⟩ := h.entry k p hp
    refine ⟨j, { hj with trusted := fun f hf => ?_ }⟩
    have hne : j.id ≠ id := by
      rintro rfl
      exact Stock.copies_eq_zero.mp hzero k p hp (hj.payload ▸ payloadID_marshal j)
    rw [Stock.trusted_trust, if_neg hne]
    exact hj.trusted f hf
  single := h.single

theorem trust_mem (hp : p ∈ st.stored k) {id : String}
    (hid : payloadID p = some id) : Books issued (st.trust id (some p)) where
  entry := by
    intro k' p' hp'
    obtain ⟨j, hj⟩ := h.entry k' p' hp'
    refine ⟨j, { hj with trusted := fun f hf => ?_ }⟩
    rw [Stock.trusted_trust]
    split
    · next hjid =>
      have hid' : payloadID p' = some id := by rw [hj.payload, payloadID_marshal, hjid]
      rw [((h.single id).eq_of_mem hp hid hp' hid').2]
    · exact hj.trusted f hf
  single := h.single

theorem put (hzero : st.copies j.id = 0)
    (hj : Entry issued st k j.marshal j) : Books issued (st.put k j.marshal) where
  entry := by
    intro k' p hp
    rw [Stock.stored_put] at hp
    split at hp
    · next hk =>
      subst hk
      obtain rfl | hp := Multiset.mem_cons.mp hp
      · exact ⟨j, { hj with }⟩
      · obtain ⟨j', hj'⟩ := h.entry k' p hp
        exact ⟨j', { hj' with }⟩
    · obtain ⟨j', hj'⟩ := h.entry k' p hp
      exact ⟨j', { hj' with }⟩
  single := by
    intro id
    by_cases hid : j.id = id
    · subst hid
      exact Or.inr ⟨k, Stock.copies_put_self hzero (payloadID_marshal j)⟩
    · have hother : payloadID j.marshal ≠ some id := by
        rw [payloadID_marshal]
        exact fun heq => hid (Option.some.inj heq)
      rw [Stock.Single, Stock.copies_put_other hother]
      exact h.single id

theorem move (hp : p ∈ st.stored k) (hid : payloadID p = some j.id)
    {k' : Key} (o : Option String) (hj : Entry issued (st.trust j.id o) k' j.marshal j) :
    Books issued (((st.take k p).trust j.id o).put k' j.marshal) ∧
      ∀ id, Stock.Evolves False (st.copies id)
        ((((st.take k p).trust j.id o).put k' j.marshal).copies id) := by
  obtain ⟨htake, hzero⟩ := h.take hp hid
  refine ⟨(htake.trust hzero o).put hzero { hj with }, fun id => ?_⟩
  exact Stock.evolves_move h.single hp hid (payloadID_marshal j)

theorem move_unmarked (hp : p ∈ st.stored k)
    (hid : payloadID p = some j.id) (k' : Key) (hj : j.finalization = none) :
    Books issued ((st.take k p).put k' j.marshal) ∧
      ∀ id, Stock.Evolves False (st.copies id) (((st.take k p).put k' j.marshal).copies id) := by
  obtain ⟨htake, hzero⟩ := h.take hp hid
  obtain ⟨j₀, hj₀⟩ := h.entry k p hp
  have hsame : j₀.id = j.id := hj₀.id_eq hid
  refine ⟨htake.put hzero (.unmarked (hsame ▸ hj₀.id_ne) (hsame ▸ hj₀.issued) hj), fun id => ?_⟩
  exact Stock.evolves_move h.single hp hid (payloadID_marshal j)

end

theorem drop_absent (hzero : st.copies j.id = 0) (k : Key) : st.drop k j.marshal = st := by
  have hmem : j.marshal ∉ st.stored k := fun hp =>
    Stock.copies_eq_zero.mp hzero k _ hp (payloadID_marshal j)
  refine Stock.ext (fun k' => ?_) fun _ => rfl
  rw [Stock.stored_drop]
  split
  · next hk =>
    rw [hk]
    refine Multiset.filter_eq_self.mpr ?_
    rintro p hp rfl
    exact hmem hp
  · rfl

section

variable (h : Books issued st)

include h

theorem store (hp : p ∈ st.stored k) (hid : payloadID p = some j.id)
    (k' : Key) (hj : j.finalization = none) :
    Books issued ((((st.take k p).trust j.id none).drop k' j.marshal).put k' j.marshal) ∧
      ∀ id, Stock.Evolves False (st.copies id)
        (((((st.take k p).trust j.id none).drop k' j.marshal).put k' j.marshal).copies id) := by
  obtain ⟨j₀, hj₀⟩ := h.entry k p hp
  have hsame : j₀.id = j.id := hj₀.id_eq hid
  have habsent : ((st.take k p).trust j.id none).copies j.id = 0 := (h.take hp hid).2
  rw [drop_absent habsent]
  exact h.move hp hid none (.unmarked (hsame ▸ hj₀.id_ne) (hsame ▸ hj₀.issued) hj)

theorem move_same (hp : p ∈ st.stored k) {k' : Key} (hk' : k'.kind = .list) :
    Books issued ((st.take k p).put k' p) ∧
      ∀ id, Stock.Evolves False (st.copies id) (((st.take k p).put k' p).copies id) := by
  obtain ⟨j, hj⟩ := h.entry k p hp
  have hpayload := hj.payload
  subst hpayload
  have hsame : (st.take k j.marshal).trust j.id (st.trusted j.id) = st.take k j.marshal :=
    Stock.trust_self _ _
  have hentry : Entry issued (st.trust j.id (st.trusted j.id)) k' j.marshal j :=
    { hj with
      list := fun _ => hk'
      trusted := fun f hf => by rw [Stock.trust_self]; exact hj.trusted f hf }
  have hmoved := h.move hp (payloadID_marshal j) (st.trusted j.id) hentry
  rwa [hsame] at hmoved

theorem held_eq {cj : Cjson} (hp : p ∈ st.stored k) : held cj st.trusted p = some p := by
  obtain ⟨j, hj⟩ := h.entry k p hp
  have hpayload := hj.payload
  subst hpayload
  exact held_marshal hj.id_ne hj.trusted

theorem fetched {cj : Cjson} {p' : String} (hp : p ∈ st.stored k)
    (hheld : held cj st.trusted p = some p') : p' = p ∧ ∃ j, Entry issued st k p j :=
  ⟨Option.some.inj (hheld.symm.trans (h.held_eq hp)), h.entry k p hp⟩

theorem fresh {id : String} (hid : id ∉ issued) : st.copies id = 0 := by
  rw [Stock.copies_eq_zero]
  intro k p hp heq
  obtain ⟨j, hj⟩ := h.entry k p hp
  rw [hj.payload, payloadID_marshal] at heq
  exact hid (Option.some.inj heq ▸ hj.issued)

theorem enter (hid : j.id ≠ "") (hfresh : j.id ∉ issued)
    (hj : j.finalization = none) (k : Key) :
    Books (j.id :: issued) (st.put k j.marshal) := by
  have hweaken : Books (j.id :: issued) st :=
    { entry := fun k p hp => by
        obtain ⟨j', hj'⟩ := h.entry k p hp
        exact ⟨j', { hj' with issued := List.mem_cons_of_mem _ hj'.issued }⟩
      single := h.single }
  exact hweaken.put (h.fresh hfresh) (.unmarked hid List.mem_cons_self hj)

/-! Many jobs at once, one after the other. -/

theorem route {target : String → Option Target} {k : Key} {p : String}
    (hp : p ∈ st.stored k) (htarget : ∀ j, Entry issued st k p j → target p = none ∨
      target p = some ⟨j.queue, p, if j.finalization.isSome then some j.id else none⟩) :
    Books issued (Stock.route target (st.take k p) p) ∧
      ∀ id, Stock.Evolves (payloadID p = some id ∧ target p = none) (st.copies id)
        ((Stock.route target (st.take k p) p).copies id) := by
  obtain ⟨j, hj⟩ := h.entry k p hp
  have hid : payloadID p = some j.id := hj.payload ▸ payloadID_marshal j
  obtain hnone | hsome := htarget j hj
  · have hroute : Stock.route target (st.take k p) p = st.take k p := by
      rw [Stock.route, hnone]
    rw [hroute]
    refine ⟨(h.take hp hid).1, fun id => (Stock.evolves_take h.single hp hid).mono ?_⟩
    rintro rfl
    exact ⟨hid, hnone⟩
  · have hpayload := hj.payload
    subst hpayload
    cases hf : j.finalization with
    | none =>
      have hroute : Stock.route target (st.take k j.marshal) j.marshal
          = (st.take k j.marshal).put (.queue j.queue) j.marshal := by
        simp [Stock.route, hsome, hf, Stock.push]
      rw [hroute]
      obtain ⟨hbooks, hevolves⟩ := h.move_unmarked hp hid (.queue j.queue) hf
      exact ⟨hbooks, fun id => (hevolves id).mono False.elim⟩
    | some f =>
      -- The marker is still the trusted one when the payload is back on its queue.
      have hroute : Stock.route target (st.take k j.marshal) j.marshal
          = ((st.take k j.marshal).trust j.id (some j.marshal)).put (.queue j.queue) j.marshal := by
        simp only [Stock.route, hsome, hf, Stock.push]
        rfl
      rw [hroute]
      have hentry : Entry issued (st.trust j.id (some j.marshal)) (.queue j.queue) j.marshal j :=
        { hj with
          list := fun _ => rfl
          trusted := fun _ _ => by simp }
      obtain ⟨hbooks, hevolves⟩ := h.move hp hid (some j.marshal) hentry
      exact ⟨hbooks, fun id => (hevolves id).mono False.elim⟩

end

theorem foldl {f : Stock → String → Stock} {lossy : String → Prop} {k : Key}
    (hf : ∀ st p, Books issued st → p ∈ st.stored k →
      (f st p).stored k = (st.stored k).erase p ∧ Books issued (f st p) ∧
        ∀ id, Stock.Evolves (payloadID p = some id ∧ lossy p) (st.copies id) ((f st p).copies id))
    {ps : List String} (hps : (ps : Multiset String) ≤ st.stored k) (h : Books issued st) :
    Books issued (ps.foldl f st) ∧
      ∀ id, Stock.Evolves (∃ p ∈ ps, payloadID p = some id ∧ lossy p) (st.copies id)
        ((ps.foldl f st).copies id) := by
  induction ps generalizing st with
  | nil => exact ⟨h, fun _ => .refl⟩
  | cons p ps ih =>
    have hp : p ∈ st.stored k := Multiset.mem_of_le hps (by simp)
    obtain ⟨hstored, hbooks, hevolves⟩ := hf st p h hp
    have hrest : (ps : Multiset String) ≤ (f st p).stored k := by
      rw [hstored]
      simpa using Multiset.erase_le_erase p hps
    obtain ⟨hbooks', hevolves'⟩ := ih hrest hbooks
    refine ⟨hbooks', fun id => ?_⟩
    have hhead (hlost : payloadID p = some id ∧ lossy p) :
        ∃ q ∈ p :: ps, payloadID q = some id ∧ lossy q := ⟨p, List.mem_cons_self, hlost⟩
    have hfirst := (hevolves id).mono hhead
    refine hfirst.trans ((hevolves' id).mono ?_)
    rintro ⟨q, hq, hlost⟩
    exact ⟨q, List.mem_cons_of_mem _ hq, hlost⟩

theorem recover (h : Books issued st) (cj : Cjson) (worker : String) {ps : List String}
    (hps : (ps : Multiset String) ≤ st.stored (.inFlight worker)) :
    Books issued (ps.foldl (Stock.recover cj worker) st) ∧
      ∀ id, Stock.Evolves (∃ p ∈ ps, payloadID p = some id ∧ orphanTarget cj p = none)
        (st.copies id) ((ps.foldl (Stock.recover cj worker) st).copies id) := by
  refine foldl (fun st p hst hp => ?_) hps h
  rw [Stock.recover]
  refine ⟨?_, hst.route hp fun j hj => ?_⟩
  · rw [Stock.stored_route _ _ _ fun _ => Key.noConfusion]
    simp
  · rw [hj.payload]
    exact orphanTarget_marshal hj.id_ne

theorem promote (h : Books issued st) (cj : Cjson) {k : Key} (hk : k.kind = .zset)
    {ps : List String} (hps : (ps : Multiset String) ≤ st.stored k) :
    Books issued (ps.foldl (Stock.promote cj k) st) ∧
      ∀ id, Stock.Evolves (∃ p ∈ ps, payloadID p = some id ∧ dueTarget cj p = none)
        (st.copies id) ((ps.foldl (Stock.promote cj k) st).copies id) := by
  have hqueue : ∀ q, k ≠ .queue q := by rintro q rfl; cases hk
  refine foldl (fun st p hst hp => ?_) hps h
  obtain ⟨j, hj⟩ := hst.entry k p hp
  have hdrop : st.drop k p = st.take k p :=
    (hst.single j.id).drop_eq_take (hj.payload ▸ payloadID_marshal j)
  rw [Stock.promote, hdrop]
  refine ⟨?_, hst.route hp fun j hj => ?_⟩
  · rw [Stock.stored_route _ _ _ hqueue]
    simp
  · -- No marker waits in a sorted set.
    have hnone : j.finalization = none := by
      by_contra hsome
      have hlist := hj.list hsome
      rw [hk] at hlist
      cases hlist
    rw [hj.payload, hnone]
    exact dueTarget_marshal

end Books

/-! ### The threads -/

def Stage.operation : Stage → Option Operation
  | .finalizing op | .recording op | .progressed op | .calledBack op => some op
  | _ => none

/-- The text a thread knows its job by: what it was given, and from the time it works on the
job the payload that the job holds. -/
def Thread.source (t : Thread) : String :=
  match t.stage with
  | .undecodable | .claimed | .typed | .distrusted => t.payload
  | _ => t.job.raw

theorem Thread.source_finalize (t : Thread) (job : Job) (op : Operation) :
    (t.finalize job op).source = job.raw := by
  unfold Thread.finalize Thread.source
  dsimp only
  split
  all_goals first | rfl | (next h => split at h <;> cases h)

/-- What a thread has in memory, at every stage. -/
structure Thread.Faithful (t : Thread) : Prop where
  /-- It knows a written payload of its job. -/
  source : t.stage ≠ .undecodable → ∃ j : Job, t.source = j.marshal ∧ j.Alike t.job
  /-- A marker is one that a worker has set. -/
  known : ∀ f, t.job.finalization = some f → ∃ op : Operation, op.Matches f
  /-- No job with a marker is run or marked again. -/
  unmarked : (t.stage = .running ∨ ∃ op, t.stage = .finalizing op) → t.job.finalization = none
  /-- The marker is of the operation that is carried out. -/
  agrees : ∀ op, t.stage.operation = some op → ∀ f, t.job.finalization = some f → op.Matches f
  /-- A job that is being killed holds the error. -/
  error : ∀ error, t.stage.operation = some (.kill error) → t.job.error = error

namespace Thread.Faithful

variable {cj : Cjson} {t : Thread}

theorem mk_late (hsource : t.source = t.job.raw) (hraw : t.job.raw = j.marshal)
    (halike : j.Alike t.job)
    (hknown : ∀ f, t.job.finalization = some f → ∃ op : Operation, op.Matches f)
    (hunmarked : (t.stage = .running ∨ ∃ op, t.stage = .finalizing op) → t.job.finalization = none)
    (hagrees : ∀ op, t.stage.operation = some op → ∀ f, t.job.finalization = some f → op.Matches f)
    (herror : ∀ error, t.stage.operation = some (.kill error) → t.job.error = error) : t.Faithful :=
  ⟨fun _ => ⟨j, hsource.trans hraw, halike⟩, hknown, hunmarked, hagrees, herror⟩

theorem working (h : t.Faithful) (hstage : t.stage = .running ∨ t.stage.operation ≠ none) :
    ∃ j : Job, t.job.raw = j.marshal ∧ jobPayload t.job = j.marshal ∧ j.Alike t.job := by
  have hsource : t.source = t.job.raw ∧ t.stage ≠ .undecodable := by
    obtain ⟨worker, queue, payload, job, stage⟩ := t
    cases stage <;> simp_all [Thread.source, Stage.operation]
  obtain ⟨j, hj, halike⟩ := h.source hsource.2
  have hraw : t.job.raw = j.marshal := hsource.1.symm.trans hj
  exact ⟨j, hraw, (jobPayload_raw hraw).trans hraw, halike⟩

theorem payloadID_jobPayload (h : t.Faithful) (hstage : t.stage.operation ≠ none) :
    payloadID (jobPayload t.job) = some t.job.id := by
  obtain ⟨j, -, hpayload, halike⟩ := h.working (Or.inr hstage)
  rw [hpayload, payloadID_marshal, halike.id]

theorem given (h : t.Faithful)
    (hstage : t.stage = .claimed ∨ t.stage = .typed ∨ t.stage = .distrusted) :
    ∃ j : Job, t.payload = j.marshal ∧ j.Alike t.job := by
  have hsource : t.source = t.payload ∧ t.stage ≠ .undecodable := by
    obtain ⟨worker, queue, payload, job, stage⟩ := t
    cases stage <;> simp_all [Thread.source]
  obtain ⟨j, hj, halike⟩ := h.source hsource.2
  exact ⟨j, hsource.1.symm.trans hj, halike⟩

theorem process (hraw : job.raw = j.marshal) (halike : j.Alike job)
    (hknown : ∀ f, job.finalization = some f → ∃ op : Operation, op.Matches f) :
    (t.process job).Faithful := by
  unfold Thread.process
  split
  · next hnone =>
    exact mk_late rfl hraw halike hknown (fun _ => hnone) nofun nofun
  · next f hf =>
    have hne : job.finalization ≠ none := by rw [hf]; nofun
    -- Resuming carries out what the marker says.
    have hresume : ∀ (job' : Job) (op : Operation), job'.raw = job.raw → j.Alike job' →
        job'.finalization = job.finalization → op.Matches f →
        (∀ error, op = .kill error → job'.error = error) → (t.finalize job' op).Faithful := by
      intro job' op hraw' halike' hf' hmatches herror
      have hstage : (t.finalize job' op).stage = .recording op := by
        simp only [Thread.finalize]
        rw [if_neg (hf' ▸ hne)]
      refine mk_late (j := j) ?_ (hraw'.trans hraw) halike' (hf' ▸ hknown) ?_ ?_ ?_
      · rw [Thread.source, hstage]
      · rw [hstage]
        rintro (h | ⟨op, h⟩) <;> cases h
      · intro op' hop' f' hf''
        rw [hstage] at hop'
        cases hop'
        have hsame : some f' = some f := hf''.symm.trans (hf'.trans hf)
        cases hsame
        exact hmatches
      · intro error hop'
        rw [hstage] at hop'
        exact herror error (Option.some.inj hop')
    obtain ⟨op, hop⟩ := hknown f hf
    unfold Thread.resume
    split
    · next hcomplete => exact hresume job .complete rfl halike rfl hcomplete fun _ h => by cases h
    · split
      · next hretry =>
        refine hresume job _ rfl halike rfl ⟨hretry, ?_, ?_⟩ fun _ h => by cases h
        · split <;> simp_all
        · split <;> simp_all
      · split
        · next hkill =>
          refine hresume (withError job (.kill f.error)) (.kill f.error) rfl ?_ rfl ⟨hkill, rfl⟩ ?_
          · exact ⟨halike.id, halike.retryCount, halike.batchID, halike.finalization⟩
          · rintro error h
            cases h
            rfl
        · -- A marker that a worker has set names one of the three operations.
          next hcomplete hretry hkill =>
          exfalso
          cases op with
          | complete => exact hcomplete hop
          | retry retryAt => exact hretry hop.1
          | kill error => exact hkill hop.1

theorem advance (h : t.Faithful) {stage : Stage}
    (hsource : ({ t with stage := stage } : Thread).source = t.source)
    (hstage : t.stage ≠ .undecodable)
    (hunmarked : (stage = .running ∨ ∃ op, stage = .finalizing op) → t.job.finalization = none)
    (hoperation : ∀ op, stage.operation = some op → t.stage.operation = some op) :
    ({ t with stage := stage } : Thread).Faithful where
  source := fun _ => hsource ▸ h.source hstage
  known := h.known
  unmarked := hunmarked
  agrees := fun op hop => h.agrees op (hoperation op hop)
  error := fun error hop => h.error error (hoperation _ hop)

/-- **Every new thread knows its job.** -/
theorem of_new {v v' : View} {e : Event} {t' : Thread} (hnew : NewThread cj v v' e t')
    (hbooks : Books v.issued v.stock) (hthread : ∀ t ∈ e.thread, t.Faithful)
    (hsensible : e.Sensible) {s : World} (hclient : s.FromClient e) : t'.Faithful := by
  cases hnew with
  -- a fetched thread holds what the books say of its payload, the others what their thread held
  | run he hp hheld hread hnone =>
    obtain ⟨rfl, j, hj⟩ := hbooks.fetched hp hheld
    obtain rfl := hj.payload
    obtain ⟨hid, hretry, hbatch, hf⟩ := alike_of_unmarshalJob hread
    exact mk_late rfl rfl ⟨hid, hretry, hbatch, hf⟩ (fun f hf => by rw [hnone] at hf; cases hf)
      (fun _ => hnone) (fun op hop => by cases hop) fun error hop => by cases hop
  | claimed he hp hheld hread hsome =>
    obtain ⟨rfl, j, hj⟩ := hbooks.fetched hp hheld
    obtain rfl := hj.payload
    have halike := alike_of_unmarshalJob hread
    refine ⟨fun _ => ⟨j, rfl, halike⟩, fun f hf => hj.known f (halike.finalization.trans hf), ?_,
      nofun, nofun⟩
    rintro (h | ⟨op, h⟩) <;> cases h
  | undecodable he hp hheld hread =>
    refine ⟨fun h => absurd rfl h, nofun, ?_, nofun, nofun⟩
    rintro (h | ⟨op, h⟩) <;> cases h
  | @typed t hstage | @untyped t hstage hnone | @distrusted t hstage htrust =>
    refine (hthread t rfl).advance ?_ (hstage ▸ nofun) ?_ nofun
    · simp only [Thread.source, hstage]
    · rintro (h | ⟨op, h⟩) <;> cases h
  | @trusted t hstage htrust =>
    obtain ⟨j, hpayload, halike⟩ := (hthread t rfl).given (Or.inr (Or.inl hstage))
    exact process hpayload ⟨halike.id, halike.retryCount, halike.batchID, halike.finalization⟩
      (hthread t rfl).known
  | @sanitized t hstage hp =>
    exact mk_late (j := t.sanitized) rfl rfl ⟨rfl, rfl, rfl, rfl⟩ nofun (fun _ => rfl) nofun nofun
  | @handled t hstage job op =>
    -- the handler may have rewritten the job, but not what ties it to its payload
    have ht := hthread t rfl
    obtain ⟨j, hraw, -, halike⟩ := ht.working (Or.inl hstage)
    have hnone : (withError job op).finalization = none := by
      have hjob : job.finalization = none := hsensible.2.trans (ht.unmarked (Or.inl hstage))
      cases op <;> exact hjob
    have hfinalizing : t.finalize (withError job op) op
        = { t with job := withError job op, stage := .finalizing op } := by
      rw [Thread.finalize, if_pos hnone]
    rw [hfinalizing]
    obtain ⟨hid, hretry, hbatch⟩ := hclient
    refine mk_late (j := j) rfl ?_ ⟨?_, ?_, ?_, ?_⟩ (fun f hf => ?_) (fun _ => hnone)
      (fun op' _ f hf => ?_) fun error hop => ?_
    · cases op <;> exact hsensible.1.trans hraw
    · cases op <;> exact halike.id.trans hid.symm
    · cases op <;> exact halike.retryCount.trans hretry.symm
    · cases op <;> exact halike.batchID.trans hbatch.symm
    · exact (halike.finalization.trans (ht.unmarked (Or.inl hstage))).trans hnone.symm
    · rw [hnone] at hf; cases hf
    · rw [hnone] at hf; cases hf
    · cases hop
      rfl
  | @marked t op p' hstage hp' _ _ =>
    have ht := hthread t rfl
    obtain ⟨j, -, hpayload, halike⟩ := ht.working (Or.inr (hstage ▸ nofun))
    rw [hpayload] at hp'
    obtain ⟨j', rfl, -, halike'⟩ := payloadWithFinalization_alike hp'
    refine mk_late (j := j') rfl rfl ⟨halike'.id.trans halike.id,
      halike'.retryCount.trans halike.retryCount, halike'.batchID.trans halike.batchID,
      halike'.finalization⟩ (fun f hf => ?_) ?_
      (fun op' hop f hf => ?_) fun error hop => ?_
    · cases hf
      exact ⟨op, op.matches_finalization⟩
    · rintro (h | ⟨op, h⟩) <;> cases h
    · cases hop
      cases hf
      exact op.matches_finalization
    · cases hop
      exact ht.error error (by rw [hstage]; rfl)
  | @unmarked t op hstage | @progressed t op hstage | @calledBack t op hstage =>
    refine (hthread t rfl).advance ?_ (hstage ▸ nofun) ?_ fun op' hop => ?_
    · simp only [Thread.source, hstage]
    · rintro (h | ⟨op, h⟩) <;> cases h
    · rw [hstage]; exact hop

end Thread.Faithful

/-! ### The system -/

/-- When a step may lose a job: `ack_job` removes it; a sequential fetch could not read it; or
one of the two scripts that move many jobs finds no queue for it. -/
def Lost (cj : Cjson) (v : View) (e : Event) (v' : View) (id : String) : Prop :=
  match e with
  | .finish _ _ => id ∈ v'.acked
  | .discard _ => True
  | .promote k _ => ∃ p ∈ v.stock.stored k, payloadID p = some id ∧ dueTarget cj p = none
  | .reap worker =>
    ∃ p ∈ v.stock.stored (.inFlight worker), payloadID p = some id ∧ orphanTarget cj p = none
  | _ => False

/-- What a step of the client's system does to the jobs. -/
structure Advance (cj : Cjson) (v : View) (e : Event) (v' : View) : Prop where
  books : Books v'.issued v'.stock
  /-- A job that was enqueued before stays, moves, or is lost. -/
  evolves : ∀ id ∈ v.issued,
    Stock.Evolves (Lost cj v e v' id) (v.stock.copies id) (v'.stock.copies id)
  /-- A new job has one payload. -/
  enters : ∀ id ∈ v'.issued, id ∉ v.issued → ∃ k, v'.stock.copies id = Pi.single k 1
  issued : ∀ id ∈ v.issued, id ∈ v'.issued
  /-- A job that `ack_job` has just removed had been enqueued and has none. -/
  acked : ∀ id ∈ v'.acked, id ∉ v.acked → id ∈ v.issued ∧ v'.stock.copies id = 0
  acked_mono : ∀ id ∈ v.acked, id ∈ v'.acked

namespace Advance

variable {cj : Cjson} {v : View} {e : Event} {st : Stock}

theorem of_stock {marked : List String} (hbooks : Books v.issued st)
    (hevolves : ∀ id, Stock.Evolves (Lost cj v e { v with stock := st, marked := marked } id)
      (v.stock.copies id) (st.copies id)) :
    Advance cj v e { v with stock := st, marked := marked } where
  books := hbooks
  evolves := fun id _ => hevolves id
  enters := fun _ hid hnew => absurd hid hnew
  issued := fun _ hid => hid
  acked := fun _ hid hnew => absurd hid hnew
  acked_mono := fun _ hid => hid

theorem of_kept {marked : List String} (h : Books v.issued st ∧
      ∀ id, Stock.Evolves False (v.stock.copies id) (st.copies id)) :
    Advance cj v e { v with stock := st, marked := marked } :=
  of_stock h.1 fun id => (h.2 id).mono False.elim

theorem of_enter {k : Key} (hbooks : Books v.issued v.stock) (hid : job.id ≠ "")
    (hfresh : job.id ∉ v.issued) (hjob : job.finalization = none) :
    Advance cj v e
      { v with stock := v.stock.put k job.marshal, issued := job.id :: v.issued } where
  books := hbooks.enter hid hfresh hjob k
  evolves := by
    intro id hissued
    have hother : payloadID job.marshal ≠ some id := by
      rw [payloadID_marshal]
      rintro heq
      exact hfresh (Option.some.inj heq ▸ hissued)
    exact Or.inl (Stock.copies_put_other hother)
  enters := by
    intro id hissued hnew
    obtain rfl | hold := List.mem_cons.mp hissued
    · exact ⟨k, Stock.copies_put_self (hbooks.fresh hfresh) (payloadID_marshal job)⟩
    · exact absurd hold hnew
  issued := fun _ hid => List.mem_cons_of_mem _ hid
  acked := fun _ hid hnew => absurd hid hnew
  acked_mono := fun _ hid => hid

/-- **Every step of the client's system keeps the books.** -/
theorem of_moves {raises : Prop} {v' : View} (hmoves : Moves cj raises v e v')
    (hbooks : Books v.issued v.stock)
    (hthread : ∀ t ∈ e.thread, t.Faithful) (hsensible : e.Sensible) {s : World}
    (hready : e.Ready) (hissued : s.issued = v.issued) (hclient : s.FromClient e) :
    Advance cj v e v' := by
  cases hmoves with
  | quiet e => exact of_kept ⟨hbooks, fun _ => .refl⟩
  | enqueue job => exact of_enter hbooks hclient.1 (hissued ▸ hclient.2) hsensible.1
  | enqueueAt job score =>
    rw [Books.drop_absent (hbooks.fresh (hissued ▸ hclient.2))]
    exact of_enter hbooks hclient.1 (hissued ▸ hclient.2) hsensible.1
  | push queue payload | pushAt hk payload score => exact hclient.elim
  | @promote k hk now items hitems =>
    have hkind : k.kind = .zset := by obtain rfl | rfl := hk <;> rfl
    obtain ⟨hbooks', hevolves⟩ := hbooks.promote cj hkind hitems
    refine of_stock hbooks' fun id => (hevolves id).mono ?_
    rintro ⟨p, hp, hlost⟩
    exact ⟨p, Multiset.mem_of_le hitems hp, hlost⟩
  | @claim e worker queue p p' he hp hheld =>
    obtain ⟨rfl, -⟩ := hbooks.fetched hp hheld
    exact of_kept (hbooks.move_same hp rfl)
  | lose _ hp hnone | strand _ hp hnone => rw [hbooks.held_eq hp] at hnone; cases hnone
  | discard t =>
    by_cases hp : t.payload ∈ v.stock.stored (.inFlight t.worker)
    · obtain ⟨j, hj⟩ := hbooks.entry _ _ hp
      have hid : payloadID t.payload = some j.id := hj.payload ▸ payloadID_marshal j
      refine of_stock (hbooks.take hp hid).1 fun id => ?_
      exact (Stock.evolves_take hbooks.single hp hid).mono fun _ => trivial
    · rw [Stock.take_absent _ hp]
      exact of_kept ⟨hbooks, fun _ => .refl⟩
  | @sanitize t hp =>
    obtain ⟨j, hpayload, halike⟩ := (hthread t rfl).given (Or.inr (Or.inr hready))
    have hid : payloadID t.payload = some t.sanitized.id := by
      rw [hpayload, payloadID_marshal, halike.id]
      rfl
    exact of_kept (hbooks.move_unmarked hp hid _ rfl)
  | @requeue t job durable hdurable hp =>
    obtain ⟨j, hraw, -, halike⟩ := (hthread t rfl).working (Or.inl hready)
    have hraw' : job.raw = j.marshal := hsensible.1.trans hraw
    obtain ⟨hsame, hnone⟩ := durableJobPayload_id hdurable
    have hid : payloadID (jobPayload job) = some durable.id := by
      rw [jobPayload_raw hraw', hraw', payloadID_marshal, halike.id, hsame, hclient.1]
    exact of_kept (hbooks.move_unmarked hp hid _ hnone)
  | @replace t op p' k hstage hp' hk hp =>
    obtain ⟨j, -, hpayload, halike⟩ := (hthread t rfl).working (Or.inr (hstage ▸ nofun))
    rw [hpayload] at hp'
    obtain ⟨j', rfl, hid', halike'⟩ := payloadWithFinalization_alike hp'
    have hid : payloadID (jobPayload t.job) = some j'.id := by
      rw [hpayload, payloadID_marshal, hid']
    obtain ⟨j₀, hj₀⟩ := hbooks.entry k _ hp
    have hsame : j₀.id = j'.id := hj₀.id_eq hid
    have hlist : k.kind = .list := by obtain rfl | rfl := hk <;> rfl
    -- Trust and payload change in the same step, so the new marker is trusted.
    have hentry : Entry v.issued (v.stock.trust j'.id (some j'.marshal)) k j'.marshal j' :=
      { payload := rfl
        id_ne := hsame ▸ hj₀.id_ne
        issued := hsame ▸ hj₀.issued
        list := fun _ => hlist
        trusted := fun _ _ => by simp
        known := fun f hf => ⟨op, Option.some.inj (halike'.finalization.symm.trans hf) ▸
          op.matches_finalization⟩ }
    have hmoved := hbooks.move hp hid (some j'.marshal) hentry
    rw [← halike.id, ← hid']
    exact of_kept hmoved
  | @found t op p' k hstage hp' hk hp =>
    obtain ⟨j, -, hpayload, halike⟩ := (hthread t rfl).working (Or.inr (hstage ▸ nofun))
    rw [hpayload] at hp'
    obtain ⟨j', rfl, hid', -⟩ := payloadWithFinalization_alike hp'
    have hid : payloadID j'.marshal = some t.job.id := by
      rw [payloadID_marshal, hid', halike.id]
    exact of_kept ⟨hbooks.trust_mem hp hid, fun _ => .refl⟩
  | @ack t now hstage hp =>
    have hop : t.stage.operation ≠ none := by
      obtain h | ⟨retryAt, h, -⟩ := hstage <;> exact h ▸ nofun
    have hid := (hthread t rfl).payloadID_jobPayload hop
    obtain ⟨htake, hzero⟩ := hbooks.take hp hid
    obtain ⟨j, hj⟩ := hbooks.entry _ _ hp
    have hissued' : t.job.id ∈ v.issued := hj.id_eq hid ▸ hj.issued
    exact
      { books := htake.trust hzero none
        evolves := fun id _ =>
          (Stock.evolves_take hbooks.single hp hid).mono fun h => h ▸ List.mem_cons_self
        enters := fun _ hid hnew => absurd hid hnew
        issued := fun _ hid => hid
        acked := by
          intro id hid hnew
          obtain rfl | hold := List.mem_cons.mp hid
          · exact ⟨hissued', hzero⟩
          · exact absurd hold hnew
        acked_mono := fun _ hid => List.mem_cons_of_mem _ hid }
  | @bury t now error dead hstage hdead hp =>
    obtain ⟨hsame, hnone⟩ := deadJob_id hdead
    have hid := (hthread t rfl).payloadID_jobPayload (hstage ▸ nofun)
    rw [← hsame] at hid ⊢
    exact of_kept (hbooks.store hp hid _ hnone)
  | @retry t now retryAt next hstage hretryAt hnext hp =>
    obtain ⟨hsame, hnone⟩ := nextJob_id hnext
    have hid := (hthread t rfl).payloadID_jobPayload (hstage ▸ nofun)
    rw [← hsame] at hid ⊢
    exact of_kept (hbooks.store hp hid _ hnone)
  | @reap worker ps hps =>
    obtain ⟨hbooks', hevolves⟩ := hbooks.recover cj worker hps.ge
    refine of_stock hbooks' fun id => (hevolves id).mono ?_
    rintro ⟨p, hp, hlost⟩
    refine ⟨p, ?_, hlost⟩
    rw [hps]
    exact hp

end Advance

/-- The payloads are in order, and every thread knows its job. -/
structure Sound (s : World) : Prop where
  typed : WellTyped s.db
  books : Books s.issued (stock s.db)
  threads : ∀ t ∈ s.threads, t.Faithful

namespace Sound

variable {cj : Cjson} {s : World} {e : Event}

theorem init : Sound .init := by
  have hempty : ∀ k, (stock World.init.db).stored k = 0 := by
    intro k
    change payloadsOf k none = 0
    unfold payloadsOf
    split <;> rfl
  refine ⟨.empty, ⟨fun k p hp => ?_, fun id => Or.inl ?_⟩, fun t ht => absurd ht List.not_mem_nil⟩
  · rw [hempty] at hp
    exact absurd hp (Multiset.notMem_zero p)
  · rw [Stock.copies_eq_zero]
    intro k p hp
    rw [hempty] at hp
    exact absurd hp (Multiset.notMem_zero p)

theorem advance (h : Sound s) (he : (clientMachine cj).permits s e) :
    Advance cj s.view e (s.step cj e).view := by
  obtain ⟨hpermits, hclient⟩ := he
  obtain ⟨hmember, hready, hsensible⟩ := hpermits
  exact .of_moves (moves_step h.typed ⟨hmember, hready, hsensible⟩).2 h.books
    (fun t ht => h.threads t (hmember t ht)) hsensible hready rfl hclient

theorem step (h : Sound s) (he : (clientMachine cj).permits s e) : Sound (s.step cj e) := by
  have hbooks := (h.advance he).books
  obtain ⟨hpermits, hclient⟩ := he
  refine ⟨(moves_step h.typed hpermits).1, hbooks, fun t ht => ?_⟩
  obtain hold | hnew := threads_step h.typed hpermits ht
  · exact h.threads t hold
  · have hmember : ∀ t ∈ e.thread, t.Faithful := fun t ht => h.threads t (hpermits.1 t ht)
    exact .of_new hnew h.books hmember hpermits.2.2 hclient

end Sound

/-- **Every run of the client's system is sound.** -/
theorem store_sound {cj : Cjson} {es : List Event} (legal : (clientMachine cj).Legal .init es) :
    Sound ((clientMachine cj).run .init es) :=
  legal.invariant (fun _ _ hs he => hs.step he) .init

end Senna
