import Senna.Job.Normal
import Senna.Worker.Conservation

/-!
# A recorded outcome sticks

From the time on that `MarkFinalization` has put a marker into the payload of a job, the outcome of
this delivery is settled. Workers may crash, be recovered while they are alive, fetch the job again
and repeat their commands; the payload with the marker stays where jobs are worked on, and no
handler is started for it, until some worker finishes it with the outcome that the marker names.

The marker is only worth something with its trust: a worker that fetches a marked payload which is
not the trusted one removes the marker and runs the job again. So the argument is about the threads
that have come to distrust a marker. **Such a thread is late**: it read the trust key when the
delivery was over, and every payload of the job that is still to be worked on then has a higher
retry count (`Spent`). That stays so, whatever happens (`Spent.of_moves`), so the payload it wants
to rewrite is not there. `Thread.Dated` is what every thread knows of the delivery it was given, and
`Deliveries` is the invariant of the system.

One thing can still end a recorded delivery: `requeue_orphaned` drops a payload that it does not
take for a job.
-/

namespace Senna

open Redis

/-! ### Deliveries that are over -/

def Spent (st : Stock) (id : String) (retryCount : ℤ) : Prop :=
  ∀ k, k.Live → ∀ j : Job, j.marshal ∈ st.stored k → j.id = id → retryCount < j.retryCount

theorem Spent.of_copies {st : Stock} {id : String} {retryCount : ℤ} (hzero : st.copies id = 0) :
    Spent st id retryCount := by
  rintro k - j hj rfl
  exact absurd (payloadID_marshal j) (Stock.copies_eq_zero.mp hzero k _ hj)

theorem nextJob_retryCount {job next : Job} (h : nextJob job = some next) :
    next.retryCount = job.retryCount + 1 := by
  obtain ⟨durable, hdurable, rfl⟩ := Option.map_eq_some_iff.mp h
  obtain ⟨args, encrypted, rfl⟩ := durableJobPayload_eq hdurable
  rfl

theorem deadJob_fields {job dead : Job} {now : Time} (h : deadJob job now = some dead) :
    dead.retryCount = job.retryCount ∧ dead.error = job.error := by
  obtain ⟨durable, hdurable, rfl⟩ := Option.map_eq_some_iff.mp h
  obtain ⟨args, encrypted, rfl⟩ := durableJobPayload_eq hdurable
  exact ⟨rfl, rfl⟩

theorem elder_of_writes {e : Event} {t : Thread} {j : Job} {p : String} {s : World}
    (hthread : e.thread = some t) (hfaithful : t.Faithful) (hready : e.Ready)
    (hsensible : e.Sensible) (hclient : s.FromClient e) (hwrites : e.Writes j)
    (hanchor : e.anchor = some p) :
    ∃ j₀ : Job, p = j₀.marshal ∧ j₀.id = j.id ∧ j₀.retryCount ≤ j.retryCount := by
  cases e with
  | sanitize t' =>
    cases hthread
    cases hanchor
    obtain rfl := hwrites
    obtain ⟨j₀, hpayload, halike⟩ := hfaithful.given (Or.inr (Or.inr hready))
    exact ⟨j₀, hpayload, halike.id, halike.retryCount.le⟩
  | interrupted t' job =>
    cases hthread
    cases hanchor
    obtain ⟨j₀, hraw, -, halike⟩ := hfaithful.working (Or.inl hready)
    have hraw' : job.raw = j₀.marshal := hsensible.1.trans hraw
    obtain ⟨args, encrypted, rfl⟩ := durableJobPayload_eq hwrites
    exact ⟨j₀, (jobPayload_raw hraw').trans hraw', halike.id.trans hclient.1.symm,
      (halike.retryCount.trans hclient.2.1.symm).le⟩
  | mark t' =>
    cases hthread
    cases hanchor
    obtain ⟨op, job, hstage, hread, rfl⟩ := hwrites
    obtain ⟨j₀, -, hpayload, -⟩ := hfaithful.working (Or.inr (hstage ▸ nofun))
    rw [hpayload] at hread
    have halike := alike_of_unmarshalJob hread
    exact ⟨j₀, hpayload, halike.id, halike.retryCount.le⟩
  | finish t' now =>
    cases hthread
    cases hanchor
    obtain ⟨retryAt, hstage, -, hnext⟩ | ⟨error, hstage, hdead⟩ := hwrites
    · obtain ⟨j₀, -, hpayload, halike⟩ := hfaithful.working (Or.inr (hstage ▸ nofun))
      refine ⟨j₀, hpayload, halike.id.trans (nextJob_id hnext).1.symm, ?_⟩
      rw [nextJob_retryCount hnext, halike.retryCount]
      exact Int.le_add_one le_rfl
    · obtain ⟨j₀, -, hpayload, halike⟩ := hfaithful.working (Or.inr (hstage ▸ nofun))
      exact ⟨j₀, hpayload, halike.id.trans (deadJob_id hdead).1.symm,
        (halike.retryCount.trans (deadJob_fields hdead).1.symm).le⟩
  | _ => cases hanchor

/-! ### What a thread knows of its delivery -/

/-- A thread and the delivery it was given. -/
structure Thread.Dated (issued : List String) (st : Stock) (t : Thread) : Prop where
  /-- What it gave up on is really no job. -/
  undecodable : t.stage = .undecodable → unmarshalJob t.payload = none
  issued : t.stage ≠ .undecodable → t.job.id ∈ issued
  /-- Only a marker is judged. -/
  judged : t.stage = .claimed ∨ t.stage = .typed ∨ t.stage = .distrusted →
    t.job.finalization ≠ none
  /-- A payload with a marker is still there, or the delivery is over. -/
  current : t.stage ≠ .undecodable → t.job.finalization ≠ none →
    (∃ k, t.source ∈ st.stored k) ∨ Spent st t.job.id t.job.retryCount
  /-- **Who distrusts a marker is late.** -/
  distrusted : t.stage = .distrusted → Spent st t.job.id t.job.retryCount
  /-- A handler is run on the payload as it was fetched. -/
  fetched : (t.stage = .running ∨ ∃ op, t.stage = .finalizing op) → t.job.raw = t.payload

namespace Thread.Dated

variable {issued : List String} {st : Stock} {t : Thread}

theorem absent (h : t.Dated issued st) (hfaithful : t.Faithful) (hstage : t.stage = .distrusted)
    (k : Key) (hk : k.Live) : t.payload ∉ st.stored k := by
  intro hp
  obtain ⟨j, hpayload, halike⟩ := hfaithful.given (Or.inr (Or.inr hstage))
  have hlt := h.distrusted hstage k hk j (hpayload ▸ hp) halike.id
  rw [halike.retryCount] at hlt
  exact lt_irrefl _ hlt

theorem sanitized_ne (h : t.Dated issued st) (hfaithful : t.Faithful)
    (hstage : t.stage = .distrusted) : t.sanitized.marshal ≠ t.payload := by
  intro hsame
  obtain ⟨j, hpayload, halike⟩ := hfaithful.given (Or.inr (Or.inr hstage))
  have hnone : j.finalization = none :=
    (alike_of_marshal_eq (hsame.trans hpayload)).finalization.symm
  exact h.judged (Or.inr (Or.inr hstage)) (halike.finalization.symm.trans hnone)

end Thread.Dated

/-! ### How a marked payload ends -/

/-- The ways in which a payload with a marker leaves the keys where jobs are worked on. -/
inductive Ended (cj : Cjson) (v : View) (j : Job) : Event → View → Prop where
  | acked {t : Thread} {now : Time} {v' : View} (hp : jobPayload t.job = j.marshal)
      (hstage : t.stage = .calledBack .complete ∨
        ∃ retryAt : Time, t.stage = .progressed (.retry retryAt) ∧ retryAt.isZero = true)
      (hzero : v'.stock.copies j.id = 0) : Ended cj v j (.finish t now) v'
  | buried {t : Thread} {now : Time} {error : String} {dead : Job} {v' : View}
      (hp : jobPayload t.job = j.marshal) (hstage : t.stage = .calledBack (.kill error))
      (hdead : deadJob t.job now = some dead) (hmem : dead.marshal ∈ v'.stock.stored .dead)
      (hone : v'.stock.copies j.id = Pi.single .dead 1) : Ended cj v j (.finish t now) v'
  | retried {t : Thread} {now retryAt : Time} {next : Job} {v' : View}
      (hp : jobPayload t.job = j.marshal) (hstage : t.stage = .progressed (.retry retryAt))
      (hretryAt : retryAt.isZero = false) (hnext : nextJob t.job = some next)
      (hinFlight : j.marshal ∈ v.stock.stored (.inFlight t.worker))
      (hmem : next.marshal ∈ v'.stock.stored .retry)
      (hone : v'.stock.copies j.id = Pi.single .retry 1) : Ended cj v j (.finish t now) v'
  /-- `requeue_orphaned` does not take it for a job. -/
  | dropped {worker : String} {v' : View} (hnone : orphanTarget cj j.marshal = none)
      (hzero : v'.stock.copies j.id = 0) : Ended cj v j (.reap worker) v'

section Moves

variable {cj : Cjson} {raises : Prop} {v v' : View} {e : Event} {s : World}

/-- **A delivery that is over stays over.** -/
theorem Spent.of_moves (hmoves : Moves cj raises v e v') (hbooks : Books v.issued v.stock)
    (hfaithful : ∀ t ∈ e.thread, t.Faithful) (hready : e.Ready) (hsensible : e.Sensible)
    (hissued : s.issued = v.issued) (hclient : s.FromClient e) {id : String} {retryCount : ℤ}
    (hid : id ∈ v.issued) (h : Spent v.stock id retryCount) : Spent v'.stock id retryCount := by
  intro k hk j hj hjid
  obtain ⟨k', hlive, hold⟩ | ⟨j', hwrites, hsame, hplace⟩ :=
    origin_of_moves hmoves hbooks hclient hj
  · exact h k' (hlive hk) j hold hjid
  · have halike := alike_of_marshal_eq hsame
    obtain hnone | ⟨t, p, k', hthread, hanchor, hlive, hp⟩ := hplace
    · -- A client writes only jobs with a new ID.
      have hnew : j'.id ∉ s.issued := by
        cases e with
        | enqueue job | enqueueAt job score => cases hwrites; exact hclient.2
        | _ => first | exact hwrites.elim | cases hnone
      rw [← halike.id, hjid, hissued] at hnew
      exact absurd hid hnew
    · obtain ⟨j₀, rfl, hsameID, hle⟩ := elder_of_writes hthread (hfaithful t hthread) hready
        hsensible hclient hwrites hanchor
      have hlt := h k' hlive j₀ hp (hsameID.trans (halike.id.symm.trans hjid))
      rw [halike.retryCount]
      exact lt_of_lt_of_le hlt hle

theorem Ended.spent {j : Job} (h : Ended cj v j e v') (hbooks' : Books v'.issued v'.stock)
    (hfaithful : ∀ t ∈ e.thread, t.Faithful) : Spent v'.stock j.id j.retryCount := by
  -- The one payload there is stands at another key.
  have hat {c k : Key} {j' : Job} (hone : v'.stock.copies j.id = Pi.single c 1)
      (hj' : j'.marshal ∈ v'.stock.stored k) (hid : j'.id = j.id) : k = c := by
    by_contra hne
    have hpos := Stock.copies_pos hj' (hid ▸ payloadID_marshal j')
    rw [hone, Pi.single_eq_of_ne hne] at hpos
    exact lt_irrefl _ hpos
  cases h with
  | acked hp hstage hzero | dropped hnone hzero => exact .of_copies hzero
  | buried hp hstage hdead hmem hone =>
    intro k hk j' hj' hid
    obtain rfl := hat hone hj' hid
    exact hk.elim
  | @retried t now retryAt next v' hp hstage hretryAt hnext hinFlight hmem hone =>
    intro k hk j' hj' hid
    obtain ⟨j₀, -, hpayload, halike⟩ := (hfaithful t rfl).working (Or.inr (hstage ▸ nofun))
    have hsame := alike_of_marshal_eq (hpayload.symm.trans hp)
    have hnextID : payloadID next.marshal = some j.id := by
      rw [payloadID_marshal, (nextJob_id hnext).1, ← halike.id, hsame.id]
    have hnext' := ((hbooks'.single j.id).eq_of_mem hmem hnextID hj'
      (hid ▸ payloadID_marshal j')).2
    rw [(alike_of_marshal_eq hnext').retryCount, nextJob_retryCount hnext, ← halike.retryCount,
      hsame.retryCount]
    exact Int.lt_add_one_iff.mpr le_rfl

end Moves

/-! Membership after the operations of the stock. -/

namespace Stock

variable {st : Stock} {k k' : Key} {p q : String}

theorem mem_put_of_mem (h : q ∈ st.stored k) : q ∈ (st.put k' p).stored k := by
  rw [stored_put]
  split
  · next hk => exact Multiset.mem_cons_of_mem (hk ▸ h)
  · exact h

theorem mem_take_of_ne (hne : q ≠ p) (h : q ∈ st.stored k) : q ∈ (st.take k' p).stored k := by
  rw [stored_take]
  split
  · next hk => exact (Multiset.mem_erase_of_ne hne).mpr (hk ▸ h)
  · exact h

theorem mem_drop_of_ne (hne : k ≠ k') (h : q ∈ st.stored k) : q ∈ (st.drop k' p).stored k := by
  rw [stored_drop, if_neg hne]
  exact h

end Stock

theorem Thread.Faithful.raw_ne {t : Thread} (h : t.Faithful)
    (hstage : t.stage = .running ∨ ∃ op, t.stage = .finalizing op) {j : Job}
    (hj : j.finalization ≠ none) : t.job.raw ≠ j.marshal := by
  intro hsame
  have hworking : t.stage = .running ∨ t.stage.operation ≠ none := by
    obtain hstage | ⟨op, hstage⟩ := hstage
    · exact Or.inl hstage
    · exact Or.inr (hstage ▸ nofun)
  obtain ⟨j₀, hraw, -, halike⟩ := h.working hworking
  have hmarker := (alike_of_marshal_eq (hraw.symm.trans hsame)).finalization
  exact hj (hmarker.symm.trans (halike.finalization.trans (h.unmarked hstage)))

section Moves

variable {cj : Cjson} {raises : Prop} {v v' : View} {e : Event} {s : World}

/-- **A payload with a marker stays, or it ends in one of four ways.** -/
theorem stays_or_ends (hmoves : Moves cj raises v e v') (hbooks : Books v.issued v.stock)
    (hfaithful : ∀ t ∈ e.thread, t.Faithful)
    (hdated : ∀ t ∈ e.thread, t.Dated v.issued v.stock) (hready : e.Ready) (hsensible : e.Sensible)
    (hclient : s.FromClient e) {j : Job} {k : Key} (hj : j.marshal ∈ v.stock.stored k)
    (hmarked : j.finalization ≠ none) (hdecodes : unmarshalJob j.marshal ≠ none) :
    (∃ k', j.marshal ∈ v'.stock.stored k') ∨ Ended cj v j e v' := by
  obtain ⟨j₁, hentry⟩ := hbooks.entry k _ hj
  have hsame := alike_of_marshal_eq hentry.payload
  have hlist : k.kind = .list := hentry.list (hsame.finalization ▸ hmarked)
  have hid := payloadID_marshal j
  have hone := (hbooks.single j.id).copies_eq hj hid
  -- Moving payloads around does not lose it, if there is one afterwards.
  have hstays {st : Stock} (hkept : ∃ c, st.copies j.id = Pi.single c 1)
      (hold : ∀ c q, q ∈ st.stored c → ∃ c', q ∈ v.stock.stored c') :
      ∃ c, j.marshal ∈ st.stored c := by
    obtain ⟨c, hc⟩ := hkept
    have hpos : 0 < st.copies j.id c := by rw [hc, Pi.single_eq_same]; exact one_pos
    obtain ⟨q, hq, hqid⟩ := Multiset.countP_pos.mp hpos
    obtain ⟨c', hq'⟩ := hold c q hq
    exact ⟨c, ((hbooks.single j.id).eq_of_mem hj hid hq' hqid).2 ▸ hq⟩
  -- Finishing the job takes this payload, or another one.
  have htaken {t : Thread} (hp : jobPayload t.job ∈ v.stock.stored (.inFlight t.worker))
      (heq : jobPayload t.job = j.marshal) :
      ((v.stock.take (.inFlight t.worker) (jobPayload t.job)).copies j.id) = 0 :=
    (hbooks.single j.id).copies_take hp (heq ▸ hid)
  cases hmoves with
  | quiet e | found hstage hp' hk hp => exact Or.inl ⟨k, hj⟩
  | enqueue job => exact Or.inl ⟨k, Stock.mem_put_of_mem hj⟩
  | enqueueAt job score =>
    have hne : k ≠ .scheduled := by rintro rfl; cases hlist
    exact Or.inl ⟨k, Stock.mem_put_of_mem (Stock.mem_drop_of_ne hne hj)⟩
  | push queue payload | pushAt hk payload score => exact hclient.elim
  | @promote k' hk' now items hitems =>
    have hkind : k'.kind = .zset := by obtain rfl | rfl := hk' <;> rfl
    have hevolves := (hbooks.promote cj hkind hitems).2 j.id
    refine Or.inl (hstays (hevolves.kept ?_ ⟨k, hone⟩) fun c q hq => ?_)
    · -- No marker waits in a sorted set.
      rintro ⟨p, hp, hpid, -⟩
      have hsameKey := ((hbooks.single j.id).eq_of_mem hj hid (Multiset.mem_of_le hitems hp) hpid).1
      rw [← hsameKey, hkind] at hlist
      cases hlist
    · obtain h | h := Stock.mem_foldl (fun st p h =>
        (Stock.mem_route (fun t ht => data_of_dueTarget ht) h).imp_left Stock.mem_drop) hq
      · exact ⟨c, h⟩
      · exact ⟨k', Multiset.mem_of_le hitems h⟩
  | @claim e worker queue p p' he hp hheld =>
    obtain ⟨rfl, -⟩ := hbooks.fetched hp hheld
    by_cases heq : j.marshal = p'
    · refine Or.inl ⟨.inFlight worker, ?_⟩
      rw [Stock.stored_put, if_pos rfl, heq]
      exact Multiset.mem_cons_self _ _
    · exact Or.inl ⟨k, Stock.mem_put_of_mem (Stock.mem_take_of_ne heq hj)⟩
  | lose _ hp hnone | strand _ hp hnone => rw [hbooks.held_eq hp] at hnone; cases hnone
  | discard t =>
    refine Or.inl ⟨k, Stock.mem_take_of_ne (fun heq => hdecodes ?_) hj⟩
    rw [heq]
    exact (hdated t rfl).undecodable hready
  | @sanitize t hp =>
    exact absurd hp ((hdated t rfl).absent (hfaithful t rfl) hready (.inFlight t.worker) trivial)
  | @requeue t job durable hdurable hp =>
    obtain ⟨j₀, hraw, -, -⟩ := (hfaithful t rfl).working (Or.inl hready)
    have hpayload : jobPayload job = t.job.raw :=
      (jobPayload_raw (hsensible.1.trans hraw)).trans hsensible.1
    have hne : j.marshal ≠ jobPayload job := fun heq =>
      (hfaithful t rfl).raw_ne (Or.inl hready) hmarked (hpayload.symm.trans heq.symm)
    exact Or.inl ⟨k, Stock.mem_put_of_mem (Stock.mem_take_of_ne hne hj)⟩
  | @replace t op p' k' hstage hp' hk' hp =>
    obtain ⟨j₀, hraw, hpayload, -⟩ := (hfaithful t rfl).working (Or.inr (hstage ▸ nofun))
    have hne : j.marshal ≠ jobPayload t.job := fun heq =>
      (hfaithful t rfl).raw_ne (Or.inr ⟨op, hstage⟩) hmarked
        (hraw.trans (hpayload.symm.trans heq.symm))
    exact Or.inl ⟨k, Stock.mem_put_of_mem (Stock.mem_take_of_ne hne hj)⟩
  | @ack t now hstage hp =>
    by_cases heq : jobPayload t.job = j.marshal
    · exact Or.inr (.acked heq hstage (htaken hp heq))
    · exact Or.inl ⟨k, Stock.mem_take_of_ne (Ne.symm heq) hj⟩
  | @bury t now error dead hstage hdead hp =>
    by_cases heq : jobPayload t.job = j.marshal
    · obtain ⟨j₀, -, hpayload, halike⟩ := (hfaithful t rfl).working (Or.inr (hstage ▸ nofun))
      have hdeadID : dead.id = j.id := (deadJob_id hdead).1.trans
        (halike.id.symm.trans (alike_of_marshal_eq (hpayload.symm.trans heq)).id)
      refine Or.inr (.buried heq hstage hdead ?_ ?_)
      · rw [Stock.stored_put, if_pos rfl]
        exact Multiset.mem_cons_self _ _
      · exact Stock.copies_put_self (Stock.copies_drop_zero (htaken hp heq))
          (hdeadID ▸ payloadID_marshal dead)
    · have hne : k ≠ .dead := by rintro rfl; cases hlist
      exact Or.inl ⟨k, Stock.mem_put_of_mem
        (Stock.mem_drop_of_ne hne (Stock.mem_take_of_ne (Ne.symm heq) hj))⟩
  | @retry t now retryAt next hstage hretryAt hnext hp =>
    by_cases heq : jobPayload t.job = j.marshal
    · obtain ⟨j₀, -, hpayload, halike⟩ := (hfaithful t rfl).working (Or.inr (hstage ▸ nofun))
      have hnextID : next.id = j.id := (nextJob_id hnext).1.trans
        (halike.id.symm.trans (alike_of_marshal_eq (hpayload.symm.trans heq)).id)
      refine Or.inr (.retried heq hstage hretryAt hnext (heq ▸ hp) ?_ ?_)
      · rw [Stock.stored_put, if_pos rfl]
        exact Multiset.mem_cons_self _ _
      · exact Stock.copies_put_self (Stock.copies_drop_zero (htaken hp heq))
          (hnextID ▸ payloadID_marshal next)
    · have hne : k ≠ .retry := by rintro rfl; cases hlist
      exact Or.inl ⟨k, Stock.mem_put_of_mem
        (Stock.mem_drop_of_ne hne (Stock.mem_take_of_ne (Ne.symm heq) hj))⟩
  | @reap worker ps hps =>
    have hevolves := (hbooks.recover cj worker hps.ge).2 j.id
    by_cases hkept : ∃ c, (ps.foldl (Stock.recover cj worker) v.stock).copies j.id = Pi.single c 1
    · refine Or.inl (hstays hkept fun c q hq => ?_)
      obtain h | h := Stock.mem_foldl (fun st p h =>
        (Stock.mem_route (fun t ht => data_of_orphanTarget ht) h).imp_left Stock.mem_take) hq
      · exact ⟨c, h⟩
      · exact ⟨.inFlight worker, by rw [hps]; exact h⟩
    · -- It is lost, and the one payload of the job is this one.
      have hlost := not_not.mp fun hnot => hkept (hevolves.kept hnot ⟨k, hone⟩)
      obtain ⟨p, hp, hpid, hnone⟩ := hlost
      have hp' : p ∈ v.stock.stored (.inFlight worker) := by rw [hps]; exact hp
      obtain rfl := ((hbooks.single j.id).eq_of_mem hj hid hp' hpid).2
      exact Or.inr (.dropped hnone ((hevolves.single (hbooks.single j.id)).resolve_right hkept))

end Moves

/-! ### The system -/

/-- A marked payload can be read, and every thread knows its delivery. -/
structure Deliveries (s : World) : Prop where
  sound : Sound s
  decodes : ∀ k, ∀ j : Job, j.marshal ∈ (stock s.db).stored k → j.finalization ≠ none →
    unmarshalJob j.marshal ≠ none
  threads : ∀ t ∈ s.threads, t.Dated s.issued (stock s.db)

theorem mark_cases {s : World} (hdb : WellTyped s.db) (t : Thread) (op : Operation) :
    ((s.mark t op).marked = s.marked ∧ ∀ t', (s.mark t op).threads = t' :: s.threads →
        t'.job.finalization = t.job.finalization) ∨
      ∃ p k, payloadWithFinalization (jobPayload t.job) op.finalization = some p ∧
        p ∈ (stock (s.mark t op).db).stored k ∧ (s.mark t op).marked = p :: s.marked ∧
        ∀ t', (s.mark t op).threads = t' :: s.threads → t'.job.raw = p := by
  unfold World.mark
  split
  · exact Or.inl ⟨rfl, fun t' ht' => absurd (congrArg List.length ht') (by simp)⟩
  · next p hp' =>
    have heffect := stock_markJobFinalization hdb t.worker t.job.queue t.job.id
      (jobPayload t.job) p
    dsimp only
    generalize (markJobFinalization t.worker t.job.queue t.job.id (jobPayload t.job) p).run s.db
      = out at heffect
    have hraw {t₁ t' : Thread} (ht' : t₁ :: s.threads = t' :: s.threads) (hraw : t₁.job.raw = p) :
        t'.job.raw = p := (List.cons.inj ht').1 ▸ hraw
    cases heffect with
    | @replaced k n db' hk hn hp htyped hstock =>
      have hmem : p ∈ (stock db').stored k := by
        rw [hstock, Stock.stored_trust, Stock.stored_put, if_pos rfl]
        exact Multiset.mem_cons_self _ _
      obtain rfl | rfl := hn <;> exact Or.inr ⟨p, k, hp', hmem, rfl, fun t' ht' => hraw ht' rfl⟩
    | @found k n db' hk hn hp htyped hstock =>
      have hmem : p ∈ (stock db').stored k := by
        rw [hstock, Stock.stored_trust]
        exact hp
      obtain rfl | rfl := hn <;> exact Or.inr ⟨p, k, hp', hmem, rfl, fun t' ht' => hraw ht' rfl⟩
    | missed =>
      refine Or.inl ⟨rfl, fun t' ht' => ?_⟩
      obtain ⟨rfl, -⟩ := List.cons.inj ht'
      rfl

theorem step_mark_inFlight {cj : Cjson} {s : World} {t : Thread} {op : Operation}
    {finalized : String}
    (hdb : WellTyped s.db) (hstage : t.stage = .finalizing op)
    (hfinalized : payloadWithFinalization (jobPayload t.job) op.finalization = some finalized)
    (hp : jobPayload t.job ∈ s.db.list (.inFlight t.worker)) :
    ∃ db', WellTyped db' ∧ stock db' =
        (((stock s.db).take (.inFlight t.worker) (jobPayload t.job)).put (.inFlight t.worker)
          finalized).trust t.job.id (some finalized) ∧
      (s.step cj (.mark t)).db = db' ∧ (s.step cj (.mark t)).marked = finalized :: s.marked := by
  obtain ⟨db', hout, htyped, hstock⟩ := stock_mark_inFlight hdb hp t.job.queue t.job.id finalized
  have hmark : s.step cj (.mark t) = s.mark t op := by rw [World.step, hstage]
  refine ⟨db', htyped, hstock, ?_⟩
  rw [hmark, World.mark, hfinalized]
  dsimp only
  rw [hout]
  exact ⟨rfl, rfl⟩

namespace Thread.Dated

variable {issued : List String} {st : Stock} {t : Thread}

theorem advance (h : t.Dated issued st) {stage : Stage}
    (hsource : ({ t with stage := stage } : Thread).source = t.source)
    (hdecoded : t.stage ≠ .undecodable) (hnext : stage ≠ .undecodable)
    (hjudged : stage = .claimed ∨ stage = .typed ∨ stage = .distrusted → t.job.finalization ≠ none)
    (hdistrusted : stage = .distrusted → Spent st t.job.id t.job.retryCount)
    (hfetched : ¬ (stage = .running ∨ ∃ op, stage = .finalizing op)) :
    ({ t with stage := stage } : Thread).Dated issued st where
  undecodable := fun heq => absurd heq hnext
  issued := fun _ => h.issued hdecoded
  judged := hjudged
  current := fun _ hmarked => by rw [hsource]; exact h.current hdecoded hmarked
  distrusted := hdistrusted
  fetched := fun heq => absurd heq hfetched

theorem finalize {job : Job} {op : Operation} (hissued : job.id ∈ issued)
    (hraw : job.raw = t.payload)
    (hcurrent : job.finalization ≠ none →
      (∃ k, job.raw ∈ st.stored k) ∨ Spent st job.id job.retryCount) :
    (t.finalize job op).Dated issued st := by
  have hstage : (t.finalize job op).stage = .finalizing op ∨
      (t.finalize job op).stage = .recording op := by
    unfold Thread.finalize
    dsimp only
    split
    · exact Or.inl rfl
    · exact Or.inr rfl
  refine ⟨fun heq => ?_, fun _ => hissued, fun heq => ?_, fun _ hmarked => ?_, fun heq => ?_,
    fun _ => hraw⟩
  · obtain h | h := hstage <;> cases h.symm.trans heq
  · obtain h | h := hstage <;> rw [h] at heq <;> obtain heq | heq | heq := heq <;> cases heq
  · rw [source_finalize]
    exact hcurrent hmarked
  · obtain h | h := hstage <;> cases h.symm.trans heq

theorem process (h : t.Dated issued st) (hstage : t.stage = .typed) :
    (t.process { t.job with raw := t.payload }).Dated issued st := by
  have hdecoded : t.stage ≠ .undecodable := hstage ▸ nofun
  have hmarked := h.judged (Or.inr (Or.inl hstage))
  have hcurrent := h.current hdecoded hmarked
  simp only [Thread.source, hstage] at hcurrent
  have hfinal {job : Job} (op : Operation) (hid : job.id = t.job.id) (hraw : job.raw = t.payload)
      (hcount : job.retryCount = t.job.retryCount) : (t.finalize job op).Dated issued st := by
    refine finalize (hid ▸ h.issued hdecoded) hraw fun _ => ?_
    rw [hraw, hid, hcount]
    exact hcurrent
  unfold Thread.process
  split
  · next hnone => exact absurd hnone hmarked
  · unfold Thread.resume
    split
    · exact hfinal _ rfl rfl rfl
    · split
      · exact hfinal _ rfl rfl rfl
      · split
        · exact hfinal _ rfl rfl rfl
        · exact hfinal _ rfl rfl rfl

/-- **Every new thread knows its delivery.** The conditions are what the step did to the
payloads. -/
theorem of_new {cj : Cjson} {s : World} {e : Event} {t' : Thread} (h : Deliveries s)
    (he : (clientMachine cj).permits s e)
    (hspawned : (s.step cj e).threads = t' :: s.threads)
    (hissued : ∀ id ∈ s.issued, id ∈ (s.step cj e).issued)
    (hspent : ∀ {id : String} {n : ℤ}, id ∈ s.issued → Spent (stock s.db) id n →
      Spent (stock (s.step cj e).db) id n)
    (hcurrent : ∀ {k : Key} {j : Job}, j.marshal ∈ (stock s.db).stored k → j.finalization ≠ none →
      (∃ k', j.marshal ∈ (stock (s.step cj e).db).stored k') ∨
        Spent (stock (s.step cj e).db) j.id j.retryCount)
    (hafter : ∀ t ∈ e.thread, t.Dated (s.step cj e).issued (stock (s.step cj e).db)) :
    t'.Dated (s.step cj e).issued (stock (s.step cj e).db) := by
  have hmember := he.1.1
  have hbooks := h.sound.books
  have hnew := spawned_step h.sound.typed he.1 hspawned
  -- What is fetched is a payload of an enqueued job.
  have hfetched {p p' queue : String} {job : Job} (hp : p ∈ (stock s.db).stored (.queue queue))
      (hheld : held cj (stock s.db).trusted p = some p') (hread : unmarshalJob p' = some job) :
      p' ∈ (stock s.db).stored (.queue queue) ∧ ∃ j : Job, p' = j.marshal ∧ j.Alike job ∧
        j.id ∈ s.issued := by
    obtain ⟨rfl, j, hj⟩ := hbooks.fetched hp hheld
    rw [hj.payload] at hread
    exact ⟨hp, j, hj.payload, alike_of_unmarshalJob hread, hj.issued⟩
  -- Who is told that a marker is not the trusted one is late.
  have hlate {t : Thread} (ht : t ∈ e.thread) (hstage : t.stage = .claimed ∨ t.stage = .typed)
      (htrust : t.job.id = "" ∨ (stock s.db).trusted t.job.id ≠ some t.payload) :
      Spent (stock (s.step cj e).db) t.job.id t.job.retryCount := by
    have hdated := h.threads t (hmember t ht)
    have hdecoded : t.stage ≠ .undecodable := by
      obtain h | h := hstage <;> exact h ▸ Stage.noConfusion
    have hgiven : t.stage = .claimed ∨ t.stage = .typed ∨ t.stage = .distrusted :=
      hstage.imp_right Or.inl
    have hsource : t.source = t.payload := by
      obtain h | h := hstage <;> simp only [Thread.source, h]
    obtain ⟨k, hk⟩ | hover := hdated.current hdecoded (hdated.judged hgiven)
    · exfalso
      obtain ⟨j, hpayload, halike⟩ := (h.sound.threads t (hmember t ht)).given hgiven
      rw [hsource] at hk
      obtain ⟨j', hj'⟩ := hbooks.entry k _ hk
      have hsame := alike_of_marshal_eq (hpayload.symm.trans hj'.payload)
      obtain ⟨f, hf⟩ := Option.ne_none_iff_exists'.mp
        (show j'.finalization ≠ none from
          hsame.finalization ▸ halike.finalization ▸ hdated.judged hgiven)
      have hid : j'.id = t.job.id := hsame.id.symm.trans halike.id
      obtain hempty | hother := htrust
      · exact hj'.id_ne (hid.trans hempty)
      · exact hother (hid ▸ hj'.trusted f hf)
    · exact hspent (hdated.issued hdecoded) hover
  cases hnew with
  | @run _ worker queue p p' job hfetches hp hheld hread hnone =>
    obtain ⟨-, j, -, halike, hid⟩ := hfetched hp hheld hread
    refine ⟨Stage.noConfusion, fun _ => hissued _ (halike.id ▸ hid), ?_,
      fun _ hmarked => absurd hnone hmarked,
      Stage.noConfusion, fun _ => rfl⟩
    rintro (h | h | h) <;> cases h
  | @claimed _ worker queue p p' job hfetches hp hheld hread hsome =>
    obtain ⟨hmem, j, rfl, halike, hid⟩ := hfetched hp hheld hread
    refine ⟨Stage.noConfusion, fun _ => hissued _ (halike.id ▸ hid), fun _ => hsome, fun _ _ => ?_,
      Stage.noConfusion, ?_⟩
    · have hnow := hcurrent hmem (halike.finalization ▸ hsome)
      rw [halike.id, halike.retryCount] at hnow
      exact hnow
    · rintro (h | ⟨op, h⟩) <;> cases h
  | @undecodable _ worker queue p p' hfetches hp hheld hread =>
    refine ⟨fun _ => hread, fun h => absurd rfl h, ?_, fun h => absurd rfl h, Stage.noConfusion, ?_⟩
    · rintro (h | h | h) <;> cases h
    · rintro (h | ⟨op, h⟩) <;> cases h
  | @typed t hstage =>
    have ht := hafter t rfl
    refine ht.advance ?_ (hstage ▸ Stage.noConfusion) Stage.noConfusion
      (fun _ => ht.judged (Or.inl hstage)) Stage.noConfusion ?_
    · simp only [Thread.source, hstage]
    · rintro (h | ⟨op, h⟩) <;> cases h
  | @untyped t hstage hnone =>
    have ht := hafter t rfl
    refine ht.advance ?_ (hstage ▸ Stage.noConfusion) Stage.noConfusion
      (fun _ => ht.judged (Or.inl hstage)) (fun _ => ?_) ?_
    · simp only [Thread.source, hstage]
    · refine hlate rfl (Or.inl hstage) (hnone.imp_right fun hnone => ?_)
      rw [show (stock s.db).trusted t.job.id = none from hnone]
      exact (Option.some_ne_none _).symm
    · rintro (h | ⟨op, h⟩) <;> cases h
  | @distrusted t hstage htrust =>
    have ht := hafter t rfl
    refine ht.advance ?_ (hstage ▸ Stage.noConfusion) Stage.noConfusion
      (fun _ => ht.judged (Or.inr (Or.inl hstage)))
      (fun _ => hlate rfl (Or.inr hstage) (Or.inr htrust)) ?_
    · simp only [Thread.source, hstage]
    · rintro (h | ⟨op, h⟩) <;> cases h
  | @trusted t hstage htrust => exact (hafter t rfl).process hstage
  | @sanitized t hstage hp =>
    have hdated := h.threads t (hmember t rfl)
    have hfaithful := h.sound.threads t (hmember t rfl)
    obtain hsame | hp := hp
    · exact absurd hsame (hdated.sanitized_ne hfaithful hstage)
    · exact absurd hp (hdated.absent hfaithful hstage (.inFlight t.worker) trivial)
  | @handled t hstage job op =>
    have hfaithful := h.sound.threads t (hmember t rfl)
    have hnone : (withError job op).finalization = none := by
      have hjob : job.finalization = none :=
        he.1.2.2.2.trans (hfaithful.unmarked (Or.inl hstage))
      cases op <;> exact hjob
    refine finalize ?_ ?_ fun hmarked => absurd hnone hmarked
    · have hid := (hafter t rfl).issued (hstage ▸ Stage.noConfusion)
      have hsame : (withError job op).id = t.job.id := by cases op <;> exact he.2.1
      exact hsame ▸ hid
    · rw [withError_raw]
      exact he.1.2.2.1.trans ((hafter t rfl).fetched (Or.inl hstage))
  | @marked t op p' hstage hp' hmarked htrusted =>
    have hstep : s.step cj (.mark t) = s.mark t op := by rw [World.step, hstage]
    have hcases := mark_cases h.sound.typed t op
    have hnone := (h.sound.threads t (hmember t rfl)).unmarked (Or.inr ⟨op, hstage⟩)
    refine ⟨Stage.noConfusion, fun _ => (hafter t rfl).issued (hstage ▸ Stage.noConfusion), ?_,
      fun _ _ => ?_, Stage.noConfusion, ?_⟩
    · rintro (h | h | h) <;> cases h
    · rw [hstep] at hspawned ⊢
      obtain ⟨-, hsame⟩ | ⟨p, k, -, hmem, -, hraw⟩ := hcases
      · exact absurd ((hsame _ hspawned).trans hnone) (Option.some_ne_none _)
      · refine Or.inl ⟨k, ?_⟩
        have hsource := hraw _ hspawned
        change p' = p at hsource
        rw [← hsource] at hmem
        exact hmem
    · rintro (h | ⟨op, h⟩) <;> cases h
  | @unmarked t op hstage | @progressed t op hstage | @calledBack t op hstage =>
    refine (hafter t rfl).advance ?_ (hstage ▸ Stage.noConfusion) Stage.noConfusion ?_
      Stage.noConfusion ?_
    · simp only [Thread.source, hstage]
    · rintro (h | h | h) <;> cases h
    · rintro (h | ⟨op, h⟩) <;> cases h

end Thread.Dated

namespace Deliveries

variable {cj : Cjson} {s : World} {e : Event}

theorem init : Deliveries .init where
  sound := .init
  decodes := by
    intro k j hj
    obtain ⟨j', hj'⟩ := Sound.init.books.entry k _ hj
    exact absurd hj'.issued List.not_mem_nil
  threads := fun _ ht => absurd ht List.not_mem_nil

theorem stays (h : Deliveries s) (he : (clientMachine cj).permits s e) {j : Job} {k : Key}
    (hj : j.marshal ∈ (stock s.db).stored k) (hmarked : j.finalization ≠ none) :
    (∃ k', j.marshal ∈ (stock (s.step cj e).db).stored k') ∨
      Ended cj s.view j e (s.step cj e).view := by
  have hmember := he.1.1
  exact stays_or_ends (moves_step h.sound.typed he.1).2 h.sound.books
    (fun t ht => h.sound.threads t (hmember t ht)) (fun t ht => h.threads t (hmember t ht)) he.1.2.1
    he.1.2.2 he.2 hj hmarked (h.decodes k j hj hmarked)

theorem step (h : Deliveries s) (he : (clientMachine cj).permits s e) :
    Deliveries (s.step cj e) := by
  have hsound := h.sound.step he
  have hmember := he.1.1
  have hmoves := (@moves_step cj _ _ h.sound.typed he.1).2
  have hissued := (h.sound.advance he).issued
  have hfaithful : ∀ t ∈ e.thread, t.Faithful := fun t ht => h.sound.threads t (hmember t ht)
  have hspent {id : String} {n : ℤ} (hid : id ∈ s.issued) (hover : Spent (stock s.db) id n) :
      Spent (stock (s.step cj e).db) id n :=
    hover.of_moves hmoves h.sound.books hfaithful he.1.2.1 he.1.2.2 rfl he.2 hid
  have hcurrent {k : Key} {j : Job} (hj : j.marshal ∈ (stock s.db).stored k)
      (hmarked : j.finalization ≠ none) :
      (∃ k', j.marshal ∈ (stock (s.step cj e).db).stored k') ∨
        Spent (stock (s.step cj e).db) j.id j.retryCount :=
    (h.stays he hj hmarked).imp_right fun hended => hended.spent hsound.books hfaithful
  -- Threads that were there before still know their delivery.
  have hold {t : Thread} (ht : t ∈ s.threads) :
      t.Dated (s.step cj e).issued (stock (s.step cj e).db) := by
    have hdated := h.threads t ht
    refine ⟨hdated.undecodable, fun hd => hissued _ (hdated.issued hd), hdated.judged,
      fun hd hmarked => ?_, fun hstage => ?_, hdated.fetched⟩
    · obtain ⟨k, hk⟩ | hover := hdated.current hd hmarked
      · obtain ⟨j, hsource, halike⟩ := (h.sound.threads t ht).source hd
        rw [hsource] at hk ⊢
        rw [← halike.id, ← halike.retryCount]
        exact hcurrent hk (halike.finalization ▸ hmarked)
      · exact Or.inr (hspent (hdated.issued hd) hover)
    · exact hspent (hdated.issued (hstage ▸ nofun)) (hdated.distrusted hstage)
  refine ⟨hsound, fun k j hj hmarked => ?_, fun t ht => ?_⟩
  · obtain ⟨k', -, hj'⟩ | ⟨j', hwrites, hsame, -⟩ :=
      origin_of_moves hmoves h.sound.books he.2 hj
    · exact h.decodes k' j hj' hmarked
    · -- Only `MarkFinalization` writes a marker, into a payload that it has read.
      have hmarked' : j'.finalization ≠ none := (alike_of_marshal_eq hsame).finalization ▸ hmarked
      rw [hsame]
      cases e with
      | enqueue job | enqueueAt job score => cases hwrites; exact absurd he.1.2.2.1 hmarked'
      | sanitize t => cases hwrites; exact absurd rfl hmarked'
      | interrupted t job => exact absurd (durableJobPayload_id hwrites).2 hmarked'
      | mark t =>
        obtain ⟨op, job, hstage, hread, rfl⟩ := hwrites
        rw [unmarshalJob_mark hread]
        exact Option.some_ne_none _
      | finish t now =>
        obtain ⟨retryAt, hstage, -, hnext⟩ | ⟨error, hstage, hdead⟩ := hwrites
        · exact absurd (nextJob_id hnext).2 hmarked'
        · exact absurd (deadJob_id hdead).2 hmarked'
      | _ => exact hwrites.elim
  · obtain hsame | ⟨t', hcons, -⟩ := @grown_step cj s e h.sound.typed he.1
    · exact hold (hsame ▸ ht)
    · rw [hcons] at ht
      obtain rfl | ht := List.mem_cons.mp ht
      · exact .of_new h he hcons hissued hspent hcurrent fun t ht => hold (hmember t ht)
      · exact hold ht

/-- **A handler is started for a payload from a queue, as it stands there.** Who distrusts a marker
finds nothing to sanitize. -/
theorem source_of_running (h : Deliveries s) (he : (clientMachine cj).permits s e) {t' : Thread}
    (hspawned : (s.step cj e).threads = t' :: s.threads) (hstage : t'.stage = .running) :
    ∃ queue, ∃ j : Job, j.marshal ∈ (stock s.db).stored (.queue queue) ∧ j.Alike t'.job ∧
      j.finalization = none := by
  have hmember := he.1.1
  have hfinalize (t : Thread) (job : Job) (op : Operation) :
      (t.finalize job op).stage ≠ .running := by
    unfold Thread.finalize
    dsimp only
    split <;> exact Stage.noConfusion
  have hnew := spawned_step h.sound.typed he.1 hspawned
  cases hnew with
  | @run _ worker queue p p' job hfetches hp hheld hread hnone =>
    obtain ⟨rfl, j, hj⟩ := h.sound.books.fetched hp hheld
    have halike := alike_of_unmarshalJob (hj.payload ▸ hread)
    exact ⟨queue, j, hj.payload ▸ hp, { halike with }, halike.finalization.trans hnone⟩
  | @trusted t htyped htrust =>
    have hjudged := (h.threads t (hmember t rfl)).judged (Or.inr (Or.inl htyped))
    refine absurd hstage ?_
    unfold Thread.process
    split
    · next hnone => exact absurd hnone hjudged
    · unfold Thread.resume
      split
      · exact hfinalize _ _ _
      · split
        · exact hfinalize _ _ _
        · split <;> exact hfinalize _ _ _
  | @sanitized t hdistrusted hp =>
    have hdated := h.threads t (hmember t rfl)
    have hfaithful := h.sound.threads t (hmember t rfl)
    obtain hsame | hp := hp
    · exact absurd hsame (hdated.sanitized_ne hfaithful hdistrusted)
    · exact absurd hp (hdated.absent hfaithful hdistrusted (.inFlight t.worker) trivial)
  | handled _ job op => exact absurd hstage (hfinalize _ _ _)
  | _ => cases hstage

/-- **No handler is started for a job with a marker.** -/
theorem rests (h : Deliveries s) (he : (clientMachine cj).permits s e) {j : Job} {k : Key}
    (hj : j.marshal ∈ (stock s.db).stored k) (hmarked : j.finalization ≠ none) {t' : Thread}
    (hspawned : (s.step cj e).threads = t' :: s.threads) (hid : t'.job.id = j.id) :
    t'.stage ≠ .running := by
  intro hstage
  obtain ⟨queue, j', hj', halike, hnone⟩ := h.source_of_running he hspawned hstage
  -- The payload that was fetched is the one with the marker.
  have hpid : payloadID j'.marshal = some j.id := by
    rw [payloadID_marshal, halike.id, hid]
  have hsame := ((h.sound.books.single j.id).eq_of_mem hj (payloadID_marshal j) hj' hpid).2
  exact hmarked ((alike_of_marshal_eq hsame).finalization.symm.trans hnone)

theorem later (h : Deliveries s) (he : (clientMachine cj).permits s e) {id : String} {n : ℤ}
    (hover : Spent (stock s.db) id n) {t' : Thread}
    (hspawned : (s.step cj e).threads = t' :: s.threads) (hid : t'.job.id = id)
    (hstage : t'.stage = .running) : n < t'.job.retryCount := by
  obtain ⟨queue, j, hj, halike, -⟩ := h.source_of_running he hspawned hstage
  rw [← halike.retryCount]
  exact hover (.queue queue) trivial j hj (halike.id.trans hid)

end Deliveries

/-! ### The outcome -/

/-- The outcome of a delivery: the job of the thread that was given it has ended as the operation
says. -/
def Concluded (op : Operation) (t : Thread) (s : World) : Prop :=
  match op with
  | .complete => (stock s.db).copies t.job.id = 0
  | .kill error => (stock s.db).copies t.job.id = Pi.single .dead 1 ∧
      ∃ dead : Job, dead.marshal ∈ (stock s.db).stored .dead ∧ dead.id = t.job.id ∧
        dead.error = error
  | .retry retryAt => (stock s.db).copies t.job.id = Pi.single .retry 1 ∧
      ∃ next fetched : Job, (next.marshal, retryAt.unix) ∈ s.db.zset .retry ∧
        next.id = t.job.id ∧ unmarshalJob t.payload = some fetched ∧
        next.retryCount = fetched.retryCount + 1 ∧ next.finalization = none

def Operation.Lasting (op : Operation) : Prop :=
  ∀ retryAt, op = .retry retryAt → retryAt.isZero = false

theorem Operation.eq_of_matches {op op' : Operation} (hop : op.Lasting)
    (h : op'.Matches op.finalization) : op' = op := by
  cases op' with
  | complete =>
    cases op with
    | complete => rfl
    | retry retryAt => exact absurd (show "retry" = "complete" from h) (by decide)
    | kill error => exact absurd (show "kill" = "complete" from h) (by decide)
  | retry retryAt' =>
    cases op with
    | complete => exact absurd (show "complete" = "retry" from h.1) (by decide)
    | retry retryAt =>
      have hzero : retryAt'.isZero = false := h.2.1.trans (hop retryAt rfl)
      rw [h.2.2 hzero]
      rfl
    | kill error => exact absurd (show "kill" = "retry" from h.1) (by decide)
  | kill error' =>
    cases op with
    | complete => exact absurd (show "complete" = "kill" from h.1) (by decide)
    | retry retryAt => exact absurd (show "retry" = "kill" from h.1) (by decide)
    | kill error => exact congrArg Operation.kill h.2.symm

theorem zset_finish_retry {s : World} (hdb : WellTyped s.db) {t : Thread} {now retryAt : Time}
    {next : Job} (hstage : t.stage = .progressed (.retry retryAt)) (hretryAt : retryAt.isZero = false)
    (hnext : nextJob t.job = some next)
    (hp : jobPayload t.job ∈ (stock s.db).stored (.inFlight t.worker)) :
    (next.marshal, retryAt.unix) ∈ (s.finish t now).db.zset .retry := by
  have hrun := run_retryJob hdb t.worker t.job.id (jobPayload t.job) retryAt.unix next.marshal
  rw [if_pos (show jobPayload t.job ∈ s.db.list (.inFlight t.worker) from hp)] at hrun
  have hfinish : (s.finish t now).db = ((retryJob t.worker t.job.id (jobPayload t.job) retryAt.unix
      next.marshal).run s.db).db := by
    simp only [World.finish, hstage, hretryAt, hnext]
    rfl
  rw [hfinish, hrun, Outcome.db_ok, Db.zset_write, if_pos rfl, Db.zsetOf_ofZset]
  exact List.mem_cons_self

section Recorded

variable {cj : Cjson} {s : World} {e : Event} {t : Thread} {op : Operation} {j : Job}

/-- **The delivery ends as recorded.** The thread that finishes it has the marker in its payload, so
it carries out the operation that the marker names. -/
theorem Ended.concluded (hended : Ended cj s.view j e (s.step cj e).view) (h : Deliveries s)
    (he : (clientMachine cj).permits s e) (hid : j.id = t.job.id)
    (hmarker : j.finalization = some op.finalization) (hop : op.Lasting)
    (hread : op = .complete ∨ orphanTarget cj j.marshal ≠ none)
    {fetched : Job} (hfetched : unmarshalJob t.payload = some fetched)
    (hcount : j.retryCount = fetched.retryCount) : Concluded op t (s.step cj e) := by
  have hmember := he.1.1
  -- The operation of a thread that holds the marked payload is the recorded one.
  have hagrees {t' : Thread} {op' : Operation} (ht' : t' ∈ s.threads)
      (hp : jobPayload t'.job = j.marshal) (hstage : t'.stage.operation = some op') :
      op' = op ∧ t'.job.retryCount = j.retryCount ∧ t'.job.id = j.id := by
    have hfaithful := h.sound.threads t' ht'
    obtain ⟨j₀, -, hpayload, halike⟩ := hfaithful.working (Or.inr (hstage ▸ nofun))
    have hsame := alike_of_marshal_eq (hpayload.symm.trans hp)
    have hf : t'.job.finalization = some op.finalization :=
      halike.finalization.symm.trans (hsame.finalization.trans hmarker)
    exact ⟨op.eq_of_matches hop (hfaithful.agrees op' hstage _ hf),
      halike.retryCount.symm.trans hsame.retryCount, halike.id.symm.trans hsame.id⟩
  cases hended with
  | @acked t' now v' hp hstage hzero =>
    obtain hstage | ⟨retryAt, hstage, hretryAt⟩ := hstage
    · obtain ⟨rfl, -, -⟩ := hagrees (hmember t' rfl) hp (by rw [hstage]; rfl)
      change (stock (s.step cj _).db).copies t.job.id = 0
      rw [← hid]
      exact hzero
    · obtain ⟨rfl, -, -⟩ := hagrees (hmember t' rfl) hp (by rw [hstage]; rfl)
      exact absurd ((hop retryAt rfl).symm.trans hretryAt) nofun
  | @buried t' now error dead v' hp hstage hdead hmem hone =>
    obtain ⟨rfl, -, hsame⟩ := hagrees (hmember t' rfl) hp (by rw [hstage]; rfl)
    have herror := (h.sound.threads t' (hmember t' rfl)).error error (by rw [hstage]; rfl)
    exact ⟨hid ▸ hone, dead, hmem, (deadJob_id hdead).1.trans (hsame.trans hid),
      (deadJob_fields hdead).2.trans herror⟩
  | @retried t' now retryAt next v' hp hstage hretryAt hnext hinFlight hmem hone =>
    obtain ⟨rfl, hretryCount, hsame⟩ := hagrees (hmember t' rfl) hp (by rw [hstage]; rfl)
    obtain ⟨hnextID, hnone⟩ := nextJob_id hnext
    refine ⟨hid ▸ hone, next, fetched, ?_, hnextID.trans (hsame.trans hid), hfetched, ?_, hnone⟩
    · exact zset_finish_retry h.sound.typed hstage hretryAt hnext (hp.symm ▸ hinFlight)
    · rw [nextJob_retryCount hnext, hretryCount, hcount]
  | dropped hnone hzero =>
    obtain rfl | hsome := hread
    · change (stock (s.step cj _).db).copies t.job.id = 0
      rw [← hid]
      exact hzero
    · exact absurd hnone hsome

end Recorded

def Pending (p : String) (s : World) : Prop := ∃ k, p ∈ (stock s.db).stored k

/-- **A recorded outcome sticks.** A run leads to a state in which `MarkFinalization` records an
outcome for the delivery of a thread. The recovery can read the payload it has marked, or the
outcome is that the job is complete. Then the marked payload is there, and in every run from there
on, while it is there, a step leaves it or ends the delivery in the recorded outcome. No step starts
a handler for the job, unless it is for a later attempt and the marked payload has gone. -/
theorem recorded_outcome_sticks (cj : Cjson) {es es' : List Event} {t : Thread} {op : Operation}
    {p : String} (legal : (clientMachine cj).Legal .init es) (hop : op.Lasting)
    (hstage : t.stage = .finalizing op)
    (hmark : (clientMachine cj).permits ((clientMachine cj).run .init es) (.mark t))
    (hrecorded : (((clientMachine cj).run .init es).step cj (.mark t)).marked =
      p :: ((clientMachine cj).run .init es).marked)
    (hread : op = .complete ∨ ∃ j : Job, p = j.marshal ∧ j.Readable)
    (legal' : (clientMachine cj).Legal (((clientMachine cj).run .init es).step cj (.mark t)) es') :
    Pending p (((clientMachine cj).run .init es).step cj (.mark t)) ∧
      (clientMachine cj).Throughout (fun s e =>
          (∀ t', (s.step cj e).threads = t' :: s.threads → t'.job.id = t.job.id →
            t'.stage = .running → ¬ Pending p s ∧ t.job.retryCount < t'.job.retryCount) ∧
          (Pending p s → Pending p (s.step cj e) ∨ Concluded op t (s.step cj e)))
        (((clientMachine cj).run .init es).step cj (.mark t)) es' := by
  generalize hs : (clientMachine cj).run .init es = s at hmark hrecorded legal' ⊢
  have h : Deliveries s := hs ▸ legal.invariant (fun _ _ h he => h.step he) .init
  have hdated := h.threads t (hmark.1.1 t rfl)
  obtain ⟨j₀, hraw, hpayload, halike⟩ :=
    (h.sound.threads t (hmark.1.1 t rfl)).working (Or.inr (hstage ▸ Option.some_ne_none _))
  have hstep : s.step cj (.mark t) = s.mark t op := by rw [World.step, hstage]
  obtain ⟨hsame, -⟩ | ⟨p', k, hp', hmem, hmarked, -⟩ := mark_cases h.sound.typed t op
  · rw [hstep, hsame] at hrecorded
    exact absurd (congrArg List.length hrecorded) (by simp)
  rw [hstep, hmarked] at hrecorded
  obtain rfl : p' = p := (List.cons.inj hrecorded).1
  -- What was recorded is the payload that was fetched, with the marker.
  obtain ⟨fetched, hfetched, hwritten⟩ := Option.map_eq_some_iff.mp hp'
  rw [hpayload] at hfetched
  have hfirst := alike_of_unmarshalJob hfetched
  rw [← hraw, hdated.fetched (Or.inr ⟨op, hstage⟩)] at hfetched
  obtain ⟨j, hj, hid, hcount, hmarker⟩ : ∃ j : Job, p' = j.marshal ∧ j.id = t.job.id ∧
      j.retryCount = fetched.retryCount ∧ j.finalization = some op.finalization :=
    ⟨_, hwritten.symm, hfirst.id.symm.trans halike.id, rfl, rfl⟩
  have hcount' : t.job.retryCount = j.retryCount :=
    halike.retryCount.symm.trans (hfirst.retryCount.trans hcount.symm)
  have hmarked' : j.finalization ≠ none := hmarker ▸ Option.some_ne_none _
  subst hj
  refine ⟨⟨k, hstep ▸ hmem⟩, ?_⟩
  -- The payload is there, or the delivery is over, at every step.
  refine legal'.throughout (I := fun s => Deliveries s ∧ j.id ∈ s.issued ∧
    (Pending j.marshal s ∨ Spent (stock s.db) j.id j.retryCount)) ?_ ?_ ?_
  · rintro s e ⟨h, hissued, hcases⟩ he
    refine ⟨h.step he, (h.sound.advance he).issued _ hissued, ?_⟩
    obtain ⟨k, hk⟩ | hover := hcases
    · exact (h.stays he hk hmarked').imp_right fun hended =>
        hended.spent (h.sound.step he).books fun t ht => h.sound.threads t (he.1.1 t ht)
    · exact Or.inr (hover.of_moves (@moves_step cj _ _ h.sound.typed he.1).2 h.sound.books
        (fun t ht => h.sound.threads t (he.1.1 t ht)) he.1.2.1 he.1.2.2 rfl he.2 hissued)
  · rintro s e ⟨h, hissued, hcases⟩ he
    refine ⟨fun t' hspawned hsame hrunning => ?_, ?_⟩
    · have habsent : ¬ Pending j.marshal s := by
        rintro ⟨k, hk⟩
        exact h.rests he hk hmarked' hspawned (hsame.trans hid.symm) hrunning
      refine ⟨habsent, ?_⟩
      rw [hcount']
      exact h.later he (hcases.resolve_left habsent) hspawned (hsame.trans hid.symm) hrunning
    · rintro ⟨k, hk⟩
      refine (h.stays he hk hmarked').imp_right fun hended => ?_
      refine hended.concluded h he hid hmarker hop (hread.imp_right ?_) hfetched hcount
      rintro ⟨j', hsame, hreadable⟩
      obtain ⟨j₁, hentry⟩ := h.sound.books.entry k _ hk
      have hne : j'.id ≠ "" :=
        (alike_of_marshal_eq (hsame.symm.trans hentry.payload)).id ▸ hentry.id_ne
      exact hsame ▸ hreadable.orphanTarget hne
  · refine ⟨h.step hmark, ?_, Or.inl ⟨k, hstep ▸ hmem⟩⟩
    exact (h.sound.advance hmark).issued _ (hid ▸ hdated.issued (hstage ▸ Stage.noConfusion))

/-! ### A class that is empty -/

def classJob (type : String) : Job := { Job.zero with id := "j", type := type, queue := "q" }

/-- The worker that has fetched it, and what it makes of the job when the handler wants it dead. -/
def classThread (type : String) : Thread :=
  ⟨"w", "q", (classJob type).marshal, { classJob type with raw := (classJob type).marshal }, .running⟩

def condemned (type : String) : Thread :=
  (classThread type).finalize (withError (classThread type).job (.kill "boom")) (.kill "boom")

def condemnedPayload (type : String) : String :=
  ({ classJob type with finalization := some (Operation.kill "boom").finalization } : Job).marshal

def condemnedRun (type : String) : List Event :=
  [.enqueue (classJob type), .fetch "w" "q",
    .handled (classThread type) (classThread type).job (.kill "boom")]

theorem unmarshalJob_classJob (type : String) :
    unmarshalJob (classJob type).marshal = some (classJob type) := by
  have hzero : InInt64 0 := by decide
  exact unmarshalJob_of_args_eq_none rfl hzero hzero hzero

theorem run_fetch_classJob (cj : Cjson) (type : String) :
    ∃ db, WellTyped db ∧ db.list (.inFlight "w") = [(classJob type).marshal] ∧
      stock db = (stock World.init.db).put (.inFlight "w") (classJob type).marshal ∧
      (clientMachine cj).run .init [.enqueue (classJob type), .fetch "w" "q"] =
        ⟨db, [classThread type], ["j"], [], []⟩ := by
  set p := (classJob type).marshal with hp
  have hempty : WellTyped World.init.db := .empty
  obtain ⟨db₁, hdb₁⟩ : ∃ db₁, db₁ = (World.init.db.putSet .queues {"q"}).putList (.queue "q") [p] :=
    ⟨_, rfl⟩
  have hstep₁ : World.init.step cj (.enqueue (classJob type)) = ⟨db₁, [], ["j"], [], []⟩ := by
    have hrun := run_enqueueNow hempty "q" p
    change (⟨((enqueueNow "q" p).run World.init.db).db, [], ["j"], [], []⟩ : World) = _
    rw [hrun, hdb₁]
    rfl
  -- On the queue.
  have hpermits : (clientMachine cj).permits .init (.enqueue (classJob type)) :=
    ⟨World.permits_of_thread_eq_none rfl trivial ⟨rfl, rfl⟩, by simp [classJob], List.not_mem_nil⟩
  have hsound := hstep₁ ▸ Sound.init.step hpermits
  have hqueue₁ : db₁.list (.queue "q") = [p] := by
    rw [hdb₁]
    simp
  have hinFlight₁ : db₁.list (.inFlight "w") = [] := by
    rw [hdb₁]
    simp
    rfl
  have hstock₁ : stock db₁ = (stock World.init.db).put (.queue "q") p := by
    rw [hdb₁, stock_putList _ rfl, stock_putSet_queues]
    rfl
  have hheld : held cj (trustedIn db₁) p = some p := by
    refine hsound.books.held_eq (k := .queue "q") ?_
    change p ∈ (stock db₁).stored (.queue "q")
    rw [hstock₁, Stock.stored_put, if_pos rfl]
    exact Multiset.mem_cons_self _ _
  -- In flight.
  obtain ⟨db, htyped, hlist, hstock, hstep₂⟩ :=
    @step_fetch_only cj ⟨db₁, [], ["j"], [], []⟩ "w" "q" p hsound.typed hqueue₁ hinFlight₁ hheld
  change stock db = ((stock db₁).take (.queue "q") p).put (.inFlight "w") p at hstock
  refine ⟨db, htyped, hlist, ?_, ?_⟩
  · rw [hstock, hstock₁, Stock.take_put]
  · change (World.init.step cj (.enqueue (classJob type))).step cj (.fetch "w" "q") = _
    rw [hstep₁, hstep₂, World.claim, hp, unmarshalJob_classJob]
    rfl

theorem stock_step_reap {cj : Cjson} {s : World} (hdb : WellTyped s.db) (worker : String) :
    stock (s.step cj (.reap worker)).db =
      (s.db.list (.inFlight worker)).foldl (Stock.recover cj worker) (stock s.db) :=
  (stock_requeueOrphaned hdb worker).2

theorem step_mark_condemned (cj : Cjson) (type : String) :
    (clientMachine cj).Legal .init (condemnedRun type) ∧
      (clientMachine cj).permits ((clientMachine cj).run .init (condemnedRun type))
        (.mark (condemned type)) ∧
      (((clientMachine cj).run .init (condemnedRun type)).step cj (.mark (condemned type))).marked =
        condemnedPayload type :: ((clientMachine cj).run .init (condemnedRun type)).marked ∧
      stock ((((clientMachine cj).run .init (condemnedRun type)).step cj
          (.mark (condemned type))).step cj (.reap "w")).db =
        (((stock World.init.db).put (.inFlight "w") (condemnedPayload type)).trust "j"
          (some (condemnedPayload type))).recover cj "w" (condemnedPayload type) := by
  obtain ⟨db, htyped, hlist, hstock, hrun⟩ := run_fetch_classJob cj type
  have hrun' : (clientMachine cj).run .init (condemnedRun type) =
      ⟨db, [condemned type, classThread type], ["j"], [], []⟩ := by
    change ((clientMachine cj).run .init [.enqueue (classJob type), .fetch "w" "q"]).step cj
      (.handled (classThread type) (classThread type).job (.kill "boom")) = _
    rw [hrun]
    rfl
  have hpayload : jobPayload (condemned type).job = (classJob type).marshal := jobPayload_raw rfl
  have hmarker : payloadWithFinalization (jobPayload (condemned type).job)
      (Operation.kill "boom").finalization = some (condemnedPayload type) := by
    rw [hpayload, payloadWithFinalization, unmarshalJob_classJob]
    rfl
  have hp : jobPayload (condemned type).job ∈ db.list (.inFlight "w") := by
    rw [hpayload, hlist]
    exact List.mem_cons_self
  obtain ⟨db', htyped', hstock', hdb', hmarked⟩ := @step_mark_inFlight cj
    ⟨db, [condemned type, classThread type], ["j"], [], []⟩ (condemned type) (.kill "boom")
    (condemnedPayload type) htyped rfl hmarker hp
  rw [hpayload, hstock] at hstock'
  change stock db' = ((((stock World.init.db).put (.inFlight "w") _).take (.inFlight "w") _).put
    (.inFlight "w") _).trust "j" _ at hstock'
  rw [Stock.take_put] at hstock'
  have hlist' : db'.list (.inFlight "w") = [condemnedPayload type] := by
    refine Multiset.coe_eq_singleton.mp ?_
    change (stock db').stored (.inFlight "w") = _
    rw [hstock', Stock.stored_trust, Stock.stored_put, if_pos rfl]
    rfl
  rw [hrun']
  refine ⟨?_, ?_, hmarked, ?_⟩
  · refine ⟨⟨World.permits_of_thread_eq_none rfl trivial ⟨rfl, rfl⟩, by simp [classJob],
      List.not_mem_nil⟩, ⟨World.permits_of_thread_eq_none rfl trivial trivial, trivial⟩, ?_, trivial⟩
    change (clientMachine cj).permits
      ((clientMachine cj).run .init [.enqueue (classJob type), .fetch "w" "q"]) _
    rw [hrun]
    refine ⟨⟨fun t ht => ?_, rfl, rfl, rfl⟩, rfl, rfl, rfl⟩
    rw [← Option.some.inj ht]
    exact List.mem_cons_self
  · refine ⟨⟨fun t ht => ?_, ⟨_, rfl⟩, trivial⟩, trivial⟩
    rw [← Option.some.inj ht]
    exact List.mem_cons_self
  · rw [stock_step_reap (hdb' ▸ htyped'), hdb', hlist', hstock', List.foldl_cons, List.foldl_nil]

theorem orphanTarget_classless (cj : Cjson) : orphanTarget cj (condemnedPayload "") = none := by
  unfold orphanTarget
  cases hdecode : cj.decode (condemnedPayload "") with
  | none => rfl
  | some v =>
    obtain ⟨-, hjid, hclass, -, -⟩ := Cjson.decode_marshal hdecode
    simp [hjid, hclass, classJob]

theorem store_sound_condemned :
    Sound ((clientMachine .plain).run .init (condemnedRun "Mail")) :=
  store_sound (step_mark_condemned .plain "Mail").1

/-- **The marker of a job without a class is lost with the job.** The job should be dead, and there
is no copy of it. -/
theorem classless_dropped :
    (clientMachine .plain).Legal .init (condemnedRun "") ∧
      (condemned "").stage = .finalizing (.kill "boom") ∧
      (clientMachine .plain).permits ((clientMachine .plain).run .init (condemnedRun ""))
        (.mark (condemned "")) ∧
      (((clientMachine .plain).run .init (condemnedRun "")).step .plain
          (.mark (condemned ""))).marked =
        condemnedPayload "" :: ((clientMachine .plain).run .init (condemnedRun "")).marked ∧
      (clientMachine .plain).Legal (((clientMachine .plain).run .init (condemnedRun "")).step .plain
        (.mark (condemned ""))) [.reap "w"] ∧
      (stock ((((clientMachine .plain).run .init (condemnedRun "")).step .plain
        (.mark (condemned ""))).step .plain (.reap "w")).db).copies "j" = 0 := by
  obtain ⟨legal, hmark, hmarked, hstock⟩ := step_mark_condemned .plain ""
  refine ⟨legal, rfl, hmark, hmarked, ⟨⟨World.permits_of_thread_eq_none rfl trivial trivial,
    trivial⟩, trivial⟩, ?_⟩
  rw [hstock, Stock.recover, Stock.route, orphanTarget_classless]
  change (((stock World.init.db).put (.inFlight "w") _).take (.inFlight "w") _).copies "j" = 0
  rw [Stock.take_put]
  exact Sound.init.books.fresh List.not_mem_nil

theorem condemned_survives :
    (clientMachine .plain).Legal .init (condemnedRun "Mail") ∧
      Pending (condemnedPayload "Mail") (((clientMachine .plain).run .init
        (condemnedRun "Mail")).step .plain (.mark (condemned "Mail"))) ∧
      (Pending (condemnedPayload "Mail") ((((clientMachine .plain).run .init
          (condemnedRun "Mail")).step .plain (.mark (condemned "Mail"))).step .plain (.reap "w")) ∨
        Concluded (.kill "boom") (condemned "Mail") ((((clientMachine .plain).run .init
          (condemnedRun "Mail")).step .plain (.mark (condemned "Mail"))).step .plain
            (.reap "w"))) := by
  obtain ⟨legal, hmark, hmarked, -⟩ := step_mark_condemned .plain "Mail"
  have hreap : (clientMachine .plain).Legal (((clientMachine .plain).run .init
      (condemnedRun "Mail")).step .plain (.mark (condemned "Mail"))) [.reap "w"] :=
    ⟨⟨World.permits_of_thread_eq_none rfl trivial trivial, trivial⟩, trivial⟩
  have hlasting : (Operation.kill "boom").Lasting := fun retryAt h => by cases h
  obtain ⟨hpending, hstep, -⟩ := recorded_outcome_sticks .plain legal hlasting rfl hmark hmarked
    (Or.inr ⟨_, rfl, by decide, by decide⟩) hreap
  exact ⟨legal, hpending, hstep.2 hpending⟩

end Senna
