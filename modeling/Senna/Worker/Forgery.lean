import Senna.Worker.Conservation

/-!
# No forged markers

A producer may write any text into a payload, also a finalization marker, which would
make a worker skip the handler and report whatever the marker says. The worker therefore
believes a marker only if the finalization key of the job holds the very same payload,
and that key is written in two places: by `mark_job_finalization`, and by
`requeue_orphaned` for every marker that it finds in flight.

The second is safe as long as **no marker that Lua can see is in flight unless a worker has
recorded it** (`Guarded`). Both fetch scripts see to that: they remove a marker that is
not trusted before the payload is in flight. What Lua does not see (a text that `cjson`
does not read, a member in other letter case) is not trusted by `requeue_orphaned` either,
and the worker removes such a marker itself.

There is one gap. `sequential_fetch` moves the payload into flight first and encodes it
without the marker afterwards. If `cjson.encode` raises, the script ends there, and the
payload stays in flight as the producer wrote it. A number beyond the range of a double
in a field that the worker ignores is enough: `cjson` reads it as infinity and refuses
to write it. The next recovery then trusts the marker. So what is proved is for runs in
which no `sequential_fetch` raises.
-/

namespace Senna

open Redis

def Visible (cj : Cjson) (p : String) : Prop :=
  ∃ v, cj.decode p = some v ∧ Lua.field "finalization" v = .table

/-- No marker is trusted, or visible in flight, but those that a worker has recorded. -/
structure Guarded (cj : Cjson) (marked : List String) (st : Stock) : Prop where
  trusted : ∀ id p, st.trusted id = some p → p ∈ marked
  inFlight : ∀ worker, ∀ p ∈ st.stored (.inFlight worker), Visible cj p → p ∈ marked

section Payloads

variable {cj : Cjson} {marked : List String} {p p' : String}

theorem not_visible_marshal {job : Job} (h : job.finalization = none) :
    ¬ Visible cj job.marshal := by
  rintro ⟨v, hdecode, hfield⟩
  have hnil := (Cjson.decode_marshal hdecode).2.2.2.2
  rw [h, hfield] at hnil
  cases hnil

/-- **What the fetch scripts let into flight.** A visible marker is one that is trusted. -/
theorem mem_of_visible_held {trusted : String → Option String}
    (htrusted : ∀ id p, trusted id = some p → p ∈ marked)
    (hheld : held cj trusted p = some p') (hvisible : Visible cj p') : p' ∈ marked := by
  obtain ⟨w, hw, htable⟩ := hvisible
  unfold held at hheld
  cases hdecode : cj.decode p with
  | none =>
    -- What `cjson` does not read stays as it is, and shows nothing.
    rw [hdecode] at hheld
    cases hheld
    rw [hdecode] at hw
    cases hw
  | some v =>
    simp only [hdecode] at hheld
    split at hheld
    · -- The marker was removed.
      have hclear := (cj.decode_encode _ _ _ hheld hw).2 "finalization"
      rw [htable, Lua.field_clear] at hclear
      cases hclear
    · next hnot =>
      cases hheld
      have hsame : v = w := Option.some.inj (hdecode.symm.trans hw)
      subst hsame
      have hobject : Lua.isTable v = true := by
        cases v with
        | obj ms => rfl
        | _ => cases htable
      have hverdict : isTrusted trusted v p = true := by
        by_contra hfalse
        exact hnot ⟨hobject, htable ▸ nofun, Bool.eq_false_iff.mpr hfalse⟩
      rw [isTrusted, htable] at hverdict
      split at hverdict
      · next jid _ _ => exact htrusted jid p (by simpa using (Bool.and_eq_true_iff.mp hverdict).2)
      · cases hverdict

theorem held_ne_none (trusted : String → Option String) {v : Json} (hdecode : cj.decode p = some v)
    (hencode : cj.encode (Lua.clear "finalization" v) ≠ none) : held cj trusted p ≠ none := by
  simp only [held, hdecode]
  split
  · exact hencode
  · exact Option.some_ne_none p

theorem held_of_marker (trusted : String → Option String) {v : Json} {id : String}
    (hdecode : cj.decode p = some v) (htable : Lua.isTable v = true)
    (hid : Lua.field "jid" v = .string id) (hne : id ≠ "")
    (hmarker : Lua.field "finalization" v = .table) :
    held cj trusted p =
      if trusted id = some p then some p else cj.encode (Lua.clear "finalization" v) := by
  have htrust : isTrusted trusted v p = decide (trusted id = some p) := by
    simp [isTrusted, hmarker, hid, hne, beq_eq_decide]
  by_cases h : trusted id = some p <;> simp [held, hdecode, htable, hmarker, htrust, h]

theorem visible_of_orphanTarget {t : Target} (h : orphanTarget cj p = some t)
    (hfinalized : t.finalized ≠ none) : Visible cj p := by
  unfold orphanTarget at h
  obtain ⟨v, hdecode, h⟩ := Option.bind_eq_some_iff.mp h
  split at h
  · split at h
    · obtain ⟨queue, -, h⟩ := Option.bind_eq_some_iff.mp h
      rw [← Option.some.inj h] at hfinalized
      refine ⟨v, hdecode, ?_⟩
      by_contra hnot
      exact hfinalized (if_neg hnot)
    · cases h
  · cases h

theorem finalized_of_dueTarget {t : Target} (h : dueTarget cj p = some t) : t.finalized = none := by
  unfold dueTarget at h
  obtain ⟨v, -, h⟩ := Option.bind_eq_some_iff.mp h
  split at h
  · obtain ⟨queue, -, h⟩ := Option.bind_eq_some_iff.mp h
    exact Option.some.inj h ▸ rfl
  · cases h

end Payloads

namespace Guarded

variable {cj : Cjson} {marked : List String} {st : Stock} {k : Key} {p : String}

section

variable (h : Guarded cj marked st)

include h

theorem mono {marked' : List String} (hsub : marked ⊆ marked') : Guarded cj marked' st :=
  ⟨fun id p hp => hsub (h.trusted id p hp), fun w p hp hv => hsub (h.inFlight w p hp hv)⟩

theorem take (k : Key) (p : String) : Guarded cj marked (st.take k p) :=
  ⟨h.trusted, fun w q hq hv => h.inFlight w q (Stock.mem_take hq) hv⟩

theorem drop (k : Key) (p : String) : Guarded cj marked (st.drop k p) :=
  ⟨h.trusted, fun w q hq hv => h.inFlight w q (Stock.mem_drop hq) hv⟩

theorem trust (id : String) {o : Option String}
    (ho : ∀ p, o = some p → p ∈ marked) : Guarded cj marked (st.trust id o) := by
  refine ⟨fun id' p hp => ?_, h.inFlight⟩
  rw [Stock.trusted_trust] at hp
  split at hp
  · exact ho p hp
  · exact h.trusted id' p hp

theorem put (hp : ∀ worker, k = .inFlight worker → Visible cj p → p ∈ marked) :
    Guarded cj marked (st.put k p) := by
  refine ⟨h.trusted, fun w q hq hv => ?_⟩
  rw [Stock.stored_put] at hq
  split at hq
  · next hk =>
    obtain rfl | hq := Multiset.mem_cons.mp hq
    · exact hp w hk.symm hv
    · exact h.inFlight w q (hk ▸ hq) hv
  · exact h.inFlight w q hq hv

theorem put_queue (queue p : String) :
    Guarded cj marked (st.put (.queue queue) p) := h.put fun _ => Key.noConfusion

theorem route {target : String → Option Target}
    (htarget : ∀ t, target p = some t → t.finalized ≠ none → t.data ∈ marked) :
    Guarded cj marked (Stock.route target st p) := by
  unfold Stock.route
  split
  · next t ht =>
    unfold Stock.push
    split
    · next id hid =>
      refine (h.put_queue t.queue t.data).trust id ?_
      intro q hq
      rw [← Option.some.inj hq]
      exact htarget t ht (hid ▸ nofun)
    · exact h.put_queue t.queue t.data
  · exact h

theorem recover (worker : String) {ps : List String}
    (hps : ∀ p ∈ ps, Visible cj p → p ∈ marked) :
    Guarded cj marked (ps.foldl (Stock.recover cj worker) st) := by
  induction ps generalizing st with
  | nil => exact h
  | cons p ps ih =>
    refine ih ((h.take _ p).route fun t ht hfinalized => ?_) fun q hq => hps q (by simp [hq])
    rw [data_of_orphanTarget ht]
    exact hps p List.mem_cons_self (visible_of_orphanTarget ht hfinalized)

theorem promote (k : Key) (ps : List String) :
    Guarded cj marked (ps.foldl (Stock.promote cj k) st) := by
  induction ps generalizing st with
  | nil => exact h
  | cons p ps ih =>
    exact ih ((h.drop k p).route fun t ht hfinalized =>
      absurd (finalized_of_dueTarget ht) hfinalized)

end

/-- **A step lets no foreign marker in**, unless `sequential_fetch` raises. -/
theorem of_moves {raises : Prop} {v v' : View} {e : Event} (hmoves : Moves cj raises v e v')
    (hraises : ∀ worker queue, e = .sequentialFetch worker queue → ¬ raises)
    (h : Guarded cj v.marked v.stock) : Guarded cj v'.marked v'.stock := by
  have hzset : ∀ {k : Key} {st : Stock} {p : String}, k.kind = .zset → Guarded cj v.marked st →
      Guarded cj v.marked ((st.drop k p).put k p) := by
    intro k st p hk hst
    refine (hst.drop k p).put ?_
    rintro w rfl
    cases hk
  cases hmoves with
  | quiet e => exact h
  | enqueue job | push queue payload => exact h.put_queue _ _
  | enqueueAt job score => exact hzset rfl h
  | pushAt hk payload score => exact hzset (by obtain rfl | rfl := hk <;> rfl) h
  | promote hk now hitems => exact h.promote _ _
  | claim he hp hheld =>
    exact (h.take _ _).put fun _ _ hvisible => mem_of_visible_held h.trusted hheld hvisible
  | lose _ hp hheld | discard t => exact h.take _ _
  | strand hraised hp hheld => exact absurd hraised (hraises _ _ rfl)
  | sanitize hp =>
    exact (h.take _ _).put fun _ _ hvisible => absurd hvisible (not_visible_marshal rfl)
  | requeue hdurable hp => exact (h.take _ _).put_queue _ _
  | @replace t op p' k hstage hp' hk hp =>
    have hgrown := h.mono (List.subset_cons_self p' v.marked)
    refine ((hgrown.take _ _).put fun _ _ _ => List.mem_cons_self).trust _ ?_
    intro p hp
    exact Option.some.inj hp ▸ List.mem_cons_self
  | @found t op p' k hstage hp' hk hp =>
    refine (h.mono (List.subset_cons_self p' v.marked)).trust _ ?_
    intro p hp
    exact Option.some.inj hp ▸ List.mem_cons_self
  | ack hstage hp => exact (h.take _ _).trust _ nofun
  | bury hstage hdead hp | retry hstage hretryAt hnext hp =>
    exact hzset rfl ((h.take _ _).trust _ nofun)
  | @reap worker ps hps =>
    refine h.recover worker fun p hp => h.inFlight worker p ?_
    rw [hps]
    exact hp

end Guarded

theorem marked_of_moves {cj : Cjson} {raises : Prop} {v v' : View} {e : Event}
    (hmoves : Moves cj raises v e v') : v.marked ⊆ v'.marked := by
  cases hmoves with
  | replace | found => exact List.subset_cons_self _ _
  | _ => exact fun _ h => h

/-! ### The threads -/

def Stage.Returned : Stage → Prop
  | .undecodable | .claimed | .typed | .distrusted => False
  | _ => True

def Thread.Unforged (marked : List String) (t : Thread) : Prop :=
  t.stage.Returned → t.job.finalization ≠ none → t.job.raw ∈ marked

namespace Thread.Unforged

variable {cj : Cjson} {marked : List String} {t : Thread}

theorem process {job : Job} (h : job.finalization ≠ none → job.raw ∈ marked) :
    (t.process job).Unforged marked := by
  intro _
  unfold Thread.process
  split
  · next hnone => exact fun hsome => absurd hnone hsome
  · next f hf =>
    have hmem := h (hf ▸ nofun)
    unfold Thread.resume
    split
    · exact fun _ => hmem
    · split
      · exact fun _ => hmem
      · split
        · exact fun _ => hmem
        · exact fun hsome => absurd rfl hsome

/-- **No new thread believes a forged marker.** -/
theorem of_new {v v' : View} {e : Event} {t' : Thread} (hnew : NewThread cj v v' e t')
    (hguarded : Guarded cj v.marked v.stock) (hsub : v.marked ⊆ v'.marked)
    (hthread : ∀ t ∈ e.thread, t.Unforged v.marked) (hsensible : e.Sensible) :
    t'.Unforged v'.marked := by
  cases hnew with
  | run he hp hheld hread hnone => exact fun _ hsome => absurd hnone hsome
  | claimed | undecodable | typed | untyped | distrusted => exact fun hreturned => hreturned.elim
  | trusted hstage htrust => exact process fun _ => hsub (hguarded.trusted _ _ htrust)
  | sanitized => exact fun _ hsome => absurd rfl hsome
  | @handled t hstage job op =>
    intro _ hsome
    have hold : t.stage.Returned := hstage ▸ trivial
    have hjob : job.finalization ≠ none := by cases op <;> exact hsome
    have hraw : job.raw ∈ v'.marked := by
      rw [hsensible.1]
      exact hsub (hthread t rfl hold (hsensible.2 ▸ hjob))
    cases op <;> exact hraw
  | marked hstage hp' hmarked htrusted => exact fun _ _ => hmarked
  | @unmarked t op hstage | @progressed t op hstage | @calledBack t op hstage =>
    exact fun _ hsome => hsub (hthread t rfl (hstage ▸ trivial) hsome)

end Thread.Unforged

/-! ### The system -/

/-- What holds of forged markers in a state: no fetch has returned a job with a marker but for
payloads that `MarkFinalization` recorded, and no finalization key holds another payload. -/
structure World.Unforged (s : World) : Prop where
  returned : ∀ t ∈ s.threads, t.stage.Returned → t.job.finalization ≠ none → t.job.raw ∈ s.marked
  trusted : ∀ id p, s.db.str (.finalization id) = some p → p ∈ s.marked

/-- The step is no `sequential_fetch` that gets the lock and takes a payload which the script cannot
write again. -/
def World.Unbroken (cj : Cjson) (s : World) (e : Event) : Prop :=
  ∀ worker queue, e = .sequentialFetch worker queue →
    (∀ holder, s.db.str (.sequentialLock queue) = some holder → holder = worker) →
    ∀ p, (s.db.list (.queue queue)).getLast? = some p → held cj (trustedIn s.db) p ≠ none

theorem World.Unbroken.not_raises {cj : Cjson} {s : World} {e : Event} (hdb : WellTyped s.db)
    (h : s.Unbroken cj e) (worker queue : String) (he : e = .sequentialFetch worker queue) :
    ¬ s.Raises cj e := by
  subst he
  rintro ⟨err, db, hrun⟩
  rw [run_sequentialFetch (hdb (.queue queue)) (hdb (.inFlight worker))
    (hdb (.sequentialLock queue))] at hrun
  split at hrun
  · cases hrun
  · next hfree =>
    cases hlast : (s.db.list (.queue queue)).getLast? with
    | none =>
      rw [hlast] at hrun
      cases hrun
    | some p =>
      have hheld := h worker queue rfl (fun _ => own_of_not_locked hfree) p hlast
      simp only [hlast] at hrun
      cases hp : held cj (trustedIn s.db) p with
      | none => exact hheld hp
      | some p' =>
        rw [hp] at hrun
        cases hrun

/-- **No forged markers.** Whatever producers push, in every run in which no `sequential_fetch`
takes a payload that it cannot write. -/
theorem unforged_of_legal (cj : Cjson) {es : List Event} (legal : (machine cj).Legal .init es)
    (hunbroken : (machine cj).Throughout (World.Unbroken cj) .init es) :
    ((machine cj).run .init es).Unforged := by
  have hkept := legal.invariant_throughout
    (I := fun s => WellTyped s.db ∧ Guarded cj s.marked (stock s.db) ∧
      ∀ t ∈ s.threads, t.Unforged s.marked)
    (fun s e ⟨htyped, hguarded, hthreads⟩ he hstep => ?_) hunbroken
    ⟨.empty, ⟨nofun, ?_⟩, fun t ht => absurd ht List.not_mem_nil⟩
  · exact ⟨hkept.2.2, hkept.2.1.trusted⟩
  · obtain ⟨htyped', hmoves⟩ := moves_step htyped he
    have hsub := marked_of_moves hmoves
    refine ⟨htyped', Guarded.of_moves hmoves (hstep.not_raises htyped) hguarded, fun t ht => ?_⟩
    obtain hold | hnew := threads_step htyped he ht
    · exact fun hreturned hsome => hsub (hthreads t hold hreturned hsome)
    · exact .of_new hnew hguarded hsub (fun t ht => hthreads t (he.1 t ht)) he.2.2
  · intro w p hp
    exact absurd hp List.not_mem_nil

theorem step_push_init (cj : Cjson) (p : String) : World.init.step cj (.push "q" p) =
    ⟨World.init.db.putList (.queue "q") [p], [], [], [], []⟩ := by
  have hinit : WellTyped World.init.db := .empty
  rw [World.step, run_lpush (hinit (.queue "q"))]
  rfl

/-- A producer pushes a payload; a worker takes it with a sequential fetch and stops; and its
jobs are recovered. -/
def recoveredRun (p : String) : List Event :=
  [.push "q" p, .sequentialFetch "w" "q", .reap "w"]

theorem recoveredRun_legal (cj : Cjson) (p : String) :
    (machine cj).Legal .init (recoveredRun p) := by
  have hfree : ∀ {s : World} {e : Event}, e.thread = none → e.Ready → e.Sensible →
      (machine cj).permits s e := World.permits_of_thread_eq_none
  exact ⟨hfree rfl trivial trivial, hfree rfl trivial trivial, hfree rfl trivial trivial, trivial⟩

theorem recoveredRun_unbroken {cj : Cjson} {p : String}
    (hheld : ∀ trusted : String → Option String, held cj trusted p ≠ none) :
    (machine cj).Throughout (World.Unbroken cj) .init (recoveredRun p) := by
  have hother : ∀ {s : World} {e : Event}, (∀ worker queue, e ≠ .sequentialFetch worker queue) →
      s.Unbroken cj e := fun he worker queue h => absurd h (he worker queue)
  refine ⟨hother fun _ _ => Event.noConfusion, ?_, hother fun _ _ => Event.noConfusion, trivial⟩
  rintro worker queue heq - p' hlast
  obtain ⟨rfl, rfl⟩ := Event.sequentialFetch.inj heq
  change ((World.init.step cj (.push "q" p)).db.list (.queue "q")).getLast? = some p' at hlast
  rw [step_push_init] at hlast
  have hsame : p' = p := by simpa using hlast.symm
  rw [hsame]
  exact hheld _

def markedSample : Job :=
  { sampleJob none with finalization := some ⟨"complete", "", .zero⟩ }

theorem held_markedSample (trusted : String → Option String) :
    held .plain trusted markedSample.marshal ≠ none := by
  have hdecode : Cjson.plain.decode markedSample.marshal = some markedSample.toJson := by
    have hdepth : markedSample.toJson.depth ≤ cjsonMaxDepth := by decide
    simp [Cjson.plain, Job.marshal, hdepth]
  have hencode : Cjson.plain.encode (Lua.clear "finalization" markedSample.toJson) ≠ none := by
    have hdepth : (Lua.clear "finalization" markedSample.toJson).depth ≤ cjsonMaxDepth := by decide
    have hfinite : (Lua.clear "finalization" markedSample.toJson).isFinite = true := by
      decide +kernel
    simp [Cjson.plain, hdepth, hfinite]
  exact held_ne_none trusted hdecode hencode

theorem unforged_markedSample :
    ((machine .plain).run .init (recoveredRun markedSample.marshal)).Unforged :=
  unforged_of_legal .plain (recoveredRun_legal _ _) (recoveredRun_unbroken held_markedSample)

/-! ### The gap -/

/-- What a producer pushes: a job with a marker, and a number beyond the range of a double. -/
def forgedDocument : Json :=
  .obj [(Field.id.tag, .str "f"), (Field.type.tag, .str "Mail"), (Field.queue.tag, .str "q"),
    (Field.finalization.tag, .obj [("operation", .str "complete")]),
    ("note", .num ⟨false, 1, [], some 999⟩)]

def forgedJob : Job :=
  { Job.zero with
    id := "f", type := "Mail", queue := "q", finalization := some ⟨"complete", "", .zero⟩ }

theorem unmarshalJob_forged : unmarshalJob forgedDocument.render = some forgedJob := by
  have hnote : Field.ofName? "note" = none := by decide
  have hop : readFinalization none (.obj [("operation", .str "complete")])
      = some (some ⟨"complete", "", .zero⟩) := by decide
  have hdepth : forgedDocument.depth ≤ maxNestingDepth := by decide
  rw [unmarshalJob, Json.parse_render, Option.bind_some, if_pos hdepth]
  simp only [forgedDocument, Job.ofJson, List.foldlM_cons, List.foldlM_nil, Job.set_tag]
  simp [Job.setField, Job.set, hnote, hop, Job.zero, forgedJob]

theorem decode_forged : Cjson.plain.decode forgedDocument.render = some forgedDocument := by
  have hdepth : forgedDocument.depth ≤ cjsonMaxDepth := by decide
  simp [Cjson.plain, hdepth]

theorem encode_forged : Cjson.plain.encode (Lua.clear "finalization" forgedDocument) = none := by
  have hinfinite : (Lua.clear "finalization" forgedDocument).isFinite = false := by decide +kernel
  simp [Cjson.plain, hinfinite]

theorem fields_forged : Lua.isTable forgedDocument = true ∧
    Lua.field "jid" forgedDocument = .string "f" ∧
    Lua.field "class" forgedDocument = .string "Mail" ∧
    Lua.field "queue" forgedDocument = .string "q" ∧
    Lua.field "finalization" forgedDocument = .table := by decide

theorem held_forged (trusted : String → Option String) :
    held .plain trusted forgedDocument.render =
      if trusted "f" = some forgedDocument.render then some forgedDocument.render else none := by
  obtain ⟨htable, hjid, -, -, hmarker⟩ := fields_forged
  rw [held_of_marker trusted decode_forged htable hjid (by decide) hmarker, encode_forged]

theorem orphanTarget_forged : orphanTarget .plain forgedDocument.render =
    some ⟨"q", forgedDocument.render, some "f"⟩ := by
  obtain ⟨-, hjid, hclass, hqueue, hmarker⟩ := fields_forged
  simp [orphanTarget, decode_forged, queueOf, hjid, hclass, hqueue, hmarker]

/-- The same, and then another worker fetches the payload and looks at the trust key. -/
def strandedRun (p : String) (job : Job) : List Event :=
  recoveredRun p ++ [.fetch "v" "q", .readType ⟨"v", "q", p, job, .claimed⟩,
    .readTrust ⟨"v", "q", p, job, .typed⟩]

section StrandedRun

variable {cj : Cjson} {p : String} {job : Job}

theorem step_sequentialFetch_raised {s : World} (hdb : WellTyped s.db)
    (hlock : s.db.str (.sequentialLock "q") = none) (hqueue : s.db.list (.queue "q") = [p])
    (hinFlight : s.db.list (.inFlight "w") = [])
    (hheld : held cj (trustedIn s.db) p = none) :
    s.step cj (.sequentialFetch "w" "q") =
      { s with db := (s.db.putList (.queue "q") []).putList (.inFlight "w") [p] } := by
  rw [World.step, run_sequentialFetch (hdb _) (hdb _) (hdb _), hlock, hqueue, hinFlight,
    if_neg (by simp)]
  simp only [List.getLast?_singleton, hheld]
  rfl

theorem step_reap_trusted {s : World} (hdb : WellTyped s.db)
    (hinFlight : s.db.list (.inFlight "w") = [p]) {id : String}
    (htarget : orphanTarget cj p = some ⟨"q", p, some id⟩) :
    s.step cj (.reap "w") =
      { s with db := (pushTarget s.db ⟨"q", p, some id⟩).del (.inFlight "w") } := by
  rw [World.step, run_requeueOrphaned hdb, hinFlight]
  simp [htarget]

theorem step_fetch_trusted {s : World} (hdb : WellTyped s.db)
    (hqueue : s.db.list (.queue "q") = [p]) (hinFlight : s.db.list (.inFlight "v") = [])
    (hheld : held cj (trustedIn s.db) p = some p) (hread : unmarshalJob p = some job)
    (hsome : job.finalization ≠ none) :
    s.step cj (.fetch "v" "q") =
      ({ s with db := (s.db.putList (.queue "q") []).putList (.inFlight "v") [p] } : World).spawn
        ⟨"v", "q", p, job, .claimed⟩ := by
  have hlast : (s.db.list (.queue "q")).getLast? = some p := by rw [hqueue]; rfl
  obtain ⟨f, hf⟩ := Option.ne_none_iff_exists'.mp hsome
  rw [step_fetch hdb hlast hheld, hqueue, hinFlight, World.claim, hread]
  simp only [hf]
  rfl

theorem run_strandedRun (hid : job.id ≠ "") (hread : unmarshalJob p = some job)
    (hsome : job.finalization ≠ none)
    (htarget : orphanTarget cj p = some ⟨"q", p, some job.id⟩)
    (hraised : ∀ trusted : String → Option String, trusted job.id = none →
      held cj trusted p = none)
    (htrusted : ∀ trusted : String → Option String, trusted job.id = some p →
      held cj trusted p = some p) :
    (machine cj).Legal .init (strandedRun p job) ∧
      Thread.process ⟨"v", "q", p, job, .typed⟩ { job with raw := p } ∈
        ((machine cj).run .init (strandedRun p job)).threads ∧
      ((machine cj).run .init (strandedRun p job)).marked = [] := by
  have hinit : WellTyped World.init.db := .empty
  have hempty : ∀ k, World.init.db.list k = [] ∧ World.init.db.str k = none := fun _ => ⟨rfl, rfl⟩
  set t : Thread := ⟨"v", "q", p, job, .claimed⟩
  -- Pushed.
  obtain ⟨s₁, hs₁⟩ : ∃ s₁, World.init.step cj (.push "q" p) = s₁ := ⟨_, rfl⟩
  have h₁ : s₁ = ⟨World.init.db.putList (.queue "q") [p], [], [], [], []⟩ :=
    hs₁.symm.trans (step_push_init cj p)
  have htyped₁ : WellTyped s₁.db := by
    rw [h₁]
    exact hinit.putList (k := .queue "q") rfl _
  -- Stranded in flight.
  obtain ⟨s₂, hs₂⟩ : ∃ s₂, s₁.step cj (.sequentialFetch "w" "q") = s₂ := ⟨_, rfl⟩
  have h₂ : s₂ = { s₁ with db := (s₁.db.putList (.queue "q") []).putList (.inFlight "w") [p] } := by
    rw [← hs₂]
    refine step_sequentialFetch_raised htyped₁ ?_ ?_ ?_ (hraised _ ?_) <;>
      simp [h₁, hempty, trustedIn]
  have htyped₂ : WellTyped s₂.db := by
    rw [h₂]
    exact (htyped₁.putList (k := .queue "q") rfl _).putList (k := .inFlight "w") rfl _
  -- Back on the queue, and trusted.
  obtain ⟨s₃, hs₃⟩ : ∃ s₃, s₂.step cj (.reap "w") = s₃ := ⟨_, rfl⟩
  have h₃ : s₃ =
      { s₂ with db := (pushTarget s₂.db ⟨"q", p, some job.id⟩).del (.inFlight "w") } := by
    rw [← hs₃]
    refine step_reap_trusted htyped₂ ?_ htarget
    simp [h₂]
  have htyped₃ : WellTyped s₃.db := by
    rw [h₃]
    exact (htyped₂.pushTarget _).del _
  have htrust₃ : s₃.db (.finalization job.id) = some (.string p) := by
    rw [h₃]
    simp [pushTarget, Db.write_apply]
  -- Handed out.
  obtain ⟨s₄, hs₄⟩ : ∃ s₄, s₃.step cj (.fetch "v" "q") = s₄ := ⟨_, rfl⟩
  have h₄ : s₄ = ({ s₃ with
      db := (s₃.db.putList (.queue "q") []).putList (.inFlight "v") [p] } : World).spawn t := by
    rw [← hs₄]
    refine step_fetch_trusted htyped₃ ?_ ?_ (htrusted _ ?_) hread hsome
    · simp [h₃, h₂, h₁, pushTarget]
    · simp [h₃, h₂, h₁, hempty, pushTarget]
    · rw [trustedIn, Db.str, htrust₃]
      rfl
  have htrust₄ : s₄.db (.finalization job.id) = some (.string p) := by
    rw [h₄, ← htrust₃]
    simp [World.spawn, Db.write_apply]
  -- Believed.
  obtain ⟨s₅, hs₅⟩ : ∃ s₅, s₄.step cj (.readType t) = s₅ := ⟨_, rfl⟩
  have h₅ : s₅ = s₄.spawn { t with stage := .typed } := by
    have hstring : t.job.id ≠ "" ∧ Db.typeOf (s₄.db (.finalization t.job.id)) = .string :=
      ⟨hid, by rw [show t.job.id = job.id from rfl, htrust₄]; rfl⟩
    rw [← hs₅, World.step]
    simp only [if_pos hstring]
  have h₆ : s₅.step cj (.readTrust { t with stage := .typed }) =
      s₅.spawn (Thread.process { t with stage := .typed } { job with raw := p }) := by
    have hread : s₅.db.str (.finalization job.id) = some p := by
      rw [h₅, Db.str]
      change Db.strOf (s₄.db (.finalization job.id)) = some p
      rw [htrust₄]
      rfl
    exact if_pos hread
  have hrun : (machine cj).run .init (strandedRun p job) =
      s₅.spawn (Thread.process { t with stage := .typed } { job with raw := p }) := by
    simp only [strandedRun, recoveredRun, List.cons_append, List.nil_append, Machine.run_cons,
      Machine.run_nil, machine_step, hs₁, hs₂, hs₃, hs₄]
    rw [hs₅, h₆]
  have hfree : ∀ {s : World} {e : Event}, e.thread = none → e.Ready → e.Sensible →
      (machine cj).permits s e := World.permits_of_thread_eq_none
  have htype : s₄.Permits (.readType t) := by
    refine ⟨fun t' ht' => ?_, rfl, trivial⟩
    rw [← Option.some.inj ht', h₄]
    exact List.mem_cons_self
  have htrust : s₅.Permits (.readTrust { t with stage := .typed }) := by
    refine ⟨fun t' ht' => ?_, rfl, trivial⟩
    rw [← Option.some.inj ht', h₅]
    exact List.mem_cons_self
  refine ⟨?_, ?_, ?_⟩
  · rw [strandedRun, Machine.legal_append]
    refine ⟨recoveredRun_legal cj p, ?_⟩
    simp only [recoveredRun, Machine.run_cons, Machine.run_nil, Machine.legal_cons, machine_step,
      hs₁, hs₂, hs₃, hs₄]
    rw [hs₅]
    exact ⟨hfree rfl trivial trivial, htype, htrust, trivial⟩
  · rw [hrun]
    exact List.mem_cons_self
  · rw [hrun, h₅, h₄, h₃, h₂, h₁]
    rfl

end StrandedRun

/-- **A forged marker is believed.** No `MarkFinalization` was ever called, and a fetch has
returned the producer's payload as a finished job. -/
theorem forgedRun_believed :
    (machine .plain).Legal .init (strandedRun forgedDocument.render forgedJob) ∧
      ∃ t ∈ ((machine .plain).run .init (strandedRun forgedDocument.render forgedJob)).threads,
        t.stage = .recording .complete ∧ t.job.finalization = forgedJob.finalization ∧
        t.job.raw = forgedDocument.render ∧
        ((machine .plain).run .init (strandedRun forgedDocument.render forgedJob)).marked = [] := by
  obtain ⟨hlegal, hthread, hmarked⟩ := @run_strandedRun .plain forgedDocument.render forgedJob
    (by decide) unmarshalJob_forged (by simp [forgedJob]) orphanTarget_forged
    (fun trusted h => (held_forged trusted).trans (if_neg (h ▸ nofun)))
    fun trusted h => (held_forged trusted).trans (if_pos h)
  exact ⟨hlegal, _, hthread, rfl, rfl, rfl, hmarked⟩

end Senna
