import Mathlib.Logic.Relation
import Senna.Job.Normal
import Senna.Worker.Client

/-!
# Encrypted arguments stay encrypted

A worker that has the key decrypts the arguments of a job before its handler sees them: the job in
memory then holds the plaintext, and `encrypted` is cleared. The same job is written back to Redis
later, with a marker, for a retry, as a dead job or because it was interrupted.

**Every payload that is written for an encrypted job has the arguments of the payload that was
fetched.** The payload that was fetched is kept with the job, out of reach of the handler. Until
the marker is judged the job is what was read from it (`Thread.Sealed`). From then on `raw` is a
payload with the same encrypted arguments: the one that was fetched, the same without a marker, or
the same with one. Everything that is written takes its arguments from there. Nothing the
middleware or the handler does to the job in memory comes into it, which is the statement over two
runs.

A payload that was written may be fetched again, by another worker and after a crash. So the
result is about all payloads that come from a fetched one through any number of writes (`Wrote`).
-/

namespace Senna

open Redis

def encryptionMiddleware (decrypt : Args → Except String Args) (job : Job) : Except String Job :=
  if job.encrypted then
    match decrypt job.args with
    | .error e => .error ("failed to decrypt job args: " ++ e)
    | .ok decrypted => .ok { job with args := decrypted, encrypted := false }
  else .ok job

theorem sensible_encryptionMiddleware {decrypt : Args → Except String Args} {t : Thread} {job : Job}
    (h : encryptionMiddleware decrypt t.job = .ok job) (op : Operation) :
    (Event.handled t job op).Sensible := by
  unfold encryptionMiddleware at h
  split at h
  · split at h
    · cases h
    · exact Except.ok.inj h ▸ ⟨rfl, rfl⟩
  · exact Except.ok.inj h ▸ ⟨rfl, rfl⟩

def Carries (payload : String) (args : Args) : Prop :=
  ∃ job : Job, payload = job.marshal ∧ job.encrypted = true ∧ job.args = args

/-! ### What a thread holds on to -/

theorem unmarshalJob_empty : unmarshalJob "" = none := by
  have hparse : Json.parse "" = none := by decide
  rw [unmarshalJob, hparse]
  rfl

/-- The payload kept with the job has the encrypted arguments of the payload that was fetched. -/
def Thread.Keeps (t : Thread) : Prop :=
  t.job.raw ≠ "" ∧ ∃ fetched, unmarshalJob t.payload = some fetched ∧
    (fetched.encrypted = true → ∀ rawJob, unmarshalJob t.job.raw = some rawJob →
      rawJob.encrypted = true ∧ rawJob.args = fetched.args)

def Thread.Sealed (t : Thread) : Prop :=
  match t.stage with
  | .undecodable => True
  | .claimed | .typed | .distrusted => unmarshalJob t.payload = some t.job
  | .running | .finalizing _ | .recording _ | .progressed _ | .calledBack _ => t.Keeps

namespace Thread

variable {t : Thread} {job : Job}

theorem Keeps.of_raw (h : t.Keeps) (hraw : job.raw = t.job.raw) (stage : Stage) :
    ({ t with job := job, stage := stage } : Thread).Keeps := by
  obtain ⟨hne, fetched, hread, hkeep⟩ := h
  exact ⟨hraw ▸ hne, fetched, hread, fun henc rawJob hrawJob => hkeep henc rawJob (hraw ▸ hrawJob)⟩

theorem keeps_payload {fetched : Job} (hread : unmarshalJob t.payload = some fetched)
    (hraw : t.job.raw = t.payload) : t.Keeps := by
  have hne : t.payload ≠ "" := by
    intro hempty
    rw [hempty, unmarshalJob_empty] at hread
    cases hread
  refine ⟨hraw ▸ hne, fetched, hread, fun henc rawJob hrawJob => ?_⟩
  obtain rfl : fetched = rawJob := Option.some.inj (hread.symm.trans (hraw ▸ hrawJob))
  exact ⟨henc, rfl⟩

theorem Keeps.finalize (h : t.Keeps) (hraw : job.raw = t.job.raw) (op : Operation) :
    (t.finalize job op).Sealed := by
  have hkeeps := h.of_raw hraw
  unfold Thread.finalize Thread.Sealed
  by_cases hnone : job.finalization = none
  · rw [if_pos hnone]
    exact hkeeps _
  · rw [if_neg hnone]
    exact hkeeps _

theorem sealed_process {fetched : Job} (hread : unmarshalJob t.payload = some fetched)
    (hraw : job.raw = t.payload) : (t.process job).Sealed := by
  have hkeeps : ({ t with job := job } : Thread).Keeps := keeps_payload hread hraw
  have hfinal (job' : Job) (op : Operation) (hraw' : job'.raw = job.raw) :
      (t.finalize job' op).Sealed :=
    Keeps.finalize (t := { t with job := job }) hkeeps hraw' op
  unfold Thread.process
  split
  · exact hkeeps
  · unfold Thread.resume
    split
    · exact hfinal _ _ rfl
    · split
      · exact hfinal _ _ rfl
      · split
        · exact hfinal _ _ (withError_raw _ _)
        · exact hfinal _ _ (withError_raw _ _)

theorem Sealed.keeps (h : t.Sealed) (hstage : t.stage = .running ∨ ∃ op, t.stage = .finalizing op ∨
    t.stage = .recording op ∨ t.stage = .progressed op ∨ t.stage = .calledBack op) : t.Keeps := by
  unfold Thread.Sealed at h
  obtain hstage | ⟨op, hstage | hstage | hstage | hstage⟩ := hstage <;> rw [hstage] at h <;> exact h

theorem Sealed.read (h : t.Sealed)
    (hstage : t.stage = .claimed ∨ t.stage = .typed ∨ t.stage = .distrusted) :
    unmarshalJob t.payload = some t.job := by
  unfold Thread.Sealed at h
  obtain hstage | hstage | hstage := hstage <;> rw [hstage] at h <;> exact h

theorem Keeps.jobPayload (h : t.Keeps) : Senna.jobPayload t.job = t.job.raw := if_pos h.1

theorem Keeps.marked (h : t.Keeps) {f : JobFinalization} {p : String} {stage : Stage}
    (hp : payloadWithFinalization (Senna.jobPayload t.job) f = some p) :
    ({ t with
      job := { t.job with finalization := some f, raw := p }, stage := stage } : Thread).Keeps := by
  rw [h.jobPayload] at hp
  obtain ⟨hne, fetched, hread, hkeep⟩ := h
  obtain ⟨rawJob, hrawJob, rfl⟩ := Option.map_eq_some_iff.mp hp
  have hnormal : rawJob.args.Normal := normal_of_unmarshalJob hrawJob
  refine ⟨marshal_ne_empty _, fetched, hread, fun henc job' hjob' => ?_⟩
  obtain ⟨henc', hargs⟩ := hkeep henc rawJob hrawJob
  rw [unmarshalJob_marshal hjob']
  exact ⟨henc', hnormal.trans hargs⟩

/-- **What a step adds holds on to the arguments.** -/
theorem Sealed.of_new {cj : Cjson} {v v' : View} {e : Event} {t' : Thread}
    (hnew : NewThread cj v v' e t') (hthread : ∀ t ∈ e.thread, t.Sealed) (hsensible : e.Sensible) :
    t'.Sealed := by
  have hstay {t : Thread} {stage : Stage} (hold : t.Keeps) :
      ({ t with stage := stage } : Thread).Keeps := hold.of_raw rfl stage
  cases hnew with
  | run he hp hheld hread hnone => exact keeps_payload hread rfl
  | claimed he hp hheld hread hsome => exact hread
  | undecodable he hp hheld hread => trivial
  | @typed t hstage | @untyped t hstage hnone => exact (hthread t rfl).read (Or.inl hstage)
  | @trusted t hstage htrust =>
    exact sealed_process ((hthread t rfl).read (Or.inr (Or.inl hstage))) rfl
  | @distrusted t hstage htrust => exact (hthread t rfl).read (Or.inr (Or.inl hstage))
  | @sanitized t hstage hp =>
    have hread := (hthread t rfl).read (Or.inr (Or.inr hstage))
    have hnormal : t.job.args.Normal := normal_of_unmarshalJob hread
    refine ⟨marshal_ne_empty _, t.job, hread, fun henc rawJob hrawJob => ?_⟩
    rw [unmarshalJob_marshal hrawJob]
    exact ⟨henc, hnormal⟩
  | @handled t hstage job op =>
    have hkeeps := (hthread t rfl).keeps (Or.inl hstage)
    exact hkeeps.finalize ((withError_raw job op).trans hsensible.1) op
  | @marked t op p' hstage hp' hmarked htrusted =>
    have hkeeps := (hthread t rfl).keeps (Or.inr ⟨op, Or.inl hstage⟩)
    exact hkeeps.marked hp'
  | @unmarked t op hstage => exact hstay ((hthread t rfl).keeps (Or.inr ⟨op, Or.inl hstage⟩))
  | @progressed t op hstage =>
    exact hstay ((hthread t rfl).keeps (Or.inr ⟨op, Or.inr (Or.inl hstage)⟩))
  | @calledBack t op hstage =>
    exact hstay ((hthread t rfl).keeps (Or.inr ⟨op, Or.inr (Or.inr (Or.inl hstage))⟩))

theorem Keeps.durable (h : t.Keeps) (hraw : job.raw = t.job.raw) {durable : Job}
    (hdurable : durableJobPayload job = some durable) :
    ∃ fetched, unmarshalJob t.payload = some fetched ∧
      (fetched.encrypted = true → durable.encrypted = true ∧ durable.args = fetched.args) := by
  obtain ⟨hne, fetched, hread, hkeep⟩ := h
  refine ⟨fetched, hread, fun henc => ?_⟩
  rw [durableJobPayload, if_neg (hraw ▸ hne)] at hdurable
  obtain ⟨rawJob, hrawJob, rfl⟩ := Option.map_eq_some_iff.mp hdurable
  obtain ⟨henc', hargs⟩ := hkeep henc rawJob (hraw ▸ hrawJob)
  rw [if_pos henc']
  exact ⟨rfl, hargs⟩

/-- **What a step writes has the encrypted arguments of the payload that was fetched.** -/
theorem Sealed.writes {e : Event} {j : Job} (h : t.Sealed) (hthread : e.thread = some t)
    (hready : e.Ready) (hsensible : e.Sensible) (hwrites : e.Writes j) :
    ∃ fetched, unmarshalJob t.payload = some fetched ∧
      (fetched.encrypted = true → j.encrypted = true ∧ j.args = fetched.args) := by
  cases e with
  | sanitize t' =>
    obtain rfl := Option.some.inj hthread
    obtain rfl := hwrites
    exact ⟨t'.job, h.read (Or.inr (Or.inr hready)), fun henc => ⟨henc, rfl⟩⟩
  | interrupted t' job =>
    obtain rfl := Option.some.inj hthread
    exact (h.keeps (Or.inl hready)).durable hsensible.1 hwrites
  | mark t' =>
    obtain rfl := Option.some.inj hthread
    obtain ⟨op, rawJob, hstage, hrawJob, rfl⟩ := hwrites
    have hkeeps := h.keeps (Or.inr ⟨op, Or.inl hstage⟩)
    rw [hkeeps.jobPayload] at hrawJob
    obtain ⟨-, fetched, hread, hkeep⟩ := hkeeps
    exact ⟨fetched, hread, fun henc => hkeep henc rawJob hrawJob⟩
  | finish t' now =>
    obtain rfl := Option.some.inj hthread
    -- `NackAt` and `MoveToDead` change the retry count or the time of the failure only.
    obtain ⟨retryAt, hstage, -, hnext⟩ | ⟨error, hstage, hdead⟩ := hwrites
    · have hkeeps := h.keeps (Or.inr ⟨_, Or.inr (Or.inr (Or.inl hstage))⟩)
      obtain ⟨durable, hdurable, rfl⟩ := Option.map_eq_some_iff.mp hnext
      obtain ⟨fetched, hread, hargs⟩ := hkeeps.durable rfl hdurable
      exact ⟨fetched, hread, hargs⟩
    · have hkeeps := h.keeps (Or.inr ⟨_, Or.inr (Or.inr (Or.inr hstage))⟩)
      obtain ⟨durable, hdurable, rfl⟩ := Option.map_eq_some_iff.mp hdead
      obtain ⟨fetched, hread, hargs⟩ := hkeeps.durable rfl hdurable
      exact ⟨fetched, hread, hargs⟩
  | _ => first | exact hwrites.elim | cases hthread

end Thread

/-! ### Over whole runs -/

/-- In the run, a thread that had fetched the payload `p` has written the payload `q`. -/
def Wrote (es : List Event) (p q : String) : Prop :=
  ∃ e ∈ es, ∃ t j, e.thread = some t ∧ t.payload = p ∧ e.Writes j ∧ q = j.marshal

theorem sealed_of_legal {cj : Cjson} {es : List Event} (legal : (machine cj).Legal .init es) :
    WellTyped ((machine cj).run .init es).db ∧
      ∀ t ∈ ((machine cj).run .init es).threads, t.Sealed := by
  refine legal.invariant (I := fun s => WellTyped s.db ∧ ∀ t ∈ s.threads, t.Sealed) ?_
    ⟨.empty, fun t ht => absurd ht List.not_mem_nil⟩
  rintro s e ⟨htyped, hthreads⟩ he
  refine ⟨(moves_step htyped he).1, fun t ht => ?_⟩
  obtain hold | hnew := threads_step htyped he ht
  · exact hthreads t hold
  · exact .of_new hnew (fun t ht => hthreads t (he.1 t ht)) he.2.2

theorem Wrote.args {cj : Cjson} {es : List Event} (legal : (machine cj).Legal .init es)
    {p q : String} (h : Wrote es p q) :
    ∃ fetched, unmarshalJob p = some fetched ∧
      (fetched.encrypted = true → Carries q fetched.args) := by
  obtain ⟨e, he, t, j, hthread, rfl, hwrites, rfl⟩ := h
  obtain ⟨pre, post, rfl⟩ := List.append_of_mem he
  obtain ⟨hpre, hpermits, -⟩ := (Machine.legal_append _ _ _ _).mp legal
  have hsealed := (sealed_of_legal hpre).2 t (hpermits.1 t hthread)
  obtain ⟨fetched, hread, hargs⟩ := hsealed.writes hthread hpermits.2.1 hpermits.2.2 hwrites
  exact ⟨fetched, hread, fun henc => ⟨j, rfl, hargs henc⟩⟩

theorem Carries.read {p : String} {args : Args} (h : Carries p args) (hnormal : args.Normal)
    {job : Job} (hread : unmarshalJob p = some job) : job.encrypted = true ∧ job.args = args := by
  obtain ⟨j, rfl, henc, rfl⟩ := h
  rw [unmarshalJob_marshal hread]
  exact ⟨henc, hnormal⟩

theorem carries_of_wrote {cj : Cjson} {es : List Event} (legal : (machine cj).Legal .init es)
    {p q : String} (h : Relation.TransGen (Wrote es) p q) {fetched : Job}
    (hread : unmarshalJob p = some fetched) (henc : fetched.encrypted = true) :
    Carries q fetched.args := by
  induction h with
  | single h =>
    obtain ⟨fetched', hread', hcarries⟩ := h.args legal
    obtain rfl : fetched = fetched' := Option.some.inj (hread.symm.trans hread')
    exact hcarries henc
  | tail _ h ih =>
    obtain ⟨fetched', hread', hcarries⟩ := h.args legal
    obtain ⟨henc', hargs⟩ := ih.read (normal_of_unmarshalJob hread) hread'
    exact hargs ▸ hcarries henc'

/-- **What a thread brings into the keyspace it has written.** -/
theorem stored_or_wrote {cj : Cjson} {es : List Event} {e : Event} {t : Thread}
    (legal : (machine cj).Legal .init (es ++ [e])) (hthread : e.thread = some t) {k : Key}
    {q : String} (hq : q ∈ (stock ((machine cj).run .init (es ++ [e])).db).stored k) :
    (∃ k', q ∈ (stock ((machine cj).run .init es).db).stored k') ∨ Wrote (es ++ [e]) t.payload q := by
  obtain ⟨hpre, hpermits, -⟩ := (Machine.legal_append _ _ _ _).mp legal
  rw [Machine.run_append] at hq
  have hmoves := (@moves_step cj _ _ (sealed_of_legal hpre).1 hpermits).2
  obtain ⟨k', -, hold⟩ | ⟨j, hwrites, rfl, -⟩ := origin_of_thread hmoves hthread hq
  · exact Or.inl ⟨k', hold⟩
  · exact Or.inr ⟨e, by simp, t, j, hthread, rfl, hwrites, rfl⟩

theorem Wrote.mono {es es' : List Event} (hsub : es ⊆ es') {p q : String} (h : Wrote es p q) :
    Wrote es' p q := by
  obtain ⟨e, he, hwrote⟩ := h
  exact ⟨e, hsub he, hwrote⟩

/-- **Encrypted arguments stay encrypted at rest.** Whatever runs, and whatever the handlers do to
the jobs they are given: every payload that comes from a fetched one with encrypted arguments is
that of an encrypted job with these arguments. So is everything in the keyspace that was not there
before a thread with such a payload took a step. In particular two runs that fetch the same payload
write the same arguments, whatever the plaintexts are. -/
theorem encrypted_args_written (cj : Cjson) (p : String) (fetched : Job)
    (hread : unmarshalJob p = some fetched) (henc : fetched.encrypted = true) :
    (∀ es q, (machine cj).Legal .init es → Relation.TransGen (Wrote es) p q →
      Carries q fetched.args) ∧
    (∀ es e t k q, (machine cj).Legal .init (es ++ [e]) → e.thread = some t →
      Relation.ReflTransGen (Wrote es) p t.payload →
      q ∈ (stock ((machine cj).run .init (es ++ [e])).db).stored k →
      (∃ k', q ∈ (stock ((machine cj).run .init es).db).stored k') ∨ Carries q fetched.args) ∧
    ∀ es es' q q', (machine cj).Legal .init es → (machine cj).Legal .init es' →
      Relation.TransGen (Wrote es) p q → Relation.TransGen (Wrote es') p q' →
      ∃ job job' : Job, q = job.marshal ∧ q' = job'.marshal ∧ job.args = job'.args := by
  refine ⟨fun es q legal h => carries_of_wrote legal h hread henc, ?_, ?_⟩
  · intro es e t k q legal hthread hcomes hq
    refine (stored_or_wrote legal hthread hq).imp_right fun hwrote => ?_
    have hbefore : Relation.ReflTransGen (Wrote (es ++ [e])) p t.payload :=
      Relation.ReflTransGen.mono (fun _ _ => Wrote.mono (List.subset_append_left _ _)) _ _ hcomes
    exact carries_of_wrote legal (.tail' hbefore hwrote) hread henc
  · intro es es' q q' legal legal' h h'
    obtain ⟨job, hq, -, hargs⟩ := carries_of_wrote legal h hread henc
    obtain ⟨job', hq', -, hargs'⟩ := carries_of_wrote legal' h' hread henc
    exact ⟨job, job', hq, hq', hargs.trans hargs'.symm⟩

/-- A payload is pushed and fetched, and the job is interrupted with the given job in memory. -/
def interruptedRun (p : String) (read left : Job) : List Event :=
  [.push "q" p, .fetch "w" "q",
    .interrupted ⟨"w", "q", p, { read with raw := p }, .running⟩ left]

theorem interruptedRun_wrote {cj : Cjson} {p : String} {read left durable : Job}
    (hheld : ∀ trusted : String → Option String, held cj trusted p = some p)
    (hread : unmarshalJob p = some read) (hnone : read.finalization = none)
    (hleft : left.raw = p ∧ left.finalization = none)
    (hdurable : durableJobPayload left = some durable) :
    (machine cj).Legal .init (interruptedRun p read left) ∧
      Wrote (interruptedRun p read left) p durable.marshal := by
  set t : Thread := ⟨"w", "q", p, { read with raw := p }, .running⟩ with ht
  have hinit : WellTyped World.init.db := .empty
  obtain ⟨s₁, hs₁⟩ : ∃ s₁, World.init.step cj (.push "q" p) = s₁ := ⟨_, rfl⟩
  have h₁ : s₁.db = World.init.db.putList (.queue "q") [p] := by
    rw [← hs₁, World.step, run_lpush (hinit (.queue "q"))]
    rfl
  have htyped₁ : WellTyped s₁.db := by
    rw [h₁]
    exact hinit.putList (k := .queue "q") rfl _
  have hlast : (s₁.db.list (.queue "q")).getLast? = some p := by
    rw [h₁]
    simp
  have hthread : t ∈ (s₁.step cj (.fetch "w" "q")).threads := by
    rw [step_fetch htyped₁ hlast (hheld _), World.claim, hread]
    dsimp only
    split
    · exact List.mem_cons_self
    · next hsome => exact absurd (hnone.symm.trans hsome).symm (Option.some_ne_none _)
  have hfree : ∀ {s : World} {e : Event}, e.thread = none → e.Ready → e.Sensible →
      (machine cj).permits s e := World.permits_of_thread_eq_none
  have hlast : (s₁.step cj (.fetch "w" "q")).Permits (.interrupted t left) := by
    refine ⟨fun t' ht' => ?_, rfl, hleft.1, hleft.2.trans hnone.symm⟩
    exact Option.some.inj ht' ▸ hthread
  refine ⟨⟨hfree rfl trivial trivial, hfree rfl trivial trivial, ?_, trivial⟩, ?_⟩
  · change ((World.init.step cj (.push "q" p)).step cj (.fetch "w" "q")).Permits _
    rw [hs₁]
    exact hlast
  · exact ⟨.interrupted t left, by simp [interruptedRun, ht], t, durable, rfl, rfl, hdurable, rfl⟩

def sealedJob : Job :=
  { Job.zero with
    id := "j", type := "Charge", queue := "q", args := some [("ciphertext", .str "x1y2")],
    encrypted := true }

theorem unmarshalJob_sealedJob : unmarshalJob sealedJob.marshal = some sealedJob := by
  have hsane : sealedJob.Sane := by
    refine ⟨by decide, by decide, by decide, ?_⟩
    rintro ms ⟨⟩ m hm
    obtain rfl := List.mem_singleton.mp hm
    decide
  rw [unmarshalJob_marshal_of_sane hsane (by decide)]
  simp [sealedJob, Job.zero, goMembers, insertMember, goValue]

theorem durableJobPayload_of_read {p : String} {read left : Job}
    (hread : unmarshalJob p = some read)
    (hraw : left.raw = p) : ∃ durable, durableJobPayload left = some durable := by
  unfold durableJobPayload
  split
  · exact ⟨_, rfl⟩
  · rw [hraw, hread]
    exact ⟨_, rfl⟩

theorem encrypted_args_written_interrupted : ∃ durable : Job,
    durableJobPayload
      { sealedJob with args := some [], encrypted := false, raw := sealedJob.marshal } =
        some durable ∧ Carries durable.marshal sealedJob.args := by
  have hid : sealedJob.id ≠ "" := by decide
  have hread := unmarshalJob_sealedJob
  have henc : sealedJob.encrypted = true := rfl
  have hnone : sealedJob.finalization = none := rfl
  generalize sealedJob = job at hid hread henc hnone ⊢
  obtain ⟨left, hleft⟩ : ∃ left : Job, left =
    { job with args := some [], encrypted := false, raw := job.marshal } := ⟨_, rfl⟩
  have hraw : left.raw = job.marshal := by rw [hleft]
  have hfinalization : left.finalization = none := by rw [hleft]; exact hnone
  rw [← hleft]
  obtain ⟨durable, hdurable⟩ := durableJobPayload_of_read hread hraw
  obtain ⟨hlegal, hwrote⟩ := @interruptedRun_wrote .plain job.marshal job left durable
    (fun trusted => held_marshal hid fun f hf => absurd (hnone.symm.trans hf) nofun)
    hread hnone ⟨hraw, hfinalization⟩ hdurable
  exact ⟨durable, hdurable,
    (encrypted_args_written .plain job.marshal job hread henc).1 _ _ hlegal (.single hwrote)⟩

end Senna
