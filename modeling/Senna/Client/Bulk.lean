import Senna.Worker.Release

/-!
# Bulk enqueue

`EnqueueBulk` makes one job for each of the arguments it is given and writes them to Redis in
chunks. A chunk for later is one `ZADD`. A chunk for now is a pipeline of two commands, `SADD` for
the name of the queue and `LPUSH` for the payloads, and each of them may fail on its own. The first
chunk that fails ends the call: the jobs of the chunks before it are returned, with a
`BulkPartialError` unless there are none.

So **the call reports what it has enqueued exactly if the first chunk that fails does so as a
whole** (`WholeFrom`, `Stored`): the chunks before have added their payloads, and the one that
failed has added nothing. That is so for `ZADD`, and for an argument that cannot be written, which
is found before the chunk is sent. It is not so for a pipeline whose `SADD` fails and whose `LPUSH`
succeeds.

What `encoding/json` and the encryption make of arguments are parameters, and so is the fate of each
command: it does not reach Redis, or it does and fails if the key has a wrong type.
-/

namespace Senna

open Redis Release

namespace Bulk

/-! ### The call -/

/-- What a client is set up with, for arguments of some type. -/
structure Client (α : Type) where
  /-- What `encoding/json` writes for arguments, or its error. -/
  encode : α → Except String Args
  /-- Encryption, if it is configured. -/
  encryptor : Option (α → Except String Args)

/-- The fields of `enqueueConfig` that a bulk call reads, after the options. -/
structure EnqueueConfig where
  queue : String
  retry : ℤ
  uniqueKey : String
  batchID : String
  encrypt : Bool
  /-- In nanoseconds. -/
  delay : ℤ
  /-- When to run the jobs; the zero time is none. -/
  moment : Option ℤ
  chunkSize : ℤ

/-- What a new job gets from its surroundings. -/
structure Birth where
  id : String
  now : Time

/-- A job whose arguments are still to be written. -/
structure Draft where
  job : Job
  /-- What writing the arguments will give. -/
  args : Except String Args

def Draft.marshal (d : Draft) : Except String String :=
  d.args.map fun args => ({ d.job with args := args } : Job).marshal

/-- The error that is returned. -/
inductive Failure where
  | plain (message : String)
  /-- `BulkPartialError`. -/
  | partway (enqueued total : ℕ) (message : String)
  deriving DecidableEq

/-- `BulkPartialError.Error`. -/
def Failure.message : Failure → String
  | .plain message => message
  | .partway enqueued total message =>
    s!"bulk enqueue partially completed: enqueued {enqueued} of {total} jobs: {message}"

/-- What the caller gets. -/
structure Result where
  jobs : List Draft
  failure : Option Failure

def isSpace (c : Char) : Bool :=
  c.toNat ∈ [9, 10, 11, 12, 13, 32, 0x85, 0xA0, 0x1680, 0x2028, 0x2029, 0x202F, 0x205F, 0x3000] ||
    (0x2000 ≤ c.toNat && c.toNat ≤ 0x200A)

def validateQueueName (queue : String) : Except String Unit :=
  if queue.toList.all isSpace then
    .error ("queue name must not be empty or whitespace: " ++ queue.quote)
  else .ok ()

section Call

variable {α : Type} (c : Client α) (cfg : EnqueueConfig) (jobType : String)

def newJob (birth : Birth) : Job :=
  { Job.zero with
    id := birth.id
    type := jobType
    queue := cfg.queue
    retry := cfg.retry
    createdAt := birth.now
    enqueuedAt := birth.now
    batchID := cfg.batchID }

def draft (birth : Birth) (args : α) : Draft :=
  match cfg.encrypt, c.encryptor with
  | true, some encrypt => ⟨{ newJob cfg jobType birth with encrypted := true }, encrypt args⟩
  | _, _ => ⟨newJob cfg jobType birth, c.encode args⟩

def requested (births : ℕ → Birth) (argsList : List α) : List Draft :=
  argsList.zipIdx.map fun x => draft c cfg jobType (births x.2) x.1

/-- The loop that makes the jobs: encrypted arguments are written now, others are tried if there
will be more than one chunk. -/
def checkDrafts (validateBeforeWrite : Bool) : ℕ → List Draft → Except String Unit
  | _, [] => .ok ()
  | i, d :: drafts =>
    match d.args with
    | .ok _ => checkDrafts validateBeforeWrite (i + 1) drafts
    | .error e =>
      if d.job.encrypted then .error s!"encrypt bulk job {i} of type {jobType}: {e}"
      else if validateBeforeWrite then
        .error s!"marshal bulk job {i} of type {jobType} args: {e}"
      else checkDrafts validateBeforeWrite (i + 1) drafts

end Call

/-- `LPUSH` with several values. -/
def lpushAll (k : Key) : List String → Script Key Unit
  | [] => pure ()
  | v :: vs => do
    lpush k v
    lpushAll k vs

def errorMessage : Error → String
  | .wrongType => "WRONGTYPE Operation against a key holding the wrong kind of value"
  | .reply message => message
  | .raised message => message

/-- A command with its fate: an error of the connection, or what Redis makes of it. -/
def issue {α : Type} (fate : Option String) (x : Script Key α) (db : Db Key) :
    Option String × Db Key :=
  match fate with
  | some e => (some e, db)
  | none =>
    match x.run db with
    | .ok _ db' => (none, db')
    | .error e db' => (some (errorMessage e), db')

/-- The fates of the commands of a chunk. -/
structure Fates where
  zadd : Option String
  sadd : Option String
  lpush : Option String

def marshalAll : List Draft → Except String (List String)
  | [] => .ok []
  | d :: drafts =>
    match d.marshal with
    | .error e => .error s!"marshal job {d.job.id}: {e}"
    | .ok payload => (marshalAll drafts).map (payload :: ·)

def enqueueBulkChunk (drafts : List Draft) (scheduled : Option ℤ) (fates : Fates) (db : Db Key) :
    Option String × Db Key :=
  match marshalAll drafts with
  | .error e => (some e, db)
  | .ok payloads =>
    match scheduled, drafts with
    | some score, _ => issue fates.zadd (zaddAll .scheduled score payloads) db
    | none, [] => (none, db)
    | none, first :: _ =>
      let added := issue fates.sadd (sadd .queues first.job.queue) db
      let pushed := issue fates.lpush (lpushAll (.queue first.job.queue) payloads) added.2
      (added.1.or pushed.1, pushed.2)

/-- The loop over the chunks, with a bound for the rounds. The fates of a chunk are given by its
start. -/
def enqueueChunks (jobType : String) (jobs : List Draft) (chunkSize : ℕ) (scheduled : Option ℤ)
    (fates : ℕ → Fates) : ℕ → ℕ → Db Key → Option (Result × Db Key)
  | 0, _, _ => none
  | rounds + 1, start, db =>
    if start < jobs.length then
      let stop := min (start + chunkSize) jobs.length
      match enqueueBulkChunk ((jobs.take stop).drop start) scheduled (fates start) db with
      | (none, db') =>
        enqueueChunks jobType jobs chunkSize scheduled fates rounds (start + chunkSize) db'
      | (some e, db') =>
        let message := s!"enqueue bulk jobs {start}-{stop - 1} of type {jobType}: {e}"
        if 0 < start then
          some (⟨jobs.take start, some (.partway start jobs.length message)⟩, db')
        else some (⟨[], some (.plain message)⟩, db')
    else some (⟨jobs, none⟩, db)

/-- When the jobs are to run: `none` is now. -/
def scheduleScore (cfg : EnqueueConfig) (redisNow : Except String RedisTime) :
    Except String (Option ℤ) :=
  match cfg.moment with
  | some t => .ok (some (unix t))
  | none =>
    if 0 < cfg.delay then redisNow.map fun now => some (unix (now.instant + cfg.delay))
    else .ok none

def validate {α : Type} (c : Client α) (cfg : EnqueueConfig) (jobType : String)
    (births : ℕ → Birth) (redisNow : Except String RedisTime) (argsList : List α) :
    Except String (Option ℤ) := do
  validateQueueName cfg.queue
  if cfg.uniqueKey ≠ "" then .error "unique keys are not supported in bulk enqueue" else pure ()
  if cfg.chunkSize ≤ 0 then .error "chunk size must be > 0" else pure ()
  if cfg.encrypt && c.encryptor.isNone then
    .error "encryption requested but client encryption is not configured" else pure ()
  checkDrafts jobType (cfg.chunkSize < argsList.length) 0 (requested c cfg jobType births argsList)
  match scheduleScore cfg redisNow with
  | .error e => .error s!"get Redis time for {argsList.length} bulk jobs of type {jobType}: {e}"
  | .ok scheduled => .ok scheduled

def enqueueBulk {α : Type} (c : Client α) (cfg : EnqueueConfig) (jobType : String)
    (births : ℕ → Birth) (redisNow : Except String RedisTime) (fates : ℕ → Fates) (rounds : ℕ)
    (argsList : List α) (db : Db Key) : Option (Result × Db Key) :=
  if argsList.length = 0 then some (⟨[], none⟩, db)
  else
    match validate c cfg jobType births redisNow argsList with
    | .error e => some (⟨[], some (.plain e)⟩, db)
    | .ok scheduled =>
      enqueueChunks jobType (requested c cfg jobType births argsList) cfg.chunkSize.toNat scheduled
        fates rounds 0 db

/-! ### Commands -/

section Commands

variable {db : Db Key} {k : Key}

theorem run_lpushAll (h : db.HasType k .list) (vs : List String) :
    ∃ db', (lpushAll k vs).run db = .ok () db' ∧ db'.list k = vs.reverse ++ db.list k ∧
      db'.HasType k .list ∧ ∀ k', k' ≠ k → db' k' = db k' := by
  induction vs generalizing db with
  | nil => exact ⟨db, rfl, rfl, h, fun _ _ => rfl⟩
  | cons v vs ih =>
    obtain ⟨db', hrun, hlist, htype, hother⟩ :=
      @ih (db.putList k (v :: db.list k)) (h.write fun _ => Db.typeOf_ofList _)
    refine ⟨db', ?_, ?_, htype, fun k' hk' => ?_⟩
    · rw [lpushAll, Script.run_bind_ok (run_lpush h v), hrun]
    · rw [hlist]
      simp
    · exact (hother k' hk').trans ((Db.write_apply _ _ _ _).trans (if_neg hk'))

theorem run_lpushAll_wrongType (h : ¬ db.HasType k .list) {vs : List String} (hne : vs ≠ []) :
    (lpushAll k vs).run db = .error .wrongType db := by
  cases vs with
  | nil => exact absurd rfl hne
  | cons v vs => rw [lpushAll, Script.run_bind, lpush, Script.run_onList_wrongType h]

theorem zset_zaddAll {vs : List String} (score : ℤ) (hnodup : vs.Nodup)
    (hnew : ∀ e ∈ db.zset k, e.1 ∉ vs) :
    ((vs.foldl (fun db v => db.putZset k (zinsert (db.zset k) v score)) db).zset k).Perm
        (vs.map (·, score) ++ db.zset k) ∧
      ∀ k', k' ≠ k →
        vs.foldl (fun db v => db.putZset k (zinsert (db.zset k) v score)) db k' = db k' := by
  induction vs generalizing db with
  | nil => exact ⟨.refl _, fun _ _ => rfl⟩
  | cons v vs ih =>
    obtain ⟨hv, hnodup⟩ := List.nodup_cons.mp hnodup
    have hinsert : zinsert (db.zset k) v score = (v, score) :: db.zset k := by
      rw [zinsert, List.filter_eq_self.mpr]
      intro e he
      have hne : e.1 ≠ v := fun heq => hnew e he (heq ▸ List.mem_cons_self)
      simpa using hne
    have hzset : (db.putZset k (zinsert (db.zset k) v score)).zset k =
        (v, score) :: db.zset k := by
      rw [hinsert]
      simp
    obtain ⟨hperm, hother⟩ := @ih (db.putZset k (zinsert (db.zset k) v score)) hnodup (by
      rw [hzset]
      refine List.forall_mem_cons.mpr ⟨hv, fun e he hmem => ?_⟩
      exact hnew e he (List.mem_cons_of_mem _ hmem))
    rw [hzset] at hperm
    exact ⟨hperm.trans List.perm_middle,
      fun k' hk' => (hother k' hk').trans ((Db.write_apply _ _ _ _).trans (if_neg hk'))⟩

theorem run_zaddAll_wrongType (h : ¬ db.HasType k .zset) (score : ℤ) {vs : List String}
    (hne : vs ≠ []) : (zaddAll k score vs).run db = .error .wrongType db := by
  cases vs with
  | nil => exact absurd rfl hne
  | cons v vs => rw [zaddAll, Script.run_bind, zadd, Script.run_onZset_wrongType h]

theorem issue_cases {α : Type} {x : Script Key α} {good : Prop} {P : Db Key → Prop}
    (hgood : good → ∃ a db', x.run db = .ok a db' ∧ P db')
    (hbad : ¬ good → ∃ e, x.run db = .error e db) (fate : Option String) :
    ((fate = none ∧ good) ∧ ∃ db', issue fate x db = (none, db') ∧ P db') ∨
      ¬ (fate = none ∧ good) ∧ ∃ e, issue fate x db = (some e, db) := by
  cases fate with
  | some e => exact Or.inr ⟨nofun, e, rfl⟩
  | none =>
    by_cases h : good
    · obtain ⟨a, db', hrun, hdb'⟩ := hgood h
      exact Or.inl ⟨⟨rfl, h⟩, db', by rw [issue, hrun], hdb'⟩
    · obtain ⟨e, hrun⟩ := hbad h
      exact Or.inr ⟨fun hboth => h hboth.2, errorMessage e, by rw [issue, hrun]⟩

end Commands

/-! ### What a chunk leaves -/

def later (scheduled : Option ℤ) (payloads : List String) : List (String × ℤ) :=
  match scheduled with
  | some score => payloads.map (·, score)
  | none => []

/-- **Exactly these payloads were added**, to the queue or to the scheduled set. A queue is popped
from the right, so its list is turned round. -/
structure Stored (scheduled : Option ℤ) (queue : String) (payloads : List String)
    (db db' : Db Key) : Prop where
  lists : ∀ name, (db'.list (.queue name)).reverse = (db.list (.queue name)).reverse ++
    if scheduled = none ∧ name = queue then payloads else []
  zset : (db'.zset .scheduled).Perm (later scheduled payloads ++ db.zset .scheduled)

section Stored

variable {scheduled : Option ℤ} {queue : String} {db db₁ db₂ : Db Key}

theorem Stored.of_same (hlists : ∀ name, db₁ (.queue name) = db (.queue name))
    (hzset : db₁ .scheduled = db .scheduled) : Stored scheduled queue [] db db₁ where
  lists name := by
    rw [Db.list, hlists, ite_self, List.append_nil]
    rfl
  zset := by
    rw [Db.zset, hzset]
    cases scheduled <;> exact .refl _

theorem Stored.trans {first second : List String} (h : Stored scheduled queue first db db₁)
    (h' : Stored scheduled queue second db₁ db₂) :
    Stored scheduled queue (first ++ second) db db₂ where
  lists name := by
    rw [h'.lists, h.lists, List.append_assoc]
    split <;> rfl
  zset := by
    refine h'.zset.trans ((h.zset.append_left _).trans ?_)
    cases scheduled with
    | none => exact .refl _
    | some score =>
      simp only [later, List.map_append, List.append_assoc]
      exact List.perm_append_comm_assoc _ _ _

theorem Stored.extra_eq_nil {payloads extra : List String}
    (h : Stored scheduled queue (payloads ++ extra) db db₁)
    (h' : Stored scheduled queue payloads db db₁) : extra = [] := by
  cases scheduled with
  | none =>
    have hlists := (h.lists queue).symm.trans (h'.lists queue)
    rw [if_pos ⟨rfl, rfl⟩, if_pos ⟨rfl, rfl⟩] at hlists
    simpa using List.append_cancel_left hlists
  | some score =>
    have hlength := (h.zset.symm.trans h'.zset).length_eq
    simp only [later, List.length_append, List.length_map] at hlength
    exact List.length_eq_zero_iff.mp (by omega)

theorem Stored.mem_zset {payloads : List String} (h : Stored scheduled queue payloads db db₁)
    {e : String × ℤ} (he : e ∈ db₁.zset .scheduled) : e.1 ∈ payloads ∨ e ∈ db.zset .scheduled := by
  obtain hlater | hold := List.mem_append.mp (h.zset.mem_iff.mp he)
  · cases scheduled with
    | none => cases hlater
    | some score =>
      obtain ⟨payload, hpayload, rfl⟩ := List.mem_map.mp hlater
      exact Or.inl hpayload
  · exact Or.inr hold

end Stored

/-- If the `LPUSH` of a chunk for now succeeds, then so does its `SADD`. -/
def Whole (queue : String) (fates : Fates) (db : Db Key) : Prop :=
  fates.lpush = none → db.HasType (.queue queue) .list →
    fates.sadd = none ∧ db.HasType .queues .set

def Writable (drafts : List Draft) : Prop := ∃ payloads, marshalAll drafts = .ok payloads

def Accepted (queue : String) (drafts : List Draft) (fates : Fates) (db : Db Key) : Prop :=
  Writable drafts ∧ (fates.lpush = none ∧ db.HasType (.queue queue) .list) ∧
    fates.sadd = none ∧ db.HasType .queues .set

section Chunk

variable {drafts : List Draft} {scheduled : Option ℤ} {queue : String} {fates : Fates}
  {db db' : Db Key}

theorem marshalAll_ok {payloads : List String} (h : marshalAll drafts = .ok payloads) :
    drafts.map Draft.marshal = payloads.map .ok := by
  induction drafts generalizing payloads with
  | nil =>
    cases h
    rfl
  | cons d drafts ih =>
    rw [marshalAll] at h
    split at h
    · cases h
    · next payload hd =>
      cases hrest : marshalAll drafts with
      | error e =>
        rw [hrest] at h
        cases h
      | ok rest =>
        rw [hrest] at h
        cases h
        rw [List.map_cons, List.map_cons, hd, ih hrest]

theorem marshal_eq_ok {d : Draft} {payload : String} (h : d.marshal = .ok payload) :
    ∃ args, payload = ({ d.job with args := args } : Job).marshal := by
  unfold Draft.marshal at h
  cases hargs : d.args with
  | error e =>
    rw [hargs] at h
    cases h
  | ok args =>
    rw [hargs] at h
    exact ⟨args, (Except.ok.inj h).symm⟩

theorem payloads_ids {payloads : List String} (h : drafts.map Draft.marshal = payloads.map .ok) :
    payloads.map payloadID = (drafts.map (·.job.id)).map some := by
  induction drafts generalizing payloads with
  | nil =>
    rw [List.map_nil, eq_comm, List.map_eq_nil_iff] at h
    rw [h]
    rfl
  | cons d drafts ih =>
    cases payloads with
    | nil => cases h
    | cons payload payloads =>
      rw [List.map_cons, List.map_cons, List.cons.injEq] at h
      obtain ⟨args, hpayload⟩ := marshal_eq_ok h.1
      rw [List.map_cons, List.map_cons, List.map_cons, hpayload, payloadID_marshal, ih h.2]

theorem issue_sadd_cases (fate : Option String) (queue : String) (db : Db Key) :
    ((fate = none ∧ db.HasType .queues .set) ∧
      ∃ db', issue fate (sadd .queues queue) db = (none, db') ∧ db'.HasType .queues .set ∧
        ∀ k, k ≠ .queues → db' k = db k) ∨
      ¬ (fate = none ∧ db.HasType .queues .set) ∧
        ∃ e, issue fate (sadd .queues queue) db = (some e, db) := by
  refine issue_cases (fun hset => ?_) (fun hset => ⟨_, Script.run_onSet_wrongType hset⟩) fate
  refine ⟨_, _, run_sadd hset queue, hset.write fun _ => Db.typeOf_ofSet _, fun k hk => ?_⟩
  exact (Db.write_apply _ _ _ _).trans (if_neg hk)

theorem issue_lpushAll_cases {payloads : List String} (hsome : payloads ≠ []) (fate : Option String)
    (queue : String) (db : Db Key) :
    ((fate = none ∧ db.HasType (.queue queue) .list) ∧
      ∃ db', issue fate (lpushAll (.queue queue) payloads) db = (none, db') ∧
        db'.list (.queue queue) = payloads.reverse ++ db.list (.queue queue) ∧
        db'.HasType (.queue queue) .list ∧ ∀ k, k ≠ .queue queue → db' k = db k) ∨
      ¬ (fate = none ∧ db.HasType (.queue queue) .list) ∧
        ∃ e, issue fate (lpushAll (.queue queue) payloads) db = (some e, db) := by
  refine issue_cases (fun htype => ?_) (fun htype => ⟨_, run_lpushAll_wrongType htype hsome⟩) fate
  obtain ⟨db', hrun, hdb'⟩ := run_lpushAll htype payloads
  exact ⟨(), db', hrun, hdb'⟩

theorem Stored.of_lpush {payloads : List String} {db₁ db₂ : Db Key}
    (hsame : ∀ k, k ≠ .queues → db₁ k = db k)
    (hcontent : db₂.list (.queue queue) = payloads.reverse ++ db₁.list (.queue queue))
    (hother : ∀ k, k ≠ .queue queue → db₂ k = db₁ k) : Stored none queue payloads db db₂ where
  lists name := by
    by_cases hname : name = queue
    · subst hname
      rw [if_pos ⟨rfl, rfl⟩, hcontent, List.reverse_append, List.reverse_reverse, Db.list,
        hsame _ Key.noConfusion]
      rfl
    · rw [if_neg fun hboth => hname hboth.2, List.append_nil, Db.list,
        hother _ fun heq => hname (Key.queue.inj heq), hsame _ Key.noConfusion]
      rfl
  zset := by
    rw [Db.zset, hother _ Key.noConfusion, hsame _ Key.noConfusion]
    exact .refl _

theorem issue_zaddAll_cases {payloads : List String} (hsome : payloads ≠ []) (hnodup : payloads.Nodup)
    (hfresh : ∀ e ∈ db.zset .scheduled, e.1 ∉ payloads) (score : ℤ) (fate : Option String) :
    (∃ db', issue fate (zaddAll .scheduled score payloads) db = (none, db') ∧
      Stored (some score) queue payloads db db') ∨
      ∃ e, issue fate (zaddAll .scheduled score payloads) db = (some e, db) := by
  have hgood (htype : db.HasType .scheduled .zset) :
      ∃ a db', (zaddAll .scheduled score payloads).run db = .ok a db' ∧
        (db'.zset .scheduled).Perm (payloads.map (·, score) ++ db.zset .scheduled) ∧
        ∀ k', k' ≠ .scheduled → db' k' = db k' :=
    ⟨(), _, run_zaddAll htype score payloads, zset_zaddAll score hnodup hfresh⟩
  obtain ⟨-, hdone⟩ | ⟨-, hfailed⟩ := issue_cases hgood
    (fun htype => ⟨_, run_zaddAll_wrongType htype score hsome⟩) fate
  · obtain ⟨db', hrun, hperm, hother⟩ := hdone
    refine Or.inl ⟨db', hrun, fun name => ?_, hperm⟩
    rw [Db.list, hother _ Key.noConfusion, if_neg (by simp), List.append_nil]
    rfl
  · exact Or.inr hfailed

theorem pipeline_cases {payloads : List String} (hsome : payloads ≠ []) (fates : Fates)
    (queue : String) (db : Db Key) :
    let added := issue fates.sadd (sadd .queues queue) db
    let pushed := issue fates.lpush (lpushAll (.queue queue) payloads) added.2
    let taken := (fates.lpush = none ∧ db.HasType (.queue queue) .list) ∧
      fates.sadd = none ∧ db.HasType .queues .set
    (taken ∧ added.1.or pushed.1 = none ∧ Stored none queue payloads db pushed.2 ∧
      pushed.2.HasType (.queue queue) .list ∧ pushed.2.HasType .queues .set) ∨
    ¬ taken ∧ (∃ e, added.1.or pushed.1 = some e) ∧
      ∃ extra, Stored none queue extra db pushed.2 ∧ (extra = [] ↔ Whole queue fates db) := by
  dsimp only
  obtain ⟨hsadd, db₁, hrun₁, hset, hsame⟩ | ⟨hsadd, e₁, hrun₁⟩ :=
    issue_sadd_cases fates.sadd queue db
  · rw [hrun₁]
    have htype : db₁.HasType (.queue queue) .list ↔ db.HasType (.queue queue) .list := by
      unfold Db.HasType
      rw [hsame _ Key.noConfusion]
    obtain ⟨hlpush, db₂, hrun₂, hcontent, hlist, hother⟩ | ⟨hlpush, e₂, hrun₂⟩ :=
      issue_lpushAll_cases hsome fates.lpush queue db₁
    · rw [hrun₂]
      refine Or.inl ⟨⟨hlpush.imp_right htype.mp, hsadd⟩, rfl, .of_lpush hsame hcontent hother, hlist,
        ?_⟩
      change db₂.HasType .queues .set
      unfold Db.HasType
      rw [hother _ Key.noConfusion]
      exact hset
    · rw [hrun₂]
      refine Or.inr ⟨fun hboth => hlpush (hboth.1.imp_right htype.mpr), ⟨e₂, rfl⟩, [],
        .of_same (fun _ => hsame _ Key.noConfusion) (hsame _ Key.noConfusion), ?_⟩
      exact iff_of_true rfl fun _ _ => hsadd
  · rw [hrun₁]
    refine Or.inr ⟨fun hboth => hsadd hboth.2, ⟨e₁, rfl⟩, ?_⟩
    obtain ⟨hlpush, db₂, hrun₂, hcontent, -, hother⟩ | ⟨hlpush, e₂, hrun₂⟩ :=
      issue_lpushAll_cases hsome fates.lpush queue db
    · -- the half that is not reported
      rw [hrun₂]
      refine ⟨payloads, .of_lpush (fun _ _ => rfl) hcontent hother, ?_⟩
      exact iff_of_false hsome fun hwhole => hsadd (hwhole hlpush.1 hlpush.2)
    · rw [hrun₂]
      refine ⟨[], .of_same (fun _ => rfl) rfl, ?_⟩
      exact iff_of_true rfl fun hnone hlist => absurd ⟨hnone, hlist⟩ hlpush

/-- **A chunk adds its payloads; if it fails then it adds nothing, or it is not whole.** -/
theorem enqueueBulkChunk_cases (hne : drafts ≠ []) (hqueue : ∀ d ∈ drafts, d.job.queue = queue)
    (hids : (drafts.map (·.job.id)).Nodup)
    (hnew : ∀ e ∈ db.zset .scheduled, ∀ d ∈ drafts, payloadID e.1 ≠ some d.job.id) :
    (∃ payloads db', enqueueBulkChunk drafts scheduled fates db = (none, db') ∧
      drafts.map Draft.marshal = payloads.map .ok ∧ Stored scheduled queue payloads db db' ∧
      (scheduled = none → Accepted queue drafts fates db ∧
        db'.HasType (.queue queue) .list ∧ db'.HasType .queues .set)) ∨
    ∃ e db' extra, enqueueBulkChunk drafts scheduled fates db = (some e, db') ∧
      Stored scheduled queue extra db db' ∧ (scheduled = none → ¬ Accepted queue drafts fates db) ∧
      (extra = [] ↔ (scheduled = none → Writable drafts → Whole queue fates db)) := by
  unfold enqueueBulkChunk
  cases hpayloads : marshalAll drafts with
  | error e =>
    have hnot : ¬ Writable drafts := by
      rintro ⟨payloads, hok⟩
      rw [hpayloads] at hok
      cases hok
    exact Or.inr ⟨e, db, [], rfl, .of_same (fun _ => rfl) rfl, fun _ h => hnot h.1,
      iff_of_true rfl fun _ h => absurd h hnot⟩
  | ok payloads =>
    have hwritable : Writable drafts := ⟨payloads, hpayloads⟩
    have hmarshal := marshalAll_ok hpayloads
    have hsome : payloads ≠ [] := by
      rintro rfl
      exact hne (List.map_eq_nil_iff.mp hmarshal)
    cases scheduled with
    | some score =>
      -- members of the set that were there already would not be added
      have hpayloadIDs := payloads_ids hmarshal
      have hnodup : payloads.Nodup := by
        refine List.Nodup.of_map payloadID ?_
        rw [hpayloadIDs]
        exact hids.map (Option.some_injective _)
      have hfresh : ∀ e ∈ db.zset .scheduled, e.1 ∉ payloads := by
        intro e he hmem
        have hid : payloadID e.1 ∈ payloads.map payloadID := List.mem_map_of_mem hmem
        rw [hpayloadIDs] at hid
        obtain ⟨id, hid, heq⟩ := List.mem_map.mp hid
        obtain ⟨d, hd, rfl⟩ := List.mem_map.mp hid
        exact hnew e he d hd heq.symm
      obtain ⟨db', hrun, hstored⟩ | ⟨e, hrun⟩ :=
        @issue_zaddAll_cases queue _ _ hsome hnodup hfresh score fates.zadd
      · exact Or.inl ⟨payloads, db', hrun, hmarshal, hstored, nofun⟩
      · exact Or.inr ⟨e, db, [], hrun, .of_same (fun _ => rfl) rfl, nofun, iff_of_true rfl nofun⟩
    | none =>
      cases drafts with
      | nil => exact absurd rfl hne
      | cons first rest =>
        simp only
        rw [hqueue first List.mem_cons_self]
        obtain ⟨htaken, herr, hstored, htypes⟩ | ⟨htaken, ⟨e, herr⟩, extra, hstored, hextra⟩ :=
          pipeline_cases hsome fates queue db
        · exact Or.inl ⟨payloads, _, by rw [herr], hmarshal, hstored,
            fun _ => ⟨⟨hwritable, htaken⟩, htypes⟩⟩
        · refine Or.inr ⟨e, _, extra, by rw [herr], hstored, fun _ h => htaken h.2, ?_⟩
          rw [hextra]
          exact ⟨fun h _ _ => h, fun h => h trivial hwritable⟩

end Chunk

/-! ### The loop -/

def Result.Reports (out : Result) (jobs : List Draft) : Prop :=
  match out.failure with
  | none => out.jobs = jobs
  | some (.plain _) => out.jobs = []
  | some (.partway enqueued total _) => enqueued = out.jobs.length ∧ total = jobs.length

theorem drop_take_append_drop_of_le {α : Type} (l : List α) {i j : ℕ} (h : i ≤ j) :
    (l.take j).drop i ++ l.drop j = l.drop i := by
  have hcut := List.drop_take_append_drop l i (j - i)
  rw [Nat.add_sub_cancel' h] at hcut
  rw [List.drop_take, hcut]

section Loop

variable {jobType queue : String} {jobs : List Draft} {chunkSize : ℕ} {scheduled : Option ℤ}
  {fates : ℕ → Fates}

def chunk (jobs : List Draft) (chunkSize start : ℕ) : List Draft :=
  (jobs.take (start + chunkSize)).drop start

/-- From a start on, the first chunk for now that fails does so as a whole: if the chunks before it
succeed and its arguments can be written, then it is whole. -/
def WholeFrom (queue : String) (jobs : List Draft) (chunkSize : ℕ) (fates : ℕ → Fates) (db : Db Key)
    (start : ℕ) : Prop :=
  ∀ n, start + n * chunkSize < jobs.length →
    (∀ m < n, Accepted queue (chunk jobs chunkSize (start + m * chunkSize))
      (fates (start + m * chunkSize)) db) →
    Writable (chunk jobs chunkSize (start + n * chunkSize)) →
      Whole queue (fates (start + n * chunkSize)) db

theorem wholeFrom_of_length_le {start : ℕ} {db : Db Key} (h : jobs.length ≤ start) :
    WholeFrom queue jobs chunkSize fates db start := fun n hn => by omega

theorem wholeFrom_iff {start : ℕ} {db : Db Key} (hstart : start < jobs.length) :
    WholeFrom queue jobs chunkSize fates db start ↔
      (Writable (chunk jobs chunkSize start) → Whole queue (fates start) db) ∧
        (Accepted queue (chunk jobs chunkSize start) (fates start) db →
          WholeFrom queue jobs chunkSize fates db (start + chunkSize)) := by
  have hnext : ∀ n, start + (n + 1) * chunkSize = start + chunkSize + n * chunkSize := fun n => by
    rw [Nat.succ_mul]
    omega
  constructor
  · intro h
    refine ⟨fun hwritable => ?_, fun haccepted n hn hbefore hwritable => ?_⟩
    · have hzero := h 0
      simp only [Nat.zero_mul, Nat.add_zero] at hzero
      exact hzero hstart nofun hwritable
    · rw [← hnext] at hn hwritable ⊢
      refine h (n + 1) hn (fun m hm => ?_) hwritable
      cases m with
      | zero =>
        rw [Nat.zero_mul, Nat.add_zero]
        exact haccepted
      | succ m =>
        rw [hnext]
        exact hbefore m (Nat.lt_of_succ_lt_succ hm)
  · rintro ⟨hfirst, hrest⟩ n hn hbefore hwritable
    cases n with
    | zero =>
      rw [Nat.zero_mul, Nat.add_zero] at hwritable ⊢
      exact hfirst hwritable
    | succ n =>
      have haccepted := hbefore 0 (Nat.succ_pos n)
      rw [Nat.zero_mul, Nat.add_zero] at haccepted
      rw [hnext] at hn hwritable ⊢
      refine hrest haccepted n hn (fun m hm => ?_) hwritable
      rw [← hnext]
      exact hbefore (m + 1) (Nat.succ_lt_succ hm)

theorem wholeFrom_congr {start : ℕ} {db db' : Db Key}
    (hlist : db.HasType (.queue queue) .list ↔ db'.HasType (.queue queue) .list)
    (hset : db.HasType .queues .set ↔ db'.HasType .queues .set) :
    WholeFrom queue jobs chunkSize fates db start ↔
      WholeFrom queue jobs chunkSize fates db' start := by
  simp only [WholeFrom, Accepted, Whole, hlist, hset]

/-- From a start on, the jobs that are reported are stored, and then some payloads. -/
def Enqueues (jobs : List Draft) (scheduled : Option ℤ) (queue : String) (start : ℕ) (db : Db Key)
    (extra : List String) (r : Option (Result × Db Key)) : Prop :=
  ∃ out n db' payloads, r = some (out, db') ∧ out.Reports jobs ∧ out.jobs = jobs.take n ∧
    start ≤ n ∧ ((jobs.take n).drop start).map Draft.marshal = payloads.map .ok ∧
    Stored scheduled queue (payloads ++ extra) db db'

theorem Enqueues.done {start : ℕ} (hstart : jobs.length ≤ start) (db : Db Key) :
    Enqueues jobs scheduled queue start db [] (some (⟨jobs, none⟩, db)) := by
  refine ⟨_, start, db, [], rfl, rfl, (List.take_of_length_le hstart).symm, le_rfl, ?_,
    .of_same (fun _ => rfl) rfl⟩
  rw [List.drop_of_length_le (List.length_take_le _ _)]
  rfl

theorem Enqueues.failed {start : ℕ} {db db' : Db Key} {extra : List String}
    (hstart : start < jobs.length) (h : Stored scheduled queue extra db db') (message : String) :
    Enqueues jobs scheduled queue start db extra
      (if 0 < start then
        some (⟨jobs.take start, some (.partway start jobs.length message)⟩, db')
      else some (⟨[], some (.plain message)⟩, db')) := by
  by_cases hzero : 0 < start
  · rw [if_pos hzero]
    refine ⟨_, start, db', [], rfl, ⟨?_, rfl⟩, rfl, le_rfl, ?_, h⟩
    · rw [List.length_take, min_eq_left hstart.le]
    · rw [List.drop_of_length_le (List.length_take_le _ _)]
      rfl
  · obtain rfl : start = 0 := by omega
    rw [if_neg hzero]
    exact ⟨_, 0, db', [], rfl, rfl, rfl, le_rfl, rfl, h⟩

theorem Enqueues.cons {start stop : ℕ} {payloads extra : List String} {db db₁ : Db Key}
    {r : Option (Result × Db Key)} (hle : start ≤ stop)
    (hmarshal : ((jobs.take stop).drop start).map Draft.marshal = payloads.map .ok)
    (hstored : Stored scheduled queue payloads db db₁)
    (h : Enqueues jobs scheduled queue stop db₁ extra r) :
    Enqueues jobs scheduled queue start db extra r := by
  obtain ⟨out, n, db₂, rest, hr, hreports, hout, hn, hrest, hstored'⟩ := h
  refine ⟨out, n, db₂, payloads ++ rest, hr, hreports, hout, hle.trans hn, ?_, ?_⟩
  · have htake : jobs.take stop = (jobs.take n).take stop := by rw [List.take_take, min_eq_left hn]
    rw [htake] at hmarshal
    rw [← drop_take_append_drop_of_le _ hle, List.map_append, hmarshal, hrest, List.map_append]
  · rw [List.append_assoc]
    exact hstored.trans hstored'

/-- **The loop stores the jobs that it reports**, and no others exactly if the first chunk that fails
does so as a whole. -/
theorem enqueueChunks_spec (hsize : 1 ≤ chunkSize) (hqueue : ∀ d ∈ jobs, d.job.queue = queue)
    (hids : (jobs.map (·.job.id)).Nodup) {rounds start : ℕ} {db : Db Key}
    (hrounds : jobs.length ≤ start + rounds)
    (hnew : ∀ e ∈ db.zset .scheduled, ∀ d ∈ jobs.drop start, payloadID e.1 ≠ some d.job.id) :
    ∃ extra, Enqueues jobs scheduled queue start db extra
        (enqueueChunks jobType jobs chunkSize scheduled fates (rounds + 1) start db) ∧
      (extra = [] ↔ (scheduled = none → WholeFrom queue jobs chunkSize fates db start)) := by
  induction rounds generalizing start db with
  | zero =>
    rw [enqueueChunks, if_neg (by omega)]
    exact ⟨[], .done (by omega) db, iff_of_true rfl fun _ => wholeFrom_of_length_le (by omega)⟩
  | succ rounds ih =>
    rw [enqueueChunks]
    by_cases hstart : start < jobs.length
    · rw [if_pos hstart]
      simp only
      have hstop : (jobs.take (min (start + chunkSize) jobs.length)).drop start =
          chunk jobs chunkSize start := by
        have htake : jobs.take (min (start + chunkSize) jobs.length) =
            jobs.take (start + chunkSize) := by
          rw [List.take_eq_take_iff]
          omega
        rw [chunk, htake]
      rw [hstop, wholeFrom_iff hstart]
      have hsplit : jobs.drop start = chunk jobs chunkSize start ++ jobs.drop (start + chunkSize) :=
        (drop_take_append_drop_of_le jobs (Nat.le_add_right start chunkSize)).symm
      have hidsDrop : ((jobs.drop start).map (·.job.id)).Nodup :=
        hids.sublist ((List.drop_sublist _ _).map _)
      rw [hsplit] at hidsDrop hnew
      rw [List.map_append, List.nodup_append'] at hidsDrop
      obtain ⟨hidsChunk, -, hdisjoint⟩ := hidsDrop
      have hne : chunk jobs chunkSize start ≠ [] := by
        rw [chunk, ne_eq, List.drop_eq_nil_iff, List.length_take]
        omega
      obtain ⟨payloads, db₁, hrun, hmarshal, hstored, htypes⟩ |
          ⟨e, db₁, extra, hrun, hstored, hrefused, hextra⟩ :=
        enqueueBulkChunk_cases hne
          (fun d hd => hqueue d (List.mem_of_mem_take (List.mem_of_mem_drop hd))) hidsChunk
          (fun e he d hd => hnew e he d (List.mem_append_left _ hd))
      · rw [hrun]
        obtain ⟨extra, henqueues, hextra⟩ := @ih (start + chunkSize) _ (by omega)
            fun e he d hd => by
          obtain hadded | hold := hstored.mem_zset he
          · -- a job of this chunk is none of the rest
            intro heq
            have hid : payloadID e.1 ∈ payloads.map payloadID := List.mem_map_of_mem hadded
            rw [payloads_ids hmarshal, heq,
              List.mem_map_of_injective (Option.some_injective _)] at hid
            exact hdisjoint hid (List.mem_map_of_mem hd)
          · exact hnew e hold d (List.mem_append_right _ hd)
        refine ⟨extra, henqueues.cons (Nat.le_add_right _ _) hmarshal hstored, hextra.trans ?_⟩
        -- the chunk has succeeded, and has left the types as they are
        refine forall_congr' fun hnow => ?_
        obtain ⟨haccepted, hlist, hset⟩ := htypes hnow
        obtain ⟨-, ⟨-, hlist'⟩, hsadd, hset'⟩ := id haccepted
        rw [wholeFrom_congr (iff_of_true hlist hlist') (iff_of_true hset hset')]
        exact ⟨fun h => ⟨fun _ _ _ => ⟨hsadd, hset'⟩, fun _ => h⟩, fun h => h.2 haccepted⟩
      · rw [hrun]
        refine ⟨extra, .failed hstart hstored _, hextra.trans (forall_congr' fun hnow => ?_)⟩
        exact ⟨fun h => ⟨h, fun haccepted => absurd haccepted (hrefused hnow)⟩, fun h => h.1⟩
    · rw [if_neg hstart]
      exact ⟨[], .done (by omega) db, iff_of_true rfl fun _ => wholeFrom_of_length_le (by omega)⟩

end Loop

/-! ### Fetching them -/

/-- The replies of `fetch_job.lua`, again and again. -/
def fetches (cj : Cjson) (queue workerID : String) : ℕ → Db Key → List (Except Error FetchReply)
  | 0, _ => []
  | n + 1, db =>
    match (fetchJob cj queue workerID).run db with
    | .ok reply db' => .ok reply :: fetches cj queue workerID n db'
    | .error e db' => .error e :: fetches cj queue workerID n db'

section Fetching

variable {cj : Cjson} {queue workerID : String}

theorem length_fetches (n : ℕ) (db : Db Key) : (fetches cj queue workerID n db).length = n := by
  induction n generalizing db with
  | zero => rfl
  | succ n ih =>
    rw [fetches]
    split <;> rw [List.length_cons, ih]

def fetched (cj : Cjson) (trusted : String → Option String) (payload : String) :
    Except Error FetchReply :=
  match held cj trusted payload with
  | some s => .ok (.job s)
  | none => .error (.raised "Cannot serialise")

theorem fetches_eq {db : Db Key} (hqueue : db.HasType (.queue queue) .list)
    (hinFlight : db.HasType (.inFlight workerID) .list) {payloads : List String}
    (h : (db.list (.queue queue)).reverse = payloads) :
    fetches cj queue workerID payloads.length db = payloads.map (fetched cj (trustedIn db)) := by
  induction payloads generalizing db with
  | nil => rfl
  | cons payload payloads ih =>
    rw [List.reverse_eq_cons_iff] at h
    rw [List.length_cons, fetches, run_fetchJob hqueue hinFlight, h, List.getLast?_concat]
    simp only
    rw [List.dropLast_concat, List.map_cons, fetched]
    have hpopped : (db.putList (.queue queue) payloads.reverse).HasType (.queue queue) .list :=
      hqueue.write fun _ => Db.typeOf_ofList _
    have hflight :
        (db.putList (.queue queue) payloads.reverse).HasType (.inFlight workerID) .list :=
      hinFlight.write fun heq => Key.noConfusion heq
    have htrusted : trustedIn (db.putList (.queue queue) payloads.reverse) = trustedIn db :=
      trustedIn_write (fun _ => Key.noConfusion) _
    cases held cj (trustedIn db) payload with
    | none =>
      simp only
      rw [ih hpopped hflight (by simp), htrusted]
    | some s =>
      simp only
      rw [ih (hpopped.write fun heq => Key.noConfusion heq) (hflight.write fun _ => Db.typeOf_ofList _)
        (by simp), trustedIn_write fun _ => Key.noConfusion, htrusted]

/-- **First in, first out**: after what was in the queue, the payloads are fetched in order. -/
def InOrder (queue : String) (payloads : List String) (db db' : Db Key) : Prop :=
  ∀ (cj : Cjson) (workerID : String), db'.HasType (.inFlight workerID) .list →
    (fetches cj queue workerID ((db.list (.queue queue)).length + payloads.length) db').drop
      (db.list (.queue queue)).length = payloads.map fun payload => .ok (.job payload)

theorem Stored.inOrder {payloads : List String} {db db' : Db Key}
    (h : Stored none queue payloads db db')
    (hheld : ∀ p ∈ payloads, ∀ (cj : Cjson) trusted, held cj trusted p = some p) :
    InOrder queue payloads db db' := by
  intro cj workerID hinFlight
  have hlist := h.lists queue
  rw [if_pos ⟨rfl, rfl⟩] at hlist
  have hlength : (db.list (.queue queue)).length = (db.list (.queue queue)).reverse.length :=
    List.length_reverse.symm
  by_cases hnone : payloads = []
  · rw [hnone]
    exact List.drop_of_length_le (length_fetches _ _).le
  · have hqueue : db'.HasType (.queue queue) .list := by
      refine Db.hasType_of_list_ne_nil fun hnil => ?_
      rw [hnil, List.reverse_nil, eq_comm, List.append_eq_nil_iff] at hlist
      exact hnone hlist.2
    rw [hlength, ← List.length_append, fetches_eq hqueue hinFlight hlist, List.map_append,
      List.drop_left' (List.length_map _)]
    refine List.map_congr_left fun p hp => ?_
    rw [fetched, hheld p hp]

end Fetching

/-! ### What is reported is what was done -/

section Exact

variable {α : Type} {c : Client α} {cfg : EnqueueConfig} {jobType : String} {births : ℕ → Birth}
  {argsList : List α}

theorem length_requested : (requested c cfg jobType births argsList).length = argsList.length := by
  rw [requested, List.length_map, List.length_zipIdx]

theorem draft_job (birth : Birth) (args : α) :
    (draft c cfg jobType birth args).job.queue = cfg.queue ∧
      (draft c cfg jobType birth args).job.id = birth.id ∧
      (draft c cfg jobType birth args).job.finalization = none := by
  unfold draft
  split <;> exact ⟨rfl, rfl, rfl⟩

theorem mem_requested {d : Draft} (h : d ∈ requested c cfg jobType births argsList) :
    d.job.queue = cfg.queue ∧ (∃ i, d.job.id = (births i).id) ∧ d.job.finalization = none := by
  obtain ⟨x, -, rfl⟩ := List.mem_map.mp h
  obtain ⟨hqueue, hid, hfinalization⟩ := @draft_job α c cfg jobType (births x.2) x.1
  exact ⟨hqueue, ⟨x.2, hid⟩, hfinalization⟩

theorem nodup_requested (hids : Function.Injective fun i => (births i).id) :
    ((requested c cfg jobType births argsList).map (·.job.id)).Nodup := by
  have hmap : (requested c cfg jobType births argsList).map (·.job.id) =
      (argsList.zipIdx.map (·.2)).map fun i => (births i).id := by
    rw [requested, List.map_map, List.map_map]
    exact List.map_congr_left fun x _ => (draft_job _ _).2.1
  rw [hmap, List.zipIdx_map_snd]
  exact (List.nodup_range' 1).map hids

def due (cfg : EnqueueConfig) (redisNow : Except String RedisTime) : Option ℤ :=
  match scheduleScore cfg redisNow with
  | .ok scheduled => scheduled
  | .error _ => none

theorem due_of_validate {redisNow : Except String RedisTime} {scheduled : Option ℤ}
    (h : validate c cfg jobType births redisNow argsList = .ok scheduled) :
    due cfg redisNow = scheduled := by
  have hscore : scheduleScore cfg redisNow = .ok scheduled := by
    unfold validate at h
    simp only [bind, Except.bind] at h
    repeat' split at h
    all_goals simp_all
  rw [due, hscore]

theorem held_of_requested {d : Draft} {payload : String}
    (hd : d ∈ requested c cfg jobType births argsList) (h : d.marshal = .ok payload) (cj : Cjson)
    (trusted : String → Option String) : held cj trusted payload = some payload := by
  obtain ⟨args, rfl⟩ := marshal_eq_ok h
  exact held_of_unmarked (mem_requested hd).2.2

theorem nodup_payloads (hids : Function.Injective fun i => (births i).id) {n : ℕ}
    {payloads : List String}
    (h : ((requested c cfg jobType births argsList).take n).map Draft.marshal = payloads.map .ok) :
    payloads.Nodup := by
  refine List.Nodup.of_map payloadID ?_
  rw [payloads_ids h]
  exact ((nodup_requested hids).sublist ((List.take_sublist _ _).map _)).map
    (Option.some_injective _)

def Faithful (c : Client α) (cfg : EnqueueConfig) (jobType : String) (births : ℕ → Birth)
    (redisNow : Except String RedisTime) (argsList : List α) (db : Db Key)
    (r : Option (Result × Db Key)) : Prop :=
  ∃ out db' payloads, r = some (out, db') ∧
    out.jobs <+: requested c cfg jobType births argsList ∧
    out.Reports (requested c cfg jobType births argsList) ∧
    out.jobs.map Draft.marshal = payloads.map .ok ∧ payloads.Nodup ∧
    Stored (due cfg redisNow) cfg.queue payloads db db' ∧
    (due cfg redisNow = none → InOrder cfg.queue payloads db db')

/-- **When `EnqueueBulk` reports what it has enqueued**: the jobs returned are the first ones of those
asked for, `BulkPartialError` has their number, exactly their payloads were added, once each, and a
queue hands them out in order. That is so exactly if, in a call that passes its checks and is for
now, the first chunk that fails does so as a whole. -/
theorem bulk_reports_enqueued {redisNow : Except String RedisTime} {fates : ℕ → Fates} {rounds : ℕ}
    {db : Db Key} (hne : argsList ≠ []) (hsize : 1 ≤ cfg.chunkSize)
    (hrounds : argsList.length < rounds) (hids : Function.Injective fun i => (births i).id)
    (hnew : ∀ e ∈ db.zset .scheduled, ∀ i, payloadID e.1 ≠ some (births i).id) :
    Faithful c cfg jobType births redisNow argsList db
        (enqueueBulk c cfg jobType births redisNow fates rounds argsList db) ↔
      (validate c cfg jobType births redisNow argsList = .ok none →
        WholeFrom cfg.queue (requested c cfg jobType births argsList) cfg.chunkSize.toNat fates db
          0) := by
  rw [enqueueBulk, if_neg fun h => hne (List.length_eq_zero_iff.mp h)]
  cases hvalid : validate c cfg jobType births redisNow argsList with
  | error e =>
    refine iff_of_true ?_ nofun
    have hstored : Stored (due cfg redisNow) cfg.queue [] db db := .of_same (fun _ => rfl) rfl
    refine ⟨_, db, [], rfl, List.nil_prefix, rfl, rfl, List.nodup_nil, hstored, fun hnow => ?_⟩
    rw [hnow] at hstored
    exact hstored.inOrder nofun
  | ok scheduled =>
    simp only [Except.ok.injEq]
    obtain ⟨rounds, rfl⟩ : ∃ n, rounds = n + 1 := ⟨rounds - 1, by omega⟩
    obtain ⟨extra, ⟨out, n, db', payloads, hrun, hreports, hout, -, hmarshal, hstored⟩, hextra⟩ :=
      @enqueueChunks_spec jobType cfg.queue (requested c cfg jobType births argsList)
        cfg.chunkSize.toNat scheduled fates (by omega) (fun d hd => (mem_requested hd).1)
        (nodup_requested hids) rounds 0 db (by rw [length_requested]; omega)
        (fun e he d hd => by
          obtain ⟨i, hi⟩ := (mem_requested (List.mem_of_mem_drop hd)).2.1
          rw [hi]
          exact hnew e he i)
    rw [List.drop_zero] at hmarshal
    rw [← hextra, hrun, Faithful, due_of_validate hvalid]
    constructor
    · rintro ⟨out', db'', payloads', heq, -, -, hmarshal', -, hstored', -⟩
      obtain ⟨rfl, rfl⟩ := Prod.mk.inj (Option.some.inj heq)
      -- only the jobs that are returned are in the keyspace, so there are no others
      have hsame : payloads = payloads' := by
        rw [hout, hmarshal] at hmarshal'
        exact List.map_injective_iff.mpr (fun _ _ => Except.ok.inj) hmarshal'
      exact hstored.extra_eq_nil (hsame ▸ hstored')
    · rintro rfl
      rw [List.append_nil] at hstored
      refine ⟨out, db', payloads, rfl, hout ▸ List.take_prefix _ _, hreports, hout ▸ hmarshal,
        nodup_payloads hids hmarshal, hstored, ?_⟩
      rintro rfl
      refine hstored.inOrder fun p hp => ?_
      have hok : Except.ok p ∈
          ((requested c cfg jobType births argsList).take n).map Draft.marshal :=
        hmarshal ▸ List.mem_map_of_mem hp
      obtain ⟨d, hd, hdp⟩ := List.mem_map.mp hok
      exact held_of_requested (List.mem_of_mem_take hd) hdp

end Exact

/-! ### Two jobs, one in a chunk -/

def oneByOne : EnqueueConfig where
  queue := "q"
  retry := 3
  uniqueKey := ""
  batchID := ""
  encrypt := false
  delay := 0
  moment := none
  chunkSize := 1

def tally (i : ℕ) : Birth := ⟨String.ofList (List.replicate (i + 1) 'a'), Time.zero⟩

theorem tally_injective : Function.Injective fun i => (tally i).id := by
  intro i j h
  have hlists := congrArg List.length (String.ofList_injective h)
  simpa using hlists

def emptyArgs : Client Unit := ⟨fun _ => .ok (some []), none⟩

theorem second_chunk_refused :
    Faithful emptyArgs oneByOne "t" tally (.error "no reply") [(), ()] (fun _ => none)
      (enqueueBulk emptyArgs oneByOne "t" tally (.error "no reply")
        (fun start => ⟨none, none, if start = 1 then some "refused" else none⟩) 3 [(), ()]
        (fun _ => none)) :=
  (bulk_reports_enqueued (by decide) (by decide) (by decide) tally_injective
    fun _ he => absurd he List.not_mem_nil).mpr fun _ _ _ _ _ _ _ => ⟨rfl, Or.inl rfl⟩

/-- The two numbers of a `BulkPartialError`. -/
def Failure.counts : Failure → Option (ℕ × ℕ)
  | .plain _ => none
  | .partway enqueued total _ => some (enqueued, total)

/-- **A chunk that was pushed is reported as missing**: the second `SADD` fails, one job of two is
returned, and both are in the queue. -/
theorem pushed_chunk_not_reported :
    (enqueueBulk emptyArgs oneByOne "t" tally (.error "no reply")
      (fun start => ⟨none, if start = 1 then some "refused" else none, none⟩) 3 [(), ()]
      (fun _ => none)).map
        (fun r => (r.1.jobs.length, r.1.failure.bind Failure.counts,
          (r.2.list (.queue "q")).length)) = some (1, some (1, 2), 2) := by
  decide +kernel

end Bulk

end Senna
