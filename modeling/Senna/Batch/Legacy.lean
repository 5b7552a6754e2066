import Senna.Batch.Lua
import Senna.Job.Normal

/-!
# Batches from before there were progress hashes

The progress of a batch was once part of its metadata, and is now a hash of its own. Every script
that needs the hash makes it from the metadata if it is not there, with the same fourteen fields
that the client writes for a new batch (`progressFields`). The two are written in different
languages from different sources: the client has the Go struct in front of it, the scripts what
`cjson` reads of the text `encoding/json` has written, in which empty fields are left out.

**For a batch whose metadata is the text of a Go struct, both come to the same hash**
(`run_migrate_old`). From there on a script does not look back: a call on an old batch and the same
call on the new one are one computation (`run_old_eq_run_new`). The scripts differ in the number of
pending members they assume if the metadata has none, but that field is never left out.

Assumed of `cjson` is that it reads what `encoding/json` has written, and that the integers are
ones a double represents.
-/

namespace Senna

/-! ### Metadata -/

/-- A struct field with `omitempty`. -/
def omitWhen {α : Type} (empty : Bool) (v : α) : Option α := if empty then none else some v

/-- The document of a `CallbackInfo`. -/
def Batch.CallbackInfo.toJson (c : CallbackInfo) : Json :=
  .obj ([("job_type", .str c.jobType)] ++
    (omitWhen c.options.isEmpty ("options", Json.obj c.options)).toList)

/-- All of `BatchState`. -/
structure Batch.Metadata extends BatchState where
  description : String
  createdAt : Time
  failedJIDs : List String

namespace Batch.Metadata

variable (s : Metadata)

def fields : List (String × Option Json) :=
  [("id", some (.str s.id)),
    ("description", omitWhen (s.description = "") (.str s.description)),
    ("parent_id", omitWhen (s.parentID = "") (.str s.parentID)),
    ("total", some (.int s.total)),
    ("pending", some (.int s.pending)),
    ("failures", some (.int s.failures)),
    ("successes", some (.int s.successes)),
    ("callbacks_pending", omitWhen (s.callbacksPending = 0) (.int s.callbacksPending)),
    ("callback_seq", omitWhen (s.callbackSeq = 0) (.int s.callbackSeq)),
    ("dead", some (.bool s.dead)),
    ("death_fired", some (.bool s.deathFired)),
    ("complete_fired", some (.bool s.completeFired)),
    ("success_fired", some (.bool s.successFired)),
    ("created_at", some (.str s.createdAt.text)),
    ("on_complete", s.onComplete.map CallbackInfo.toJson),
    ("on_success", s.onSuccess.map CallbackInfo.toJson),
    ("on_death", s.onDeath.map CallbackInfo.toJson),
    ("callback_queue", omitWhen (s.callbackQueue = "") (.str s.callbackQueue)),
    ("failed_jids", omitWhen s.failedJIDs.isEmpty (.arr (s.failedJIDs.map .str))),
    ("invalidated", omitWhen (!s.invalidated) (.bool s.invalidated))]

def members : List (String × Json) := s.fields.filterMap fun f => f.2.map (f.1, ·)

def toJson : Json := .obj s.members

def marshal : String := s.toJson.render

/-- The counters are integers that a double represents. -/
structure Small : Prop where
  total : s.total.natAbs < 2 ^ 53
  pending : s.pending.natAbs < 2 ^ 53
  failures : s.failures.natAbs < 2 ^ 53
  successes : s.successes.natAbs < 2 ^ 53
  callbacksPending : s.callbacksPending.natAbs < 2 ^ 53
  callbackSeq : s.callbackSeq.natAbs < 2 ^ 53

end Batch.Metadata

theorem lookup_filterMap {fs : List (String × Option Json)} (hnodup : (fs.map Prod.fst).Nodup)
    {name : String} {v : Option Json} (hmem : (name, v) ∈ fs) :
    Json.lookup name (fs.filterMap fun f => f.2.map (f.1, ·)) = v := by
  induction fs with
  | nil => cases hmem
  | cons f fs ih =>
    obtain ⟨hnot, hrest⟩ := List.nodup_cons.mp hnodup
    -- the members of the other fields have other names
    have hothers : f.1 = name →
        Json.lookup name (fs.filterMap fun f => f.2.map (f.1, ·)) = none := by
      rintro rfl
      refine Json.lookup_eq_none fun m hm heq => hnot ?_
      obtain ⟨g, hg, hgm⟩ := List.mem_filterMap.mp hm
      obtain ⟨w, -, rfl⟩ := Option.map_eq_some_iff.mp hgm
      exact heq ▸ List.mem_map_of_mem hg
    rcases List.mem_cons.mp hmem with heq | hlater
    · obtain rfl := heq
      cases v with
      | none => exact hothers rfl
      | some v => simp [Json.lookup_cons, hothers rfl]
    · have hne : f.1 ≠ name := by
        rintro rfl
        exact hnot (List.mem_map.mpr ⟨_, hlater, rfl⟩)
      obtain ⟨g, w⟩ := f
      cases w with
      | none => exact ih hrest hlater
      | some w => simpa [Json.lookup_cons, hne] using ih hrest hlater

namespace BatchLua

open Redis Batch

variable {rt : Runtime} {s : Metadata} {db : Db Key}

theorem index_toJson {name : String} {v : Option Json} (hmem : (name, v) ∈ s.fields) :
    index name s.toJson = some v := by
  have hnodup : (s.fields.map Prod.fst).Nodup := by
    simp only [Metadata.fields, List.map_cons, List.map_nil]
    decide
  exact congrArg some (lookup_filterMap hnodup hmem)

/-! ### The progress hash -/

def boolInt (b : Bool) : ℤ := if b then 1 else 0

/-- `batchProgressFields`, as they are stored. -/
def progressFields (s : BatchState) : List (String × Scalar) :=
  [("id", .text s.id), ("parent_id", .text s.parentID), ("callback_queue", .text s.callbackQueue),
    ("total", .int s.total), ("pending", .int s.pending), ("failures", .int s.failures),
    ("successes", .int s.successes), ("callbacks_pending", .int s.callbacksPending),
    ("callback_seq", .int s.callbackSeq), ("dead", .int (boolInt s.dead)),
    ("death_fired", .int (boolInt s.deathFired)), ("complete_fired", .int (boolInt s.completeFired)),
    ("success_fired", .int (boolInt s.successFired)),
    ("invalidated", .int (boolInt s.invalidated))]

def progressHash (s : BatchState) : String → Option Scalar :=
  (progressFields s).foldl (fun h e => Function.update h e.1 (some e.2)) fun _ => none

section Migrate

variable {v : Json} {name : String}

theorem run_field {x : Option Json} (h : index name v = some x) :
    (field v name).run db = .ok x db := by
  unfold field
  rw [h]
  rfl

theorem run_orDefault_text (t : String)
    (h : index name v = some (some (.str t)) ∨ index name v = some (omitWhen (t = "") (.str t))) :
    (orDefault rt v name (pure (.text ""))).run db = .ok (.text t) db := by
  unfold orDefault
  rcases h with h | h
  · rw [Script.run_bind_ok (run_field h)]
    rfl
  · rw [Script.run_bind_ok (run_field h)]
    by_cases ht : t = ""
    · simp [omitWhen, ht, truthy]
    · simp [omitWhen, ht, truthy, argument]

theorem run_orDefault_int {n : ℤ} (hn : n.natAbs < 2 ^ 53)
    (h : index name v = some (some (.int n))) (default : Script Key Scalar) :
    (orDefault rt v name default).run db = .ok (.int n) db := by
  unfold orDefault
  rw [Script.run_bind_ok (run_field h)]
  change (pure (rt.pass (.ofInt n)) : Script Key Scalar).run db = _
  rw [rt.pass_ofInt n hn]
  rfl

theorem run_orDefault_omitted {n : ℤ} (hn : n.natAbs < 2 ^ 53)
    (h : index name v = some (omitWhen (n = 0) (.int n))) :
    (orDefault rt v name (pure (.int 0))).run db = .ok (.int n) db := by
  by_cases hzero : n = 0
  · unfold orDefault
    rw [Script.run_bind_ok (run_field h)]
    simp [omitWhen, hzero, truthy]
  · refine run_orDefault_int hn ?_ _
    rw [h, omitWhen, if_neg (by simpa using hzero)]

theorem run_flag (b : Bool)
    (h : index name v = some (some (.bool b)) ∨ index name v = some (omitWhen (!b) (.bool b))) :
    (flag v name).run db = .ok (.int (boolInt b)) db := by
  unfold flag
  rcases h with h | h <;> rw [Script.run_bind_ok (run_field h)] <;> cases b <;> rfl

/-- **The fields of the migration are those of the client.** -/
theorem run_legacyFields (hsmall : s.Small) (pending : Script Key Scalar) :
    (legacyFields rt s.toJson pending).run db = .ok (progressFields s.toBatchState) db := by
  have hfield : ∀ {name : String} {v : Option Json}, (name, v) ∈ s.fields →
      index name s.toJson = some v := index_toJson
  unfold legacyFields
  rw [Script.run_bind_ok (run_orDefault_text s.id (Or.inl (hfield (by simp [Metadata.fields])))),
    Script.run_bind_ok
      (run_orDefault_text s.parentID (Or.inr (hfield (by simp [Metadata.fields])))),
    Script.run_bind_ok
      (run_orDefault_text s.callbackQueue (Or.inr (hfield (by simp [Metadata.fields])))),
    Script.run_bind_ok (run_orDefault_int hsmall.total (hfield (by simp [Metadata.fields])) _),
    Script.run_bind_ok (run_orDefault_int hsmall.pending (hfield (by simp [Metadata.fields])) _),
    Script.run_bind_ok (run_orDefault_int hsmall.failures (hfield (by simp [Metadata.fields])) _),
    Script.run_bind_ok (run_orDefault_int hsmall.successes (hfield (by simp [Metadata.fields])) _),
    Script.run_bind_ok (run_orDefault_omitted hsmall.callbacksPending
      (hfield (by simp [Metadata.fields]))),
    Script.run_bind_ok (run_orDefault_omitted hsmall.callbackSeq
      (hfield (by simp [Metadata.fields]))),
    Script.run_bind_ok (run_flag s.dead (Or.inl (hfield (by simp [Metadata.fields])))),
    Script.run_bind_ok (run_flag s.deathFired (Or.inl (hfield (by simp [Metadata.fields])))),
    Script.run_bind_ok (run_flag s.completeFired (Or.inl (hfield (by simp [Metadata.fields])))),
    Script.run_bind_ok (run_flag s.successFired (Or.inl (hfield (by simp [Metadata.fields])))),
    Script.run_bind_ok (run_flag s.invalidated (Or.inr (hfield (by simp [Metadata.fields]))))]
  rfl

theorem run_loadBatch {id data : String} {metadata : Json} (hdecode : rt.decode data = some metadata)
    (hbatch : db (.batch id) = some (.string data)) :
    (loadBatch rt id).run db = .ok metadata db := by
  have hstr : db.str (.batch id) = some data := congrArg Db.strOf hbatch
  have htype : db.HasType (.batch id) .string := Or.inr (congrArg Db.typeOf hbatch)
  unfold loadBatch
  rw [Script.run_bind_ok (run_get htype), hstr, Option.bind_some, hdecode]
  rfl

theorem run_migrate_old {id : String} (hcjson : rt.decode s.marshal = some s.toJson)
    (hsmall : s.Small) (hbatch : db (.batch id) = some (.string s.marshal))
    (hold : db (.progress id) = none) (pending : Script Key Scalar) :
    (migrate rt id pending).run db =
      .ok () (db.putHash (.progress id) (progressHash s.toBatchState)) := by
  have hempty : db.hash (.progress id) = fun _ => none := congrArg Db.hashOf hold
  have htype : db.HasType (.progress id) .hash := Or.inl (congrArg Db.typeOf hold)
  unfold migrate
  have hnone : Db.typeOf (db (.progress id)) = .none := congrArg Db.typeOf hold
  rw [run_type_bind, if_pos hnone, Script.run_bind_ok (run_loadBatch hcjson hbatch),
    Script.run_bind_ok (run_legacyFields hsmall pending), run_hsetAll htype, hempty]
  rfl

theorem run_migrate_new {id : String} {h : String → Option Scalar}
    (hnew : db (.progress id) = some (.hash h)) (pending : Script Key Scalar) :
    (migrate rt id pending).run db = .ok () db := by
  unfold migrate
  rw [run_type_bind, hnew]
  rfl

end Migrate

/-! ### Calls -/

section Calls

variable (rt : Runtime) (id : String)

def reply {α : Type} : Outcome Key α → Except Error α
  | .ok a _ => .ok a
  | .error e _ => .error e

def runAll : List Call → Db Key → List (Except Error Reply) × Db Key
  | [], db => ([], db)
  | c :: calls, db =>
    let out := (c.script rt id).run db
    let (replies, db') := runAll calls out.db
    (reply out :: replies, db')

end Calls

variable {checks : List (String × Key)}

theorem run_expectAll_bind {α : Type} (h : ∀ c ∈ checks, db.HasType c.2 c.2.kind)
    (f : Unit → Script Key α) :
    (expectAll checks >>= f).run db = (f ()).run db := by
  induction checks with
  | nil => rfl
  | cons c checks ih =>
    rw [expectAll, Script.bind_bind, run_expect_bind (h c List.mem_cons_self)]
    exact ih fun c hc => h c (List.mem_cons_of_mem _ hc)

theorem run_guarded {α : Type} {id text : String} (hbatch : db (.batch id) = some (.string text))
    (h : ∀ c ∈ checks, db.HasType c.2 c.2.kind) (missing : α)
    (body : Script Key α) : (guarded id checks missing body).run db = body.run db := by
  have hstring : Db.typeOf (db (.batch id)) = .string := congrArg Db.typeOf hbatch
  unfold guarded
  rw [run_type_bind, if_neg (hstring ▸ KeyType.noConfusion), run_expect_bind (Or.inr hstring),
    run_expectAll_bind h]

section Old

variable {id : String}

variable (s db id) in
/-- A batch without a progress hash, all sets of which are sets. -/
structure Old : Prop where
  batch : db (.batch id) = some (.string s.marshal)
  progress : db (.progress id) = none
  jobs : db.HasType (.jobs id) .set
  callbacks : db.HasType (.callbacks id) .set

variable (s db id) in
def renewed : Db Key := db.putHash (.progress id) (progressHash s.toBatchState)

theorem renewed_progress :
    renewed s db id (.progress id) = some (.hash (progressHash s.toBatchState)) :=
  Db.write_self _ _ _

theorem Old.renewed_batch (h : Old s db id) :
    renewed s db id (.batch id) = some (.string s.marshal) := by
  rw [renewed, Db.putHash, Db.write_apply, if_neg Key.noConfusion]
  exact h.batch

theorem Old.fits (h : Old s db id)
    (hchecks : ∀ c ∈ checks, c.2 = .progress id ∨ c.2 = .jobs id ∨ c.2 = .callbacks id) :
    (∀ c ∈ checks, db.HasType c.2 c.2.kind) ∧
      ∀ c ∈ checks, (renewed s db id).HasType c.2 c.2.kind := by
  have hold : ∀ c ∈ checks, db.HasType c.2 c.2.kind := by
    intro c hc
    rcases hchecks c hc with hkey | hkey | hkey <;> rw [hkey]
    · exact Or.inl (congrArg Db.typeOf h.progress)
    · exact h.jobs
    · exact h.callbacks
  refine ⟨hold, fun c hc => (hold c hc).write fun hkey => ?_⟩
  rw [hkey]
  exact Or.inr rfl

theorem run_guarded_migrate (hcjson : rt.decode s.marshal = some s.toJson) (hsmall : s.Small)
    (h : Old s db id) {α : Type}
    (hchecks : ∀ c ∈ checks, c.2 = .progress id ∨ c.2 = .jobs id ∨ c.2 = .callbacks id)
    (missing : α) (pending : Script Key Scalar) (rest : Script Key α) :
    (guarded id checks missing (do migrate rt id pending; rest)).run db =
      (guarded id checks missing (do migrate rt id pending; rest)).run (renewed s db id) := by
  obtain ⟨hold, hnew⟩ := h.fits hchecks
  rw [run_guarded h.batch hold, run_guarded h.renewed_batch hnew,
    Script.run_bind_ok (run_migrate_old hcjson hsmall h.batch h.progress pending),
    Script.run_bind_ok (run_migrate_new renewed_progress pending)]
  rfl

/-- **A call on an old batch is the same call on the new one.** -/
theorem run_old_eq_run_new (hcjson : rt.decode s.marshal = some s.toJson) (hsmall : s.Small)
    (h : Old s db id) (c : Call) :
    (c.script rt id).run db = (c.script rt id).run (renewed s db id) := by
  -- all six scripts migrate behind their guards, before they read anything else
  cases c <;> simp only [Call.script, Script.run_bind, batchComplete, batchCallbackComplete,
    batchAddJobs, batchAddChild, batchRemoveChild, batchInvalidate]
  all_goals rw [run_guarded_migrate hcjson hsmall h (by simp)]

end Old

/-! ### Refresh -/

/-- The counters and flags of a batch, as `BatchStatus` reports them. -/
structure Counters where
  total : ℤ
  pending : ℤ
  failures : ℤ
  successes : ℤ
  callbacksPending : ℤ
  callbackSeq : ℤ
  dead : Bool
  deathFired : Bool
  completeFired : Bool
  successFired : Bool
  invalidated : Bool
  deriving DecidableEq

/-- An `int` field of a text that `encoding/json` has written: zero if it was left out. -/
def readInt (ms : List (String × Json)) (name : String) : Option ℤ :=
  match Json.lookup name ms with
  | none => some 0
  | some (.num n) => n.toInt?.filter fun n => InInt64 n
  | some _ => none

/-- A `bool` field. -/
def readBool (ms : List (String × Json)) (name : String) : Option Bool :=
  match Json.lookup name ms with
  | none => some false
  | some (.bool b) => some b
  | some _ => none

def decodeBatchState (data : String) : Option Counters :=
  match Json.parse data with
  | some (.obj ms) => do
    let total ← readInt ms "total"
    let pending ← readInt ms "pending"
    let failures ← readInt ms "failures"
    let successes ← readInt ms "successes"
    let callbacksPending ← readInt ms "callbacks_pending"
    let callbackSeq ← readInt ms "callback_seq"
    let dead ← readBool ms "dead"
    let deathFired ← readBool ms "death_fired"
    let completeFired ← readBool ms "complete_fired"
    let successFired ← readBool ms "success_fired"
    let invalidated ← readBool ms "invalidated"
    pure ⟨total, pending, failures, successes, callbacksPending, callbackSeq, dead, deathFired,
      completeFired, successFired, invalidated⟩
  | _ => none

def progressBool (h : String → Option Scalar) (field : String) (fallback : Bool) : Bool :=
  match h field with
  | none | some (.text "") => fallback
  | some v => boolValue (some v)

def applyBatchProgress (c : Counters) (h : String → Option Scalar) : Counters where
  total := numberValue c.total (h "total")
  pending := numberValue c.pending (h "pending")
  failures := numberValue c.failures (h "failures")
  successes := numberValue c.successes (h "successes")
  callbacksPending := numberValue c.callbacksPending (h "callbacks_pending")
  callbackSeq := numberValue c.callbackSeq (h "callback_seq")
  dead := progressBool h "dead" c.dead
  deathFired := progressBool h "death_fired" c.deathFired
  completeFired := progressBool h "complete_fired" c.completeFired
  successFired := progressBool h "success_fired" c.successFired
  invalidated := progressBool h "invalidated" c.invalidated

def refresh (id : String) (db : Db Key) : Option Counters :=
  match db (.batch id), db (.progress id) with
  | some (.string data), none => decodeBatchState data
  | some (.string data), some (.hash h) => (decodeBatchState data).map (applyBatchProgress · h)
  | _, _ => none

theorem lookup_members {name : String} {v : Option Json} (hmem : (name, v) ∈ s.fields) :
    Json.lookup name s.members = v := Option.some.inj (index_toJson hmem)

theorem readInt_int {ms : List (String × Json)} (name : String) {n : ℤ} (hn : n.natAbs < 2 ^ 53)
    (h : Json.lookup name ms = some (.int n)) : readInt ms name = some n := by
  have hrange : InInt64 n := by unfold InInt64; omega
  unfold readInt
  rw [h]
  simp [Json.int, hrange]

theorem readInt_omitted {ms : List (String × Json)} (name : String) {n : ℤ}
    (hn : n.natAbs < 2 ^ 53) (h : Json.lookup name ms = omitWhen (n = 0) (.int n)) :
    readInt ms name = some n := by
  by_cases hzero : n = 0
  · simp [readInt, h, omitWhen, hzero]
  · refine readInt_int name hn ?_
    rw [h, omitWhen, if_neg (by simpa using hzero)]

theorem readBool_bool {ms : List (String × Json)} (name : String) (b : Bool)
    (h : Json.lookup name ms = some (.bool b) ∨
      Json.lookup name ms = omitWhen (!b) (.bool b)) : readBool ms name = some b := by
  unfold readBool
  rcases h with h | h
  · rw [h]
  · rw [h]
    cases b <;> rfl

def counters (s : BatchState) : Counters :=
  ⟨s.total, s.pending, s.failures, s.successes, s.callbacksPending, s.callbackSeq, s.dead,
    s.deathFired, s.completeFired, s.successFired, s.invalidated⟩

theorem decodeBatchState_marshal (hsmall : s.Small) :
    decodeBatchState s.marshal = some (counters s.toBatchState) := by
  have hfield : ∀ {name : String} {v : Option Json}, (name, v) ∈ s.fields →
      Json.lookup name s.members = v := lookup_members
  unfold decodeBatchState Metadata.marshal
  rw [Json.parse_render]
  simp only [Metadata.toJson,
    readInt_int "total" hsmall.total (hfield (by simp [Metadata.fields])),
    readInt_int "pending" hsmall.pending (hfield (by simp [Metadata.fields])),
    readInt_int "failures" hsmall.failures (hfield (by simp [Metadata.fields])),
    readInt_int "successes" hsmall.successes (hfield (by simp [Metadata.fields])),
    readInt_omitted "callbacks_pending" hsmall.callbacksPending
      (hfield (by simp [Metadata.fields])),
    readInt_omitted "callback_seq" hsmall.callbackSeq (hfield (by simp [Metadata.fields])),
    readBool_bool "dead" s.dead (Or.inl (hfield (by simp [Metadata.fields]))),
    readBool_bool "death_fired" s.deathFired (Or.inl (hfield (by simp [Metadata.fields]))),
    readBool_bool "complete_fired" s.completeFired (Or.inl (hfield (by simp [Metadata.fields]))),
    readBool_bool "success_fired" s.successFired (Or.inl (hfield (by simp [Metadata.fields]))),
    readBool_bool "invalidated" s.invalidated (Or.inr (hfield (by simp [Metadata.fields])))]
  rfl

theorem applyBatchProgress_progressHash (s : BatchState) :
    applyBatchProgress (counters s) (progressHash s) = counters s := by
  have hflag : ∀ b, boolValue (some (.int (boolInt b))) = b := by decide
  simp [applyBatchProgress, progressHash, progressFields, counters, numberValue, progressBool,
    hflag]

/-! ### Old batches behave like new ones -/

/-- **A batch without a progress hash behaves like the same batch with one**: every sequence of
calls gives the same replies, and if there is a call at all, leaves the same keyspace. Before the
first call, `Refresh` reports the same. -/
theorem old_batch_behaves_like_new (rt : Runtime) (s : Metadata)
    (hcjson : rt.decode s.marshal = some s.toJson) (hsmall : s.Small) (id : String) (db : Db Key)
    (h : Old s db id) :
    (∀ calls, (runAll rt id calls db).1 = (runAll rt id calls (renewed s db id)).1 ∧
        (calls ≠ [] → (runAll rt id calls db).2 = (runAll rt id calls (renewed s db id)).2)) ∧
      refresh id db = refresh id (renewed s db id) := by
  constructor
  · intro calls
    cases calls with
    | nil => exact ⟨rfl, fun hne => absurd rfl hne⟩
    | cons c calls =>
      -- after the first call the keyspaces are the same
      have hfirst := run_old_eq_run_new hcjson hsmall h c
      simp only [runAll, hfirst]
      exact ⟨trivial, fun _ => trivial⟩
  · unfold refresh
    rw [h.batch, h.progress, h.renewed_batch, renewed_progress]
    simp only [decodeBatchState_marshal hsmall, Option.map_some,
      applyBatchProgress_progressHash]

def halfDone : Metadata where
  id := "b"
  parentID := ""
  total := 2
  pending := 1
  failures := 0
  successes := 1
  callbacksPending := 0
  callbackSeq := 0
  dead := false
  deathFired := false
  completeFired := false
  successFired := false
  onComplete := some ⟨"Report", []⟩
  onSuccess := none
  onDeath := none
  callbackQueue := ""
  invalidated := false
  description := "nightly"
  createdAt := .zero
  failedJIDs := []

def halfDoneDb : Db Key := fun
  | .batch "b" => some (.string halfDone.marshal)
  | .jobs "b" => some (.set {"j"})
  | _ => none

theorem halfDone_old : Old halfDone halfDoneDb "b" :=
  ⟨rfl, rfl, Or.inr rfl, Or.inl rfl⟩

theorem halfDone_small : halfDone.Small := by
  constructor <;> decide

theorem old_batch_behaves_like_new_halfDone :
    refresh "b" halfDoneDb = refresh "b" (renewed halfDone halfDoneDb "b") ∧
      (runAll .plain "b" [.complete "j" .success "now"] halfDoneDb).1 =
        (runAll .plain "b" [.complete "j" .success "now"] (renewed halfDone halfDoneDb "b")).1 := by
  have hdepth : halfDone.toJson.depth ≤ cjsonMaxDepth := by decide
  have hcjson : Runtime.plain.decode halfDone.marshal = some halfDone.toJson := by
    simp [Runtime.plain, Cjson.plain, Metadata.marshal, hdepth]
  obtain ⟨hcalls, hrefresh⟩ := old_batch_behaves_like_new .plain halfDone hcjson halfDone_small "b"
    halfDoneDb halfDone_old
  exact ⟨hrefresh, (hcalls _).1⟩

end BatchLua

end Senna
