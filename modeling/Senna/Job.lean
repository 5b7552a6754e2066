import Senna.Json.Text
import Senna.Time

/-!
# Jobs and their payloads

A job and the JSON payload it is stored as, from `job.go`. The payload is written by
`encoding/json` from the struct tags: `omitempty` fields are left out when they hold
their zero value, and the private finalization marker is written last, next to the
fields of the job (`MarshalJSON`).

Reading (`UnmarshalJob`) is not the mirror image of writing. `encoding/json` takes
the members one after the other, matches their names to the fields without regard to
case, ignores names it does not know, lets `null` leave a field as it is, and fails
on a value of the wrong kind or on a document nested deeper than 10000. All of that
is in `Job.set` and `unmarshalJob`, since payloads also come from other producers.

`Args` is a `map[string]any`. It is represented by the members that are written for
it, `none` for a nil map; reading one sorts the names and keeps the last of repeated
ones, as going through a Go map does. Numbers in it keep their spelling; one that
does not fit a `float64` makes reading fail.

The layers above use two facts. **`unmarshalJob_marshal`**: whatever is read from a
written job is that job, with its arguments put in order. **`Job.member_id`** to
**`Job.member_finalization`**: what a reader that looks members up by name finds in it.
-/

namespace Senna

/-! ### Jobs -/

/-- The outcome recorded for a job whose handler has returned. -/
structure JobFinalization where
  operation : String
  error : String
  retryAt : Time
  deriving DecidableEq

/-- A nil `map[string]any`, or the members written for one. -/
abbrev Args := Option (List (String × Json))

/-- A queued unit of work. -/
structure Job where
  id : String
  type : String
  queue : String
  args : Args
  retry : ℤ
  retryCount : ℤ
  createdAt : Time
  enqueuedAt : Time
  processedAt : Option Time
  failedAt : Option Time
  error : String
  batchID : String
  callbackBatchID : String
  uniqueKey : String
  uniqueTTL : ℤ
  encrypted : Bool
  /-- The payload the job was read from; not part of the payload itself. -/
  raw : String
  finalization : Option JobFinalization

def Job.zero : Job where
  id := ""
  type := ""
  queue := ""
  args := none
  retry := 0
  retryCount := 0
  createdAt := .zero
  enqueuedAt := .zero
  processedAt := none
  failedAt := none
  error := ""
  batchID := ""
  callbackBatchID := ""
  uniqueKey := ""
  uniqueTTL := 0
  encrypted := false
  raw := ""
  finalization := none

/-- The fields of the payload. -/
inductive Field where
  | id | type | queue | args | retry | retryCount | createdAt | enqueuedAt | processedAt | failedAt
  | error | batchID | callbackBatchID | uniqueKey | uniqueTTL | encrypted | finalization
  deriving DecidableEq

namespace Field

def tag : Field → String
  | id => "jid"
  | type => "class"
  | queue => "queue"
  | args => "args"
  | retry => "retry"
  | retryCount => "retry_count"
  | createdAt => "created_at"
  | enqueuedAt => "enqueued_at"
  | processedAt => "processed_at"
  | failedAt => "failed_at"
  | error => "error"
  | batchID => "bid"
  | callbackBatchID => "callback_bid"
  | uniqueKey => "unique_key"
  | uniqueTTL => "unique_ttl"
  | encrypted => "encrypted"
  | finalization => "finalization"

def all : List Field :=
  [id, type, queue, args, retry, retryCount, createdAt, enqueuedAt, processedAt, failedAt, error,
    batchID, callbackBatchID, uniqueKey, uniqueTTL, encrypted, finalization]

theorem tag_injective : Function.Injective tag := by
  intro f g h
  cases f <;> cases g <;> first | rfl | exact absurd h (by decide)

end Field

/-! ### Writing -/

def omitEmpty (name value : String) : List (String × Json) :=
  if value = "" then [] else [(name, .str value)]

/-- A pointer to a time with `omitempty`. -/
def omitNil (name : String) : Option Time → List (String × Json)
  | none => []
  | some t => [(name, .str t.text)]

/-- The document of a marker. `retry_at` is a struct, so its `omitempty` never omits it. -/
def JobFinalization.toJson (f : JobFinalization) : Json :=
  .obj ([("operation", .str f.operation)] ++ omitEmpty "error" f.error ++
    [("retry_at", .str f.retryAt.text)])

def Args.toJson : Args → Json
  | none => .null
  | some ms => .obj ms

def Job.required (job : Job) : List (String × Json) :=
  [(Field.id.tag, .str job.id), (Field.type.tag, .str job.type), (Field.queue.tag, .str job.queue),
    (Field.args.tag, job.args.toJson), (Field.retry.tag, .int job.retry),
    (Field.retryCount.tag, .int job.retryCount), (Field.createdAt.tag, .str job.createdAt.text),
    (Field.enqueuedAt.tag, .str job.enqueuedAt.text)]

/-- The members with `omitempty`. -/
def Job.optional (job : Job) : List (String × Json) :=
  omitNil Field.processedAt.tag job.processedAt ++ omitNil Field.failedAt.tag job.failedAt ++
    omitEmpty Field.error.tag job.error ++ omitEmpty Field.batchID.tag job.batchID ++
    omitEmpty Field.callbackBatchID.tag job.callbackBatchID ++
    omitEmpty Field.uniqueKey.tag job.uniqueKey ++
    (if job.uniqueTTL = 0 then [] else [(Field.uniqueTTL.tag, .int job.uniqueTTL)]) ++
    (if job.encrypted then [(Field.encrypted.tag, .bool true)] else [])

def Job.marker (job : Job) : List (String × Json) :=
  match job.finalization with
  | none => []
  | some f => [(Field.finalization.tag, f.toJson)]

def Job.toJson (job : Job) : Json := .obj (job.required ++ job.optional ++ job.marker)

def Job.marshal (job : Job) : String := job.toJson.render

/-! ### Reading -/

/-- Lower case as field names are compared: also the two characters outside ASCII that
fold to an ASCII letter. -/
def foldChar (c : Char) : Char :=
  if c = 'ſ' then 's' else if c = 'K' then 'k' else c.toLower

def foldName (name : String) : String := String.ofList (name.toList.map foldChar)

def Field.ofName? (name : String) : Option Field := Field.all.find? fun f => f.tag = foldName name

theorem Field.ofName?_tag (f : Field) : ofName? f.tag = some f := by
  cases f <;> decide

def readString (old : String) : Json → Option String
  | .str s => some s
  | .null => some old
  | _ => none

def readInt (old : ℤ) : Json → Option ℤ
  | .num n => n.toInt?.filter fun i => -2 ^ 63 ≤ i ∧ i < 2 ^ 63
  | .null => some old
  | _ => none

def readBool (old : Bool) : Json → Option Bool
  | .bool b => some b
  | .null => some old
  | _ => none

def readTime (old : Time) : Json → Option Time
  | .str s => Time.ofText? s
  | .null => some old
  | _ => none

def readTimePtr : Json → Option (Option Time)
  | .str s => (Time.ofText? s).map some
  | .null => some none
  | _ => none

/-- Put a member into a sorted list of members, unless its name is there already. -/
def insertMember (m : String × Json) : List (String × Json) → List (String × Json)
  | [] => [m]
  | x :: xs =>
    if m.1 = x.1 then x :: xs
    else if m.1 < x.1 then m :: x :: xs
    else x :: insertMember m xs

mutual

/-- A value after going through a Go `any`: maps have sorted, distinct names. -/
def goValue : Json → Json
  | .arr items => .arr (goItems items)
  | .obj members => .obj (goMembers members)
  | t => t

def goItems : List Json → List Json
  | [] => []
  | t :: ts => goValue t :: goItems ts

def goMembers : List (String × Json) → List (String × Json)
  | [] => []
  | m :: ms => insertMember (m.1, goValue m.2) (goMembers ms)

end

def readArgs (old : Args) : Json → Option Args
  | .obj ms =>
    if Json.isFinite (.obj ms) then some (some (goMembers (old.getD [] ++ ms))) else none
  | .null => some none
  | _ => none

def JobFinalization.set (f : JobFinalization) (m : String × Json) : Option JobFinalization :=
  match foldName m.1 with
  | "operation" => (readString f.operation m.2).map fun s => { f with operation := s }
  | "error" => (readString f.error m.2).map fun s => { f with error := s }
  | "retry_at" => (readTime f.retryAt m.2).map fun t => { f with retryAt := t }
  | _ => some f

/-- Read a marker into its pointer field: members are set in the marker that is there. -/
def readFinalization (old : Option JobFinalization) : Json → Option (Option JobFinalization)
  | .obj ms => (ms.foldlM JobFinalization.set (old.getD ⟨"", "", .zero⟩)).map some
  | .null => some none
  | _ => none

def Job.setField (job : Job) (v : Json) : Field → Option Job
  | .id => (readString job.id v).map fun s => { job with id := s }
  | .type => (readString job.type v).map fun s => { job with type := s }
  | .queue => (readString job.queue v).map fun s => { job with queue := s }
  | .args => (readArgs job.args v).map fun a => { job with args := a }
  | .retry => (readInt job.retry v).map fun n => { job with retry := n }
  | .retryCount => (readInt job.retryCount v).map fun n => { job with retryCount := n }
  | .createdAt => (readTime job.createdAt v).map fun t => { job with createdAt := t }
  | .enqueuedAt => (readTime job.enqueuedAt v).map fun t => { job with enqueuedAt := t }
  | .processedAt => (readTimePtr v).map fun t => { job with processedAt := t }
  | .failedAt => (readTimePtr v).map fun t => { job with failedAt := t }
  | .error => (readString job.error v).map fun s => { job with error := s }
  | .batchID => (readString job.batchID v).map fun s => { job with batchID := s }
  | .callbackBatchID =>
    (readString job.callbackBatchID v).map fun s => { job with callbackBatchID := s }
  | .uniqueKey => (readString job.uniqueKey v).map fun s => { job with uniqueKey := s }
  | .uniqueTTL => (readInt job.uniqueTTL v).map fun n => { job with uniqueTTL := n }
  | .encrypted => (readBool job.encrypted v).map fun b => { job with encrypted := b }
  | .finalization =>
    (readFinalization job.finalization v).map fun f => { job with finalization := f }

def Job.set (job : Job) (m : String × Json) : Option Job :=
  match Field.ofName? m.1 with
  | some f => job.setField m.2 f
  | none => some job

/-- Read the document of a job; `null` leaves the zero value. -/
def Job.ofJson : Json → Option Job
  | .obj ms => ms.foldlM Job.set Job.zero
  | .null => some Job.zero
  | _ => none

/-- How deep a document may nest for `encoding/json`. -/
def maxNestingDepth : ℕ := 10000

def unmarshalJob (payload : String) : Option Job :=
  (Json.parse payload).bind fun t => if t.depth ≤ maxNestingDepth then Job.ofJson t else none


/-! ### Reading what was written -/

theorem Job.set_tag (job : Job) (f : Field) (v : Json) : job.set (f.tag, v) = job.setField v f := by
  simp only [Job.set, Field.ofName?_tag]

@[simp] theorem readString_str (old s : String) : readString old (.str s) = some s := rfl

@[simp] theorem readTime_text (old t : Time) : readTime old (.str t.text) = some t :=
  Time.ofText?_text t

@[simp] theorem readTimePtr_text (t : Time) : readTimePtr (.str t.text) = some (some t) := by
  simp [readTimePtr]

theorem readInt_int {old n i : ℤ} (h : readInt old (.int n) = some i) : i = n := by
  simp only [readInt, Json.int, Json.Number.toInt?_ofInt, Option.filter_some] at h
  split at h
  · exact (Option.some.inj h).symm
  · cases h

variable {b : Job}

variable {f : Field}

theorem foldlM_omitEmpty {c : Job} {s : String}
    (hset : b.setField (.str s) f = some c) (hempty : s = "" → c = b) :
    (omitEmpty f.tag s).foldlM Job.set b = some c := by
  unfold omitEmpty
  split
  · next h => rw [hempty h]; rfl
  · simp [Job.set_tag, hset]

theorem foldlM_omitNil {c : Job} {o : Option Time}
    (hset : ∀ t, o = some t → b.setField (.str t.text) f = some c) (hnil : o = none → c = b) :
    (omitNil f.tag o).foldlM Job.set b = some c := by
  cases o with
  | none => rw [hnil rfl]; rfl
  | some t => simp [omitNil, Job.set_tag, hset t rfl]

theorem JobFinalization.set_operation (f : JobFinalization) (v : Json) :
    f.set ("operation", v) = (readString f.operation v).map fun s => { f with operation := s } := by
  have hname : foldName "operation" = "operation" := by decide
  simp only [JobFinalization.set, hname]

theorem JobFinalization.set_error (f : JobFinalization) (v : Json) :
    f.set ("error", v) = (readString f.error v).map fun s => { f with error := s } := by
  have hname : foldName "error" = "error" := by decide
  simp only [JobFinalization.set, hname]

theorem JobFinalization.set_retryAt (f : JobFinalization) (v : Json) :
    f.set ("retry_at", v) = (readTime f.retryAt v).map fun t => { f with retryAt := t } := by
  have hname : foldName "retry_at" = "retry_at" := by decide
  simp only [JobFinalization.set, hname]

theorem readFinalization_toJson (f : JobFinalization) :
    readFinalization none f.toJson = some (some f) := by
  have herror : ∀ g : JobFinalization, g.error = "" →
      (omitEmpty "error" f.error).foldlM JobFinalization.set g = some { g with error := f.error } := by
    intro g hg
    unfold omitEmpty
    split
    · next h => rw [h, ← hg]; rfl
    · simp [JobFinalization.set_error]
  simp [readFinalization, JobFinalization.toJson, List.foldlM_append,
    JobFinalization.set_operation, herror, JobFinalization.set_retryAt]

theorem readArgs_toJson {args args' : Args} (h : readArgs none args.toJson = some args') :
    args' = args.map goMembers := by
  cases args with
  | none => exact (Option.some.inj h).symm
  | some ms =>
    simp only [Args.toJson, readArgs] at h
    split at h
    · exact (Option.some.inj h).symm
    · cases h

variable {job : Job}

theorem Job.foldlM_required (h : job.required.foldlM Job.set Job.zero = some b) :
    b = { Job.zero with
      id := job.id, type := job.type, queue := job.queue, args := job.args.map goMembers,
      retry := job.retry, retryCount := job.retryCount, createdAt := job.createdAt,
      enqueuedAt := job.enqueuedAt } := by
  simp only [Job.required, List.foldlM_cons, List.foldlM_nil, Job.set_tag, Job.setField,
    readString_str, readTime_text, Option.map_some, Option.bind_eq_bind, Option.bind_some] at h
  obtain ⟨b₁, h₁, h⟩ := Option.bind_eq_some_iff.mp h
  obtain ⟨args, hargs, rfl⟩ := Option.map_eq_some_iff.mp h₁
  obtain ⟨b₂, h₂, h⟩ := Option.bind_eq_some_iff.mp h
  obtain ⟨retry, hretry, rfl⟩ := Option.map_eq_some_iff.mp h₂
  obtain ⟨b₃, h₃, h⟩ := Option.bind_eq_some_iff.mp h
  obtain ⟨count, hcount, rfl⟩ := Option.map_eq_some_iff.mp h₃
  obtain rfl := readInt_int hretry
  obtain rfl := readInt_int hcount
  obtain rfl := readArgs_toJson hargs
  exact (Option.some.inj h).symm

theorem Job.read_processedAt (h : b.processedAt = none) (o : Option Time) :
    (omitNil Field.processedAt.tag o).foldlM Job.set b = some { b with processedAt := o } :=
  foldlM_omitNil (fun t ht => by simp [Job.setField, ht]) fun ho => by rw [ho, ← h]

theorem Job.read_failedAt (h : b.failedAt = none) (o : Option Time) :
    (omitNil Field.failedAt.tag o).foldlM Job.set b = some { b with failedAt := o } :=
  foldlM_omitNil (fun t ht => by simp [Job.setField, ht]) fun ho => by rw [ho, ← h]

theorem Job.read_error (h : b.error = "") (s : String) :
    (omitEmpty Field.error.tag s).foldlM Job.set b = some { b with error := s } :=
  foldlM_omitEmpty rfl fun hs => by rw [hs, ← h]

theorem Job.read_batchID (h : b.batchID = "") (s : String) :
    (omitEmpty Field.batchID.tag s).foldlM Job.set b = some { b with batchID := s } :=
  foldlM_omitEmpty rfl fun hs => by rw [hs, ← h]

theorem Job.read_callbackBatchID (h : b.callbackBatchID = "") (s : String) :
    (omitEmpty Field.callbackBatchID.tag s).foldlM Job.set b = some { b with callbackBatchID := s } :=
  foldlM_omitEmpty rfl fun hs => by rw [hs, ← h]

theorem Job.read_uniqueKey (h : b.uniqueKey = "") (s : String) :
    (omitEmpty Field.uniqueKey.tag s).foldlM Job.set b = some { b with uniqueKey := s } :=
  foldlM_omitEmpty rfl fun hs => by rw [hs, ← h]

theorem Job.read_uniqueTTL {c : Job} (h : b.uniqueTTL = 0) {n : ℤ}
    (hread : (if n = 0 then [] else [(Field.uniqueTTL.tag, Json.int n)]).foldlM Job.set b = some c) :
    c = { b with uniqueTTL := n } := by
  split at hread
  · next hn => rw [hn, ← h]; exact (Option.some.inj hread).symm
  · simp only [List.foldlM_cons, List.foldlM_nil, Job.set_tag, Job.setField, bind_pure] at hread
    obtain ⟨i, hi, rfl⟩ := Option.map_eq_some_iff.mp hread
    rw [readInt_int hi]

theorem Job.read_encrypted (h : b.encrypted = false) (e : Bool) :
    (if e then [(Field.encrypted.tag, Json.bool true)] else []).foldlM Job.set b
      = some { b with encrypted := e } := by
  cases e with
  | false =>
    cases b
    obtain rfl := h
    rfl
  | true => simp [Job.set_tag, Job.setField, readBool]

theorem Job.read_marker (h : b.finalization = none) (job : Job) :
    job.marker.foldlM Job.set b = some { b with finalization := job.finalization } := by
  unfold Job.marker
  split
  · next hnone => rw [hnone, ← h]; rfl
  · next f hsome => simp [Job.set_tag, Job.setField, h, hsome, readFinalization_toJson]

theorem Job.ofJson_toJson {job' : Job} (h : Job.ofJson job.toJson = some job') :
    job' = { job with args := job.args.map goMembers, raw := "" } := by
  simp only [Job.ofJson, Job.toJson, List.foldlM_append, Option.bind_eq_bind] at h
  obtain ⟨c, h, hmarker⟩ := Option.bind_eq_some_iff.mp h
  obtain ⟨b, hrequired, hoptional⟩ := Option.bind_eq_some_iff.mp h
  obtain rfl := Job.foldlM_required hrequired
  -- the optional fields are still zero, so each is read whether or not it was written
  simp only [Job.optional, List.foldlM_append, Option.bind_eq_bind, Job.zero,
    Job.read_processedAt, Job.read_failedAt, Job.read_error, Job.read_batchID,
    Job.read_callbackBatchID, Job.read_uniqueKey, Option.bind_some] at hoptional
  obtain ⟨d, httl, hencrypted⟩ := Option.bind_eq_some_iff.mp hoptional
  obtain rfl := Job.read_uniqueTTL rfl httl
  rw [Job.read_encrypted rfl] at hencrypted
  obtain rfl := Option.some.inj hencrypted
  rw [Job.read_marker rfl] at hmarker
  obtain rfl := Option.some.inj hmarker
  rfl

theorem unmarshalJob_marshal {job' : Job} (h : unmarshalJob job.marshal = some job') :
    job' = { job with args := job.args.map goMembers, raw := "" } := by
  simp only [unmarshalJob, Job.marshal, Json.parse_render, Option.bind_some] at h
  split at h
  · exact Job.ofJson_toJson h
  · cases h

/-! ### The members of a written job -/

def Field.Required (f : Field) : Prop :=
  f = .id ∨ f = .type ∨ f = .queue ∨ f = .retryCount

instance (f : Field) : Decidable f.Required := by
  unfold Field.Required
  infer_instance

theorem Job.name_optional {m : String × Json} (h : m ∈ job.optional) :
    ∃ f : Field, m.1 = f.tag ∧ ¬ f.Required ∧ f ≠ .finalization := by
  have hstr : ∀ {f : Field} {s : String}, m ∈ omitEmpty f.tag s → m.1 = f.tag := by
    intro f s hm
    unfold omitEmpty at hm
    split at hm
    · cases hm
    · rw [List.mem_singleton.mp hm]
  have htime : ∀ {f : Field} {o : Option Time}, m ∈ omitNil f.tag o → m.1 = f.tag := by
    intro f o hm
    cases o with
    | none => cases hm
    | some t => rw [List.mem_singleton.mp hm]
  simp only [Job.optional, List.mem_append] at h
  obtain (((((((h | h) | h) | h) | h) | h) | h) | h) := h
  · exact ⟨_, htime h, by decide⟩
  · exact ⟨_, htime h, by decide⟩
  · exact ⟨_, hstr h, by decide⟩
  · exact ⟨_, hstr h, by decide⟩
  · exact ⟨_, hstr h, by decide⟩
  · exact ⟨_, hstr h, by decide⟩
  · split at h
    · cases h
    · exact ⟨.uniqueTTL, by rw [List.mem_singleton.mp h], by decide⟩
  · split at h
    · exact ⟨.encrypted, by rw [List.mem_singleton.mp h], by decide⟩
    · cases h

theorem Job.lookup_optional (hf : f.Required ∨ f = .finalization) :
    Json.lookup f.tag job.optional = none := by
  refine Json.lookup_eq_none fun m hm heq => ?_
  obtain ⟨g, hg, hrequired, hfin⟩ := Job.name_optional hm
  obtain rfl : g = f := Field.tag_injective (hg.symm.trans heq)
  exact hf.elim hrequired hfin

theorem Job.lookup_marker (hf : f ≠ .finalization) :
    Json.lookup f.tag job.marker = none := by
  refine Json.lookup_eq_none fun m hm heq => ?_
  unfold Job.marker at hm
  split at hm
  · cases hm
  · rw [List.mem_singleton.mp hm] at heq
    exact hf (Field.tag_injective heq).symm

def Job.member (job : Job) (f : Field) : Option Json :=
  Json.lookup f.tag (job.required ++ job.optional ++ job.marker)

theorem Job.member_required (hf : f.Required) :
    job.member f = Json.lookup f.tag job.required := by
  have hmark : Json.lookup f.tag job.marker = none := by
    refine Job.lookup_marker ?_
    rintro rfl
    exact absurd hf (by decide)
  unfold Job.member
  rw [Json.lookup_append, Json.lookup_append, Job.lookup_optional (Or.inl hf), hmark]
  rfl

@[simp] theorem Job.member_id (job : Job) : job.member .id = some (.str job.id) := by
  rw [Job.member_required (by decide)]
  rfl

@[simp] theorem Job.member_type (job : Job) : job.member .type = some (.str job.type) := by
  rw [Job.member_required (by decide)]
  rfl

@[simp] theorem Job.member_queue (job : Job) : job.member .queue = some (.str job.queue) := by
  rw [Job.member_required (by decide)]
  rfl

@[simp] theorem Job.member_retryCount (job : Job) :
    job.member .retryCount = some (.int job.retryCount) := by
  rw [Job.member_required (by decide)]
  rfl

theorem lookup_omitEmpty (f g : Field) (s : String) :
    Json.lookup f.tag (omitEmpty g.tag s) = if f = g ∧ s ≠ "" then some (.str s) else none := by
  unfold omitEmpty
  by_cases hs : s = ""
  · simp [hs]
  · by_cases hfg : f = g
    · simp [hs, hfg, Json.lookup_cons]
    · have htag : g.tag ≠ f.tag := fun h => hfg (Field.tag_injective h).symm
      simp [hs, hfg, htag, Json.lookup_cons]

theorem lookup_omitNil {g : Field} (hfg : f ≠ g) (o : Option Time) :
    Json.lookup f.tag (omitNil g.tag o) = none := by
  have htag : g.tag ≠ f.tag := fun h => hfg (Field.tag_injective h).symm
  cases o <;> simp [omitNil, Json.lookup_cons, htag]

def Job.texts (job : Job) : List (Field × String) :=
  [(.error, job.error), (.batchID, job.batchID), (.callbackBatchID, job.callbackBatchID),
    (.uniqueKey, job.uniqueKey)]

theorem Job.member_text {s : String} (hf : (f, s) ∈ job.texts) :
    job.member f = if s = "" then none else some (.str s) := by
  simp only [Job.texts, List.mem_cons, Prod.mk.injEq, List.not_mem_nil, or_false] at hf
  -- The other members have other names.
  have hreq : Json.lookup f.tag job.required = none := by
    obtain ⟨rfl, -⟩ | ⟨rfl, -⟩ | ⟨rfl, -⟩ | ⟨rfl, -⟩ := hf <;> rfl
  have hmarker : Json.lookup f.tag job.marker = none := by
    refine Job.lookup_marker ?_
    obtain ⟨rfl, -⟩ | ⟨rfl, -⟩ | ⟨rfl, -⟩ | ⟨rfl, -⟩ := hf <;> decide
  have httl : Json.lookup f.tag
      (if job.uniqueTTL = 0 then [] else [(Field.uniqueTTL.tag, Json.int job.uniqueTTL)]) = none := by
    obtain ⟨rfl, -⟩ | ⟨rfl, -⟩ | ⟨rfl, -⟩ | ⟨rfl, -⟩ := hf <;> split <;> rfl
  have hencrypted : Json.lookup f.tag
      (if job.encrypted then [(Field.encrypted.tag, Json.bool true)] else []) = none := by
    obtain ⟨rfl, -⟩ | ⟨rfl, -⟩ | ⟨rfl, -⟩ | ⟨rfl, -⟩ := hf <;> split <;> rfl
  have hprocessed := @lookup_omitNil f .processedAt
    (by obtain ⟨rfl, -⟩ | ⟨rfl, -⟩ | ⟨rfl, -⟩ | ⟨rfl, -⟩ := hf <;> decide) job.processedAt
  have hfailed := @lookup_omitNil f .failedAt
    (by obtain ⟨rfl, -⟩ | ⟨rfl, -⟩ | ⟨rfl, -⟩ | ⟨rfl, -⟩ := hf <;> decide) job.failedAt
  unfold Job.member
  simp only [Json.lookup_append, Job.optional, lookup_omitEmpty, hreq, hmarker, httl, hencrypted,
    hprocessed, hfailed]
  obtain ⟨rfl, rfl⟩ | ⟨rfl, rfl⟩ | ⟨rfl, rfl⟩ | ⟨rfl, rfl⟩ := hf
  · by_cases h : job.error = "" <;> simp [h]
  · by_cases h : job.batchID = "" <;> simp [h]
  · by_cases h : job.callbackBatchID = "" <;> simp [h]
  · by_cases h : job.uniqueKey = "" <;> simp [h]

@[simp] theorem Job.member_batchID (job : Job) :
    job.member .batchID = if job.batchID = "" then none else some (.str job.batchID) :=
  Job.member_text (by simp [Job.texts])

@[simp] theorem Job.member_uniqueKey (job : Job) :
    job.member .uniqueKey = if job.uniqueKey = "" then none else some (.str job.uniqueKey) :=
  Job.member_text (by simp [Job.texts])

@[simp] theorem Job.member_finalization (job : Job) :
    job.member .finalization = job.finalization.map JobFinalization.toJson := by
  have hreq : Json.lookup Field.finalization.tag job.required = none := rfl
  unfold Job.member
  rw [Json.lookup_append, Json.lookup_append, Job.lookup_optional (by simp), hreq]
  unfold Job.marker
  split
  · next h => rw [h]; rfl
  · next f h => rw [h]; simp [Json.lookup_cons]

end Senna
