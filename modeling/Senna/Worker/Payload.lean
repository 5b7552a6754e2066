import Senna.Job

/-!
# Payloads as the worker and its scripts see them

The same payload is read twice: by `encoding/json` in the worker (`unmarshalJob`) and
by the `cjson` library in the Lua scripts. `cjson` is not part of the repository. It
is a parameter here (`Cjson`), with what its manual promises about the texts that
matter: a written document nested at most 1000 deep is decoded, a decoded text has the
fields of the document it was written from, and an encoded table has the fields of the
table. Everything else about it is open, in particular what it makes of texts from
elsewhere. `Cjson.plain` is one such library, for running the scripts on examples.

A script looks at a decoded value only through the type of the value and of four of
its fields, so that is all that two values are compared by (`SameFields`). Lua matches
names exactly, and a JSON `null` is a value of its own and not `nil`.

The second half are the payloads the worker builds: with a marker
(`payloadWithFinalization`), and without one for storing elsewhere
(`durableJobPayload`).
-/

namespace Senna

/-! ### Values in Lua -/

namespace Lua

/-- What a script can tell about a field. -/
inductive Slot where
  | nil
  | string (s : String)
  | table
  /-- A number, a boolean or `cjson.null`. -/
  | other
  deriving DecidableEq, Repr

def slot : Option Json → Slot
  | none => .nil
  | some (.str s) => .string s
  | some (.arr _) | some (.obj _) => .table
  | some _ => .other

/-- `type(v) == "table"`. -/
def isTable : Json → Bool
  | .arr _ | .obj _ => true
  | _ => false

/-- `v[name]`; an array has no named fields. -/
def field (name : String) : Json → Slot
  | .obj ms => slot (Json.lookup name ms)
  | _ => .nil

/-- `v[name] = nil`. -/
def clear (name : String) : Json → Json
  | .obj ms => .obj (Json.without name ms)
  | v => v

def SameFields (v w : Json) : Prop :=
  isTable v = isTable w ∧ ∀ name, field name v = field name w

theorem SameFields.refl (v : Json) : SameFields v v := ⟨rfl, fun _ => rfl⟩

@[simp] theorem field_clear (name : String) (v : Json) : field name (clear name v) = .nil := by
  cases v with
  | obj ms => simp [field, clear, slot]
  | _ => rfl

@[simp] theorem slot_marker (o : Option JobFinalization) :
    slot (o.map JobFinalization.toJson) = if o.isSome then .table else .nil := by
  cases o <;> rfl

end Lua

/-- How deep a table may nest for `cjson`. -/
def cjsonMaxDepth : ℕ := 1000

/-- The `cjson` library of the Lua scripts. -/
structure Cjson where
  /-- `pcall(cjson.decode, text)`, `none` when it fails. -/
  decode : String → Option Json
  /-- `cjson.encode(value)`, `none` when it raises. -/
  encode : Json → Option String
  /-- A written document that is not nested too deep is decoded. -/
  decode_shallow : ∀ t : Json, t.depth ≤ cjsonMaxDepth → ∃ v, decode t.render = some v
  /-- What is decoded from a written document has its fields. -/
  decode_render : ∀ (t v : Json), decode t.render = some v → Lua.SameFields v t
  /-- What is decoded from an encoded table has its fields. -/
  decode_encode : ∀ (v : Json) (s : String) (w : Json), encode v = some s → decode s = some w →
    Lua.SameFields w v

namespace Cjson

/-- A library that reads all JSON up to the depth limit, and refuses to write numbers
outside the range of a double. -/
def plain : Cjson where
  decode s := (Json.parse s).filter fun t => t.depth ≤ cjsonMaxDepth
  encode v := if v.depth ≤ cjsonMaxDepth ∧ v.isFinite then some v.render else none
  decode_shallow t h := ⟨t, by simp [h]⟩
  decode_render t v h := by
    rw [Json.parse_render, Option.filter_some] at h
    split at h
    · rw [← Option.some.inj h]; exact Lua.SameFields.refl t
    · cases h
  decode_encode v s w hs hw := by
    split at hs
    · next hv =>
      rw [← Option.some.inj hs, Json.parse_render, Option.filter_some, if_pos (by simp [hv])] at hw
      rw [← Option.some.inj hw]
      exact Lua.SameFields.refl v
    · cases hs

theorem plain_decode_deep {t : Json} (h : cjsonMaxDepth < t.depth) :
    plain.decode t.render = none := by
  simpa [plain] using h

variable {cj : Cjson} {job : Job} {v : Json}

theorem decode_marshal (h : cj.decode job.marshal = some v) :
    Lua.isTable v = true ∧ Lua.field "jid" v = .string job.id ∧
      Lua.field "class" v = .string job.type ∧ Lua.field "queue" v = .string job.queue ∧
      Lua.field "finalization" v = if job.finalization.isSome then .table else .nil := by
  obtain ⟨htable, hfield⟩ := cj.decode_render _ _ h
  refine ⟨htable, (hfield _).trans ?_, (hfield _).trans ?_, (hfield _).trans ?_,
    (hfield _).trans ?_⟩
  · exact congrArg Lua.slot job.member_id
  · exact congrArg Lua.slot job.member_type
  · exact congrArg Lua.slot job.member_queue
  · exact (congrArg Lua.slot job.member_finalization).trans (Lua.slot_marker _)

end Cjson

/-! ### Payloads the worker builds -/

def jobPayload (job : Job) : String := if job.raw ≠ "" then job.raw else job.marshal

def payloadWithFinalization (payload : String) (f : JobFinalization) : Option String :=
  (unmarshalJob payload).map fun job => ({ job with finalization := some f } : Job).marshal

/-- `durableJobPayload`: the job as it is stored elsewhere, without a marker. A handler sees
decrypted arguments, so the encrypted ones are taken from the payload again. -/
def durableJobPayload (job : Job) : Option Job :=
  if job.raw = "" then some { job with finalization := none }
  else (unmarshalJob job.raw).map fun rawJob =>
    if rawJob.encrypted then
      { job with finalization := none, args := rawJob.args, encrypted := true }
    else { job with finalization := none }

theorem durableJobPayload_eq {job durable : Job} (h : durableJobPayload job = some durable) :
    ∃ args encrypted,
      durable = { job with finalization := none, args := args, encrypted := encrypted } := by
  unfold durableJobPayload at h
  split at h
  · exact ⟨job.args, job.encrypted, (Option.some.inj h).symm⟩
  · obtain ⟨rawJob, -, rfl⟩ := Option.map_eq_some_iff.mp h
    split
    · exact ⟨rawJob.args, true, rfl⟩
    · exact ⟨job.args, job.encrypted, rfl⟩

theorem payloadWithFinalization_marshal {job : Job} {f : JobFinalization} {payload : String}
    (h : payloadWithFinalization job.marshal f = some payload) :
    ∃ args, payload =
      ({ job with args := args, raw := "", finalization := some f } : Job).marshal := by
  obtain ⟨job', hread, rfl⟩ := Option.map_eq_some_iff.mp h
  refine ⟨job'.args, ?_⟩
  rw [unmarshalJob_marshal hread]

/-- The `jid` of a payload that is a JSON object. -/
def payloadID (payload : String) : Option String :=
  match Json.parse payload with
  | some (.obj ms) =>
    match Json.lookup "jid" ms with
    | some (.str s) => some s
    | _ => none
  | _ => none

@[simp] theorem payloadID_marshal (job : Job) : payloadID job.marshal = some job.id := by
  have hid : Json.lookup "jid" (job.required ++ job.optional ++ job.marker) = some (.str job.id) :=
    job.member_id
  simp only [payloadID, Job.marshal, Json.parse_render, Job.toJson, hid]

theorem marshal_ne_empty (job : Job) : job.marshal ≠ "" := by
  intro h
  have hnone : payloadID "" = none := by decide
  have hid := payloadID_marshal job
  rw [h, hnone] at hid
  cases hid

theorem marshal_toJson_inj {job job' : Job} (h : job.marshal = job'.marshal) :
    job.toJson = job'.toJson := Json.render_injective h

theorem member_of_marshal_eq {job job' : Job} (h : job.marshal = job'.marshal) (f : Field) :
    job.member f = job'.member f := by
  have hmembers := Json.obj.inj (marshal_toJson_inj h)
  rw [Job.member, Job.member, hmembers]

end Senna
