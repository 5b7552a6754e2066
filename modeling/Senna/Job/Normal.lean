import Mathlib.Data.String.Basic
import Senna.Job

/-!
# What reading makes of a job

Reading a payload puts the arguments of a job into the order of a Go map: names are sorted, and of
repeated ones the last stays. **It does so only once.** Arguments that came out of a Go map are in
the form a Go map gives them (`Args.Normal`), so when the worker writes a job it has read, the
arguments are read back as they were (`args_unmarshalJob_marshal`).

Not every job can be read back: an integer may be out of range, a number in the arguments too
large, the document nested too deep. A job that was read is within the first two limits
(`Job.Sane`), and one that is within all three is read back (`unmarshalJob_marshal_of_sane`).
Numbers in the arguments may change when they are first read, as doubles have 53 bits, but not from
then on (`accepted_payload_round_trips`).
-/

namespace Senna

/-! ### Sorted members -/

def Increasing (ms : List (String × Json)) : Prop := ms.Pairwise fun m m' => m.1 < m'.1

variable {ms : List (String × Json)}

variable {m : String × Json}

theorem mem_insertMember {x : String × Json} (h : x ∈ insertMember m ms) : x = m ∨ x ∈ ms := by
  induction ms with
  | nil => exact Or.inl (List.mem_singleton.mp h)
  | cons y ys ih =>
    unfold insertMember at h
    split at h
    · exact Or.inr h
    · split at h
      · exact List.mem_cons.mp h
      · obtain rfl | h := List.mem_cons.mp h
        · exact Or.inr List.mem_cons_self
        · exact (ih h).imp_right (List.mem_cons_of_mem _)

theorem mem_goMembers {x : String × Json} (h : x ∈ goMembers ms) :
    ∃ m ∈ ms, x = (m.1, goValue m.2) := by
  induction ms with
  | nil => simp [goMembers] at h
  | cons m ms ih =>
    rw [goMembers] at h
    obtain rfl | h := mem_insertMember h
    · exact ⟨m, List.mem_cons_self, rfl⟩
    · obtain ⟨m', hm', rfl⟩ := ih h
      exact ⟨m', List.mem_cons_of_mem _ hm', rfl⟩

theorem goItems_eq_map (items : List Json) : goItems items = items.map goValue := by
  induction items with
  | nil => rw [goItems]; rfl
  | cons t ts ih => rw [goItems, ih]; rfl

theorem goValue_scalar {t : Json} (harr : ∀ items, t ≠ .arr items) (hobj : ∀ ms, t ≠ .obj ms) :
    goValue t = t := by
  cases t with
  | arr items => exact absurd rfl (harr items)
  | obj ms => exact absurd rfl (hobj ms)
  | _ => simp [goValue]

theorem insertMember_of_lt (h : ∀ x ∈ ms, m.1 < x.1) :
    insertMember m ms = m :: ms := by
  cases ms with
  | nil => rfl
  | cons x xs =>
    have hlt : m.1 < x.1 := h x List.mem_cons_self
    rw [insertMember, if_neg hlt.ne, if_pos hlt]

theorem Increasing.insertMember (h : Increasing ms)
    (m : String × Json) : Increasing (insertMember m ms) := by
  induction ms with
  | nil => exact List.pairwise_singleton _ _
  | cons x xs ih =>
    obtain ⟨hx, hxs⟩ := List.pairwise_cons.mp h
    unfold Senna.insertMember
    split
    · exact h
    · next hne =>
      split
      · next hlt =>
        refine List.pairwise_cons.mpr ⟨?_, h⟩
        rintro y hy
        obtain rfl | hy := List.mem_cons.mp hy
        · exact hlt
        · exact hlt.trans (hx y hy)
      · next hnot =>
        have hgt : x.1 < m.1 := lt_of_le_of_ne (not_lt.mp hnot) (Ne.symm hne)
        refine List.pairwise_cons.mpr ⟨fun y hy => ?_, ih hxs⟩
        obtain rfl | hy := mem_insertMember hy
        · exact hgt
        · exact hx y hy

theorem increasing_goMembers (ms : List (String × Json)) : Increasing (goMembers ms) := by
  induction ms with
  | nil => rw [goMembers]; exact List.Pairwise.nil
  | cons m ms ih => rw [goMembers]; exact ih.insertMember _

theorem Increasing.goMembers (h : Increasing ms)
    (hvalues : ∀ m ∈ ms, goValue m.2 = m.2) : goMembers ms = ms := by
  induction ms with
  | nil => rw [Senna.goMembers]
  | cons m ms ih =>
    obtain ⟨hm, hms⟩ := List.pairwise_cons.mp h
    obtain ⟨hvalue, hvalues⟩ := List.forall_mem_cons.mp hvalues
    rw [Senna.goMembers, ih hms hvalues, hvalue]
    exact insertMember_of_lt hm

theorem goValue_goValue (t : Json) : goValue (goValue t) = goValue t := by
  induction t using Json.induct with
  | hscalar t harr hobj => rw [goValue_scalar harr hobj, goValue_scalar harr hobj]
  | harr items ih =>
    rw [goValue, goItems_eq_map, goValue, goItems_eq_map, List.map_map]
    refine congrArg Json.arr (List.map_congr_left fun t ht => ?_)
    exact ih t ht
  | hobj ms ih =>
    rw [goValue, goValue]
    refine congrArg Json.obj ((increasing_goMembers ms).goMembers fun m hm => ?_)
    obtain ⟨m', hm', rfl⟩ := mem_goMembers hm
    exact ih m' hm'

/-! ### Arguments that were read -/

def Args.Normal (args : Args) : Prop := args.map goMembers = args

theorem Args.normal_goMembers (ms : List (String × Json)) : Args.Normal (some (goMembers ms)) := by
  refine congrArg some ((increasing_goMembers ms).goMembers fun m hm => ?_)
  obtain ⟨m', -, rfl⟩ := mem_goMembers hm
  exact goValue_goValue m'.2

theorem normal_readArgs {old args : Args} {v : Json} (h : readArgs old v = some args) :
    args.Normal := by
  unfold readArgs at h
  split at h
  · split at h
    · exact Option.some.inj h ▸ Args.normal_goMembers _
    · cases h
  · exact Option.some.inj h ▸ rfl
  · cases h

variable {job job' : Job}

theorem normal_set (hjob : job.args.Normal)
    (h : job.set m = some job') : job'.args.Normal := by
  unfold Job.set at h
  split at h
  · next f _ =>
    cases f <;> obtain ⟨x, hx, rfl⟩ := Option.map_eq_some_iff.mp h
    case args => exact normal_readArgs hx
    all_goals exact hjob
  · exact Option.some.inj h ▸ hjob

theorem normal_foldlM (hjob : job.args.Normal)
    (h : ms.foldlM Job.set job = some job') : job'.args.Normal := by
  induction ms generalizing job with
  | nil => exact Option.some.inj h ▸ hjob
  | cons m ms ih =>
    obtain ⟨job₁, hset, hrest⟩ := Option.bind_eq_some_iff.mp h
    exact ih (normal_set hjob hset) hrest

variable {payload : String}

theorem ofJson_of_unmarshalJob (h : unmarshalJob payload = some job) :
    ∃ t, Json.parse payload = some t ∧ t.depth ≤ maxNestingDepth ∧ Job.ofJson t = some job := by
  obtain ⟨t, ht, h⟩ := Option.bind_eq_some_iff.mp h
  split at h
  · next hdepth => exact ⟨t, ht, hdepth, h⟩
  · cases h

theorem normal_of_unmarshalJob (h : unmarshalJob payload = some job) : job.args.Normal := by
  obtain ⟨t, -, -, h⟩ := ofJson_of_unmarshalJob h
  cases t with
  | obj ms =>
    have hzero : Job.zero.args.Normal := rfl
    exact normal_foldlM hzero h
  | null => exact Option.some.inj h ▸ rfl
  | _ => cases h

/-- **Arguments survive being written and read again.** -/
theorem args_unmarshalJob_marshal (hnormal : job.args.Normal)
    (h : unmarshalJob job.marshal = some job') : job'.args = job.args := by
  rw [unmarshalJob_marshal h]
  exact hnormal

/-! ### What can be read back -/

def InInt64 (n : ℤ) : Prop := -2 ^ 63 ≤ n ∧ n < 2 ^ 63

instance : DecidablePred InInt64 := fun n =>
  inferInstanceAs (Decidable (-2 ^ 63 ≤ n ∧ n < 2 ^ 63))

/-- What limits there are to reading a job: its integers and the numbers in its arguments. -/
structure Job.Sane (job : Job) : Prop where
  retry : InInt64 job.retry
  retryCount : InInt64 job.retryCount
  uniqueTTL : InInt64 job.uniqueTTL
  args : ∀ ms, job.args = some ms → ∀ m ∈ ms, m.2.isFinite = true

theorem isFinite_goValue (t : Json) : t.isFinite = true → (goValue t).isFinite = true := by
  induction t using Json.induct with
  | hscalar t harr hobj => rw [goValue_scalar harr hobj]; exact id
  | harr items ih =>
    rw [goValue, goItems_eq_map, Json.isFinite_arr, Json.isFinite_arr]
    intro h t ht
    obtain ⟨t', ht', rfl⟩ := List.mem_map.mp ht
    exact ih t' ht' (h t' ht')
  | hobj ms ih =>
    rw [goValue, Json.isFinite_obj, Json.isFinite_obj]
    intro h m hm
    obtain ⟨m', hm', rfl⟩ := mem_goMembers hm
    exact ih m' hm' (h m' hm')

theorem inInt64_readInt {old i : ℤ} {v : Json} (hold : InInt64 old) (h : readInt old v = some i) :
    InInt64 i := by
  unfold readInt at h
  split at h
  · obtain ⟨-, hrange⟩ := Option.filter_eq_some_iff.mp h
    simpa [InInt64] using hrange
  · exact Option.some.inj h ▸ hold
  · cases h

theorem isFinite_readArgs {old args : Args} {v : Json}
    (hold : ∀ ms, old = some ms → ∀ m ∈ ms, m.2.isFinite = true) (h : readArgs old v = some args) :
    ∀ ms, args = some ms → ∀ m ∈ ms, m.2.isFinite = true := by
  unfold readArgs at h
  split at h
  · next ms =>
    split at h
    · next hms =>
      rintro _ rfl x hx
      obtain rfl := Option.some.inj (Option.some.inj h)
      obtain ⟨m, hm, rfl⟩ := mem_goMembers hx
      refine isFinite_goValue m.2 ?_
      obtain hm | hm := List.mem_append.mp hm
      · cases old with
        | none => cases hm
        | some ns => exact hold ns rfl m hm
      · exact (Json.isFinite_obj ms).mp hms m hm
    · cases h
  · rintro ms rfl
    cases h
  · cases h

theorem Job.Sane.set (hjob : job.Sane)
    (h : job.set m = some job') : job'.Sane := by
  unfold Job.set at h
  split at h
  · next f _ =>
    cases f <;> obtain ⟨x, hx, rfl⟩ := Option.map_eq_some_iff.mp h
    case args => exact { hjob with args := isFinite_readArgs hjob.args hx }
    case retry => exact { hjob with retry := inInt64_readInt hjob.retry hx }
    case retryCount => exact { hjob with retryCount := inInt64_readInt hjob.retryCount hx }
    case uniqueTTL => exact { hjob with uniqueTTL := inInt64_readInt hjob.uniqueTTL hx }
    all_goals exact { hjob with }
  · exact Option.some.inj h ▸ hjob

theorem Job.Sane.foldlM (hjob : job.Sane) (h : ms.foldlM Job.set job = some job') : job'.Sane := by
  induction ms generalizing job with
  | nil => exact Option.some.inj h ▸ hjob
  | cons m ms ih =>
    obtain ⟨job₁, hset, hrest⟩ := Option.bind_eq_some_iff.mp h
    exact ih (hjob.set hset) hrest

theorem Job.Sane.zero : Job.zero.Sane := by
  refine ⟨?_, ?_, ?_, nofun⟩ <;> simp [InInt64, Job.zero]

theorem sane_of_unmarshalJob (h : unmarshalJob payload = some job) : job.Sane := by
  obtain ⟨t, -, -, h⟩ := ofJson_of_unmarshalJob h
  cases t with
  | obj ms => exact Job.Sane.zero.foldlM h
  | null => exact Option.some.inj h ▸ Job.Sane.zero
  | _ => cases h

/-- **Reading what was written**, within the limits. -/
theorem Job.Sane.ofJson_toJson (h : job.Sane) :
    Job.ofJson job.toJson = some { job with args := job.args.map goMembers, raw := "" } := by
  have hint : ∀ {old n : ℤ}, InInt64 n → readInt old (.int n) = some n := by
    intro old n hn
    simp only [readInt, Json.int, Json.Number.toInt?_ofInt, Option.filter_some]
    exact if_pos (by simpa [InInt64] using hn)
  have hargs : readArgs none job.args.toJson = some (job.args.map goMembers) := by
    cases hms : job.args with
    | none => rfl
    | some ms =>
      have hfinite : Json.isFinite (.obj ms) = true := (Json.isFinite_obj ms).mpr (h.args ms hms)
      simp only [Args.toJson, readArgs, hfinite, if_true]
      rfl
  have httl : ∀ b : Job, b.uniqueTTL = 0 →
      (if job.uniqueTTL = 0 then [] else [(Field.uniqueTTL.tag, Json.int job.uniqueTTL)]).foldlM
        Job.set b = some { b with uniqueTTL := job.uniqueTTL } := by
    intro b hb
    split
    · next hzero => rw [hzero, ← hb]; rfl
    · simp [Job.set_tag, Job.setField, hint h.uniqueTTL]
  have hrequired : job.required.foldlM Job.set Job.zero = some
      { Job.zero with
        id := job.id, type := job.type, queue := job.queue, args := job.args.map goMembers,
        retry := job.retry, retryCount := job.retryCount, createdAt := job.createdAt,
        enqueuedAt := job.enqueuedAt } := by
    have hzero : Job.zero.args = none := rfl
    simp [Job.required, Job.set_tag, Job.setField, hint h.retry, hint h.retryCount, hzero, hargs]
  simp only [Job.ofJson, Job.toJson, List.foldlM_append, Option.bind_eq_bind, hrequired,
    Option.bind_some, Job.optional]
  -- Every omitted member leaves the zero value, which is what the job has there.
  simp only [Job.zero, Option.bind_some, Job.read_processedAt, Job.read_failedAt, Job.read_error,
    Job.read_batchID, Job.read_callbackBatchID, Job.read_uniqueKey, httl, Job.read_encrypted,
    Job.read_marker]

theorem unmarshalJob_marshal_of_sane (h : job.Sane)
    (hdepth : job.toJson.depth ≤ maxNestingDepth) : unmarshalJob job.marshal =
      some { job with args := job.args.map goMembers, raw := "" } := by
  simp only [unmarshalJob, Job.marshal, Json.parse_render, Option.bind_some, if_pos hdepth,
    h.ofJson_toJson]

/-! ### Nesting -/

theorem depthMembers_le {n : ℕ} : Json.depthMembers ms ≤ n ↔ ∀ m ∈ ms, m.2.depth ≤ n := by
  induction ms with
  | nil => simp
  | cons m ms ih => simp [ih]

theorem depthItems_le {items : List Json} {n : ℕ} :
    Json.depthItems items ≤ n ↔ ∀ t ∈ items, t.depth ≤ n := by
  induction items with
  | nil => simp [Json.depthItems]
  | cons t ts ih => simp [Json.depthItems, ih]

theorem depth_goValue_le (t : Json) : (goValue t).depth ≤ t.depth := by
  induction t using Json.induct with
  | hscalar t harr hobj => rw [goValue_scalar harr hobj]
  | harr items ih =>
    rw [goValue, goItems_eq_map, Json.depth, Json.depth]
    refine Nat.succ_le_succ (depthItems_le.mpr fun t ht => ?_)
    obtain ⟨t', ht', rfl⟩ := List.mem_map.mp ht
    exact (ih t' ht').trans (depthItems_le.mp (Nat.le_refl _) t' ht')
  | hobj ms ih =>
    rw [goValue, Json.depth_obj, Json.depth_obj]
    refine Nat.succ_le_succ (depthMembers_le.mpr fun m hm => ?_)
    obtain ⟨m', hm', rfl⟩ := mem_goMembers hm
    exact (ih m' hm').trans (depthMembers_le.mp (Nat.le_refl _) m' hm')

theorem depth_readArgs {old args : Args} {v : Json} {n : ℕ} (hold : old.toJson.depth ≤ n)
    (hv : v.depth ≤ n) (h : readArgs old v = some args) : args.toJson.depth ≤ n := by
  unfold readArgs at h
  split at h
  · next ms =>
    split at h
    · obtain rfl := Option.some.inj h
      rw [Json.depth_obj] at hv
      have hold' : ∀ m ∈ old.getD [], m.2.depth + 1 ≤ n := by
        cases old with
        | none => simp
        | some ns =>
          intro m hm
          rw [Args.toJson, Json.depth_obj] at hold
          exact (Nat.succ_le_succ (depthMembers_le.mp (Nat.le_refl _) m hm)).trans hold
      rw [Args.toJson, Json.depth_obj]
      refine Nat.succ_le_of_lt (Nat.lt_of_le_of_lt (depthMembers_le.mpr fun x hx => ?_)
        (Nat.sub_one_lt_of_lt hv))
      obtain ⟨m, hm, rfl⟩ := mem_goMembers hx
      have hm' : m.2.depth + 1 ≤ n := by
        obtain hm | hm := List.mem_append.mp hm
        · exact hold' m hm
        · exact (Nat.succ_le_succ (depthMembers_le.mp (Nat.le_refl _) m hm)).trans hv
      exact (depth_goValue_le m.2).trans (Nat.le_sub_one_of_lt hm')
    · cases h
  · obtain rfl := Option.some.inj h
    simp [Args.toJson]
  · cases h

theorem Job.depth_args_set {n : ℕ}
    (hjob : job.args.toJson.depth ≤ n) (hm : m.2.depth ≤ n) (h : job.set m = some job') :
    job'.args.toJson.depth ≤ n := by
  unfold Job.set at h
  split at h
  · next f _ =>
    cases f <;> obtain ⟨x, hx, rfl⟩ := Option.map_eq_some_iff.mp h
    case args => exact depth_readArgs hjob hm hx
    all_goals exact hjob
  · exact Option.some.inj h ▸ hjob

theorem Job.depth_args_foldlM {n : ℕ}
    (hjob : job.args.toJson.depth ≤ n) (hms : ∀ m ∈ ms, m.2.depth ≤ n)
    (h : ms.foldlM Job.set job = some job') : job'.args.toJson.depth ≤ n := by
  induction ms generalizing job with
  | nil => exact Option.some.inj h ▸ hjob
  | cons m ms ih =>
    obtain ⟨job₁, hset, hrest⟩ := Option.bind_eq_some_iff.mp h
    exact ih (depth_args_set hjob (hms m List.mem_cons_self) hset)
      (fun m' hm' => hms m' (List.mem_cons_of_mem _ hm')) hrest

theorem depth_args_of_unmarshalJob (h : unmarshalJob payload = some job) :
    job.args.toJson.depth < maxNestingDepth := by
  have hzero : Job.zero.args.toJson.depth = 0 := Json.depth_null
  obtain ⟨t, -, hdepth, h⟩ := ofJson_of_unmarshalJob h
  cases t with
  | obj ms =>
    rw [Json.depth_obj] at hdepth
    refine Nat.lt_of_le_of_lt (Job.depth_args_foldlM ?_ ?_ h) hdepth
    · rw [hzero]; exact Nat.zero_le _
    · exact depthMembers_le.mp (Nat.le_refl _)
  | null =>
    obtain rfl := Option.some.inj h
    rw [hzero]
    decide
  | _ => cases h

theorem Job.depth_toJson_le (job : Job) : job.toJson.depth ≤ max job.args.toJson.depth 1 + 1 := by
  have hnil : ∀ (name : String) (t : Option Time), Json.depthMembers (omitNil name t) = 0 := by
    intro name t
    cases t <;> simp [omitNil]
  have hempty : ∀ name value : String, Json.depthMembers (omitEmpty name value) = 0 := by
    intro name value
    unfold omitEmpty
    split <;> simp
  have hoptional : Json.depthMembers job.optional = 0 := by
    simp only [Job.optional, Json.depthMembers_append, hnil, hempty]
    split <;> split <;> simp
  have hmarker : Json.depthMembers job.marker ≤ 1 := by
    unfold Job.marker
    split
    · simp
    · simp [JobFinalization.toJson, hempty]
  simp only [Job.toJson, Json.depth_obj, Json.depthMembers_append, Job.required,
    Json.depthMembers_cons, Json.depthMembers_nil, Json.depth_str, Json.depth_int, hoptional]
  omega

theorem unmarshalJob_of_normal (hsane : job.Sane) (hnormal : job.args.Normal)
    (hdepth : job.args.toJson.depth < maxNestingDepth) :
    unmarshalJob job.marshal = some { job with raw := "" } := by
  have htotal : job.toJson.depth ≤ maxNestingDepth := by
    refine (Job.depth_toJson_le _).trans (Nat.succ_le_of_lt (Nat.max_lt.mpr ⟨hdepth, ?_⟩))
    decide
  have hargs : job.args.map goMembers = job.args := hnormal
  rw [unmarshalJob_marshal_of_sane hsane htotal]
  simp only [hargs]

theorem unmarshalJob_mark (h : unmarshalJob payload = some job)
    (f : Option JobFinalization) : unmarshalJob ({ job with finalization := f } : Job).marshal =
      some { job with finalization := f, raw := "" } := by
  have hsane : ({ job with finalization := f } : Job).Sane := { sane_of_unmarshalJob h with }
  have hnormal := normal_of_unmarshalJob h
  have hdepth := depth_args_of_unmarshalJob h
  exact unmarshalJob_of_normal hsane hnormal hdepth

theorem unmarshalJob_of_args_eq_none (hargs : job.args = none)
    (hretry : InInt64 job.retry) (hcount : InInt64 job.retryCount)
    (httl : InInt64 job.uniqueTTL) : unmarshalJob job.marshal = some { job with raw := "" } := by
  have hsane : job.Sane :=
    ⟨hretry, hcount, httl, fun ms hms => absurd (hms.symm.trans hargs) (Option.some_ne_none ms)⟩
  have hdepth : job.toJson.depth ≤ maxNestingDepth := by
    refine (Job.depth_toJson_le job).trans ?_
    rw [hargs]
    decide
  rw [unmarshalJob_marshal_of_sane hsane hdepth]
  simp only [hargs, Option.map_none]

def Job.plain (id queue : String) : Job :=
  { Job.zero with id := id, type := "Job", queue := queue }

theorem unmarshalJob_plain (id queue : String) :
    unmarshalJob (Job.plain id queue).marshal = some (Job.plain id queue) := by
  have hzero : InInt64 0 := by decide
  exact unmarshalJob_of_args_eq_none rfl hzero hzero hzero

/-! ### Numbers

`goValue` keeps the numbers of the arguments as they are spelled. `encoding/json` reads them as
`float64`, and writes what it has read. -/

/-- A number that is read as a `float64` and written again. -/
structure Float64 where
  number : Json.Number → Json.Number
  /-- What is written of a double is read as that double. -/
  number_number : ∀ n, number (number n) = number n
  number_fits : ∀ n : Json.Number, n.FitsDouble → (number n).FitsDouble
  number_ofInt : ∀ n : ℤ, n.natAbs ≤ 2 ^ 53 → number (.ofInt n) = .ofInt n

namespace Float64

variable (fl : Float64)

mutual

def value : Json → Json
  | .num n => .num (fl.number n)
  | .arr items => .arr (values items)
  | .obj ms => .obj (members ms)
  | t => t

def values : List Json → List Json
  | [] => []
  | t :: ts => value t :: values ts

def members : List (String × Json) → List (String × Json)
  | [] => []
  | m :: ms => (m.1, value m.2) :: members ms

end

variable {fl}

@[simp] theorem value_null : fl.value .null = .null := rfl

@[simp] theorem value_bool (b : Bool) : fl.value (.bool b) = .bool b := rfl

@[simp] theorem value_str (s : String) : fl.value (.str s) = .str s := rfl

@[simp] theorem value_num (n : Json.Number) : fl.value (.num n) = .num (fl.number n) := rfl

@[simp] theorem members_nil : fl.members [] = [] := rfl

@[simp] theorem members_cons (m : String × Json) (ms : List (String × Json)) :
    fl.members (m :: ms) = (m.1, fl.value m.2) :: fl.members ms := rfl

theorem value_obj (ms : List (String × Json)) : fl.value (.obj ms) = .obj (fl.members ms) := rfl

theorem value_arr (items : List Json) : fl.value (.arr items) = .arr (items.map fl.value) := by
  suffices h : fl.values items = items.map fl.value from congrArg Json.arr h
  induction items with
  | nil => rfl
  | cons t ts ih => exact congrArg (fl.value t :: ·) ih

theorem members_eq_map (ms : List (String × Json)) :
    fl.members ms = ms.map fun m => (m.1, fl.value m.2) := by
  induction ms with
  | nil => rfl
  | cons m ms ih => rw [members_cons, ih, List.map_cons]

theorem value_value (t : Json) : fl.value (fl.value t) = fl.value t := by
  induction t using Json.induct with
  | hscalar t harr hobj =>
    cases t with
    | num n => rw [value_num, value_num, fl.number_number]
    | arr items => exact absurd rfl (harr items)
    | obj ms => exact absurd rfl (hobj ms)
    | _ => rfl
  | harr items ih =>
    rw [value_arr, value_arr, List.map_map]
    exact congrArg Json.arr (List.map_congr_left ih)
  | hobj ms ih =>
    rw [value_obj, value_obj, members_eq_map, members_eq_map, List.map_map]
    exact congrArg Json.obj (List.map_congr_left fun m hm => Prod.ext rfl (ih m hm))

theorem depth_value (t : Json) : (fl.value t).depth ≤ t.depth := by
  induction t using Json.induct with
  | hscalar t harr hobj =>
    cases t with
    | arr items => exact absurd rfl (harr items)
    | obj ms => exact absurd rfl (hobj ms)
    | _ => exact Nat.le_refl _
  | harr items ih =>
    rw [value_arr, Json.depth, Json.depth]
    refine Nat.succ_le_succ (depthItems_le.mpr (List.forall_mem_map.mpr fun t ht => ?_))
    exact (ih t ht).trans (depthItems_le.mp (Nat.le_refl _) t ht)
  | hobj ms ih =>
    rw [value_obj, members_eq_map, Json.depth_obj, Json.depth_obj]
    refine Nat.succ_le_succ (depthMembers_le.mpr (List.forall_mem_map.mpr fun m hm => ?_))
    exact (ih m hm).trans (depthMembers_le.mp (Nat.le_refl _) m hm)

theorem isFinite_value (t : Json) : t.isFinite = true → (fl.value t).isFinite = true := by
  induction t using Json.induct with
  | hscalar t harr hobj =>
    cases t with
    | num n =>
      rw [value_num, Json.isFinite, Json.isFinite, decide_eq_true_iff, decide_eq_true_iff]
      exact fl.number_fits n
    | arr items => exact absurd rfl (harr items)
    | obj ms => exact absurd rfl (hobj ms)
    | _ => exact id
  | harr items ih =>
    rw [value_arr, Json.isFinite_arr, Json.isFinite_arr]
    exact fun h => List.forall_mem_map.mpr fun t ht => ih t ht (h t ht)
  | hobj ms ih =>
    rw [value_obj, members_eq_map, Json.isFinite_obj, Json.isFinite_obj]
    exact fun h => List.forall_mem_map.mpr fun m hm => ih m hm (h m hm)

theorem members_insertMember (m : String × Json) (ns : List (String × Json)) :
    fl.members (insertMember m ns) = insertMember (m.1, fl.value m.2) (fl.members ns) := by
  induction ns with
  | nil => simp [insertMember]
  | cons n ns ih =>
    rw [members_cons, insertMember, insertMember, apply_ite fl.members, apply_ite fl.members,
      members_cons, members_cons, members_cons, members_cons, ih]

theorem goValue_value (t : Json) : goValue (fl.value t) = fl.value (goValue t) := by
  induction t using Json.induct with
  | hscalar t harr hobj =>
    cases t with
    | arr items => exact absurd rfl (harr items)
    | obj ms => exact absurd rfl (hobj ms)
    | _ => rw [goValue_scalar harr hobj]; exact goValue_scalar nofun nofun
  | harr items ih =>
    rw [value_arr, goValue, goValue, value_arr, goItems_eq_map, goItems_eq_map, List.map_map,
      List.map_map]
    exact congrArg Json.arr (List.map_congr_left ih)
  | hobj ms ih =>
    rw [value_obj, goValue, goValue, value_obj]
    refine congrArg Json.obj ?_
    induction ms with
    | nil => rfl
    | cons m ms ihms =>
      obtain ⟨hm, hms⟩ := List.forall_mem_cons.mp ih
      rw [members_cons, goMembers, goMembers, ihms hms, members_insertMember, hm]

variable (fl)

def read (job : Job) : Job := { job with args := job.args.map fl.members }

def unmarshalJob (payload : String) : Option Job := (Senna.unmarshalJob payload).map fl.read

variable {fl}

theorem normal_read (h : job.args.Normal) : (fl.read job).args.Normal := by
  unfold read Args.Normal at *
  cases hms : job.args with
  | none => rfl
  | some ms =>
    rw [hms] at h
    have hms : goMembers (fl.members ms) = fl.members (goMembers ms) := by
      have hobj := @goValue_value fl (.obj ms)
      rw [value_obj, goValue, goValue, value_obj] at hobj
      exact Json.obj.inj hobj
    exact congrArg some (hms.trans (congrArg fl.members (Option.some.inj h)))

theorem read_read (job : Job) : fl.read (fl.read job) = fl.read job := by
  unfold read
  cases hms : job.args with
  | none => rfl
  | some ms =>
    have hobj := @value_value fl (.obj ms)
    rw [value_obj, value_obj] at hobj
    simp only [Option.map_some, Json.obj.inj hobj]

theorem sane_read (h : job.Sane) : (fl.read job).Sane := by
  refine ⟨h.retry, h.retryCount, h.uniqueTTL, fun ms' hms' => ?_⟩
  obtain ⟨ms, hms, rfl⟩ := Option.map_eq_some_iff.mp hms'
  have hfinite := @isFinite_value fl (.obj ms) ((Json.isFinite_obj ms).mpr (h.args ms hms))
  rw [value_obj] at hfinite
  exact (Json.isFinite_obj _).mp hfinite

theorem depth_read (job : Job) : (fl.read job).args.toJson.depth ≤ job.args.toJson.depth := by
  unfold read
  cases hms : job.args with
  | none => exact Nat.le_refl _
  | some ms =>
    have hdepth := @depth_value fl (.obj ms)
    rw [value_obj] at hdepth
    exact hdepth

end Float64

/-- **A payload that is accepted is well formed**, and reading the job again from what is written
of it gives the same job. Integers of 53 bits in the arguments are those of the payload. -/
theorem accepted_payload_round_trips {fl : Float64} (h : fl.unmarshalJob payload = some job) :
    job.Sane ∧ job.args.toJson.depth < maxNestingDepth ∧
      fl.unmarshalJob job.marshal = some { job with raw := "" } ∧
      ∃ job₀, unmarshalJob payload = some job₀ ∧ ∀ ms, job₀.args = some ms → ∀ name (n : ℤ),
        n.natAbs ≤ 2 ^ 53 → (name, Json.int n) ∈ ms →
          ∃ ms', job.args = some ms' ∧ (name, Json.int n) ∈ ms' := by
  obtain ⟨job₀, hread, rfl⟩ := Option.map_eq_some_iff.mp h
  have hsane : (fl.read job₀).Sane := Float64.sane_read (sane_of_unmarshalJob hread)
  have hnormal : (fl.read job₀).args.Normal := Float64.normal_read (normal_of_unmarshalJob hread)
  have hdepth := Nat.lt_of_le_of_lt (@Float64.depth_read fl job₀)
    (depth_args_of_unmarshalJob hread)
  refine ⟨hsane, hdepth, ?_, job₀, hread, fun ms hms name n hn hmem => ?_⟩
  · unfold Float64.unmarshalJob
    rw [unmarshalJob_of_normal hsane hnormal hdepth, Option.map_some]
    refine congrArg some ?_
    change ({ fl.read (fl.read job₀) with raw := "" } : Job) = _
    rw [Float64.read_read]
  · refine ⟨fl.members ms, congrArg (Option.map fl.members) hms, ?_⟩
    rw [Float64.members_eq_map]
    refine List.mem_map.mpr ⟨_, hmem, Prod.ext rfl ?_⟩
    rw [Json.int, Float64.value_num, fl.number_ofInt n hn]

def Float64.exact : Float64 where
  number n := n
  number_number _ := rfl
  number_fits _ h := h
  number_ofInt _ _ := rfl

def timedOutJob : Job :=
  { Job.plain "a" "q" with
    args := some [("user", .int 7), ("ids", .arr [.int 1, .str "x"])]
    finalization := some ⟨"retry", "timeout", Time.zero⟩ }

theorem accepted_payload_round_trips_timedOut :
    ∃ job, Float64.exact.unmarshalJob timedOutJob.marshal = some job ∧ job.args.isSome = true ∧
      job.finalization = timedOutJob.finalization ∧
      Float64.exact.unmarshalJob job.marshal = some { job with raw := "" } := by
  have hsane : timedOutJob.Sane := by
    refine ⟨by decide, by decide, by decide, fun ms hms => ?_⟩
    cases hms
    have hint (n : ℤ) (hn : n = 7 ∨ n = 1) : (Json.int n).isFinite = true := by
      obtain rfl | rfl := hn <;> decide +kernel
    simp [hint, Json.isFinite, Json.isFiniteItems]
  have hdepth : timedOutJob.toJson.depth ≤ maxNestingDepth := by
    refine (Job.depth_toJson_le _).trans ?_
    decide +kernel
  have hread : Float64.exact.unmarshalJob timedOutJob.marshal = some (Float64.exact.read _) :=
    congrArg (Option.map Float64.exact.read) (unmarshalJob_marshal_of_sane hsane hdepth)
  exact ⟨_, hread, rfl, rfl, (accepted_payload_round_trips hread).2.2.1⟩

end Senna
