import Senna.Job.Normal
import Senna.Worker.Client

/-!
# No job is lost or duplicated

**Conservation.** In every run of the client's system, whatever the workers do and however
their steps interleave, an enqueued job has exactly one payload over all queues, in-flight
lists, the scheduled, the retry and the dead set, until an `ack_job` call removes it, and
none after that (`Conserved`). The run may contain any number of crashes,
repeated commands and recoveries of workers that are still alive.

There is one condition, on the payloads that are written for the job (`World.Keeps`): they
must nest no deeper than `cjson` reads, and name a class. It is needed. `requeue_orphaned`
drops what it cannot decode and then deletes the whole in-flight list, and `encoding/json`
writes and reads documents that nest deeper than the 1000 levels of `cjson`. A job with
such arguments is enqueued, fetched and run as any other, but a recovery while it is in
flight deletes it.
-/

namespace Senna

open Redis

/-! ### Where payloads come from -/

section Stored

variable {cj : Cjson} {st : Stock} {k : Key} {p q : String}

namespace Stock

theorem mem_route {target : String → Option Target}
    (htarget : ∀ t, target p = some t → t.data = p) (h : q ∈ (route target st p).stored k) :
    q ∈ st.stored k ∨ q = p := by
  unfold route at h
  split at h
  · next t ht =>
    rw [push] at h
    rw [← htarget t ht]
    split at h <;> exact mem_put h
  · exact Or.inl h

theorem mem_foldl {f : Stock → String → Stock}
    (hf : ∀ st p, q ∈ (f st p).stored k → q ∈ st.stored k ∨ q = p) {ps : List String}
    (h : q ∈ (ps.foldl f st).stored k) : q ∈ st.stored k ∨ q ∈ ps := by
  induction ps generalizing st with
  | nil => exact Or.inl h
  | cons p ps ih =>
    obtain h | h := ih h
    · obtain h | rfl := hf st p h
      · exact Or.inl h
      · exact Or.inr List.mem_cons_self
    · exact Or.inr (List.mem_cons_of_mem _ h)

end Stock

/-- **Every payload that is there after a step was there before**, or the step has written it. -/
theorem origin_of_moves {raises : Prop} {v v' : View} {e : Event} (hmoves : Moves cj raises v e v')
    (hbooks : Books v.issued v.stock) {s : World} (hclient : s.FromClient e)
    (hq : q ∈ v'.stock.stored k) : Origin v e k q := by
  have hold (h : q ∈ v.stock.stored k) : Origin v e k q := Or.inl ⟨k, id, h⟩
  -- A key that jobs are moved away from is live.
  have hmoved {c : Key} (hc : c.Live) (h : q ∈ v.stock.stored c) : Origin v e k q :=
    Or.inl ⟨c, fun _ => hc, h⟩
  cases hthread : e.thread with
  | some t => exact origin_of_thread hmoves hthread hq
  | none =>
  cases hmoves with
  | quiet e => exact hold hq
  | enqueue job =>
    obtain h | h := Stock.mem_put hq
    · exact hold h
    · exact Or.inr ⟨job, rfl, h, Or.inl hthread⟩
  | enqueueAt job score =>
    obtain h | h := Stock.mem_put hq
    · exact hold (Stock.mem_drop h)
    · exact Or.inr ⟨job, rfl, h, Or.inl hthread⟩
  | push queue payload | pushAt hk payload score => exact hclient.elim
  | @promote k' hk now items hitems =>
    obtain h | h := Stock.mem_foldl (fun st p h =>
      (Stock.mem_route (fun t ht => data_of_dueTarget ht) h).imp_left Stock.mem_drop) hq
    · exact hold h
    · have hlive : k'.Live := by obtain rfl | rfl := hk <;> trivial
      exact hmoved hlive (Multiset.mem_of_le hitems h)
  | @claim e worker queue p p' he hp hheld =>
    obtain h | rfl := Stock.mem_put hq
    · exact hold (Stock.mem_take h)
    · exact hmoved (c := .queue queue) trivial ((hbooks.fetched hp hheld).1 ▸ hp)
  | lose _ hp hheld => exact hold (Stock.mem_take hq)
  | @strand worker queue p _ hp hheld =>
    obtain h | rfl := Stock.mem_put hq
    · exact hold (Stock.mem_take h)
    · exact hmoved (c := .queue queue) trivial hp
  | @reap worker ps hps =>
    obtain h | h := Stock.mem_foldl (fun st p h =>
      (Stock.mem_route (fun t ht => data_of_orphanTarget ht) h).imp_left Stock.mem_take) hq
    · exact hold h
    · refine hmoved (c := .inFlight worker) trivial ?_
      rw [hps]
      exact h
  | _ => cases hthread

end Stored

/-! ### Conservation -/

/-- A step of the scripts that move jobs, which writes the job only in a form that they can
read: it names a class, and nests no deeper than `cjson` goes. -/
def World.Keeps (id : String) (_ : World) (e : Event) : Prop :=
  (∀ j, e.Writes j → j.id = id → j.Readable) ∧ ∀ t, e ≠ .discard t

/-- A job has one payload from its enqueueing until an `ack_job` call removes it, and none from
then on. -/
structure Conserved (s : World) (id : String) : Prop where
  once : id ∈ s.issued → id ∉ s.acked → ∃ k, (stock s.db).copies id = Pi.single k 1
  gone : id ∈ s.acked → (stock s.db).copies id = 0

/-- What is kept along a run: conservation, and that the scripts can read the job. -/
structure Kept (s : World) (id : String) : Prop extends Conserved s id where
  issued : id ∈ s.acked → id ∈ s.issued
  readable : ∀ k, ∀ p ∈ (stock s.db).stored k, payloadID p = some id →
    ∃ j : Job, p = j.marshal ∧ j.Readable

namespace Kept

variable {cj : Cjson} {s : World} {e : Event} {id : String}

theorem not_lost (h : Kept s id) (hsound : Sound s) (hkeeps : s.Keeps id e) {v' : View}
    (hlost : Lost cj s.view e v' id) : id ∈ v'.acked := by
  cases e with
  | finish t now => exact hlost
  | discard t => exact absurd rfl (hkeeps.2 t)
  | promote k now =>
    obtain ⟨p, hp, hid, hnone⟩ := hlost
    obtain ⟨j, rfl, hj⟩ := h.readable k p hp hid
    exact absurd hnone hj.dueTarget
  | reap worker =>
    obtain ⟨p, hp, hid, hnone⟩ := hlost
    obtain ⟨j, rfl, hj⟩ := h.readable _ p hp hid
    obtain ⟨j₀, hj₀⟩ := hsound.books.entry _ _ hp
    have hne : j.id ≠ "" := hj₀.id_eq (payloadID_marshal j) ▸ hj₀.id_ne
    exact absurd hnone (hj.orphanTarget hne)
  | _ => exact hlost.elim

theorem step (h : Kept s id) (hsound : Sound s) (he : (clientMachine cj).permits s e)
    (hkeeps : s.Keeps id e) : Kept (s.step cj e) id := by
  have hadvance := hsound.advance he
  refine ⟨⟨fun hissued hacked => ?_, fun hacked => ?_⟩, fun hacked => ?_, fun k p hp hid => ?_⟩
  · by_cases hold : id ∈ s.issued
    · have honce := h.once hold fun hacked' => hacked (hadvance.acked_mono id hacked')
      exact (hadvance.evolves id hold).kept
        (fun hlost => hacked (h.not_lost hsound hkeeps hlost)) honce
    · exact hadvance.enters id hissued hold
  · by_cases hold : id ∈ s.acked
    · -- What is gone stays gone: the ID is never used again.
      have hevolves := hadvance.evolves id (h.issued hold)
      rw [show s.view.stock.copies id = 0 from h.gone hold] at hevolves
      exact hevolves.zero
    · exact (hadvance.acked id hacked hold).2
  · by_cases hold : id ∈ s.acked
    · exact hadvance.issued id (h.issued hold)
    · exact hadvance.issued id (hadvance.acked id hacked hold).1
  · obtain ⟨k', -, hp'⟩ | ⟨j, hwrites, rfl, -⟩ :=
      origin_of_moves (moves_step hsound.typed he.1).2 hsound.books he.2 hp
    · exact h.readable k' p hp' hid
    · rw [payloadID_marshal] at hid
      exact ⟨j, rfl, hkeeps.1 j hwrites (Option.some.inj hid)⟩

theorem init : Kept .init id where
  once := fun h => absurd h List.not_mem_nil
  gone := fun h => absurd h List.not_mem_nil
  issued := fun h => absurd h List.not_mem_nil
  readable := by
    intro k p hp
    obtain ⟨j, hj⟩ := Sound.init.books.entry k p hp
    exact absurd hj.issued List.not_mem_nil

end Kept

/-- **Conservation.** In every run whose steps keep a job readable there is exactly one payload
of it until it is acknowledged, and none afterwards. -/
theorem conserved_of_legal (cj : Cjson) (id : String) {es : List Event}
    (legal : (clientMachine cj).Legal .init es)
    (hkeeps : (clientMachine cj).Throughout (World.Keeps id) .init es) :
    Conserved ((clientMachine cj).run .init es) id := by
  have hkept : Sound ((clientMachine cj).run .init es) ∧ Kept ((clientMachine cj).run .init es) id :=
    legal.invariant_throughout (I := fun s => Sound s ∧ Kept s id)
      (fun s e h he hkeep => ⟨h.1.step he, h.2.step h.1 he hkeep⟩) hkeeps ⟨.init, .init⟩
  exact hkept.2.toConserved

def sampleJob (args : Args) : Job :=
  { Job.zero with id := "j", type := "Mail", queue := "q", args := args }

def sampleRun (args : Args) : List Event :=
  [.enqueue (sampleJob args), .fetch "w" "q", .reap "w"]

theorem sampleRun_legal (cj : Cjson) (args : Args) :
    (clientMachine cj).Legal .init (sampleRun args) := by
  have hfetch : ∀ s, (clientMachine cj).permits s (.fetch "w" "q") :=
    fun s => ⟨World.permits_of_thread_eq_none rfl trivial trivial, trivial⟩
  have hreap : ∀ s, (clientMachine cj).permits s (.reap "w") :=
    fun s => ⟨World.permits_of_thread_eq_none rfl trivial trivial, trivial⟩
  have henqueue : (clientMachine cj).permits .init (.enqueue (sampleJob args)) :=
    ⟨World.permits_of_thread_eq_none rfl trivial ⟨rfl, rfl⟩, by simp [sampleJob], List.not_mem_nil⟩
  exact ⟨henqueue, hfetch _, hreap _, trivial⟩

theorem sampleJob_conserved :
    (clientMachine .plain).Legal .init (sampleRun none) ∧
      Conserved ((clientMachine .plain).run .init (sampleRun none)) "j" := by
  have hother : ∀ {e : Event} (s : World), (∀ j, ¬ e.Writes j) → (∀ t, e ≠ .discard t) →
      s.Keeps "j" e := fun s hwrites hdiscard => ⟨fun j hj => absurd hj (hwrites j), hdiscard⟩
  have henqueue : World.init.Keeps "j" (.enqueue (sampleJob none)) := by
    refine ⟨?_, fun _ => Event.noConfusion⟩
    rintro j rfl -
    exact ⟨by decide, by decide⟩
  refine ⟨sampleRun_legal _ _, conserved_of_legal .plain "j" (sampleRun_legal _ _) ?_⟩
  refine ⟨henqueue, hother _ (fun _ h => h) fun _ => Event.noConfusion,
    hother _ (fun _ h => h) fun _ => Event.noConfusion, trivial⟩

/-! ### Jobs that nest too deep -/

def nested : ℕ → Json
  | 0 => .null
  | n + 1 => .arr [nested n]

theorem depth_nested (n : ℕ) : (nested n).depth = n := by
  induction n with
  | zero => simp [nested]
  | succ n ih => simp [nested, Json.depth, Json.depthItems, ih]

theorem plain_decode_of_args {j : Job} (h : cjsonMaxDepth ≤ j.args.toJson.depth) :
    Cjson.plain.decode j.marshal = none := by
  have hdepth : cjsonMaxDepth < j.toJson.depth := by
    simp only [Job.toJson, Json.depth_obj, Json.depthMembers_append, Job.required,
      Json.depthMembers_cons]
    omega
  exact Cjson.plain_decode_deep hdepth

theorem decode_nested {n : ℕ} (h : cjsonMaxDepth ≤ n) :
    Cjson.plain.decode (sampleJob (some [("x", nested n)])).marshal = none := by
  refine plain_decode_of_args (h.trans ?_)
  have hargs : (Args.toJson (some [("x", nested n)])).depth = n + 1 := by
    simp [Args.toJson, depth_nested]
  exact hargs.symm ▸ Nat.le_succ n

theorem sampleRun_drops {cj : Cjson} {args : Args}
    (h : cj.decode (sampleJob args).marshal = none) :
    "j" ∈ ((clientMachine cj).run .init (sampleRun args)).issued ∧
      "j" ∉ ((clientMachine cj).run .init (sampleRun args)).acked ∧
      (stock ((clientMachine cj).run .init (sampleRun args)).db).copies "j" = 0 := by
  set p := (sampleJob args).marshal with hp
  have hinit : WellTyped World.init.db := .empty
  obtain ⟨s₁, hs₁⟩ : ∃ s₁, World.init.step cj (.enqueue (sampleJob args)) = s₁ := ⟨_, rfl⟩
  -- On the queue.
  have hdb₁ : s₁.db = (World.init.db.putSet .queues {"q"}).putList (.queue "q") [p] := by
    rw [← hs₁]
    change ((enqueueNow "q" p).run World.init.db).db = _
    rw [run_enqueueNow hinit]
    rfl
  have htyped₁ : WellTyped s₁.db := by
    rw [hdb₁]
    exact (hinit.putSet (k := .queues) rfl _).putList (k := .queue "q") rfl _
  have hempty : s₁.db.list (.inFlight "w") = [] := by
    rw [hdb₁]
    simp
    rfl
  have hqueue₁ : s₁.db.list (.queue "q") = [p] := by
    rw [hdb₁]
    simp
  have hstock₁ : stock s₁.db = (stock World.init.db).put (.queue "q") p := by
    rw [hdb₁, stock_putList _ rfl, stock_putSet_queues]
    rfl
  -- In flight.
  have hheld : held cj (trustedIn s₁.db) p = some p := by rw [held, h]
  obtain ⟨db₂, htyped₂, hlist₂, hstock₂, hstep₂⟩ := step_fetch_only htyped₁ hqueue₁ hempty hheld
  rw [hstock₁, Stock.take_put] at hstock₂
  obtain ⟨hview₂, hdb₂⟩ := @view_claim { s₁ with db := db₂ } "w" "q" p false
  rw [← hstep₂] at hview₂ hdb₂
  -- Gone.
  have hrun : (clientMachine cj).run .init (sampleRun args) =
      (s₁.step cj (.fetch "w" "q")).step cj (.reap "w") := by
    rw [← hs₁]
    rfl
  have hnone : orphanTarget cj p = none := by simp [orphanTarget, h]
  rw [hrun]
  refine ⟨?_, ?_, ?_⟩
  · change "j" ∈ (s₁.step cj (.fetch "w" "q")).view.issued
    rw [hview₂, ← hs₁]
    exact List.mem_cons_self
  · change "j" ∉ (s₁.step cj (.fetch "w" "q")).view.acked
    rw [hview₂, ← hs₁]
    exact List.not_mem_nil
  · change (stock ((requeueOrphaned cj "w").run (s₁.step cj (.fetch "w" "q")).db).db).copies "j" = 0
    rw [hdb₂, (stock_requeueOrphaned htyped₂ "w").2, hlist₂, List.foldl_cons, List.foldl_nil,
      hstock₂, Stock.recover, Stock.route, hnone, Stock.take_put]
    exact Sound.init.books.fresh List.not_mem_nil

/-- Arguments that `encoding/json` writes and reads, and `cjson` does not. -/
def deepArgs : Args := some [("x", nested cjsonMaxDepth)]

theorem isFinite_nested (n : ℕ) : (nested n).isFinite = true := by
  induction n with
  | zero => rfl
  | succ n ih => simp [nested, Json.isFinite, Json.isFiniteItems, ih]

theorem unmarshalJob_deepArgs {job : Job} (hargs : job.args = deepArgs) (hretry : InInt64 job.retry)
    (hcount : InInt64 job.retryCount) (httl : InInt64 job.uniqueTTL) :
    ∃ j, unmarshalJob job.marshal = some j := by
  have hdepth : job.args.toJson.depth = cjsonMaxDepth + 1 := by
    simp [hargs, deepArgs, Args.toJson, depth_nested]
  refine ⟨_, unmarshalJob_marshal_of_sane ⟨hretry, hcount, httl, ?_⟩ ?_⟩
  · rw [hargs]
    rintro ms ⟨⟩ m hm
    obtain rfl := List.mem_singleton.mp hm
    exact isFinite_nested _
  · refine (Job.depth_toJson_le _).trans ?_
    rw [hdepth]
    decide

/-- **A job whose arguments nest too deep for `cjson` is dropped by a recovery.** Nobody has
acknowledged it, and there is no copy left. -/
theorem deepArgs_dropped :
    (clientMachine .plain).Legal .init (sampleRun deepArgs) ∧
      "j" ∈ ((clientMachine .plain).run .init (sampleRun deepArgs)).issued ∧
      "j" ∉ ((clientMachine .plain).run .init (sampleRun deepArgs)).acked ∧
      (stock ((clientMachine .plain).run .init (sampleRun deepArgs)).db).copies "j" = 0 :=
  ⟨sampleRun_legal _ _, sampleRun_drops (decode_nested le_rfl)⟩

end Senna
