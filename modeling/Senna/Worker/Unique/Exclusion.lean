import Senna.Worker.Unique

/-!
# One job for each unique key

The machine of `Worker.Client` with three kinds of steps. A client submits a job, with a unique key
or without. A step of the system is taken that is not the client's. Or a lock expires, at any time.

**While no lock of the key expires, at most one job has it** among the jobs that wait, are in
flight, or are to be promoted: every live payload with the key is of the job that the lock names
(`LockHeld`). A job is stored only if the lock was free, and where the lock is given up, the only
payload of the job goes.

**Whatever expires, finishing a job deletes no lock but its own**, and its own only with its last
live payload. The first half is the comparison in the two scripts. The second is that no job has two
payloads (`Books.single`), however many workers believe that they have it.
-/

namespace Senna

open Redis

/-! ### The machine -/

def enqueueUnique (job : Job) : Option ℤ → Script Key ℕ
  | none => enqueueUniqueNow job.uniqueKey job.id job.queue job.marshal
  | some score => enqueueUniqueAt job.uniqueKey job.id score job.marshal

def enqueueEvent (job : Job) : Option ℤ → Event
  | none => .enqueue job
  | some score => .enqueueAt job score

/-- `Client.Enqueue` of a job, for now or for a time. A unique key needs a positive TTL
(`ErrUniqueTTLRequired`), and a key that is taken is an error for the caller
(`DuplicateJobError`). -/
def World.submit (cj : Cjson) (s : World) (job : Job) (score? : Option ℤ) : World :=
  if job.uniqueKey = "" then s.step cj (enqueueEvent job score?)
  else if job.uniqueTTL ≤ 0 then s
  else
    match (enqueueUnique job score?).run s.db with
    | .ok 1 db => { s with db := db, issued := job.id :: s.issued }
    | out => { s with db := out.db }

/-- A step. -/
inductive UniqueEvent where
  | submit (job : Job) (score? : Option ℤ)
  | system (e : Event)
  /-- The time of a lock is over. -/
  | expire (key : String)

def uniqueMachine (cj : Cjson) : Machine World UniqueEvent where
  permits s
    | .submit job _ => job.finalization = none ∧ job.raw = "" ∧ job.id ≠ "" ∧ job.id ∉ s.issued
    | .system e => (clientMachine cj).permits s e ∧ e.KeepsKey
    | .expire _ => True
  step s
    | .submit job score? => s.submit cj job score?
    | .system e => s.step cj e
    | .expire key => { s with db := s.db.del (.unique key) }

section Steps

variable {cj : Cjson} {s : World}

theorem step_submit (job : Job) (score? : Option ℤ) :
    (uniqueMachine cj).step s (.submit job score?) = s.submit cj job score? := rfl

theorem step_system (e : Event) : (uniqueMachine cj).step s (.system e) = s.step cj e := rfl

theorem run_enqueueUnique (cj : Cjson) (hdb : WellTyped s.db) (job : Job) (score? : Option ℤ) :
    (enqueueUnique job score?).run s.db =
      if s.db.str (.unique job.uniqueKey) = none then
        .ok 1 (({ s with db := s.db.putStr (.unique job.uniqueKey) job.id } : World).step cj
          (enqueueEvent job score?)).db
      else .ok 0 s.db := by
  cases score? with
  | none => exact run_enqueueUniqueNow hdb _ _ _ _
  | some score => exact run_enqueueUniqueAt hdb _ _ _ _

theorem submit_of_free (hdb : WellTyped s.db) {job : Job} (score? : Option ℤ)
    (hkey : job.uniqueKey ≠ "") (httl : 0 < job.uniqueTTL)
    (hfree : s.db.str (.unique job.uniqueKey) = none) :
    s.submit cj job score? =
      ({ s with db := s.db.putStr (.unique job.uniqueKey) job.id } : World).step cj
        (enqueueEvent job score?) := by
  unfold World.submit
  rw [if_neg hkey, if_neg (not_le.mpr httl), run_enqueueUnique cj hdb, if_pos hfree]
  cases score? <;> rfl

theorem submit_of_locked (hdb : WellTyped s.db) {job : Job} (score? : Option ℤ)
    (hkey : job.uniqueKey ≠ "") (hlocked : s.db.str (.unique job.uniqueKey) ≠ none) :
    s.submit cj job score? = s := by
  unfold World.submit
  rw [if_neg hkey]
  split
  · rfl
  · rw [run_enqueueUnique cj hdb, if_neg hlocked]
    rfl

theorem submit_cases (hdb : WellTyped s.db) (job : Job) (score? : Option ℤ) :
    s.submit cj job score? = s ∨
      (job.uniqueKey = "" ∧ s.submit cj job score? = s.step cj (enqueueEvent job score?)) ∨
      (job.uniqueKey ≠ "" ∧ s.db.str (.unique job.uniqueKey) = none ∧
        s.submit cj job score? =
          ({ s with db := s.db.putStr (.unique job.uniqueKey) job.id } : World).step cj
            (enqueueEvent job score?)) := by
  by_cases hkey : job.uniqueKey = ""
  · exact Or.inr (Or.inl ⟨hkey, if_pos hkey⟩)
  by_cases httl : 0 < job.uniqueTTL
  · by_cases hfree : s.db.str (.unique job.uniqueKey) = none
    · exact Or.inr (Or.inr ⟨hkey, hfree, submit_of_free hdb score? hkey httl hfree⟩)
    · exact Or.inl (submit_of_locked hdb score? hkey hfree)
  · left
    rw [World.submit, if_neg hkey, if_pos (not_lt.mp httl)]

theorem stock_unique (db : Db Key) (key : String) (v : Option Value) :
    stock (db.write (.unique key) v) = stock db :=
  stock_write_other db (fun _ => Key.noConfusion) ⟨by simp [Key.kind], by simp [Key.kind]⟩ _

theorem Sound.setLock (h : Sound s) (key : String) {v : Option Value}
    (hv : Db.typeOf v = .none ∨ Db.typeOf v = .string) :
    Sound { s with db := s.db.write (.unique key) v } where
  typed := h.typed.write hv
  books := (stock_unique s.db key v).symm ▸ h.books
  threads := h.threads

theorem permits_enqueueEvent {job : Job} (score? : Option ℤ)
    (hjob : (uniqueMachine cj).permits s (.submit job score?)) (db : Db Key) :
    (clientMachine cj).permits { s with db := db } (enqueueEvent job score?) := by
  obtain ⟨hmarker, hraw, hid, hfresh⟩ := hjob
  cases score? with
  | none | some score =>
    exact ⟨World.permits_of_thread_eq_none rfl trivial ⟨hmarker, hraw⟩, hid, hfresh⟩

theorem threads_enqueueEvent (job : Job) (score? : Option ℤ) :
    (s.step cj (enqueueEvent job score?)).threads = s.threads := by
  cases score? <;> rfl

end Steps

/-! ### What holds whatever expires -/

/-- The system is sound, and every thread knows the unique key of its job. -/
structure Accounted (s : World) : Prop where
  sound : Sound s
  keyed : ∀ t ∈ s.threads, t.Keyed

namespace Accounted

variable {cj : Cjson} {s : World} {key : String}

theorem init : Accounted .init := ⟨.init, fun _ ht => absurd ht List.not_mem_nil⟩

theorem step (h : Accounted s) {e : UniqueEvent} (he : (uniqueMachine cj).permits s e) :
    Accounted ((uniqueMachine cj).step s e) := by
  cases e with
  | expire key => exact ⟨h.sound.setLock key (Or.inl rfl), h.keyed⟩
  | submit job score? =>
    obtain hsame | ⟨-, hplain⟩ | ⟨-, -, hlocked⟩ :=
      @submit_cases cj s h.sound.typed job score?
    · rw [step_submit, hsame]
      exact h
    · rw [step_submit, hplain]
      refine ⟨h.sound.step (permits_enqueueEvent score? he s.db), ?_⟩
      rw [threads_enqueueEvent]
      exact h.keyed
    · rw [step_submit, hlocked]
      refine ⟨(h.sound.setLock _ (Or.inr rfl)).step (permits_enqueueEvent score? he _), ?_⟩
      rw [threads_enqueueEvent]
      exact h.keyed
  | system e =>
    obtain ⟨hpermits, hkeeps⟩ := he
    refine ⟨h.sound.step hpermits, fun t ht => ?_⟩
    obtain hold | hnew := threads_step h.sound.typed hpermits.1 ht
    · exact h.keyed t hold
    · have hmember := hpermits.1.1
      exact .of_new hnew h.sound.books (fun t ht => h.sound.threads t (hmember t ht))
        (fun t ht => h.keyed t (hmember t ht)) hpermits.1.2.2 hkeeps

/-- **A lock is given up only with the last live payload of its job.** -/
theorem released (h : Accounted s) {s' : World} {t : Thread} (ht : t ∈ s.threads)
    (hreleased : Released s s' t key) {k : Key} (hk : k.Live) :
    (stock s'.db).copies t.job.id k = 0 := by
  have hid := (h.sound.threads t ht).payloadID_jobPayload hreleased.stage
  obtain ⟨-, hzero⟩ := h.sound.books.take hreleased.inFlight hid
  obtain hgone | ⟨dead, hdead, -, hburied⟩ := hreleased.moved
  · rw [hgone]
    exact congrFun hzero k
  · -- The dead job is stored where it does not count.
    have hne : k ≠ .dead := by rintro rfl; exact hk
    have habsent : (((stock s.db).take (.inFlight t.worker) (jobPayload t.job)).trust dead.id
        none).copies dead.id = 0 := hdead ▸ hzero
    rw [hburied, Books.drop_absent habsent, Stock.copies_put, ← hdead, habsent]
    simp [hne]

end Accounted

/-! ### What holds while a lock does not expire -/

def LockHeld (key : String) (s : World) : Prop :=
  ∀ k, k.Live → ∀ p ∈ (stock s.db).stored k, payloadUniqueKey p = some key →
    s.db.str (.unique key) = payloadID p

namespace LockHeld

variable {cj : Cjson} {s : World} {key : String}

theorem init : LockHeld key .init := by
  intro k _ p hp
  obtain ⟨j, hj⟩ := Sound.init.books.entry k p hp
  exact absurd hj.issued List.not_mem_nil

theorem stored_enqueueEvent (hdb : WellTyped s.db) {job : Job} {score? : Option ℤ}
    (hpermits : s.Permits (enqueueEvent job score?)) {k : Key} {p : String}
    (hp : p ∈ (stock (s.step cj (enqueueEvent job score?)).db).stored k) :
    p ∈ (stock s.db).stored k ∨ p = job.marshal := by
  have hmoves := (@moves_step cj _ _ hdb hpermits).2
  change p ∈ (s.step cj (enqueueEvent job score?)).view.stock.stored k at hp
  generalize (s.step cj (enqueueEvent job score?)).view = v' at hmoves hp
  cases score? with
  | none =>
    cases hmoves with
    | quiet => exact Or.inl hp
    | enqueue => exact Stock.mem_put hp
    | claim he => obtain he | he := he <;> cases he
  | some score =>
    cases hmoves with
    | quiet => exact Or.inl hp
    | enqueueAt => exact (Stock.mem_put hp).imp_left Stock.mem_drop
    | claim he => obtain he | he := he <;> cases he

theorem lock_enqueueEvent (hdb : WellTyped s.db) {job : Job} {score? : Option ℤ}
    (hpermits : s.Permits (enqueueEvent job score?)) :
    (s.step cj (enqueueEvent job score?)).db.str (.unique key) = s.db.str (.unique key) := by
  obtain h | ⟨t, now, he, -⟩ := unique_step cj hdb hpermits key
  · exact h
  · cases score? <;> cases he

theorem step (h : LockHeld key s) (hacc : Accounted s) {e : UniqueEvent}
    (he : (uniqueMachine cj).permits s e) (hkeep : e ≠ .expire key) :
    LockHeld key ((uniqueMachine cj).step s e) := by
  cases e with
  | expire key' =>
    have hne : key ≠ key' := by rintro rfl; exact hkeep rfl
    intro k hk p hp hkey
    change p ∈ (stock (s.db.del (.unique key'))).stored k at hp
    rw [stock_unique] at hp
    change (s.db.del (.unique key')).str (.unique key) = _
    rw [Db.str_write, if_neg (fun heq => hne (Key.unique.inj heq))]
    exact h k hk p hp hkey
  | submit job score? =>
    obtain hsame | ⟨hplain, hstep⟩ | ⟨hunique, hfree, hstep⟩ :=
      @submit_cases cj s hacc.sound.typed job score?
    · rw [step_submit, hsame]
      exact h
    · have hpermits := (permits_enqueueEvent score? he s.db).1
      rw [step_submit, hstep]
      intro k hk p hp hkey
      rw [lock_enqueueEvent hacc.sound.typed hpermits]
      obtain hp | rfl := stored_enqueueEvent hacc.sound.typed hpermits hp
      · exact h k hk p hp hkey
      · rw [payloadUniqueKey_marshal, Job.unique, if_pos hplain] at hkey
        cases hkey
    · have htyped := hacc.sound.typed.putStr (k := .unique job.uniqueKey) rfl job.id
      have hpermits := (@permits_enqueueEvent cj _ _ score? he
        (s.db.putStr (.unique job.uniqueKey) job.id)).1
      rw [step_submit, hstep]
      intro k hk p hp hkey
      rw [lock_enqueueEvent htyped hpermits]
      change (s.db.putStr (.unique job.uniqueKey) job.id).str (.unique key) = _
      obtain hp | rfl := stored_enqueueEvent htyped hpermits hp
      · -- The lock was free, so no live payload had the key.
        change p ∈ (stock (s.db.putStr (.unique job.uniqueKey) job.id)).stored k at hp
        rw [stock_unique] at hp
        have hlock := h k hk p hp hkey
        have hne : key ≠ job.uniqueKey := by
          rintro rfl
          obtain ⟨j, hj⟩ := hacc.sound.books.entry k p hp
          rw [hfree, hj.payload, payloadID_marshal] at hlock
          cases hlock
        rw [Db.str_write, if_neg (fun heq => hne (Key.unique.inj heq))]
        exact hlock
      · rw [payloadUniqueKey_marshal, Job.unique, if_neg hunique] at hkey
        obtain rfl := Option.some.inj hkey
        rw [Db.str_write, if_pos rfl, payloadID_marshal]
        rfl
  | system e =>
    obtain ⟨hpermits, hkeeps⟩ := he
    have hmember := hpermits.1.1
    intro k hk q hq hkey
    obtain ⟨k', hk', p, hp, hid, hsame⟩ := kin_of_moves (moves_step hacc.sound.typed hpermits.1).2
      hacc.sound.books (fun t ht => hacc.sound.threads t (hmember t ht))
      (fun t ht => hacc.keyed t (hmember t ht)) hpermits.1.2.1 hpermits.1.2.2 hpermits.2 hkeeps hk
      hq
    have hlock : s.db.str (.unique key) = payloadID q :=
      (h k' hk' p hp (hsame.symm.trans hkey)).trans hid.symm
    obtain hleft | ⟨t, now, rfl, hreleased⟩ := unique_step cj hacc.sound.typed hpermits.1 key
    · exact hleft.trans hlock
    · -- The job that gave up the lock has no live payload left.
      have hzero := hacc.released (hmember t rfl) hreleased hk
      have hpos := Stock.copies_pos hq (hlock.symm.trans hreleased.own)
      rw [step_system, hzero] at hpos
      exact absurd hpos (lt_irrefl 0)

end LockHeld

def LiveJob (db : Db Key) (key id : String) : Prop :=
  ∃ k, k.Live ∧ ∃ p ∈ (stock db).stored k, payloadUniqueKey p = some key ∧ payloadID p = some id

/-- **Unique jobs.** In every run of clients and workers, and with locks that may expire at any
time: if no lock of a key has expired, at most one job with the key is live. And a worker that
finishes a job, stale or not, leaves every lock as it is that does not hold the ID of this job, and
deletes its own only when no live payload of the job is left. -/
theorem unique_lock_excludes (cj : Cjson) {es : List UniqueEvent}
    (legal : (uniqueMachine cj).Legal .init es) :
    (∀ key, (∀ e ∈ es, e ≠ .expire key) → ∀ id id',
      LiveJob ((uniqueMachine cj).run .init es).db key id →
      LiveJob ((uniqueMachine cj).run .init es).db key id' → id = id') ∧
    ∀ t now,
      (uniqueMachine cj).permits ((uniqueMachine cj).run .init es) (.system (.finish t now)) →
      ∀ key holder, ((uniqueMachine cj).run .init es).db.str (.unique key) = some holder →
        (((uniqueMachine cj).run .init es).step cj (.finish t now)).db.str (.unique key)
            = some holder ∨
          holder = t.job.id ∧ ∀ k, k.Live →
            (stock (((uniqueMachine cj).run .init es).step cj (.finish t now)).db).copies
              t.job.id k = 0 := by
  have hacc : Accounted ((uniqueMachine cj).run .init es) :=
    legal.invariant (fun _ _ h he => h.step he) .init
  refine ⟨fun key hkeep id id' hlive hlive' => ?_, fun t now he key holder hholder => ?_⟩
  · have hguarded : LockHeld key ((uniqueMachine cj).run .init es) :=
      (legal.invariant_throughout (I := fun s => Accounted s ∧ LockHeld key s)
        (fun s e h he hne => ⟨h.1.step he, h.2.step h.1 he hne⟩)
        ((uniqueMachine cj).throughout_of_forall (P := fun e => e ≠ .expire key) .init hkeep)
        ⟨.init, .init⟩).2
    obtain ⟨k, hk, p, hp, hkey, hid⟩ := hlive
    obtain ⟨k', hk', p', hp', hkey', hid'⟩ := hlive'
    have hlock := (hguarded k hk p hp hkey).trans hid
    have hlock' := (hguarded k' hk' p' hp' hkey').trans hid'
    exact Option.some.inj (hlock.symm.trans hlock')
  · obtain hleft | ⟨t', now', heq, hreleased⟩ :=
      unique_step cj hacc.sound.typed he.1.1 key
    · exact Or.inl (hleft.trans hholder)
    · cases heq
      refine Or.inr ⟨Option.some.inj (hholder.symm.trans hreleased.own), fun k hk => ?_⟩
      exact hacc.released (he.1.1.1 t rfl) hreleased hk

/-- A job of the queue `q` with the unique key `k`. -/
def uniqueJob (id : String) : Job :=
  { Job.zero with id := id, type := "Mail", queue := "q", uniqueKey := "k", uniqueTTL := 1000 }

def twiceSubmitted : List UniqueEvent :=
  [.submit (uniqueJob "a") none, .submit (uniqueJob "b") (some 5)]

theorem run_twiceSubmitted (cj : Cjson) :
    let s := ({ World.init with db := World.init.db.putStr (.unique "k") "a" } : World).step cj
      (.enqueue (uniqueJob "a"))
    World.init.submit cj (uniqueJob "a") none = s ∧
      (uniqueMachine cj).run .init twiceSubmitted = s ∧
      stock s.db = (stock World.init.db).put (.queue "q") (uniqueJob "a").marshal := by
  intro s
  have hempty : WellTyped World.init.db := .empty
  have hlocked := hempty.putStr (k := .unique "k") rfl "a"
  have hfirst : World.init.submit cj (uniqueJob "a") none = s :=
    submit_of_free hempty none (fun h => absurd h (by decide)) (by decide) rfl
  obtain ⟨htyped, hstock⟩ := stock_enqueueNow hlocked "q" (uniqueJob "a").marshal
  have hlock : s.db.str (.unique "k") = some "a" := by
    have hleft := congrArg Db.strOf (@enqueueNow_leaves "k" "q" (uniqueJob "a").marshal
      (World.init.db.putStr (.unique "k") "a"))
    exact hleft.trans (by simp)
  have hsecond : s.submit cj (uniqueJob "b") (some 5) = s :=
    submit_of_locked htyped (some 5) (fun h => absurd h (by decide))
      (fun hnone => Option.some_ne_none _ (hlock.symm.trans hnone))
  refine ⟨hfirst, ?_, hstock.trans ?_⟩
  · change (World.init.submit cj (uniqueJob "a") none).submit cj (uniqueJob "b") (some 5) = s
    rw [hfirst, hsecond]
  · rw [Db.putStr, stock_unique]

theorem twiceSubmitted_legal (cj : Cjson) : (uniqueMachine cj).Legal .init twiceSubmitted := by
  refine ⟨⟨rfl, rfl, by simp [uniqueJob], List.not_mem_nil⟩, ⟨rfl, rfl, by simp [uniqueJob], ?_⟩,
    trivial⟩
  rw [step_submit, (run_twiceSubmitted cj).1]
  change "b" ∉ ["a"]
  decide

theorem twiceSubmitted_once :
    (uniqueMachine .plain).Legal .init twiceSubmitted ∧
      LiveJob ((uniqueMachine .plain).run .init twiceSubmitted).db "k" "a" ∧
      ∀ id, LiveJob ((uniqueMachine .plain).run .init twiceSubmitted).db "k" id → id = "a" := by
  have hlive : LiveJob ((uniqueMachine .plain).run .init twiceSubmitted).db "k" "a" := by
    obtain ⟨-, hrun, hstock⟩ := run_twiceSubmitted .plain
    refine ⟨.queue "q", trivial, (uniqueJob "a").marshal, ?_, ?_, ?_⟩
    · rw [hrun, hstock, Stock.stored_put, if_pos rfl]
      exact Multiset.mem_cons_self _ _
    · rw [payloadUniqueKey_marshal]
      rfl
    · rw [payloadID_marshal]
      rfl
  refine ⟨twiceSubmitted_legal _, hlive, fun id hid => ?_⟩
  refine (unique_lock_excludes .plain (twiceSubmitted_legal _)).1 "k" ?_ id "a" hid hlive
  intro e he
  simp only [twiceSubmitted, List.mem_cons, List.not_mem_nil, or_false] at he
  obtain rfl | rfl := he <;> exact UniqueEvent.noConfusion

end Senna
