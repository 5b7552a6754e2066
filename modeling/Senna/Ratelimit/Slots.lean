import Senna.Ratelimit.Concurrent
import Mathlib.Data.List.Perm.Subperm

/-!
# The slots of the concurrency limiter

Free slots and locks together are the slots the limiter knows. **No script makes that number
larger than the limit, and none but the expiry of a key makes it smaller**: taking a slot moves it
from the list to the hash, releasing and reclaiming move it back (`Frees`), and creating slots
counts what is there first.

On the side of the users, a lease that is neither released nor too old still has its lock
(`Sound.kept`): reclaiming and the expiry of the hash only remove locks that are older than the
timeout. So the leases in use are no more than the locks, which are no more than the limit.

The other direction, that a slot can be had when fewer leases are in use, needs that the number
stays at the limit (`Complete`). It does until the list or the hash expires. After that an
instance that has already set its flag does not create the slots again.
-/

namespace Senna.Ratelimit

open Redis

/-! ### Giving slots back -/

def Store.known (s : Store) : ℤ := s.slots.content.length + s.locks.content.length

/-- The deadline of the hash is at least a lifetime after every lock in it was taken. -/
def Outlives (ttl : ℤ) (locks : Cell (Hash ℤ)) : Prop :=
  ∀ e ∈ locks.content, ∃ t ∈ locks.deadline, e.2 + ttl * 1000 ≤ t

namespace Outlives

variable {ttl : ℤ} {locks : Cell (Hash ℤ)}

theorem put (h : Outlives ttl locks) {x : Hash ℤ} (hx : ∀ e ∈ x, e ∈ locks.content) :
    Outlives ttl (locks.put x) := by
  intro e he
  rw [Cell.content_put] at he
  have hne : x ≠ default := List.ne_nil_of_mem he
  rw [Cell.put, if_neg hne]
  exact h e (hx e he)

theorem expireAt {clock : ℕ} (hpast : ∀ e ∈ locks.content, e.2 ≤ nowMs clock) :
    Outlives ttl (locks.expireAt (expiry clock ttl)) := by
  intro e he
  rw [Cell.content_expireAt] at he
  have hne : locks.content ≠ default := List.ne_nil_of_mem he
  refine ⟨_, Cell.deadline_expireAt hne _, ?_⟩
  have := hpast e he
  unfold expiry
  omega

end Outlives

/-- Locks went back to the list of slots, and nothing else changed. -/
structure Frees (ttl : ℤ) (s s' : Store) : Prop where
  known : s'.known = s.known
  locks : s'.locks.content.Sublist s.locks.content
  outlives : Outlives ttl s.locks → Outlives ttl s'.locks
  init : s'.init = s.init

variable {lockID : String}

namespace Frees

variable {ttl : ℤ} {s s' s'' : Store}

theorem refl : Frees ttl s s := ⟨rfl, .refl _, id, rfl⟩

theorem trans (h : Frees ttl s s') (h' : Frees ttl s' s'') : Frees ttl s s'' where
  known := h'.known.trans h.known
  locks := h'.locks.trans h.locks
  outlives := h'.outlives ∘ h.outlives
  init := h'.init.trans h.init

theorem giveBack (hs : s.locks.content.fields.Nodup)
    (hid : lockID ∈ s.locks.content.fields) : Frees ttl s (s.giveBack lockID) where
  known := by
    have hlength := Hash.length_hdel hs hid
    simp only [Store.known, Store.giveBack, Cell.content_put, List.length_append,
      List.length_singleton]
    omega
  locks := by
    simp only [Store.giveBack, Cell.content_put]
    exact List.filter_sublist
  outlives := fun h => h.put fun e he => (Hash.mem_hdel.mp he).1
  init := rfl

theorem nodup (h : Frees ttl s s') (hs : s.locks.content.fields.Nodup) :
    s'.locks.content.fields.Nodup := hs.sublist (h.locks.map _)

end Frees

theorem foldl_reclaimLock (ttl threshold n : ℤ) {ls : Hash ℤ} {s : Store}
    (hls : ls.fields.Nodup) (hs : s.locks.content.fields.Nodup)
    (hsub : ∀ id ∈ ls.fields, id ∈ s.locks.content.fields) :
    Frees ttl s (ls.foldl (reclaimLock threshold) (n, s)).2 ∧
      ∀ e, e ∈ (ls.foldl (reclaimLock threshold) (n, s)).2.locks.content ↔
        e ∈ s.locks.content ∧ ∀ x ∈ ls, x.1 = e.1 → threshold ≤ x.2 := by
  induction ls generalizing n s with
  | nil => exact ⟨.refl, fun e => by simp⟩
  | cons x ls ih =>
    obtain ⟨hx, hrest⟩ := List.nodup_cons.mp hls
    obtain ⟨hmem, hsub⟩ := List.forall_mem_cons.mp hsub
    rw [List.foldl_cons]
    by_cases hold : x.2 < threshold
    · have hstep : reclaimLock threshold (n, s) x = (n + 1, s.giveBack x.1) := if_pos hold
      have hfree : Frees ttl s (s.giveBack x.1) := .giveBack hs hmem
      -- The other locks of the loop are still there.
      have hsub' : ∀ id ∈ Hash.fields ls, id ∈ (s.giveBack x.1).locks.content.fields := by
        intro id hid
        simp only [Store.giveBack, Cell.content_put]
        refine Hash.mem_fields_hdel (hsub id hid) ?_
        rintro rfl
        exact hx hid
      obtain ⟨hfrees, hiff⟩ := ih (n + 1) hrest (hfree.nodup hs) hsub'
      rw [hstep]
      refine ⟨hfree.trans hfrees, fun e => (hiff e).trans ?_⟩
      simp only [Store.giveBack, Cell.content_put, Hash.mem_hdel, List.forall_mem_cons]
      constructor
      · rintro ⟨⟨he, hne⟩, hall⟩
        exact ⟨he, fun heq => absurd heq.symm hne, hall⟩
      · rintro ⟨he, hkeep, hall⟩
        refine ⟨⟨he, fun heq => ?_⟩, hall⟩
        exact absurd (hkeep heq.symm) (Int.not_le.mpr hold)
    · have hstep : reclaimLock threshold (n, s) x = (n, s) := if_neg hold
      obtain ⟨hfrees, hiff⟩ := ih n hrest hs hsub
      rw [hstep]
      refine ⟨hfrees, fun e => (hiff e).trans ?_⟩
      simp only [List.forall_mem_cons]
      constructor
      · rintro ⟨he, hall⟩
        exact ⟨he, fun _ => Int.not_lt.mp hold, hall⟩
      · rintro ⟨he, -, hall⟩
        exact ⟨he, hall⟩

/-! ### What the scripts do to slots and locks -/

section Scripts

variable (limit ttl : ℤ) {clock : ℕ} {s : Store}

theorem concurrentInit_spec (hpast : ∀ e ∈ s.locks.content, e.2 ≤ nowMs clock) :
    (concurrentInit limit ttl clock s).2.locks.content = s.locks.content ∧
      Outlives ttl (concurrentInit limit ttl clock s).2.locks ∧
      (concurrentInit limit ttl clock s).2.known =
        if s.init.content.isSome then s.known else max s.known limit := by
  unfold concurrentInit
  split
  · dsimp only
    refine ⟨by split <;> simp, ?_, ?_⟩
    · split <;> exact Outlives.expireAt hpast
    · split <;> simp [Store.known]
  · dsimp only
    refine ⟨by split <;> simp, ?_, ?_⟩
    · split <;> exact Outlives.expireAt hpast
    · simp only [Store.known]
      split <;> simp <;> omega

theorem concurrentReclaim_spec (lockTimeoutMs : ℤ) (hs : s.locks.content.fields.Nodup)
    (hpast : ∀ e ∈ s.locks.content, e.2 ≤ nowMs clock) :
    Frees ttl s (concurrentReclaim lockTimeoutMs ttl clock s).2 ∧
      ∀ e, e ∈ (concurrentReclaim lockTimeoutMs ttl clock s).2.locks.content ↔
        e ∈ s.locks.content ∧ nowMs clock - e.2 ≤ lockTimeoutMs := by
  obtain ⟨hfrees, hiff⟩ := foldl_reclaimLock ttl (nowMs clock - lockTimeoutMs) 0 hs hs
    fun _ h => h
  have hage (e : String × ℤ) : (e ∈ s.locks.content ∧
      ∀ x ∈ s.locks.content, x.1 = e.1 → nowMs clock - lockTimeoutMs ≤ x.2) ↔
        e ∈ s.locks.content ∧ nowMs clock - e.2 ≤ lockTimeoutMs := by
    refine and_congr_right fun he => ⟨fun h => ?_, fun h x hx heq => ?_⟩
    · have := h e he rfl
      omega
    · -- A field is there once, so the lock of this name is this lock.
      obtain rfl : x = e := List.inj_on_of_nodup_map hs hx he heq
      omega
  unfold concurrentReclaim
  dsimp only
  split
  · refine ⟨⟨?_, ?_, fun _ => ?_, hfrees.init⟩, fun e => ?_⟩
    · simpa [Store.known] using hfrees.known
    · simpa using hfrees.locks
    · exact Outlives.expireAt fun e he => hpast e (hfrees.locks.subset he)
    · simp only [Cell.content_expireAt]
      exact (hiff e).trans (hage e)
  · exact ⟨hfrees, fun e => (hiff e).trans (hage e)⟩

theorem step_acquire (l : ConcurrentLimiter) (s : World) (lockID : String) :
    (s.store.slots.content = [] ∧ s.step l (.acquire lockID) = s) ∨
      ∃ x rest, s.store.slots.content = x :: rest ∧ s.step l (.acquire lockID) =
        { s with
          store := { s.store with
            slots := (s.store.slots.put rest).expireAt (expiry s.clock l.ttlSeconds)
            locks := (s.store.locks.put (s.store.locks.content.hset lockID (nowMs s.clock))).expireAt
              (expiry s.clock l.ttlSeconds) }
          leases := ⟨lockID, s.clock, false⟩ :: s.leases } := by
  cases hslots : s.store.slots.content with
  | nil =>
    refine Or.inl ⟨rfl, ?_⟩
    simp [World.step, concurrentAcquire, hslots]
  | cons x rest =>
    refine Or.inr ⟨x, rest, rfl, ?_⟩
    simp [World.step, concurrentAcquire, hslots]

end Scripts

/-! ### Leases and locks -/

/-- Locks and leases fit together. -/
structure Sound (l : ConcurrentLimiter) (s : World) : Prop where
  fields : s.store.locks.content.fields.Nodup
  ids : (s.leases.map Lease.lockID).Nodup
  past : ∀ lease ∈ s.leases, lease.acquiredAt ≤ s.clock
  /-- A lock belongs to a lease that was not released. -/
  entry : ∀ e ∈ s.store.locks.content, ∃ lease ∈ s.leases,
    lease.lockID = e.1 ∧ nowMs lease.acquiredAt = e.2 ∧ lease.released = false
  /-- A lease in use has its lock. -/
  kept : ∀ lease ∈ s.leases, lease.Counted l s.clock → lease.lockID ∈ s.store.locks.content.fields
  outlives : Outlives l.ttlSeconds s.store.locks

namespace Sound

variable {l : ConcurrentLimiter} {s : World}

theorem init : Sound l World.init where
  fields := List.nodup_nil
  ids := List.nodup_nil
  past := fun _ h => absurd h List.not_mem_nil
  entry := fun _ h => absurd h List.not_mem_nil
  kept := fun _ h => absurd h List.not_mem_nil
  outlives := fun _ h => absurd h List.not_mem_nil

variable (h : Sound l s)

include h

theorem locks_past : ∀ e ∈ s.store.locks.content, e.2 ≤ nowMs s.clock := by
  intro e he
  obtain ⟨lease, hlease, -, htime, -⟩ := h.entry e he
  exact htime ▸ nowMs_mono (h.past lease hlease)

theorem time_eq {e : String × ℤ} (he : e ∈ s.store.locks.content) {lease : Lease}
    (hlease : lease ∈ s.leases) (hid : lease.lockID = e.1) : nowMs lease.acquiredAt = e.2 := by
  obtain ⟨lease', hlease', hid', htime, -⟩ := h.entry e he
  obtain rfl : lease' = lease := List.inj_on_of_nodup_map h.ids hlease' hlease (hid'.trans hid.symm)
  exact htime

theorem not_mem_fields (hfresh : ∀ lease ∈ s.leases, lease.lockID ≠ lockID) :
    lockID ∉ s.store.locks.content.fields := by
  intro hmem
  obtain ⟨t, ht⟩ := Hash.mem_fields.mp hmem
  obtain ⟨lease, hlease, hid, -⟩ := h.entry _ ht
  exact hfresh lease hlease hid

theorem of_store {store : Store}
    (hsub : store.locks.content.Sublist s.store.locks.content)
    (hold : ∀ e ∈ s.store.locks.content, nowMs s.clock - e.2 ≤ milliseconds l.lockTimeout →
      e ∈ store.locks.content)
    (houtlives : Outlives l.ttlSeconds store.locks) : Sound l { s with store } where
  fields := h.fields.sublist (hsub.map _)
  ids := h.ids
  past := h.past
  entry := fun e he => h.entry e (hsub.subset he)
  kept := by
    intro lease hlease hcounted
    obtain ⟨t, ht⟩ := Hash.mem_fields.mp (h.kept lease hlease hcounted)
    refine Hash.mem_fields.mpr ⟨t, hold _ ht ?_⟩
    rw [← h.time_eq ht hlease rfl]
    exact hcounted.2
  outlives := houtlives

theorem tick (d : ℕ) : Sound l (s.step l (.tick d)) where
  fields := h.fields
  ids := h.ids
  past := fun lease hlease => Nat.le_add_right_of_le (h.past lease hlease)
  entry := h.entry
  kept := by
    intro lease hlease hcounted
    refine h.kept lease hlease ⟨hcounted.1, ?_⟩
    have hlater : nowMs s.clock ≤ nowMs (s.clock + d) := nowMs_mono (Nat.le_add_right _ _)
    have hage : nowMs (s.clock + d) - nowMs lease.acquiredAt ≤ milliseconds l.lockTimeout :=
      hcounted.2
    omega
  outlives := h.outlives

theorem acquire (hfresh : ∀ lease ∈ s.leases, lease.lockID ≠ lockID) :
    Sound l (s.step l (.acquire lockID)) := by
  obtain ⟨-, hstep⟩ | ⟨x, rest, -, hstep⟩ := step_acquire l s lockID
  · rw [hstep]
    exact h
  · have hnot : lockID ∉ s.store.locks.content.fields := h.not_mem_fields hfresh
    rw [hstep]
    exact
      { fields := by
          simp only [Cell.content_expireAt, Cell.content_put, Hash.hset_of_not_mem hnot,
            Hash.fields, List.map_append]
          refine List.nodup_append.mpr ⟨h.fields, List.nodup_singleton _, ?_⟩
          rintro id hid _ hlast rfl
          obtain rfl : id = lockID := List.mem_singleton.mp hlast
          exact hnot hid
        ids := by
          refine List.nodup_cons.mpr ⟨?_, h.ids⟩
          rintro hmem
          obtain ⟨lease, hlease, hid⟩ := List.mem_map.mp hmem
          exact hfresh lease hlease hid
        past := List.forall_mem_cons.mpr ⟨Nat.le_refl _, h.past⟩
        entry := by
          intro e he
          simp only [Cell.content_expireAt, Cell.content_put, Hash.hset_of_not_mem hnot] at he
          obtain he | he := List.mem_append.mp he
          · obtain ⟨lease, hlease, hrest⟩ := h.entry e he
            exact ⟨lease, List.mem_cons_of_mem _ hlease, hrest⟩
          · obtain rfl := List.mem_singleton.mp he
            exact ⟨_, List.mem_cons_self, rfl, rfl, rfl⟩
        kept := by
          intro lease hlease hcounted
          simp only [Cell.content_expireAt, Cell.content_put, Hash.hset_of_not_mem hnot,
            Hash.fields, List.map_append]
          obtain rfl | hlease := List.mem_cons.mp hlease
          · exact List.mem_append_right _ (List.mem_singleton.mpr rfl)
          · exact List.mem_append_left _ (h.kept lease hlease hcounted)
        outlives := by
          refine Outlives.expireAt fun e he => ?_
          simp only [Cell.content_put, Hash.hset_of_not_mem hnot] at he
          obtain he | he := List.mem_append.mp he
          · exact h.locks_past e he
          · obtain rfl := List.mem_singleton.mp he
            exact Int.le_refl _ }

theorem of_released {store : Store}
    (hsub : store.locks.content.Sublist s.store.locks.content)
    (hgone : ∀ e ∈ store.locks.content, e.1 ≠ lockID)
    (hstay : ∀ e ∈ s.store.locks.content, e.1 ≠ lockID → e ∈ store.locks.content)
    (houtlives : Outlives l.ttlSeconds store.locks) :
    Sound l { s with
      store
      leases := s.leases.map fun lease =>
        if lease.lockID = lockID then { lease with released := true } else lease } where
  fields := h.fields.sublist (hsub.map _)
  ids := by
    have hsame : (s.leases.map fun lease => if lease.lockID = lockID then
        { lease with released := true } else lease).map Lease.lockID =
          s.leases.map Lease.lockID := by
      rw [List.map_map]
      refine List.map_congr_left fun lease _ => ?_
      simp only [Function.comp]
      split <;> rfl
    rw [hsame]
    exact h.ids
  past := by
    intro lease' hlease'
    obtain ⟨lease, hlease, rfl⟩ := List.mem_map.mp hlease'
    have := h.past lease hlease
    split <;> exact this
  entry := by
    intro e he
    obtain ⟨lease, hlease, hid, hrest⟩ := h.entry e (hsub.subset he)
    have hne : lease.lockID ≠ lockID := hid ▸ hgone e he
    exact ⟨lease, List.mem_map.mpr ⟨lease, hlease, if_neg hne⟩, hid, hrest⟩
  kept := by
    intro lease' hlease' hcounted
    obtain ⟨lease, hlease, rfl⟩ := List.mem_map.mp hlease'
    by_cases hid : lease.lockID = lockID
    · rw [if_pos hid] at hcounted
      exact absurd hcounted.1 (by simp)
    · rw [if_neg hid] at hcounted ⊢
      obtain ⟨t, ht⟩ := Hash.mem_fields.mp (h.kept lease hlease hcounted)
      exact Hash.mem_fields.mpr ⟨t, hstay _ ht hid⟩
  outlives := houtlives

theorem release (lockID : String) : Sound l (s.step l (.release lockID)) := by
  unfold World.step concurrentRelease
  dsimp only
  split
  · refine h.of_released ?_ ?_ ?_ ?_ <;>
      simp only [Store.giveBack, Cell.content_expireAt, Cell.content_put]
    · exact List.filter_sublist
    · exact fun e he => (Hash.mem_hdel.mp he).2
    · exact fun e he hne => Hash.mem_hdel.mpr ⟨he, hne⟩
    · refine Outlives.expireAt fun e he => ?_
      rw [Cell.content_put] at he
      exact h.locks_past e (Hash.mem_hdel.mp he).1
  · next hnot =>
    -- The lock was reclaimed, or has expired, or was released before.
    refine h.of_released (.refl _) (fun e he heq => ?_) (fun _ he _ => he) h.outlives
    exact hnot (heq ▸ List.mem_map_of_mem he)

theorem remove (k : LimiterKey) (hdue : s.store.Due (nowMs s.clock) k) :
    Sound l (s.step l (.expire k)) := by
  cases k with
  | locks =>
    -- Every lock is older than the lifetime of the key, which is longer than the timeout.
    refine h.of_store (List.nil_sublist _) (fun e he hage => ?_) fun _ he =>
      absurd he List.not_mem_nil
    obtain ⟨t, ht, hlife⟩ := h.outlives e he
    obtain ⟨t', ht', hnow⟩ := hdue
    obtain rfl : t' = t := Option.some.inj (ht'.symm.trans ht)
    have := l.lockTimeout_lt_ttl
    omega
  | slots | init | metrics => exact h.of_store (.refl _) (fun _ he _ => he) h.outlives

theorem step {e : Event} (he : s.Permits e) : Sound l (s.step l e) := by
  cases e with
  | tick d => exact h.tick d
  | init i =>
    obtain ⟨hlocks, houtlives, -⟩ :=
      concurrentInit_spec l.limit l.ttlSeconds h.locks_past
    have hsound := h.of_store (hlocks ▸ .refl _) (fun e he _ => hlocks ▸ he) houtlives
    exact { hsound with }
  | reclaim =>
    obtain ⟨hfrees, hiff⟩ := concurrentReclaim_spec l.ttlSeconds (milliseconds l.lockTimeout)
      h.fields h.locks_past
    exact h.of_store hfrees.locks (fun e he hage => (hiff e).mpr ⟨he, hage⟩)
      (hfrees.outlives h.outlives)
  | acquire lockID => exact h.acquire he
  | release lockID => exact h.release lockID
  | expire k => exact h.remove k he

theorem known_acquire (hfresh : ∀ lease ∈ s.leases, lease.lockID ≠ lockID) :
    (s.step l (.acquire lockID)).store.known = s.store.known := by
  obtain ⟨-, hstep⟩ | ⟨x, rest, hslots, hstep⟩ := step_acquire l s lockID
  · rw [hstep]
  · have hnot : lockID ∉ s.store.locks.content.fields := h.not_mem_fields hfresh
    rw [hstep]
    simp only [Store.known, Cell.content_expireAt, Cell.content_put, Hash.hset_of_not_mem hnot,
      hslots, List.length_cons, List.length_append, List.length_nil]
    omega

theorem known_release (lockID : String) :
    (s.step l (.release lockID)).store.known = s.store.known := by
  unfold World.step concurrentRelease
  dsimp only
  split
  · next hmem =>
    have hfrees : Frees l.ttlSeconds s.store (s.store.giveBack lockID) := .giveBack h.fields hmem
    simpa [Store.known] using hfrees.known
  · rfl

theorem known_step {e : Event} (he : s.Permits e) :
    (s.step l e).store.known =
      match e with
      | .init _ => if s.store.init.content.isSome then s.store.known else max s.store.known l.limit
      | .expire k => (s.store.remove k).known
      | _ => s.store.known := by
  cases e with
  | tick d => rfl
  | init i => exact (concurrentInit_spec l.limit l.ttlSeconds h.locks_past).2.2
  | reclaim => exact (concurrentReclaim_spec l.ttlSeconds _ h.fields h.locks_past).1.known
  | acquire lockID => exact h.known_acquire he
  | release lockID => exact h.known_release lockID
  | expire k => rfl

end Sound

/-! ### Never more than the limit -/

theorem Store.known_remove_le (s : Store) (k : LimiterKey) : (s.remove k).known ≤ s.known := by
  have hslots : (0 : ℤ) ≤ s.slots.content.length := Int.natCast_nonneg _
  have hlocks : (0 : ℤ) ≤ s.locks.content.length := Int.natCast_nonneg _
  cases k with
  | slots => exact Int.add_le_add_right hslots _
  | locks => exact Int.add_le_add_left hlocks _
  | init | metrics => exact Int.le_refl _

/-- No more slots than the limit. -/
structure Bounded (l : ConcurrentLimiter) (s : World) : Prop extends Sound l s where
  bound : s.store.known ≤ l.limit

variable {l : ConcurrentLimiter}

theorem Bounded.step {s : World} (h : Bounded l s) {e : Event}
    (he : s.Permits e) : Bounded l (s.step l e) where
  toSound := h.toSound.step he
  bound := by
    have hbound := h.bound
    rw [h.toSound.known_step he]
    cases e with
    | init i =>
      dsimp only
      split
      · exact hbound
      · exact Int.max_le.mpr ⟨hbound, Int.le_refl _⟩
    | expire k => exact Int.le_trans (s.store.known_remove_le k) hbound
    | _ => exact hbound

theorem Lease.Live.counted {m : ℤ} (hm : l.lockTimeout = m * 1000000)
    {clock : ℕ} {lease : Lease} (h : lease.Live l clock) : lease.Counted l clock := by
  refine ⟨h.1, ?_⟩
  have hage := h.2
  have hms : milliseconds l.lockTimeout = m := by
    rw [hm]
    exact Int.mul_tdiv_cancel m (by decide)
  rw [hms, nowMs_eq, nowMs_eq]
  omega

theorem Sound.length_live_le {s : World} (h : Sound l s) {m : ℤ}
    (hm : l.lockTimeout = m * 1000000) :
    (s.leases.filter fun lease => lease.Live l s.clock).length ≤ s.store.locks.content.length := by
  have hnodup : ((s.leases.filter fun lease => lease.Live l s.clock).map Lease.lockID).Nodup :=
    h.ids.sublist (List.filter_sublist.map _)
  have hsub : (s.leases.filter fun lease => lease.Live l s.clock).map Lease.lockID ⊆
      s.store.locks.content.fields := by
    intro id hid
    obtain ⟨lease, hlease, rfl⟩ := List.mem_map.mp hid
    obtain ⟨hmem, hlive⟩ := List.mem_filter.mp hlease
    exact h.kept lease hmem ((of_decide_eq_true hlive).counted hm)
  simpa using (hnodup.subperm hsub).length_le

/-- **The limit is never exceeded**, neither by the slots and locks in Redis nor by the leases in
use. -/
theorem limit_not_exceeded (l : ConcurrentLimiter) (hlimit : 1 ≤ l.limit) (m : ℤ)
    (htimeout : l.lockTimeout = m * 1000000) (es : List Event)
    (legal : (limiterMachine l).Legal World.init es) :
    let s := (limiterMachine l).run World.init es
    (s.store.slots.content.length + s.store.locks.content.length : ℤ) ≤ l.limit ∧
      ((s.leases.filter fun lease => lease.Live l s.clock).length : ℤ) ≤ l.limit := by
  have hinit : Bounded l World.init := ⟨.init, Int.le_trans (by decide) hlimit⟩
  have hbounded := legal.invariant (fun s e h he => h.step he) hinit
  refine ⟨hbounded.bound, ?_⟩
  have hlive := hbounded.toSound.length_live_le htimeout
  have hbound := hbounded.bound
  unfold Store.known at hbound
  omega

def oneAtATime : ConcurrentLimiter := ⟨1, 30000000000⟩

/-- Two jobs ask for the one slot; the first is slow, so that its lock is reclaimed, and releases
it late. -/
def lateRelease : List Event :=
  [.init "a", .reclaim, .acquire "x", .reclaim, .acquire "y", .tick 31000000, .reclaim,
    .acquire "y", .release "x"]

theorem limit_not_exceeded_lateRelease :
    (limiterMachine oneAtATime).Legal World.init lateRelease ∧
      (let s := (limiterMachine oneAtATime).run World.init lateRelease
      (s.store.slots.content.length + s.store.locks.content.length : ℤ) ≤ oneAtATime.limit ∧
        ((s.leases.filter fun lease => lease.Live oneAtATime s.clock).length : ℤ)
          ≤ oneAtATime.limit) :=
  ⟨by decide, limit_not_exceeded oneAtATime (by decide) 30000 (by decide) lateRelease (by decide)⟩

/-! ### Not always up to the limit -/

/-- The slots were never created, or there are as many as the limit says. -/
structure Complete (l : ConcurrentLimiter) (s : World) : Prop extends Sound l s where
  before : s.initialized = [] → s.store.init.content = none ∧ s.store.known = 0
  after : s.initialized ≠ [] → s.store.known = l.limit

def Event.Spares : Event → Prop
  | .expire .slots => False
  | .expire .locks => False
  | _ => True

instance : DecidablePred Event.Spares
  | .expire .slots | .expire .locks => inferInstanceAs (Decidable False)
  | .expire .init | .expire .metrics | .tick _ | .init _ | .reclaim | .acquire _ | .release _ =>
    inferInstanceAs (Decidable True)

theorem Sound.init_step {s : World} (h : Sound l s) {e : Event}
    (hinit : ∀ i, e ≠ .init i) (hnone : s.store.init.content = none) :
    (s.step l e).store.init.content = none := by
  cases e with
  | tick d => exact hnone
  | init i => exact absurd rfl (hinit i)
  | reclaim =>
    have hsame := (concurrentReclaim_spec l.ttlSeconds (milliseconds l.lockTimeout) h.fields
      h.locks_past).1.init
    exact (congrArg Cell.content hsame).trans hnone
  | acquire lockID =>
    obtain ⟨-, hstep⟩ | ⟨x, rest, -, hstep⟩ := step_acquire l s lockID <;> rw [hstep] <;>
      exact hnone
  | release lockID =>
    unfold World.step concurrentRelease
    dsimp only
    split <;> exact hnone
  | expire k => cases k <;> first | exact hnone | rfl

namespace Complete

variable {l : ConcurrentLimiter} {s : World}

theorem init (l : ConcurrentLimiter) : Complete l World.init where
  toSound := .init
  before := fun _ => ⟨rfl, rfl⟩
  after := fun h => absurd rfl h

theorem create (h : Complete l s) (hlimit : 1 ≤ l.limit) (i : String) :
    (s.step l (.init i)).store.known = l.limit := by
  rw [h.toSound.known_step (e := .init i) trivial]
  dsimp only
  by_cases hfirst : s.initialized = []
  · obtain ⟨hnone, hzero⟩ := h.before hfirst
    rw [hnone, hzero]
    simp
    omega
  · rw [h.after hfirst]
    simp

theorem step (h : Complete l s) (hlimit : 1 ≤ l.limit) {e : Event} (he : s.Permits e)
    (hspares : e.Spares) : Complete l (s.step l e) := by
  have hsound := h.toSound.step he
  by_cases hinit : ∃ i, e = .init i
  · obtain ⟨i, rfl⟩ := hinit
    exact ⟨hsound, fun hnil => absurd hnil (List.cons_ne_nil _ _), fun _ => h.create hlimit i⟩
  · have hinit' : ∀ i, e ≠ .init i := fun i hi => hinit ⟨i, hi⟩
    have hknown : (s.step l e).store.known = s.store.known := by
      rw [h.toSound.known_step he]
      cases e with
      | init i => exact absurd rfl (hinit' i)
      | expire k =>
        cases k with
        | slots | locks => exact hspares.elim
        | init => rfl
        | metrics => rfl
      | _ => rfl
    have hflags : (s.step l e).initialized = s.initialized := by
      cases e with
      | init i => exact absurd rfl (hinit' i)
      | _ => rfl
    refine ⟨hsound, fun hnil => ?_, fun hne => ?_⟩
    · obtain ⟨hnone, hzero⟩ := h.before (hflags ▸ hnil)
      exact ⟨h.toSound.init_step hinit' hnone, hknown.trans hzero⟩
    · exact hknown.trans (h.after (hflags ▸ hne))

theorem ensureInitialized (h : Complete l s) (hlimit : 1 ≤ l.limit) (i : String) :
    Sound l (s.ensureInitialized l i) ∧ (s.ensureInitialized l i).store.known = l.limit ∧
      (s.ensureInitialized l i).leases = s.leases ∧ (s.ensureInitialized l i).clock = s.clock := by
  unfold World.ensureInitialized
  split
  · next hi => exact ⟨h.toSound, h.after (List.ne_nil_of_mem hi), rfl, rfl⟩
  · exact ⟨h.toSound.step (e := .init i) trivial, h.create hlimit i, rfl, rfl⟩

end Complete

theorem Lease.Counted.earlier {clock clock' : ℕ} (hle : clock ≤ clock')
    {lease : Lease} (h : lease.Counted l clock') : lease.Counted l clock := by
  refine ⟨h.1, ?_⟩
  have hage := h.2
  have := nowMs_mono hle
  omega

theorem Sound.length_locks_le {s : World} (h : Sound l s) (clock : ℕ)
    (hclock : clock ≤ s.clock) :
    (s.step l .reclaim).store.locks.content.length ≤
      (s.leases.filter fun lease => lease.Counted l clock).length := by
  have hafter : Sound l (s.step l .reclaim) := h.step (e := .reclaim) trivial
  obtain ⟨-, hiff⟩ := concurrentReclaim_spec l.ttlSeconds (milliseconds l.lockTimeout) h.fields
    h.locks_past
  have hsub : (s.step l .reclaim).store.locks.content.fields ⊆
      (s.leases.filter fun lease => lease.Counted l clock).map Lease.lockID := by
    intro id hid
    obtain ⟨t, ht⟩ := Hash.mem_fields.mp hid
    obtain ⟨hmem, hage⟩ := (hiff _).mp ht
    obtain ⟨lease, hlease, hlock, htime, hreleased⟩ := h.entry _ hmem
    have hcounted : lease.Counted l s.clock := ⟨hreleased, by rw [htime]; exact hage⟩
    refine List.mem_map.mpr ⟨lease, List.mem_filter.mpr ⟨hlease, ?_⟩, hlock⟩
    exact decide_eq_true (hcounted.earlier hclock)
  simpa using (hafter.fields.subperm hsub).length_le

theorem concurrentAcquire_of_free {ttl : ℤ} {clock : ℕ} {s : Store}
    (h : s.slots.content ≠ []) : (concurrentAcquire lockID ttl clock s).1.1 = 1 := by
  unfold concurrentAcquire
  split
  · next hnil => exact absurd hnil h
  · rfl

/-- **While the list of slots and the hash of locks do not expire, a slot can be had whenever
fewer than `limit` are in use.** Other keys may expire, and instances may come and go. -/
theorem slot_available (l : ConcurrentLimiter) (hlimit : 1 ≤ l.limit) (es : List Event)
    (legal : (limiterMachine l).Legal World.init es)
    (hspares : (limiterMachine l).Throughout (fun _ e => e.Spares) World.init es)
    (i lockID : String) (d₁ d₂ : ℕ) :
    let s := (limiterMachine l).run World.init es
    ((s.leases.filter fun lease => lease.Counted l s.clock).length : ℤ) < l.limit →
      s.attempt l i lockID d₁ d₂ = true := by
  intro s hfew
  have hcomplete : Complete l s := legal.invariant_throughout
    (fun s e h he hspares => h.step hlimit he hspares) hspares (Complete.init l)
  obtain ⟨hsound, hknown, hleases, hclock⟩ := hcomplete.ensureInitialized hlimit i
  -- Reclaiming moves slots back, so those that are not free belong to leases in use.
  have htick := hsound.tick d₁
  have hlocks := htick.length_locks_le s.clock (hclock ▸ Nat.le_add_right _ _)
  have hkept := (htick.known_step (e := .reclaim) trivial).trans hknown
  unfold Store.known at hkept
  have hfree : (((s.ensureInitialized l i).step l (.tick d₁)).step l .reclaim).store.slots.content
      ≠ [] := by
    intro hnil
    rw [hnil] at hkept
    have hsame : ((s.ensureInitialized l i).step l (.tick d₁)).leases = s.leases := hleases
    rw [hsame] at hlocks
    simp only [List.length_nil] at hkept
    omega
  exact decide_eq_true (concurrentAcquire_of_free hfree)

theorem slot_available_lateRelease :
    (limiterMachine oneAtATime).Legal World.init (lateRelease ++ [.release "y"]) ∧
      ((limiterMachine oneAtATime).run World.init (lateRelease ++ [.release "y"])).attempt
        oneAtATime "b" "z" 5 7 = true := by
  have legal : (limiterMachine oneAtATime).Legal World.init (lateRelease ++ [.release "y"]) := by
    decide
  refine ⟨legal, slot_available oneAtATime (by decide) _ legal (by decide) "b" "z" 5 7 ?_⟩
  decide

/-- A job runs and ends, then nothing happens for a minute and a half: the free slot expires. -/
def idleRun : List Event :=
  [.init "a", .reclaim, .acquire "x", .release "x", .tick 91000000, .expire .init, .expire .slots]

/-- **After an idle period the limiter is blocked for good.** No lease is in use, but the instance
that created the slots does not create them again, so no attempt of it gets one. -/
theorem idleRun_blocks :
    (limiterMachine oneAtATime).Legal World.init idleRun ∧
      (let s := (limiterMachine oneAtATime).run World.init idleRun
      (s.leases.filter fun lease => lease.Counted oneAtATime s.clock).length = 0 ∧
        ∀ lockID d₁ d₂, s.attempt oneAtATime "a" lockID d₁ d₂ = false) :=
  ⟨by decide, by decide, fun _ _ _ => rfl⟩

end Senna.Ratelimit
