import Senna.Ratelimit.Clock
import Senna.Redis.Expiring
import Senna.System.Machine

/-!
# The concurrency limiter

`ratelimit/concurrent.go` and its four scripts. The limiter keeps its free slots in a list and
its holders in a hash from lock IDs to the time they were taken; a third key says that the slots
have been created. All three expire, the list and the hash three lock timeouts after a script last
touched them.

A `World` is one limiter name: the three keys, the clock of the Redis server, which instances of
the limiter have set their `initialized` flag, and every lease ever handed out. **The leases are
what the users of the limiter see**; no script reads them. A label runs one script, lets time
pass, or lets the server remove a key whose deadline has come. Instances and processes are
unlimited in number, so the labels carry no identity but for `init`, whose instance is remembered.

The clock counts microseconds (`Ratelimit.Clock`); the scripts here work with whole milliseconds.
-/

namespace Senna.Ratelimit

open Redis

/-! ### The configuration -/

/-- What the instances of one limiter name share. -/
structure ConcurrentLimiter where
  limit : ℤ
  /-- A Go duration: nanoseconds. -/
  lockTimeout : ℤ

def ConcurrentLimiter.ttlSeconds (l : ConcurrentLimiter) : ℤ :=
  let ttl := (milliseconds l.lockTimeout * 3).tdiv 1000
  if ttl < 1 then 1 else ttl

/-- **A key outlives every lock it was touched for.** -/
theorem ConcurrentLimiter.lockTimeout_lt_ttl (l : ConcurrentLimiter) :
    milliseconds l.lockTimeout < l.ttlSeconds * 1000 := by
  unfold ttlSeconds
  generalize milliseconds l.lockTimeout = t
  by_cases ht : 0 ≤ t
  · have hdiv : (t * 3).tdiv 1000 = t * 3 / 1000 := Int.tdiv_eq_ediv_of_nonneg (by omega)
    simp only [hdiv]
    split <;> omega
  · -- A negative timeout is before any lifetime, and a lifetime is at least a second.
    dsimp only
    split <;> omega

/-! ### The scripts -/

/-- The keys of a limiter. -/
inductive LimiterKey where
  | slots | locks | init | metrics
  deriving DecidableEq, Repr

/-- What the keys hold. -/
structure Store where
  slots : Cell (List String)
  /-- When each lock was taken, in milliseconds. -/
  locks : Cell (Hash ℤ)
  init : Cell (Option String)
  /-- The field `reclaimed` of the metrics hash. -/
  metrics : Cell (Option ℤ)

namespace Store

def empty : Store := ⟨.absent, .absent, .absent, .absent⟩

def Due (s : Store) (now : ℤ) : LimiterKey → Prop
  | .slots => s.slots.Due now
  | .locks => s.locks.Due now
  | .init => s.init.Due now
  | .metrics => s.metrics.Due now

instance (s : Store) (now : ℤ) : ∀ k, Decidable (s.Due now k)
  | .slots => inferInstanceAs (Decidable (s.slots.Due now))
  | .locks => inferInstanceAs (Decidable (s.locks.Due now))
  | .init => inferInstanceAs (Decidable (s.init.Due now))
  | .metrics => inferInstanceAs (Decidable (s.metrics.Due now))

def remove (s : Store) : LimiterKey → Store
  | .slots => { s with slots := .absent }
  | .locks => { s with locks := .absent }
  | .init => { s with init := .absent }
  | .metrics => { s with metrics := .absent }

/-- `HDEL locks id` and `RPUSH slots "slot"`. -/
def giveBack (s : Store) (lockID : String) : Store :=
  { s with
    locks := s.locks.put (s.locks.content.hdel lockID)
    slots := s.slots.put (s.slots.content ++ ["slot"]) }

end Store

def concurrentInit (limit ttl : ℤ) (clock : ℕ) (s : Store) : ℤ × Store :=
  if s.init.content.isSome then
    let s := if s.slots.content.length > 0 then
      { s with slots := s.slots.expireAt (expiry clock ttl) } else s
    let s := { s with locks := s.locks.expireAt (expiry clock ttl) }
    let s := { s with init := s.init.expireAt (expiry clock ttl) }
    (0, s)
  else
    -- The key was just seen to be absent, so `SETNX` sets it.
    let s := { s with init := s.init.put (some "1") }
    let s := { s with init := s.init.expireAt (expiry clock ttl) }
    let currentSlots : ℤ := s.slots.content.length
    let heldLocks : ℤ := s.locks.content.length
    let totalKnown := currentSlots + heldLocks
    let slotsToAdd := limit - totalKnown
    let s := if slotsToAdd > 0 then
        let s := { s with
          slots := s.slots.put (s.slots.content ++ List.replicate slotsToAdd.toNat "slot") }
        { s with slots := s.slots.expireAt (expiry clock ttl) }
      else s
    let s := { s with locks := s.locks.expireAt (expiry clock ttl) }
    (max slotsToAdd 0, s)

/-- `concurrent_acquire.lua`. Returns whether a slot was taken, and the number of locks. -/
def concurrentAcquire (lockID : String) (ttl : ℤ) (clock : ℕ) (s : Store) : (ℤ × ℤ) × Store :=
  match s.slots.content with
  | [] => ((0, 0), s)
  | _ :: rest =>
    let s := { s with slots := s.slots.put rest }
    let s := { s with locks := s.locks.put (s.locks.content.hset lockID (nowMs clock)) }
    let s := { s with slots := s.slots.expireAt (expiry clock ttl) }
    let s := { s with locks := s.locks.expireAt (expiry clock ttl) }
    ((1, s.locks.content.length), s)

def concurrentRelease (lockID : String) (ttl : ℤ) (clock : ℕ) (s : Store) : ℤ × Store :=
  if lockID ∈ s.locks.content.fields then
    let s := s.giveBack lockID
    let s := { s with slots := s.slots.expireAt (expiry clock ttl) }
    let s := { s with locks := s.locks.expireAt (expiry clock ttl) }
    (1, s)
  else (0, s)

/-- One round of the loop of `concurrent_reclaim.lua`. -/
def reclaimLock (threshold : ℤ) (acc : ℤ × Store) (lock : String × ℤ) : ℤ × Store :=
  if lock.2 < threshold then (acc.1 + 1, acc.2.giveBack lock.1) else acc

def concurrentReclaim (lockTimeoutMs ttl : ℤ) (clock : ℕ) (s : Store) : ℤ × Store :=
  let threshold := nowMs clock - lockTimeoutMs
  let (reclaimed, s) := s.locks.content.foldl (reclaimLock threshold) (0, s)
  if reclaimed > 0 then
    let s := { s with metrics := s.metrics.put (some (s.metrics.content.getD 0 + reclaimed)) }
    let s := { s with slots := s.slots.expireAt (expiry clock ttl) }
    let s := { s with locks := s.locks.expireAt (expiry clock ttl) }
    let s := { s with metrics := s.metrics.expireAt (expiry clock ttl) }
    (reclaimed, s)
  else (reclaimed, s)

/-! ### The limiter as a machine -/

/-- A slot that was handed out. -/
structure Lease where
  lockID : String
  /-- The clock when the slot was taken. -/
  acquiredAt : ℕ
  released : Bool
  deriving DecidableEq, Repr

namespace Lease

def Live (l : ConcurrentLimiter) (clock : ℕ) (lease : Lease) : Prop :=
  lease.released = false ∧ ((clock : ℤ) - lease.acquiredAt) * 1000 ≤ l.lockTimeout

/-- Not released, and at most the lock timeout old on the millisecond clock of the scripts. -/
def Counted (l : ConcurrentLimiter) (clock : ℕ) (lease : Lease) : Prop :=
  lease.released = false ∧ nowMs clock - nowMs lease.acquiredAt ≤ milliseconds l.lockTimeout

instance (l : ConcurrentLimiter) (clock : ℕ) : DecidablePred (Live l clock) := fun lease =>
  inferInstanceAs (Decidable (lease.released = false ∧ _ ≤ _))

instance (l : ConcurrentLimiter) (clock : ℕ) : DecidablePred (Counted l clock) := fun lease =>
  inferInstanceAs (Decidable (lease.released = false ∧ _ ≤ _))

end Lease

/-- One limiter name, with everything that was handed out. -/
structure World where
  /-- The Redis clock, in microseconds. -/
  clock : ℕ
  store : Store
  /-- The instances whose `initialized` flag is set. -/
  initialized : List String
  leases : List Lease

def World.init : World := ⟨0, .empty, [], []⟩

/-- A label of the machine. -/
inductive Event where
  | tick (d : ℕ)
  | init (instance_ : String)
  | reclaim
  | acquire (lockID : String)
  | release (lockID : String)
  | expire (k : LimiterKey)
  deriving DecidableEq, Repr

namespace World

def step (l : ConcurrentLimiter) (s : World) : Event → World
  | .tick d => { s with clock := s.clock + d }
  | .init i =>
    { s with
      store := (concurrentInit l.limit l.ttlSeconds s.clock s.store).2
      initialized := i :: s.initialized }
  | .reclaim =>
    { s with
      store := (concurrentReclaim (milliseconds l.lockTimeout) l.ttlSeconds s.clock s.store).2 }
  | .acquire lockID =>
    let (reply, store) := concurrentAcquire lockID l.ttlSeconds s.clock s.store
    { s with
      store
      leases := if reply.1 = 1 then ⟨lockID, s.clock, false⟩ :: s.leases else s.leases }
  | .release lockID =>
    { s with
      store := (concurrentRelease lockID l.ttlSeconds s.clock s.store).2
      leases := s.leases.map fun lease =>
        if lease.lockID = lockID then { lease with released := true } else lease }
  | .expire k => { s with store := s.store.remove k }

/-- A lock ID is new when a slot is taken with it, and a key is removed after its deadline. -/
def Permits (s : World) : Event → Prop
  | .acquire lockID => ∀ lease ∈ s.leases, lease.lockID ≠ lockID
  | .expire k => s.store.Due (nowMs s.clock) k
  | _ => True

instance (s : World) : DecidablePred s.Permits
  | .acquire lockID => inferInstanceAs (Decidable (∀ lease ∈ s.leases, lease.lockID ≠ lockID))
  | .expire k => inferInstanceAs (Decidable (s.store.Due (nowMs s.clock) k))
  | .tick _ | .init _ | .reclaim | .release _ => inferInstanceAs (Decidable True)

def ensureInitialized (l : ConcurrentLimiter) (i : String) (s : World) : World :=
  if i ∈ s.initialized then s else s.step l (.init i)

/-- One attempt of `Acquire` by an instance: whether it gets a slot. Between the scripts `d₁` and
`d₂` microseconds pass. -/
def attempt (l : ConcurrentLimiter) (i lockID : String) (d₁ d₂ : ℕ) (s : World) : Bool :=
  let s := s.ensureInitialized l i
  let s := s.step l (.tick d₁)
  let s := s.step l .reclaim
  let s := s.step l (.tick d₂)
  (concurrentAcquire lockID l.ttlSeconds s.clock s.store).1.1 = 1

end World

def limiterMachine (l : ConcurrentLimiter) : Machine World Event where
  permits := World.Permits
  step := World.step l

instance (l : ConcurrentLimiter) (s : World) (e : Event) :
    Decidable ((limiterMachine l).permits s e) := inferInstanceAs (Decidable (s.Permits e))

end Senna.Ratelimit
