import Senna.Redis.Db

/-!
# The keys of the queue

The Redis keys jobs move between, by what they hold. `keys.go` builds each as a
string with the namespace and the name of its constructor in front, and the scripts
build `queue` and `finalization` keys the same way from a prefix, so two keys are the
same string only if they are the same constructor with the same argument.

`Key.kind` is the type each key is used with. A keyspace is `WellTyped` when no key
holds a value of another type, which is what the scripts check before they write.
-/

namespace Senna

open Redis

/-- A Redis key. -/
inductive Key where
  /-- The waiting jobs of a queue. -/
  | queue (name : String)
  | scheduled
  | retry
  | dead
  /-- The jobs a worker has fetched and not finished. -/
  | inFlight (workerID : String)
  /-- The payload whose finalization marker is trusted, for a job. -/
  | finalization (jobID : String)
  /-- The names of all queues. -/
  | queues
  | unique (key : String)
  | sequentialLock (queueName : String)
  deriving DecidableEq

def Key.kind : Key → KeyType
  | .queue _ | .inFlight _ => .list
  | .scheduled | .retry | .dead => .zset
  | .queues => .set
  | .finalization _ | .unique _ | .sequentialLock _ => .string

def Key.Live : Key → Prop
  | .queue _ | .inFlight _ | .scheduled | .retry => True
  | _ => False

def WellTyped (db : Db Key) : Prop := ∀ k, db.HasType k k.kind

namespace WellTyped

variable {db : Db Key} {k : Key}

theorem empty : WellTyped fun _ => none := fun _ => Or.inl rfl

variable (h : WellTyped db)

include h

theorem write {v : Option Value}
    (hv : Db.typeOf v = .none ∨ Db.typeOf v = k.kind) : WellTyped (db.write k v) :=
  fun k' => (h k').write fun hk => hk ▸ hv

theorem putList (hk : k.kind = .list) (l : List String) :
    WellTyped (db.putList k l) := h.write (hk ▸ Db.typeOf_ofList l)

theorem putZset (hk : k.kind = .zset) (z : List (String × ℤ)) :
    WellTyped (db.putZset k z) := h.write (hk ▸ Db.typeOf_ofZset z)

theorem putSet (hk : k.kind = .set) (s : Finset String) :
    WellTyped (db.putSet k s) := h.write (hk ▸ Db.typeOf_ofSet s)

theorem putStr (hk : k.kind = .string) (s : String) :
    WellTyped (db.putStr k s) := h.write (hk ▸ Or.inr rfl)

theorem del (k : Key) : WellTyped (db.del k) := h.write (Or.inl rfl)

end WellTyped

end Senna
