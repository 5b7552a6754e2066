import Senna.Redis.Command

/-!
# What a script leaves alone

The frame rules for scripts. `x.Leaves k` says that the script `x` does not change the value of
the key `k`, on no keyspace and however it ends: the writes before an error count as well. There
is one rule for each way to put scripts together and one for each command. So for a script written
down command by command the frame property follows its text, without a word on what the script is
for, and no assumption on the types of the keys is needed.
-/

namespace Redis

namespace Script

variable {κ α β : Type}

def Leaves (x : Script κ α) (k : κ) : Prop := ∀ db, (x.run db).db k = db k

namespace Leaves

variable {k : κ}

/-! ### Programs -/

theorem pure (a : α) : (Pure.pure a : Script κ α).Leaves k := fun _ => rfl

theorem fail (e : Error) : (Script.fail e : Script κ α).Leaves k := fun _ => rfl

theorem reads (f : Db κ → α) : (Script.reads f).Leaves k := fun _ => rfl

theorem bind {x : Script κ α} {f : α → Script κ β} (hx : x.Leaves k) (hf : ∀ a, (f a).Leaves k) :
    (x >>= f).Leaves k := by
  intro db
  have hfirst := hx db
  rw [run_bind]
  generalize x.run db = out at hfirst ⊢
  cases out with
  | ok a db' => exact (hf a db').trans hfirst
  | error e db' => exact hfirst

theorem ite {c : Prop} [Decidable c] {x y : Script κ α} (hx : x.Leaves k) (hy : y.Leaves k) :
    (if c then x else y).Leaves k := by
  split
  · exact hx
  · exact hy

/-! ### Readers

A reader runs what it is given or stops, on the keyspace as it is. -/

theorem onString {k' : κ} {f : Option String → Script κ α} (hf : ∀ s, (f s).Leaves k) :
    (Script.onString k' f).Leaves k := by
  intro db
  unfold Script.onString Script.run
  dsimp only
  split
  · exact hf none db
  · next s _ => exact hf (some s) db
  · rfl

theorem onList {k' : κ} {f : List String → Script κ α} (hf : ∀ l, (f l).Leaves k) :
    (Script.onList k' f).Leaves k := by
  intro db
  unfold Script.onList Script.run
  dsimp only
  split
  · exact hf [] db
  · next l _ => exact hf l db
  · rfl

theorem onSet {k' : κ} {f : Finset String → Script κ α} (hf : ∀ s, (f s).Leaves k) :
    (Script.onSet k' f).Leaves k := by
  intro db
  unfold Script.onSet Script.run
  dsimp only
  split
  · exact hf ∅ db
  · next s _ => exact hf s db
  · rfl

theorem onZset {k' : κ} {f : List (String × ℤ) → Script κ α} (hf : ∀ z, (f z).Leaves k) :
    (Script.onZset k' f).Leaves k := by
  intro db
  unfold Script.onZset Script.run
  dsimp only
  split
  · exact hf [] db
  · next z _ => exact hf z db
  · rfl

theorem onHash {k' : κ} {f : (String → Option Scalar) → Script κ α} (hf : ∀ h, (f h).Leaves k) :
    (Script.onHash k' f).Leaves k := by
  intro db
  unfold Script.onHash Script.run
  dsimp only
  split
  · exact hf (fun _ => none) db
  · next h _ => exact hf h db
  · rfl

/-! ### Commands that read -/

theorem type (k' : κ) : (Redis.type k').Leaves k := reads _

theorem get (k' : κ) : (Redis.get k').Leaves k := onString pure

theorem lpos (k' : κ) (v : String) : (Redis.lpos k' v).Leaves k := onList fun _ => pure _

theorem lrange (k' : κ) : (Redis.lrange k').Leaves k := onList pure

theorem zrangebyscore (k' : κ) (max : ℤ) (limit : ℕ) :
    (Redis.zrangebyscore k' max limit).Leaves k := onZset fun _ => pure _

theorem hget (k' : κ) (f : String) : (Redis.hget k' f).Leaves k := onHash fun _ => pure _

/-! ### Commands that write another key -/

variable [DecidableEq κ] {k' : κ} (hne : k ≠ k')
include hne

theorem write (v : Option Value) : (Script.writes (·.write k' v)).Leaves k := by
  intro db
  rw [run_writes, Outcome.db_ok, Db.write_apply, if_neg hne]

theorem set (v : String) : (Redis.set k' v).Leaves k := write hne _

theorem del : (Redis.del k').Leaves k := write hne _

theorem lpush (v : String) : (Redis.lpush k' v).Leaves k := onList fun _ => write hne _

theorem lset (i : ℕ) (v : String) : (Redis.lset k' i v).Leaves k := onList fun _ => write hne _

theorem zadd (score : ℤ) (v : String) : (Redis.zadd k' score v).Leaves k :=
  onZset fun _ => write hne _

theorem zrem (v : String) : (Redis.zrem k' v).Leaves k := onZset fun _ => write hne _

theorem sadd (v : String) : (Redis.sadd k' v).Leaves k :=
  onSet fun _ => bind (write hne _) fun _ => pure _

theorem srem (v : String) : (Redis.srem k' v).Leaves k :=
  onSet fun _ => bind (write hne _) fun _ => pure _

theorem hsetAll (fields : List (String × Scalar)) : (Redis.hsetAll k' fields).Leaves k :=
  onHash fun _ => write hne _

theorem hincrby (f : String) (n : ℤ) : (Redis.hincrby k' f n).Leaves k := by
  refine onHash fun h => ?_
  split
  · exact fail _
  · exact bind (write hne _) fun _ => pure _
  · exact bind (write hne _) fun _ => pure _

theorem lrem (v : String) : (Redis.lrem k' v).Leaves k :=
  onList fun _ => ite (bind (write hne _) fun _ => pure _) (pure _)

theorem rpop : (Redis.rpop k').Leaves k := by
  refine onList fun l => ?_
  split
  · exact pure _
  · exact bind (write hne _) fun _ => pure _

theorem lmove {k'' : κ} (hne' : k ≠ k'') : (Redis.lmove k' k'').Leaves k := by
  refine onList fun l => ?_
  split
  · exact pure _
  · exact onList fun _ => bind (write hne _) fun _ => bind (lpush hne' _) fun _ => pure _

end Leaves

end Script

end Redis
