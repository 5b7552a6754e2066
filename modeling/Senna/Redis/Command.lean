import Senna.Redis.Db

/-!
# Redis commands and scripts

A script is a sequence of commands run as one step. `Script κ α` threads the
keyspace through it and ends in a value or in an error. An error does not undo
what the script has written: the keyspace of `Outcome.error` is the one at the
point of failure.

A command on a key of the wrong type fails with `Error.wrongType` and writes
nothing. The commands on one data type are all built on one reader for that
type (`onString`, `onList`, `onSet`, `onZset`, `onHash`), and the lemmas
`run_onString` to `run_onHash` are what evaluates them at a key of the expected
type.
-/

namespace Redis

/-- Why a script stopped. -/
inductive Error where
  /-- A command met a key of another type. -/
  | wrongType
  /-- The script returned `redis.error_reply`. -/
  | reply (message : String)
  /-- The script raised a runtime error. -/
  | raised (message : String)
  deriving DecidableEq, Repr

/-- How a script ended, with the keyspace it left. -/
inductive Outcome (κ α : Type) where
  | ok (value : α) (db : Db κ)
  | error (cause : Error) (db : Db κ)

namespace Outcome

variable {κ α : Type}

def db : Outcome κ α → Db κ
  | ok _ db => db
  | error _ db => db

def value? : Outcome κ α → Option α
  | ok a _ => some a
  | error _ _ => none

@[simp] theorem db_ok (a : α) (d : Db κ) : (ok a d).db = d := rfl

@[simp] theorem value?_ok (a : α) (d : Db κ) : (ok a d).value? = some a := rfl

end Outcome

/-- A script over keys `κ` with a reply in `α`. -/
def Script (κ α : Type) : Type := Db κ → Outcome κ α

namespace Script

variable {κ α β : Type}

def run (x : Script κ α) (db : Db κ) : Outcome κ α := x db

instance : Monad (Script κ) where
  pure a := fun db => .ok a db
  bind x f := fun db =>
    match x db with
    | .ok a db' => f a db'
    | .error e db' => .error e db'

def fail (e : Error) : Script κ α := fun db => .error e db

def reads (f : Db κ → α) : Script κ α := fun db => .ok (f db) db

def writes (f : Db κ → Db κ) : Script κ Unit := fun db => .ok () (f db)

variable (db : Db κ)

@[simp] theorem run_pure (a : α) : (pure a : Script κ α).run db = .ok a db := rfl

@[simp] theorem run_fail (e : Error) : (fail e : Script κ α).run db = .error e db := rfl

@[simp] theorem run_reads (f : Db κ → α) : (reads f).run db = .ok (f db) db := rfl

@[simp] theorem run_writes (f : Db κ → Db κ) : (writes f).run db = .ok () (f db) := rfl

theorem run_bind (x : Script κ α) (f : α → Script κ β) :
    (x >>= f).run db =
      match x.run db with
      | .ok a db' => (f a).run db'
      | .error e db' => .error e db' := rfl

theorem run_bind_ok {x : Script κ α} {f : α → Script κ β} {db db' : Db κ} {a : α}
    (h : x.run db = .ok a db') : (x >>= f).run db = (f a).run db' := by
  rw [run_bind, h]

@[simp] theorem run_pure_bind (a : α) (f : α → Script κ β) :
    (pure a >>= f).run db = (f a).run db := rfl

@[simp] theorem run_writes_bind (g : Db κ → Db κ) (f : Unit → Script κ β) :
    (writes g >>= f).run db = (f ()).run (g db) := rfl

@[simp] theorem run_reads_bind (g : Db κ → α) (f : α → Script κ β) :
    (reads g >>= f).run db = (f (g db)).run db := rfl

@[simp] theorem run_fail_bind (e : Error) (f : α → Script κ β) :
    ((fail e : Script κ α) >>= f).run db = .error e db := rfl

@[simp] theorem bind_bind {γ : Type} (x : Script κ α) (f : α → Script κ β)
    (g : β → Script κ γ) : (x >>= f) >>= g = x >>= fun a => f a >>= g := by
  funext db
  change (match (match x db with
    | .ok a db' => f a db'
    | .error e db' => .error e db' : Outcome κ β) with
    | .ok b db' => g b db'
    | .error e db' => .error e db') = _
  change _ = match x db with
    | .ok a db' => (f a >>= g) db'
    | .error e db' => .error e db'
  cases x db <;> rfl

@[simp] theorem run_ite (c : Prop) [Decidable c] (x y : Script κ α) :
    (if c then x else y).run db = if c then x.run db else y.run db := by
  split <;> rfl

end Script

/-! ### Readers -/

namespace Script

variable {κ α : Type}

/-- Run `f` on the text at `k`, `none` when the key is absent. -/
def onString (k : κ) (f : Option String → Script κ α) : Script κ α := fun db =>
  match db k with
  | none => f none db
  | some (.string s) => f (some s) db
  | _ => .error .wrongType db

/-- Run `f` on the list at `k`, empty when the key is absent. -/
def onList (k : κ) (f : List String → Script κ α) : Script κ α := fun db =>
  match db k with
  | none => f [] db
  | some (.list l) => f l db
  | _ => .error .wrongType db

/-- Run `f` on the set at `k`, empty when the key is absent. -/
def onSet (k : κ) (f : Finset String → Script κ α) : Script κ α := fun db =>
  match db k with
  | none => f ∅ db
  | some (.set s) => f s db
  | _ => .error .wrongType db

/-- Run `f` on the sorted set at `k`, empty when the key is absent. -/
def onZset (k : κ) (f : List (String × ℤ) → Script κ α) : Script κ α := fun db =>
  match db k with
  | none => f [] db
  | some (.zset z) => f z db
  | _ => .error .wrongType db

/-- Run `f` on the hash at `k`, empty when the key is absent. -/
def onHash (k : κ) (f : (String → Option Scalar) → Script κ α) : Script κ α := fun db =>
  match db k with
  | none => f (fun _ => none) db
  | some (.hash h) => f h db
  | _ => .error .wrongType db

section RunReaders

variable {db : Db κ} {k : κ}

theorem run_onString {f : Option String → Script κ α} (h : db.HasType k .string) :
    (onString k f).run db = (f (db.str k)).run db := by
  unfold onString run Db.str
  rcases hk : db k with _ | (_ | _ | _ | _ | _) <;> simp_all [Db.HasType, Db.typeOf, Db.strOf]

theorem run_onList {f : List String → Script κ α} (h : db.HasType k .list) :
    (onList k f).run db = (f (db.list k)).run db := by
  unfold onList run Db.list
  rcases hk : db k with _ | (_ | _ | _ | _ | _) <;> simp_all [Db.HasType, Db.typeOf, Db.listOf]

theorem run_onSet {f : Finset String → Script κ α} (h : db.HasType k .set) :
    (onSet k f).run db = (f (db.members k)).run db := by
  unfold onSet run Db.members
  rcases hk : db k with _ | (_ | _ | _ | _ | _) <;> simp_all [Db.HasType, Db.typeOf, Db.setOf]

theorem run_onZset {f : List (String × ℤ) → Script κ α} (h : db.HasType k .zset) :
    (onZset k f).run db = (f (db.zset k)).run db := by
  unfold onZset run Db.zset
  rcases hk : db k with _ | (_ | _ | _ | _ | _) <;> simp_all [Db.HasType, Db.typeOf, Db.zsetOf]

theorem run_onHash {f : (String → Option Scalar) → Script κ α} (h : db.HasType k .hash) :
    (onHash k f).run db = (f (db.hash k)).run db := by
  unfold onHash run Db.hash
  rcases hk : db k with _ | (_ | _ | _ | _ | _) <;> simp_all [Db.HasType, Db.typeOf, Db.hashOf]

/-! A reader fails at a key of another type, and changes nothing. -/

theorem run_onList_wrongType {f : List String → Script κ α} (h : ¬ db.HasType k .list) :
    (onList k f).run db = .error .wrongType db := by
  unfold onList run
  rcases hk : db k with _ | (_ | _ | _ | _ | _) <;> simp_all [Db.HasType, Db.typeOf]

theorem run_onSet_wrongType {f : Finset String → Script κ α} (h : ¬ db.HasType k .set) :
    (onSet k f).run db = .error .wrongType db := by
  unfold onSet run
  rcases hk : db k with _ | (_ | _ | _ | _ | _) <;> simp_all [Db.HasType, Db.typeOf]

theorem run_onHash_wrongType {f : (String → Option Scalar) → Script κ α}
    (h : ¬ db.HasType k .hash) : (onHash k f).run db = .error .wrongType db := by
  unfold onHash run
  rcases hk : db k with _ | (_ | _ | _ | _ | _) <;> simp_all [Db.HasType, Db.typeOf]

theorem run_onZset_wrongType {f : List (String × ℤ) → Script κ α} (h : ¬ db.HasType k .zset) :
    (onZset k f).run db = .error .wrongType db := by
  unfold onZset run
  rcases hk : db k with _ | (_ | _ | _ | _ | _) <;> simp_all [Db.HasType, Db.typeOf]

end RunReaders

end Script

/-! ### Commands -/

section Commands

open Script

variable {κ : Type}

/-- `TYPE k`. -/
def type (k : κ) : Script κ KeyType := reads fun db => Db.typeOf (db k)

/-- `GET k`. -/
def get (k : κ) : Script κ (Option String) := onString k pure

/-- `LPOS k v`: the first position from the head. -/
def lpos (k : κ) (v : String) : Script κ (Option ℕ) :=
  onList k fun l => pure (if v ∈ l then some (l.idxOf v) else none)

/-- `LRANGE k 0 -1`. -/
def lrange (k : κ) : Script κ (List String) := onList k pure

/-- `SISMEMBER k v`. -/
def sismember (k : κ) (v : String) : Script κ Bool := onSet k fun s => pure (decide (v ∈ s))

/-- `SCARD k`. -/
def scard (k : κ) : Script κ ℕ := onSet k fun s => pure s.card

def zle (a b : String × ℤ) : Prop := a.2 < b.2 ∨ a.2 = b.2 ∧ a.1 ≤ b.1

instance : DecidableRel zle := fun a b =>
  inferInstanceAs (Decidable (a.2 < b.2 ∨ a.2 = b.2 ∧ a.1 ≤ b.1))

instance : Std.Total zle where
  total a b := by
    obtain hlt | heq | hgt := lt_trichotomy a.2 b.2
    · exact Or.inl (Or.inl hlt)
    · exact (String.le_total a.1 b.1).imp (fun h => Or.inr ⟨heq, h⟩) fun h => Or.inr ⟨heq.symm, h⟩
    · exact Or.inr (Or.inl hgt)

instance : IsTrans (String × ℤ) zle where
  trans a b c := by
    rintro (hab | ⟨hab, hle⟩) (hbc | ⟨hbc, hle'⟩)
    · exact Or.inl (hab.trans hbc)
    · exact Or.inl (hab.trans_eq hbc)
    · exact Or.inl (hab.trans_lt hbc)
    · exact Or.inr ⟨hab.trans hbc, String.le_trans hle hle'⟩

theorem zle.score_le {a b : String × ℤ} (h : zle a b) : a.2 ≤ b.2 := by
  obtain hlt | ⟨heq, -⟩ := h
  · exact hlt.le
  · exact heq.le

/-- The first `limit` members with score at most `max`, in order. -/
def zrange (z : List (String × ℤ)) (max : ℤ) (limit : ℕ) : List String :=
  (((z.filter fun e => e.2 ≤ max).insertionSort zle).take limit).map Prod.fst

theorem zrange_subperm (z : List (String × ℤ)) (max : ℤ) (limit : ℕ) :
    (zrange z max limit).Subperm (z.map Prod.fst) := by
  have hsorted : (((z.filter fun e => e.2 ≤ max).insertionSort zle).take limit).Subperm z :=
    ((List.take_sublist _ _).subperm.trans (List.perm_insertionSort zle _).subperm).trans
      List.filter_sublist.subperm
  -- A sub-permutation is a permutation of a sublist, and both survive a map.
  obtain ⟨l, hperm, hsub⟩ := hsorted
  exact ⟨l.map Prod.fst, hperm.map _, hsub.map _⟩

/-- What `ZREMRANGEBYSCORE k -inf max` leaves. -/
def zremrange (z : List (String × ℤ)) (max : ℤ) : List (String × ℤ) := z.filter fun e => max < e.2

/-- The reply of `ZRANGE k 0 0 WITHSCORES`. -/
def zfirst (z : List (String × ℤ)) : Option (String × ℤ) := (z.insertionSort zle).head?

theorem mem_of_zfirst {z : List (String × ℤ)} {e : String × ℤ} (h : zfirst z = some e) : e ∈ z :=
  (List.perm_insertionSort zle z).mem_iff.mp (List.mem_of_head? h)

theorem zfirst_le {z : List (String × ℤ)} {e : String × ℤ} (h : zfirst z = some e) :
    ∀ x ∈ z, e.2 ≤ x.2 := by
  intro x hx
  obtain ⟨rest, hsort⟩ := List.head?_eq_some_iff.mp h
  have hsorted := List.pairwise_insertionSort zle z
  rw [hsort] at hsorted
  obtain rfl | hrest := List.mem_cons.mp (hsort ▸ (List.mem_insertionSort zle).mpr hx)
  · exact le_rfl
  · exact ((List.pairwise_cons.mp hsorted).1 x hrest).score_le

/-- `ZRANGEBYSCORE k -inf max LIMIT 0 limit`. -/
def zrangebyscore (k : κ) (max : ℤ) (limit : ℕ) : Script κ (List String) :=
  onZset k fun z => pure (zrange z max limit)

/-- `HGET k f`. -/
def hget (k : κ) (f : String) : Script κ (Option Scalar) := onHash k fun h => pure (h f)

/-- `HMGET k` and `HGETALL k`: the fields of a hash, by their names. -/
def hmget (k : κ) : Script κ (String → Option Scalar) := onHash k pure

variable [DecidableEq κ]

/-- `SET k v`, whatever stood there before. -/
def set (k : κ) (v : String) : Script κ Unit := writes (·.putStr k v)

/-- `SET k v NX`: whether the key was absent and is set now. -/
def setNX (k : κ) (v : String) : Script κ Bool := do
  let t ← type k
  if t = .none then do
    set k v
    pure true
  else pure false

/-- `DEL k`. -/
def del (k : κ) : Script κ Unit := writes (·.del k)

/-- `LPUSH k v`. -/
def lpush (k : κ) (v : String) : Script κ Unit :=
  onList k fun l => writes (·.putList k (v :: l))

/-- `RPOP k`. -/
def rpop (k : κ) : Script κ (Option String) :=
  onList k fun l =>
    match l.getLast? with
    | none => pure none
    | some v => do
      writes (·.putList k l.dropLast)
      pure (some v)

/-- `LREM k 1 v`: remove the first occurrence from the head. -/
def lrem (k : κ) (v : String) : Script κ ℕ :=
  onList k fun l =>
    if v ∈ l then do
      writes (·.putList k (l.erase v))
      pure 1
    else pure 0

/-- `LSET k i v`. -/
def lset (k : κ) (i : ℕ) (v : String) : Script κ Unit :=
  onList k fun l => writes (·.putList k (l.set i v))

/-- `LMOVE src dst RIGHT LEFT`. -/
def lmove (src dst : κ) : Script κ (Option String) :=
  onList src fun l =>
    match l.getLast? with
    | none => pure none
    | some v => onList dst fun _ => do
      writes (·.putList src l.dropLast)
      lpush dst v
      pure (some v)

/-- `SADD k v`: the number of members added. -/
def sadd (k : κ) (v : String) : Script κ ℕ :=
  onSet k fun s => do
    writes (·.putSet k (insert v s))
    pure (if v ∈ s then 0 else 1)

/-- `SREM k v`: the number of members removed. -/
def srem (k : κ) (v : String) : Script κ ℕ :=
  onSet k fun s => do
    writes (·.putSet k (s.erase v))
    pure (if v ∈ s then 1 else 0)

def zinsert (z : List (String × ℤ)) (v : String) (score : ℤ) : List (String × ℤ) :=
  (v, score) :: z.filter fun e => e.1 ≠ v

/-- `ZADD k score v`. -/
def zadd (k : κ) (score : ℤ) (v : String) : Script κ Unit :=
  onZset k fun z => writes (·.putZset k (zinsert z v score))

/-- `ZREM k v`. -/
def zrem (k : κ) (v : String) : Script κ Unit :=
  onZset k fun z => writes (·.putZset k (z.filter fun e => e.1 ≠ v))

/-- `HSET k f v`. -/
def hset (k : κ) (f : String) (v : Scalar) : Script κ Unit :=
  onHash k fun h => writes (·.putHash k (Function.update h f (some v)))

/-- `HSET k f₁ v₁ f₂ v₂ …`. -/
def hsetAll (k : κ) (fields : List (String × Scalar)) : Script κ Unit :=
  onHash k fun h =>
    writes (·.putHash k (fields.foldl (fun h e => Function.update h e.1 (some e.2)) h))

/-- `HINCRBY k f n`; an absent field counts as `0`, one that is no integer is an error. -/
def hincrby (k : κ) (f : String) (n : ℤ) : Script κ ℤ :=
  onHash k fun h =>
    match h f with
    | some (.text _) => fail (.reply "ERR hash value is not an integer")
    | some (.int m) => do
      writes (·.putHash k (Function.update h f (some (.int (m + n)))))
      pure (m + n)
    | none => do
      writes (·.putHash k (Function.update h f (some (.int n))))
      pure n

end Commands

/-! ### Commands on a key of the right type -/

section RunCommands

open Script

variable {κ : Type} {db : Db κ} {k : κ}

@[simp] theorem run_type_bind {α : Type} (f : KeyType → Script κ α) :
    (type k >>= f).run db = (f (Db.typeOf (db k))).run db := rfl

theorem run_get (h : db.HasType k .string) : (get k).run db = .ok (db.str k) db :=
  run_onString h

theorem hasType_of_run_get {α : Type} {f : Option String → Script κ α} {a : α} {db' : Db κ}
    (h : (get k >>= f).run db = .ok a db') : db.HasType k .string := by
  rw [run_bind] at h
  unfold get onString run at h
  unfold Db.HasType
  rcases hk : db k with _ | (_ | _ | _ | _ | _)
  · exact Or.inl rfl
  · exact Or.inr rfl
  all_goals simp only [hk, reduceCtorEq] at h

theorem run_lpos (h : db.HasType k .list) (v : String) :
    (lpos k v).run db =
      .ok (if v ∈ db.list k then some ((db.list k).idxOf v) else none) db :=
  run_onList h

theorem run_lrange (h : db.HasType k .list) : (lrange k).run db = .ok (db.list k) db :=
  run_onList h

theorem run_scard (h : db.HasType k .set) : (scard k).run db = .ok (db.members k).card db :=
  run_onSet h

theorem run_hget (h : db.HasType k .hash) (f : String) : (hget k f).run db = .ok (db.hash k f) db :=
  run_onHash h

theorem run_hmget (h : db.HasType k .hash) : (hmget k).run db = .ok (db.hash k) db :=
  run_onHash h

theorem run_zrangebyscore (h : db.HasType k .zset) (max : ℤ) (limit : ℕ) :
    (zrangebyscore k max limit).run db = .ok (zrange (db.zset k) max limit) db :=
  run_onZset h

variable [DecidableEq κ]

@[simp] theorem run_set (v : String) : (set k v).run db = .ok () (db.putStr k v) := rfl

theorem run_setNX (h : db k = none) (v : String) :
    (setNX k v).run db = .ok true (db.putStr k v) := by
  rw [setNX, run_type_bind, h]
  rfl

@[simp] theorem run_del : (del k).run db = .ok () (db.del k) := rfl

section

variable (h : db.HasType k .list)

include h

theorem run_lpush (v : String) : (lpush k v).run db = .ok () (db.putList k (v :: db.list k)) :=
  run_onList h

theorem run_rpop :
    (rpop k).run db =
      match (db.list k).getLast? with
      | none => .ok none db
      | some v => .ok (some v) (db.putList k (db.list k).dropLast) := by
  rw [rpop, run_onList h]
  cases (db.list k).getLast? <;> rfl

theorem run_lmove {k' : κ} (h' : db.HasType k' .list) (hne : k' ≠ k) :
    (lmove k k').run db =
      match (db.list k).getLast? with
      | none => .ok none db
      | some v => .ok (some v)
          ((db.putList k (db.list k).dropLast).putList k' (v :: db.list k')) := by
  rw [lmove, run_onList h]
  cases (db.list k).getLast? with
  | none => rfl
  | some v =>
    have hpopped : (db.putList k (db.list k).dropLast).HasType k' .list :=
      h'.write fun heq => absurd heq hne
    change (onList k' _).run db = _
    rw [run_onList h', run_writes_bind, run_bind_ok (run_lpush hpopped v), Db.list_write,
      if_neg hne]
    rfl

theorem run_lrem (v : String) :
    (lrem k v).run db =
      if v ∈ db.list k then .ok 1 (db.putList k ((db.list k).erase v)) else .ok 0 db := by
  rw [lrem, run_onList h]
  simp

theorem run_lset (i : ℕ) (v : String) :
    (lset k i v).run db = .ok () (db.putList k ((db.list k).set i v)) :=
  run_onList h

end

theorem run_sadd (h : db.HasType k .set) (v : String) :
    (sadd k v).run db =
      .ok (if v ∈ db.members k then 0 else 1) (db.putSet k (insert v (db.members k))) := by
  rw [sadd, run_onSet h]; rfl

theorem run_zadd (h : db.HasType k .zset) (score : ℤ) (v : String) :
    (zadd k score v).run db = .ok () (db.putZset k (zinsert (db.zset k) v score)) :=
  run_onZset h

theorem run_zrem (h : db.HasType k .zset) (v : String) :
    (zrem k v).run db = .ok () (db.putZset k ((db.zset k).filter fun e => e.1 ≠ v)) :=
  run_onZset h

theorem run_srem (h : db.HasType k .set) (v : String) :
    (srem k v).run db =
      .ok (if v ∈ db.members k then 1 else 0) (db.putSet k ((db.members k).erase v)) := by
  rw [srem, run_onSet h]; rfl

theorem run_hset (h : db.HasType k .hash) (f : String) (v : Scalar) :
    (hset k f v).run db = .ok () (db.putHash k (Function.update (db.hash k) f (some v))) :=
  run_onHash h

theorem run_hincrby (h : db.HasType k .hash) {f : String} {m : ℤ}
    (hf : db.hash k f = some (.int m)) (n : ℤ) :
    (hincrby k f n).run db =
      .ok (m + n) (db.putHash k (Function.update (db.hash k) f (some (.int (m + n))))) := by
  rw [hincrby, run_onHash h, hf]
  rfl

theorem run_hsetAll (h : db.HasType k .hash) (fields : List (String × Scalar)) :
    (hsetAll k fields).run db = .ok () (db.putHash k
      (fields.foldl (fun h e => Function.update h e.1 (some e.2)) (db.hash k))) :=
  run_onHash h

end RunCommands

/-! ### Calls over the network -/

/-- How the call of a command or script went for the caller. -/
inductive Call where
  | delivered
  /-- It took effect, but the caller sees an error. -/
  | lost
  /-- It did not take effect. -/
  | failed
  deriving DecidableEq, Repr

def Call.effect {σ : Type*} (before after : σ) : Call → σ
  | .delivered | .lost => after
  | .failed => before

end Redis
