import Mathlib.Data.Set.Insert
import Mathlib.Order.Defs.Unbundled
import Senna.Redis.Command

/-!
# Checked scripts

A script is not rolled back, so a script that meets a key of the wrong type halfway leaves half of
its writes. The scripts of a careful author first look at the type of every key they are going to
write, and answer with an error reply if one is wrong (`expect`). Here are the rules to show of
such a script that **an error about a type leaves the keyspace as it was** (`Script.Intact`).

The rules follow the text of a script. Its first part only reads and looks at types
(`Script.Checks`), and with every check the set of keys that are known to fit grows. The second
part writes, to keys of that set only, so no command of it can meet a wrong type (`Script.Safe`).
The type a key should have is given by `kind`. What counts as unchanged is a preorder `R`: equality,
or something wider for scripts that repair what they find before they go on.
-/

namespace Redis

open Script

section Expect

variable {κ : Type}

def typeMessage (what : String) (found wanted : KeyType) : String :=
  what ++ " key has type " ++ found.name ++ ", want " ++ wanted.name

def expect (what : String) (k : κ) (t : KeyType) : Script κ Unit := do
  let found ← type k
  if found = .none ∨ found = t then pure () else fail (.reply (typeMessage what found t))

theorem run_expect_bind {α : Type} {db : Db κ} {k : κ} {t : KeyType} (h : db.HasType k t)
    (what : String) (f : Unit → Script κ α) :
    (expect what k t >>= f).run db = (f ()).run db := by
  have hif : Db.typeOf (db k) = .none ∨ Db.typeOf (db k) = t := h
  rw [expect, bind_bind, run_type_bind, if_pos hif]
  rfl

theorem run_expect_bind_error {α : Type} {db : Db κ} {k : κ} {t : KeyType} (h : ¬ db.HasType k t)
    (what : String) (f : Unit → Script κ α) :
    (expect what k t >>= f).run db =
      .error (.reply (typeMessage what (Db.typeOf (db k)) t)) db := by
  have hif : ¬ (Db.typeOf (db k) = .none ∨ Db.typeOf (db k) = t) := h
  rw [expect, bind_bind, run_type_bind, if_neg hif]
  rfl

end Expect

/-- The error is about the type of a key: a command failed on it, or a check of the script. -/
def Error.IsType : Error → Prop
  | .wrongType => True
  | .reply message => ∃ what found wanted, message = typeMessage what found wanted
  | .raised _ => False

theorem Error.not_isType_notInteger :
    ¬ (Error.reply "ERR hash value is not an integer").IsType := by
  rintro ⟨what, found, wanted, heq⟩
  -- the last letter of a message is that of the name of a type
  rw [typeMessage] at heq
  generalize what ++ " key has type " ++ found.name ++ ", want " = start at heq
  have hlast := congrArg (fun s : String => s.toList.getLast?) heq
  cases wanted <;> simp [KeyType.name] at hlast

/-- How a script may end: what holds after it succeeds, and what after an error. -/
def Outcome.Ends {κ α : Type} (P : α → Db κ → Prop) (E : Error → Db κ → Prop) :
    Outcome κ α → Prop
  | .ok a db => P a db
  | .error e db => E e db

theorem Outcome.Ends.imp {κ α : Type} {P P' : α → Db κ → Prop} {E E' : Error → Db κ → Prop}
    {out : Outcome κ α} (h : out.Ends P E) (hP : ∀ a db, P a db → P' a db)
    (hE : ∀ e db, E e db → E' e db) : out.Ends P' E' := by
  cases out with
  | ok a db => exact hP a db h
  | error e db => exact hE e db h

namespace Script

variable {κ α β : Type}

variable {x : Script κ α}

variable {f : α → Script κ β}

theorem ends_bind {db : Db κ} {P : β → Db κ → Prop}
    {E : Error → Db κ → Prop}
    (h : (x.run db).Ends (fun a db' => ((f a).run db').Ends P E) E) :
    ((x >>= f).run db).Ends P E := by
  rw [run_bind]
  generalize x.run db = out at h ⊢
  cases out with
  | ok a db' => exact h
  | error e db' => exact h

variable (kind : κ → KeyType) (R : Db κ → Db κ → Prop) (S : Set κ)

def Fits (db : Db κ) : Prop := ∀ k ∈ S, db.HasType k (kind k)

/-- Where these keys fit, the script does not meet a wrong type, and leaves them fitting. -/
def Safe (x : Script κ α) : Prop :=
  ∀ db, Fits kind S db → (x.run db).Ends (fun _ db' => Fits kind S db') fun e _ => ¬ e.IsType

/-- The script changes nothing that counts, and if it goes on, the keys of another set fit. -/
def Checks (x : Script κ α) (S' : α → Set κ) : Prop :=
  ∀ db, Fits kind S db →
    (x.run db).Ends (fun a db' => R db db' ∧ Fits kind (S' a) db') fun e db' => e.IsType → R db db'

def Intact (x : Script κ α) : Prop :=
  ∀ db, Fits kind S db → (x.run db).Ends (fun _ _ => True) fun e db' => e.IsType → R db db'

variable {kind R S}

theorem Fits.mono {S' : Set κ} {db : Db κ} (h : Fits kind S' db) (hsub : S ⊆ S') :
    Fits kind S db := fun k hk => h k (hsub hk)

theorem fits_empty (db : Db κ) : Fits kind ∅ db := fun _ => False.elim

/-! ### Checking -/

namespace Checks

variable {S' : α → Set κ}

theorem bind [IsTrans _ R] {S'' : β → Set κ} (hx : Checks kind R S x S')
    (hf : ∀ a, Checks kind R (S' a) (f a) S'') : Checks kind R S (x >>= f) S'' := by
  intro db hdb
  refine ends_bind ((hx db hdb).imp (fun a db' h => ?_) fun _ _ => id)
  obtain ⟨hsame, hfits⟩ := h
  exact (hf a db' hfits).imp (fun _ _ h => ⟨IsTrans.trans _ _ _ hsame h.1, h.2⟩)
    fun _ _ h he => IsTrans.trans _ _ _ hsame (h he)

theorem ite {c : Prop} [Decidable c] {y : Script κ α} (hx : Checks kind R S x S')
    (hy : Checks kind R S y S') :
    Checks kind R S (if c then x else y) S' := by
  split
  · exact hx
  · exact hy

theorem mono {S₁ S₂ : α → Set κ} (h : Checks kind R S x S₁)
    (hsub : ∀ a, S₂ a ⊆ S₁ a) : Checks kind R S x S₂ :=
  fun db hdb => (h db hdb).imp (fun a _ h => ⟨h.1, h.2.mono (hsub a)⟩) fun _ _ => id

variable [Std.Refl R]

theorem pure (a : α) : Checks kind R S (Pure.pure a) fun _ => S :=
  fun db h => ⟨Std.Refl.refl db, h⟩

theorem pure_of {a : α} (h : S' a ⊆ S) : Checks kind R S (Pure.pure a) S' :=
  fun db hdb => ⟨Std.Refl.refl db, hdb.mono h⟩

theorem fail (e : Error) (S' : α → Set κ) : Checks kind R S (Script.fail e) S' :=
  fun db _ _ => Std.Refl.refl db

theorem reads (f : Db κ → α) : Checks kind R S (Script.reads f) fun _ => S :=
  fun db h => ⟨Std.Refl.refl db, h⟩

theorem expect (what : String) (k : κ) :
    Checks kind R S (Redis.expect what k (kind k)) fun _ => insert k S := by
  intro db hdb
  rw [Redis.expect, run_type_bind, run_ite]
  split
  · next hfits =>
    refine ⟨Std.Refl.refl db, fun k' hk' => ?_⟩
    rcases Set.mem_insert_iff.mp hk' with rfl | hold
    · exact hfits
    · exact hdb k' hold
  · exact fun _ => Std.Refl.refl db

/-! Readers stop where they are. -/

theorem onString {k : κ} {f : Option String → Script κ α} (hf : ∀ s, Checks kind R S (f s) S') :
    Checks kind R S (Script.onString k f) S' := by
  intro db hdb
  unfold Script.onString Script.run
  dsimp only
  split
  · exact hf none db hdb
  · next s _ => exact hf (some s) db hdb
  · exact fun _ => Std.Refl.refl db

theorem onList {k : κ} {f : List String → Script κ α} (hf : ∀ l, Checks kind R S (f l) S') :
    Checks kind R S (Script.onList k f) S' := by
  intro db hdb
  unfold Script.onList Script.run
  dsimp only
  split
  · exact hf [] db hdb
  · next l _ => exact hf l db hdb
  · exact fun _ => Std.Refl.refl db

theorem onSet {k : κ} {f : Finset String → Script κ α} (hf : ∀ s, Checks kind R S (f s) S') :
    Checks kind R S (Script.onSet k f) S' := by
  intro db hdb
  unfold Script.onSet Script.run
  dsimp only
  split
  · exact hf ∅ db hdb
  · next s _ => exact hf s db hdb
  · exact fun _ => Std.Refl.refl db

theorem onZset {k : κ} {f : List (String × ℤ) → Script κ α} (hf : ∀ z, Checks kind R S (f z) S') :
    Checks kind R S (Script.onZset k f) S' := by
  intro db hdb
  unfold Script.onZset Script.run
  dsimp only
  split
  · exact hf [] db hdb
  · next z _ => exact hf z db hdb
  · exact fun _ => Std.Refl.refl db

theorem onHash {k : κ} {f : (String → Option Scalar) → Script κ α}
    (hf : ∀ h, Checks kind R S (f h) S') : Checks kind R S (Script.onHash k f) S' := by
  intro db hdb
  unfold Script.onHash Script.run
  dsimp only
  split
  · exact hf _ db hdb
  · next h _ => exact hf h db hdb
  · exact fun _ => Std.Refl.refl db

theorem type (k : κ) : Checks kind R S (Redis.type k) fun _ => S := reads _

theorem get (k : κ) : Checks kind R S (Redis.get k) fun _ => S := onString pure

theorem lpos (k : κ) (v : String) : Checks kind R S (Redis.lpos k v) fun _ => S :=
  onList fun _ => pure _

theorem lrange (k : κ) : Checks kind R S (Redis.lrange k) fun _ => S := onList pure

theorem sismember (k : κ) (v : String) : Checks kind R S (Redis.sismember k v) fun _ => S :=
  onSet fun _ => pure _

theorem scard (k : κ) : Checks kind R S (Redis.scard k) fun _ => S := onSet fun _ => pure _

theorem zrangebyscore (k : κ) (max : ℤ) (limit : ℕ) :
    Checks kind R S (Redis.zrangebyscore k max limit) fun _ => S := onZset fun _ => pure _

theorem hget (k : κ) (f : String) : Checks kind R S (Redis.hget k f) fun _ => S :=
  onHash fun _ => pure _

theorem hmget (k : κ) : Checks kind R S (Redis.hmget k) fun _ => S := onHash pure

end Checks

/-! ### Writing -/

namespace Safe

theorem pure (a : α) : Safe kind S (Pure.pure a) := fun _ h => h

theorem raised (message : String) : Safe kind S (Script.fail (.raised message) : Script κ α) :=
  fun _ _ => id

theorem bind (hx : Safe kind S x)
    (hf : ∀ a, Safe kind S (f a)) : Safe kind S (x >>= f) := fun db hdb =>
  ends_bind ((hx db hdb).imp (fun a db' h => hf a db' h) fun _ _ => id)

theorem ite {c : Prop} [Decidable c] {y : Script κ α} (hx : Safe kind S x) (hy : Safe kind S y) :
    Safe kind S (if c then x else y) := by
  split
  · exact hx
  · exact hy

theorem reads (f : Db κ → α) : Safe kind S (Script.reads f) := fun _ h => h

section Readers

variable {k : κ} (hk : k ∈ S)
include hk

theorem onString (hkind : kind k = .string) {f : Option String → Script κ α}
    (hf : ∀ s, Safe kind S (f s)) : Safe kind S (Script.onString k f) := by
  intro db hdb
  rw [run_onString (hkind ▸ hdb k hk)]
  exact hf _ db hdb

theorem onList (hkind : kind k = .list) {f : List String → Script κ α}
    (hf : ∀ l, Safe kind S (f l)) : Safe kind S (Script.onList k f) := by
  intro db hdb
  rw [run_onList (hkind ▸ hdb k hk)]
  exact hf _ db hdb

theorem onSet (hkind : kind k = .set) {f : Finset String → Script κ α}
    (hf : ∀ s, Safe kind S (f s)) : Safe kind S (Script.onSet k f) := by
  intro db hdb
  rw [run_onSet (hkind ▸ hdb k hk)]
  exact hf _ db hdb

theorem onZset (hkind : kind k = .zset) {f : List (String × ℤ) → Script κ α}
    (hf : ∀ z, Safe kind S (f z)) : Safe kind S (Script.onZset k f) := by
  intro db hdb
  rw [run_onZset (hkind ▸ hdb k hk)]
  exact hf _ db hdb

theorem onHash (hkind : kind k = .hash) {f : (String → Option Scalar) → Script κ α}
    (hf : ∀ h, Safe kind S (f h)) : Safe kind S (Script.onHash k f) := by
  intro db hdb
  rw [run_onHash (hkind ▸ hdb k hk)]
  exact hf _ db hdb

end Readers

theorem type (k : κ) : Safe kind S (Redis.type k) := reads _

theorem type_get {k : κ} {f : Option String → Script κ α} {y : Script κ α}
    (hf : ∀ s, Safe kind S (f s)) (hy : Safe kind S y) :
    Safe kind S (do
      let t ← Redis.type k
      if t = .string then (do let s ← Redis.get k; f s) else y) := by
  intro db hdb
  rw [run_type_bind, run_ite]
  split
  · next hstring =>
    rw [run_bind_ok (run_get (Or.inr hstring))]
    exact hf _ db hdb
  · exact hy db hdb

theorem lpos {k : κ} (hk : k ∈ S) (hkind : kind k = .list) (v : String) :
    Safe kind S (Redis.lpos k v) := onList hk hkind fun _ => pure _

theorem hget {k : κ} (hk : k ∈ S) (hkind : kind k = .hash) (f : String) :
    Safe kind S (Redis.hget k f) := onHash hk hkind fun _ => pure _

variable [DecidableEq κ] {k : κ}

theorem write {v : Option Value} (hv : Db.typeOf v = .none ∨ Db.typeOf v = kind k) :
    Safe kind S (Script.writes (·.write k v)) :=
  fun _ h k' hk' => (h k' hk').write fun heq => heq ▸ hv

theorem set (hkind : kind k = .string) (v : String) : Safe kind S (Redis.set k v) :=
  write (hkind ▸ Or.inr rfl)

theorem del (k : κ) : Safe kind S (Redis.del k) := write (Or.inl rfl)

theorem setNX (hkind : kind k = .string) (v : String) : Safe kind S (Redis.setNX k v) :=
  bind (type k) fun _ => ite (bind (set hkind v) fun _ => pure _) (pure _)

section Commands

variable (hk : k ∈ S)
include hk

theorem lpush (hkind : kind k = .list) (v : String) : Safe kind S (Redis.lpush k v) :=
  onList hk hkind fun _ => write (hkind ▸ Db.typeOf_ofList _)

theorem lset (hkind : kind k = .list) (i : ℕ) (v : String) : Safe kind S (Redis.lset k i v) :=
  onList hk hkind fun _ => write (hkind ▸ Db.typeOf_ofList _)

theorem lrem (hkind : kind k = .list) (v : String) : Safe kind S (Redis.lrem k v) :=
  onList hk hkind fun _ =>
    ite (bind (write (hkind ▸ Db.typeOf_ofList _)) fun _ => pure _) (pure _)

theorem rpop (hkind : kind k = .list) : Safe kind S (Redis.rpop k) := by
  refine onList hk hkind fun l => ?_
  split
  · exact pure _
  · exact bind (write (hkind ▸ Db.typeOf_ofList _)) fun _ => pure _

theorem lmove {k' : κ} (hk' : k' ∈ S) (hkind : kind k = .list) (hkind' : kind k' = .list) :
    Safe kind S (Redis.lmove k k') := by
  refine onList hk hkind fun l => ?_
  split
  · exact pure _
  · exact onList hk' hkind' fun _ => bind (write (hkind ▸ Db.typeOf_ofList _)) fun _ =>
      bind (lpush hk' hkind' _) fun _ => pure _

theorem sadd (hkind : kind k = .set) (v : String) : Safe kind S (Redis.sadd k v) :=
  onSet hk hkind fun _ => bind (write (hkind ▸ Db.typeOf_ofSet _)) fun _ => pure _

theorem srem (hkind : kind k = .set) (v : String) : Safe kind S (Redis.srem k v) :=
  onSet hk hkind fun _ => bind (write (hkind ▸ Db.typeOf_ofSet _)) fun _ => pure _

theorem zadd (hkind : kind k = .zset) (score : ℤ) (v : String) :
    Safe kind S (Redis.zadd k score v) :=
  onZset hk hkind fun _ => write (hkind ▸ Db.typeOf_ofZset _)

theorem zrem (hkind : kind k = .zset) (v : String) : Safe kind S (Redis.zrem k v) :=
  onZset hk hkind fun _ => write (hkind ▸ Db.typeOf_ofZset _)

theorem hset (hkind : kind k = .hash) (f : String) (v : Scalar) : Safe kind S (Redis.hset k f v) :=
  onHash hk hkind fun _ => write (hkind ▸ Or.inr rfl)

theorem hsetAll (hkind : kind k = .hash) (fields : List (String × Scalar)) :
    Safe kind S (Redis.hsetAll k fields) :=
  onHash hk hkind fun _ => write (hkind ▸ Or.inr rfl)

theorem hincrby (hkind : kind k = .hash) (f : String) (n : ℤ) :
    Safe kind S (Redis.hincrby k f n) := by
  refine onHash hk hkind fun h => ?_
  split
  · exact fun _ _ => Error.not_isType_notInteger
  · exact bind (write (hkind ▸ Or.inr rfl)) fun _ => pure _
  · exact bind (write (hkind ▸ Or.inr rfl)) fun _ => pure _

end Commands

end Safe

/-! ### Checking, then writing -/

namespace Intact

theorem of_safe (h : Safe kind S x) : Intact kind R S x :=
  fun db hdb => (h db hdb).imp (fun _ _ _ => trivial) fun _ _ hnot he => absurd he hnot

/-- **First the checks, then the rest.** -/
theorem bind [IsTrans _ R] {S' : α → Set κ}
    (hx : Checks kind R S x S') (hf : ∀ a, Intact kind R (S' a) (f a)) :
    Intact kind R S (x >>= f) := by
  intro db hdb
  refine ends_bind ((hx db hdb).imp (fun a db' h => ?_) fun _ _ => id)
  exact (hf a db' h.2).imp (fun _ _ _ => trivial) fun _ _ hf he => IsTrans.trans _ _ _ h.1 (hf he)

theorem ite {c : Prop} [Decidable c] {y : Script κ α} (hx : Intact kind R S x)
    (hy : Intact kind R S y) : Intact kind R S (if c then x else y) := by
  split
  · exact hx
  · exact hy

theorem discard {f : α → β} (h : Intact kind R S x) :
    Intact kind R S (x >>= fun a => Pure.pure (f a)) :=
  fun db hdb => ends_bind ((h db hdb).imp (fun _ _ _ => trivial) fun _ _ => id)

theorem unchanged (h : Intact kind R ∅ x) {db db' : Db κ} {e : Error}
    (hrun : x.run db = .error e db') (he : e.IsType) : R db db' := by
  have hx := h db (fits_empty db)
  rw [hrun] at hx
  exact hx he

end Intact

/-! ### Scripts that nothing but a type can stop -/

def OnlyTypes (x : Script κ α) : Prop :=
  ∀ db, (x.run db).Ends (fun _ _ => True) fun e _ => e.IsType

namespace OnlyTypes

theorem pure (a : α) : OnlyTypes (Pure.pure a : Script κ α) := fun _ => trivial

theorem bind (hx : OnlyTypes x)
    (hf : ∀ a, OnlyTypes (f a)) : OnlyTypes (x >>= f) :=
  fun db => ends_bind ((hx db).imp (fun a db' _ => hf a db') fun _ _ => id)

theorem expect (what : String) (k : κ) (t : KeyType) : OnlyTypes (Redis.expect what k t) := by
  intro db
  unfold Redis.expect
  rw [run_type_bind, run_ite]
  split
  · trivial
  · exact ⟨what, _, t, rfl⟩

variable [DecidableEq κ]

theorem lpush (k : κ) (v : String) : OnlyTypes (Redis.lpush k v) := by
  intro db
  by_cases h : db.HasType k .list
  · rw [run_lpush h]
    trivial
  · rw [Redis.lpush, run_onList_wrongType h]
    trivial

theorem sadd (k : κ) (v : String) : OnlyTypes (Redis.sadd k v) := by
  intro db
  by_cases h : db.HasType k .set
  · rw [run_sadd h]
    trivial
  · rw [Redis.sadd, run_onSet_wrongType h]
    trivial

theorem srem (k : κ) (v : String) : OnlyTypes (Redis.srem k v) := by
  intro db
  by_cases h : db.HasType k .set
  · rw [run_srem h]
    trivial
  · rw [Redis.srem, run_onSet_wrongType h]
    trivial

end OnlyTypes

end Script

end Redis
