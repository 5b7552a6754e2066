import Mathlib.Data.Finset.Card
import Mathlib.Data.List.Sort
import Mathlib.Logic.Function.Basic
import Mathlib.Tactic.Common

/-!
# A Redis keyspace

Keys, the values they hold, and the reads and writes the commands of
`Redis.Command` are made of.

A key is absent or holds one value of one of the five types. A list, set or
sorted set that becomes empty is removed with its key, as the server does
(`Db.putList`, `Db.putSet`, `Db.putZset`). Reading a key of another type gives
the empty content; whether a command may read it at all is decided in
`Redis.Command`.

Expiry is not modelled: a key lives until it is deleted or becomes empty.
-/

namespace Redis

/-- A hash field's value: a number in decimal, or a text. -/
inductive Scalar where
  | int (n : ℤ)
  | text (s : String)
  deriving DecidableEq, Repr

/-- The value stored at a key. -/
inductive Value where
  | string (s : String)
  /-- Head first: `LPUSH` adds at the front, `RPOP` takes the last. -/
  | list (l : List String)
  | set (s : Finset String)
  /-- Members with their scores, without duplicate members. -/
  | zset (z : List (String × ℤ))
  | hash (h : String → Option Scalar)

/-- The reply of `TYPE`. -/
inductive KeyType where
  | none | string | list | set | zset | hash
  deriving DecidableEq, Repr

/-- The name `TYPE` prints. -/
def KeyType.name : KeyType → String
  | .none => "none"
  | .string => "string"
  | .list => "list"
  | .set => "set"
  | .zset => "zset"
  | .hash => "hash"

/-- A keyspace over keys `κ`. -/
abbrev Db (κ : Type) := κ → Option Value

namespace Db

variable {κ : Type}

/-! ### Reading -/

/-- The type of a stored value, `none` for an absent key. -/
def typeOf : Option Value → KeyType
  | none => .none
  | some (.string _) => .string
  | some (.list _) => .list
  | some (.set _) => .set
  | some (.zset _) => .zset
  | some (.hash _) => .hash

def strOf : Option Value → Option String
  | some (.string s) => some s
  | _ => none

def listOf : Option Value → List String
  | some (.list l) => l
  | _ => []

def setOf : Option Value → Finset String
  | some (.set s) => s
  | _ => ∅

def zsetOf : Option Value → List (String × ℤ)
  | some (.zset z) => z
  | _ => []

def hashOf : Option Value → String → Option Scalar
  | some (.hash h) => h
  | _ => fun _ => none

def str (db : Db κ) (k : κ) : Option String := strOf (db k)

def list (db : Db κ) (k : κ) : List String := listOf (db k)

def members (db : Db κ) (k : κ) : Finset String := setOf (db k)

def zset (db : Db κ) (k : κ) : List (String × ℤ) := zsetOf (db k)

def hash (db : Db κ) (k : κ) : String → Option Scalar := hashOf (db k)

/-- Key `k` is absent or holds a value of type `t`. -/
def HasType (db : Db κ) (k : κ) (t : KeyType) : Prop :=
  typeOf (db k) = .none ∨ typeOf (db k) = t

theorem typeOf_eq_none {v : Option Value} (h : typeOf v = .none) : v = none := by
  rcases v with _ | (_ | _ | _ | _ | _) <;> first | rfl | cases h

theorem hasType_of_list_ne_nil {db : Db κ} {k : κ} (h : db.list k ≠ []) : db.HasType k .list := by
  unfold HasType
  unfold list at h
  rcases hv : db k with _ | (_ | _ | _ | _ | _) <;> rw [hv] at h <;>
    first | exact Or.inr rfl | exact absurd rfl h

theorem members_of_not_hasType {db : Db κ} {k : κ} (h : ¬ db.HasType k .set) :
    db.members k = ∅ := by
  unfold members
  unfold HasType at h
  rcases hv : db k with _ | (_ | _ | _ | _ | _) <;> rw [hv] at h <;>
    first | rfl | exact absurd (Or.inr rfl) h

/-! ### Writing -/

def ofList (l : List String) : Option Value := if l = [] then none else some (.list l)

def ofSet (s : Finset String) : Option Value := if s = ∅ then none else some (.set s)

def ofZset (z : List (String × ℤ)) : Option Value := if z = [] then none else some (.zset z)

@[simp] theorem listOf_ofList (l : List String) : listOf (ofList l) = l := by
  unfold ofList; split <;> simp_all [listOf]

@[simp] theorem setOf_ofSet (s : Finset String) : setOf (ofSet s) = s := by
  unfold ofSet; split <;> simp_all [setOf]

@[simp] theorem zsetOf_ofZset (z : List (String × ℤ)) : zsetOf (ofZset z) = z := by
  unfold ofZset; split <;> simp_all [zsetOf]

@[simp] theorem strOf_string (s : String) : strOf (some (.string s)) = some s := rfl

@[simp] theorem strOf_none : strOf none = none := rfl

@[simp] theorem hashOf_hash (h : String → Option Scalar) : hashOf (some (.hash h)) = h := rfl

@[simp] theorem listOf_none : listOf none = [] := rfl

theorem typeOf_ofList (l : List String) :
    typeOf (ofList l) = .none ∨ typeOf (ofList l) = .list := by
  unfold ofList; split <;> simp [typeOf]

theorem typeOf_ofSet (s : Finset String) : typeOf (ofSet s) = .none ∨ typeOf (ofSet s) = .set := by
  unfold ofSet; split <;> simp [typeOf]

theorem typeOf_ofZset (z : List (String × ℤ)) :
    typeOf (ofZset z) = .none ∨ typeOf (ofZset z) = .zset := by
  unfold ofZset; split <;> simp [typeOf]

section Write

variable [DecidableEq κ]

def write (db : Db κ) (k : κ) (v : Option Value) : Db κ := Function.update db k v

/-- Remove a key. -/
abbrev del (db : Db κ) (k : κ) : Db κ := db.write k none

/-- Store a string. -/
abbrev putStr (db : Db κ) (k : κ) (s : String) : Db κ := db.write k (some (.string s))

/-- Store a list. -/
abbrev putList (db : Db κ) (k : κ) (l : List String) : Db κ := db.write k (ofList l)

/-- Store a set. -/
abbrev putSet (db : Db κ) (k : κ) (s : Finset String) : Db κ := db.write k (ofSet s)

/-- Store a sorted set. -/
abbrev putZset (db : Db κ) (k : κ) (z : List (String × ℤ)) : Db κ := db.write k (ofZset z)

/-- Store a hash. -/
abbrev putHash (db : Db κ) (k : κ) (h : String → Option Scalar) : Db κ :=
  db.write k (some (.hash h))

/-! ### What a write leaves at each key -/

variable (db : Db κ) (k k' : κ) (v : Option Value)

theorem write_apply : db.write k v k' = if k' = k then v else db k' := by
  unfold write
  rw [Function.update_apply]

@[simp] theorem write_self : db.write k v k = v := by
  rw [write_apply, if_pos rfl]

@[simp] theorem write_write (v' : Option Value) : (db.write k v).write k v' = db.write k v' :=
  Function.update_idem _ _ _

@[simp] theorem str_write :
    (db.write k v).str k' = if k' = k then strOf v else db.str k' := by
  unfold str; rw [write_apply]; split <;> rfl

@[simp] theorem list_write :
    (db.write k v).list k' = if k' = k then listOf v else db.list k' := by
  unfold list; rw [write_apply]; split <;> rfl

@[simp] theorem members_write :
    (db.write k v).members k' = if k' = k then setOf v else db.members k' := by
  unfold members; rw [write_apply]; split <;> rfl

@[simp] theorem zset_write :
    (db.write k v).zset k' = if k' = k then zsetOf v else db.zset k' := by
  unfold zset; rw [write_apply]; split <;> rfl

theorem HasType.write {db : Db κ} {k k' : κ} {v : Option Value} {t : KeyType}
    (h : db.HasType k' t) (hv : k' = k → typeOf v = .none ∨ typeOf v = t) :
    (db.write k v).HasType k' t := by
  unfold HasType
  rw [write_apply]
  split
  · next hk => exact hv hk
  · exact h

end Write

end Db

end Redis
