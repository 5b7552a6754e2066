import Mathlib.Algebra.Group.Int.Defs
import Mathlib.Algebra.GroupWithZero.Nat
import Mathlib.Data.Int.Basic
import Mathlib.Order.Lattice
import Mathlib.Tactic.Common

/-!
# JSON documents

The tree a JSON text denotes, before any runtime reads it into its own data
types. A number is kept as it is written (`Number`): whether `1` and `1.0` are
the same, and whether `1e999` is a number at all, is up to the reader. An object
keeps its members in the order of the text, repeated names included: readers
disagree on what a repeated or differently capitalised name means, so that is
left to them as well.

`Json.depth` counts nested arrays and objects, which is what readers limit, and
`Json.isFinite` says that every number fits a double, which is what writers of
doubles need.
-/

namespace Json

/-- A JSON number as written: sign, integer part, digits of the fraction (none
when there is no decimal point) and exponent. -/
structure Number where
  neg : Bool
  int : ℕ
  frac : List (Fin 10)
  exp : Option ℤ
  deriving DecidableEq

namespace Number

def ofInt (n : ℤ) : Number := ⟨decide (n < 0), n.natAbs, [], none⟩

def toInt? (n : Number) : Option ℤ :=
  if n.frac = [] ∧ n.exp = none then some (if n.neg then -n.int else n.int) else none

@[simp] theorem toInt?_ofInt (n : ℤ) : (ofInt n).toInt? = some n := by
  have hsign : (if n < 0 then -(n.natAbs : ℤ) else (n.natAbs : ℤ)) = n := by split <;> omega
  simpa [toInt?, ofInt] using hsign

def mantissa (n : Number) : ℕ := n.frac.foldl (fun m (d : Fin 10) => m * 10 + d.val) n.int

def scale (n : Number) : ℤ := n.frac.length - n.exp.getD 0

/-- The number rounds to a finite double: its magnitude is below
`2 ^ 1024 - 2 ^ 970`, from where rounding goes to infinity. -/
def FitsDouble (n : Number) : Prop :=
  n.mantissa * 10 ^ (-n.scale).toNat < (2 ^ 1024 - 2 ^ 970) * 10 ^ n.scale.toNat

instance (n : Number) : Decidable n.FitsDouble := inferInstanceAs (Decidable (_ < _))

end Number

end Json

/-- A JSON document. -/
inductive Json where
  | null
  | bool (b : Bool)
  | num (n : Json.Number)
  | str (s : String)
  | arr (items : List Json)
  | obj (members : List (String × Json))

namespace Json

def int (n : ℤ) : Json := num (Number.ofInt n)

/-! ### Nesting depth and finite numbers -/

mutual

/-- How deep arrays and objects nest; a scalar has depth `0`. -/
def depth : Json → ℕ
  | arr items => depthItems items + 1
  | obj members => depthMembers members + 1
  | _ => 0

def depthItems : List Json → ℕ
  | [] => 0
  | t :: ts => max t.depth (depthItems ts)

def depthMembers : List (String × Json) → ℕ
  | [] => 0
  | m :: ms => max m.2.depth (depthMembers ms)

end

mutual

def isFinite : Json → Bool
  | num n => decide n.FitsDouble
  | arr items => isFiniteItems items
  | obj members => isFiniteMembers members
  | _ => true

def isFiniteItems : List Json → Bool
  | [] => true
  | t :: ts => t.isFinite && isFiniteItems ts

def isFiniteMembers : List (String × Json) → Bool
  | [] => true
  | m :: ms => m.2.isFinite && isFiniteMembers ms

end

@[simp] theorem depth_obj (ms : List (String × Json)) :
    (obj ms).depth = depthMembers ms + 1 := rfl

@[simp] theorem depth_str (s : String) : (str s).depth = 0 := rfl

@[simp] theorem depth_int (n : ℤ) : (int n).depth = 0 := rfl

@[simp] theorem depth_bool (b : Bool) : (bool b).depth = 0 := rfl

@[simp] theorem depth_null : null.depth = 0 := rfl

@[simp] theorem depthMembers_nil : depthMembers [] = 0 := rfl

@[simp] theorem depthMembers_cons (m : String × Json) (ms : List (String × Json)) :
    depthMembers (m :: ms) = max m.2.depth (depthMembers ms) := rfl

@[simp] theorem depthMembers_append (ms ns : List (String × Json)) :
    depthMembers (ms ++ ns) = max (depthMembers ms) (depthMembers ns) := by
  induction ms with
  | nil => simp
  | cons m ms ih => simp [ih, max_assoc]

theorem isFiniteMembers_iff (ms : List (String × Json)) :
    isFiniteMembers ms = true ↔ ∀ m ∈ ms, m.2.isFinite = true := by
  induction ms with
  | nil => simp [isFiniteMembers]
  | cons m ms ih => simp [isFiniteMembers, ih]

theorem isFiniteItems_iff (items : List Json) :
    isFiniteItems items = true ↔ ∀ t ∈ items, t.isFinite = true := by
  induction items with
  | nil => simp [isFiniteItems]
  | cons t ts ih => simp [isFiniteItems, ih]

@[simp] theorem isFinite_obj (ms : List (String × Json)) :
    (obj ms).isFinite = true ↔ ∀ m ∈ ms, m.2.isFinite = true := by
  rw [isFinite, isFiniteMembers_iff]

@[simp] theorem isFinite_arr (items : List Json) :
    (arr items).isFinite = true ↔ ∀ t ∈ items, t.isFinite = true := by
  rw [isFinite, isFiniteItems_iff]

/-- **Induction over the nesting of a document.** -/
theorem induct {motive : Json → Prop}
    (hscalar : ∀ t : Json, (∀ items, t ≠ .arr items) → (∀ ms, t ≠ .obj ms) → motive t)
    (harr : ∀ items : List Json, (∀ t ∈ items, motive t) → motive (.arr items))
    (hobj : ∀ ms : List (String × Json), (∀ m ∈ ms, motive m.2) → motive (.obj ms)) :
    ∀ t, motive t
  | .null => hscalar _ nofun nofun
  | .bool _ => hscalar _ nofun nofun
  | .num _ => hscalar _ nofun nofun
  | .str _ => hscalar _ nofun nofun
  | .arr items => harr items fun t ht =>
    have := List.sizeOf_lt_of_mem ht
    induct hscalar harr hobj t
  | .obj ms => hobj ms fun (name, t) hm =>
    have : sizeOf t < sizeOf ms := by
      have hsize := List.sizeOf_lt_of_mem hm
      rw [Prod.mk.sizeOf_spec] at hsize
      omega
    induct hscalar harr hobj t

/-! ### Members by name -/

def lookup (name : String) : List (String × Json) → Option Json
  | [] => none
  | m :: ms => (lookup name ms).or (if m.1 = name then some m.2 else none)

@[simp] theorem lookup_nil (name : String) : lookup name [] = none := rfl

theorem lookup_cons (name : String) (m : String × Json) (ms : List (String × Json)) :
    lookup name (m :: ms) = (lookup name ms).or (if m.1 = name then some m.2 else none) := rfl

theorem lookup_append (name : String) (ms ns : List (String × Json)) :
    lookup name (ms ++ ns) = (lookup name ns).or (lookup name ms) := by
  induction ms with
  | nil => simp
  | cons m ms ih => rw [List.cons_append, lookup_cons, ih, lookup_cons, Option.or_assoc]

theorem lookup_eq_none {name : String} {ms : List (String × Json)}
    (h : ∀ m ∈ ms, m.1 ≠ name) : lookup name ms = none := by
  induction ms with
  | nil => rfl
  | cons m ms ih =>
    rw [lookup_cons, ih fun x hx => h x (List.mem_cons_of_mem _ hx),
      if_neg (h m List.mem_cons_self)]
    rfl

def without (name : String) (ms : List (String × Json)) : List (String × Json) :=
  ms.filter fun m => m.1 ≠ name

@[simp] theorem lookup_without (name : String) (ms : List (String × Json)) :
    lookup name (without name ms) = none :=
  lookup_eq_none fun m hm => by simpa [without] using (List.mem_filter.mp hm).2

end Json
